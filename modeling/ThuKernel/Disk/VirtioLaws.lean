-- Runs of the driver and the device: whose the descriptors are, which chains
-- are on their way, and that each buffer comes back once its chain is done.
import ThuKernel.Disk.VirtioSpecs
import ThuKernel.Lib.Window
import Mathlib.Data.List.Perm.Subperm
import Mathlib.Logic.Relation

namespace ThuKernel.Virtio

variable {d d' : Disk} {phase phase' : Nat → Phase} {pend pend' : Nat → Prop} {r b head : Nat}
  {idx : Nat → Nat} {s s' : System} {A U : List Nat}

/-! ## Whose the descriptors are -/

/-- The descriptors that a requester holds. -/
def Phase.idx? : Phase → Option (Nat → Nat)
  | .idle | .starting .. => none
  | .formatting idx .. | .publishing idx _ | .waiting idx _ => some idx

/-- The request that they are. -/
def Phase.request? : Phase → Option ((Nat → Nat) × Nat)
  | .idle | .starting .. | .formatting .. => none
  | .publishing idx b | .waiting idx b => some (idx, b)

theorem Phase.idx?_of_request {p : Phase} (h : p.request? = some (idx, b)) : p.idx? = some idx := by
  cases p with
  | idle => cases h
  | starting => cases h
  | formatting => cases h
  | publishing => cases h; rfl
  | waiting => cases h; rfl

/-- The requester has handed its buffer over, and its chain is not done: the
heads in `pend` are on their way. -/
def Open (phase : Nat → Phase) (pend : Nat → Prop) (r b : Nat) : Prop :=
  ∃ idx, phase r = .publishing idx b ∨ (phase r = .waiting idx b ∧ pend (idx 0))

/-- Each requester has its own descriptors, which are not free, and each head on
its way is that of one that waits. The disk owns its buffer, which is no other's. -/
structure Owners (d : Disk) (phase : Nat → Phase) (pend : Nat → Prop) : Prop where
  held : ∀ r idx, (phase r).idx? = some idx → ∀ j < 3, idx j < NUM ∧ d.free (idx j) = false
  apart : ∀ r r' idx idx', (phase r).idx? = some idx → (phase r').idx? = some idx' →
    ∀ j < 3, ∀ j' < 3, idx j = idx' j' → r = r' ∧ j = j'
  chain : ∀ r idx b, (phase r).request? = some (idx, b) → Chain d idx b
  waits : ∀ h, pend h → ∃ r idx b, phase r = .waiting idx b ∧ idx 0 = h
  owned : ∀ r b, Open phase pend r b → (d.bufs b).disk = true
  unique : ∀ r r' b, Open phase pend r b → Open phase pend r' b → r = r'

namespace Owners

theorem three (h : Owners d phase pend) (hr : (phase r).idx? = some idx) : Three d idx :=
  ⟨fun j hj => (h.held r idx hr j hj).1, fun j hj => (h.held r idx hr j hj).2,
    fun j hj j' hj' hc => (h.apart r r idx idx hr hr j hj j' hj' hc).2⟩

/-- The descriptors of another requester are others. -/
theorem ne {r' : Nat} {idx' : Nat → Nat} (h : Owners d phase pend) (hr : (phase r).idx? = some idx)
    (hr' : (phase r').idx? = some idx') (hne : r' ≠ r) : ∀ j < 3, ∀ j' < 3, idx' j ≠ idx j' :=
  fun j hj j' hj' hc => hne (h.apart r' r idx' idx hr' hr j hj j' hj' hc).1

/-- A head on its way is that of the requester that waits with it. -/
theorem of_head (h : Owners d phase pend) (hr : (phase r).idx? = some idx) (hpend : pend (idx 0)) :
    ∃ idx' b, phase r = .waiting idx' b := by
  obtain ⟨r', idx', b, hwait, hhead⟩ := h.waits _ hpend
  have hr' : (phase r').idx? = some idx' := by rw [hwait]; rfl
  obtain ⟨rfl, _⟩ := h.apart r' r idx' idx hr' hr 0 (by decide) 0 (by decide) hhead
  exact ⟨idx', b, hwait⟩

theorem congr (h : Owners d phase pend) (hpend : ∀ x, pend' x ↔ pend x) : Owners d phase pend' := by
  have heq : pend' = pend := funext fun x => propext (hpend x)
  rw [heq]
  exact h

/-- Only descriptors that nobody holds change. -/
theorem spare (h : Owners d phase pend) (hs : Spare d d') : Owners d' phase pend := by
  have hrest := hs.rest
  have hbufs : d'.bufs = d.bufs := by rw [hrest]
  have hinfo : d'.info = d.info := by rw [hrest]
  refine ⟨fun r idx hr j hj => ?_, h.apart, fun r idx b hr => ?_, h.waits,
    fun r b ho => ?_, h.unique⟩
  · obtain ⟨hlt, hf⟩ := h.held r idx hr j hj
    exact ⟨hlt, hs.free _ hf⟩
  · refine (h.chain r idx b hr).congr (fun j hj => ?_) (by rw [hinfo])
    exact hs.desc _ (h.held r idx (Phase.idx?_of_request hr) j hj).2
  · rw [hbufs]
    exact h.owned r b ho

/-- The disk stays the same where it matters. -/
theorem frame (h : Owners d phase pend) (hdesc : d'.desc = d.desc) (hfree : d'.free = d.free)
    (hinfo : ∀ i, (d'.info i).b = (d.info i).b) (hbufs : ∀ b, (d'.bufs b).disk = (d.bufs b).disk) :
    Owners d' phase pend := by
  refine ⟨fun r idx hr => ?_, h.apart, fun r idx b hr => ?_, h.waits, fun r b ho => ?_, h.unique⟩
  · rw [hfree]
    exact h.held r idx hr
  · exact (h.chain r idx b hr).congr (fun j _ => by rw [hdesc]) (hinfo _)
  · rw [hbufs]
    exact h.owned r b ho

end Owners

/-! ## A requester goes on -/

variable {p : Phase}

theorem idx?_update (hp : ∀ idx, p.idx? = some idx → (phase r).idx? = some idx) (r' : Nat)
    (idx : Nat → Nat) (h : (Function.update phase r p r').idx? = some idx) : (phase r').idx? =
    some idx := by
  by_cases hr : r' = r
  · rw [hr, Function.update_self] at h
    rw [hr]
    exact hp idx h
  · rwa [Function.update_of_ne hr] at h

theorem request?_update {r' : Nat} (h : (Function.update phase r p r').request? = some (idx, b)) :
    (r' = r ∧ p.request? = some (idx, b)) ∨ (r' ≠ r ∧ (phase r').request? = some (idx, b)) := by
  by_cases hr : r' = r
  · rw [hr, Function.update_self] at h
    exact Or.inl ⟨hr, h⟩
  · rw [Function.update_of_ne hr] at h
    exact Or.inr ⟨hr, h⟩

theorem open_update {r' : Nat} (h : Open (Function.update phase r p) pend r' b) :
    (r' = r ∧ p.request? ≠ none ∧ Open (Function.update phase r p) pend r b) ∨
    (r' ≠ r ∧ Open phase pend r' b) := by
  by_cases hr : r' = r
  · rw [hr] at h
    refine Or.inl ⟨hr, ?_, h⟩
    obtain ⟨idx, hcase⟩ := h
    rw [Function.update_self] at hcase
    rcases hcase with rfl | ⟨rfl, _⟩
    · exact Option.some_ne_none _
    · exact Option.some_ne_none _
  · obtain ⟨idx, hcase⟩ := h
    rw [Function.update_of_ne hr] at hcase
    exact Or.inr ⟨hr, idx, hcase⟩

namespace Owners

/-- A requester that has nothing on its way has no request any more, or not yet. -/
theorem quiet (h : Owners d phase pend) (hp : ∀ idx, p.idx? = some idx → (phase r).idx? = some idx)
    (hnone : p.request? = none) (hdone : ∀ idx b, phase r = .waiting idx b → ¬ pend (idx 0)) :
    Owners d (Function.update phase r p) pend := by
  have hidx := idx?_update hp
  have hopen : ∀ {r' b}, Open (Function.update phase r p) pend r' b → Open phase pend r' b := by
    intro r' b ho
    rcases open_update ho with ⟨_, hsome, _⟩ | ⟨_, ho⟩
    · exact absurd hnone hsome
    · exact ho
  refine ⟨fun r' idx hr => h.held r' idx (hidx r' idx hr), fun r₁ r₂ idx₁ idx₂ h₁ h₂ =>
    h.apart r₁ r₂ idx₁ idx₂ (hidx r₁ idx₁ h₁) (hidx r₂ idx₂ h₂), fun r' idx b hr => ?_,
      fun x hx => ?_,
    fun r' b ho => h.owned r' b (hopen ho),
    fun r₁ r₂ b h₁ h₂ => h.unique r₁ r₂ b (hopen h₁) (hopen h₂)⟩
  · rcases request?_update hr with ⟨_, hc⟩ | ⟨_, hr⟩
    · rw [hnone] at hc
      cases hc
    · exact h.chain r' idx b hr
  · obtain ⟨r', idx, b, hwait, hhead⟩ := h.waits x hx
    refine ⟨r', idx, b, ?_, hhead⟩
    have hne : r' ≠ r := by
      rintro rfl
      rw [← hhead] at hx
      exact hdone idx b hwait hx
    rwa [Function.update_of_ne hne]

/-- A requester takes three descriptors. -/
theorem alloc (h : Owners d phase pend) (htaken : Taken d d' 3 idx) (hr : (phase r).idx? = none)
    (hp : p.idx? = some idx) (hnone : p.request? = none) : Owners d' (Function.update phase r p)
    pend := by
  have hs := h.spare htaken.spare
  -- The others hold descriptors that were not free.
  have hother : ∀ r' idx', (phase r').idx? = some idx' → ∀ j < 3, ∀ j' < 3, idx' j' ≠ idx j := by
    intro r' idx' hr' j hj j' hj' hc
    have hheld := (h.held r' idx' hr' j' hj').2
    rw [hc, htaken.were j hj] at hheld
    cases hheld
  have hcases : ∀ r' idx', (Function.update phase r p r').idx? = some idx' →
      (r' = r ∧ idx' = idx) ∨ (phase r').idx? = some idx' := by
    intro r' idx' hr'
    by_cases hrr : r' = r
    · rw [hrr, Function.update_self, hp] at hr'
      exact Or.inl ⟨hrr, (Option.some.inj hr').symm⟩
    · rw [Function.update_of_ne hrr] at hr'
      exact Or.inr hr'
  have hopen : ∀ {r' b}, Open (Function.update phase r p) pend r' b → Open phase pend r' b := by
    intro r' b ho
    rcases open_update ho with ⟨_, hsome, _⟩ | ⟨_, ho⟩
    · exact absurd hnone hsome
    · exact ho
  refine ⟨fun r' idx' hr' j hj => ?_, fun r₁ r₂ idx₁ idx₂ h₁ h₂ j hj j' hj' hc => ?_,
    fun r' idx' b hr' => ?_,
    fun x hx => ?_, fun r' b ho => hs.owned r' b (hopen ho),
    fun r₁ r₂ b h₁ h₂ => hs.unique r₁ r₂ b (hopen h₁) (hopen h₂)⟩
  · rcases hcases r' idx' hr' with ⟨_, rfl⟩ | hr'
    · exact ⟨htaken.below j hj, htaken.held hj⟩
    · exact hs.held r' idx' hr' j hj
  · rcases hcases r₁ idx₁ h₁ with ⟨hr₁, hidx₁⟩ | hr₁
    · rw [hidx₁] at hc
      rcases hcases r₂ idx₂ h₂ with ⟨hr₂, hidx₂⟩ | hr₂
      · rw [hidx₂] at hc
        exact ⟨hr₁.trans hr₂.symm, htaken.apart j hj j' hj' hc⟩
      · exact absurd hc.symm (hother r₂ idx₂ hr₂ j hj j' hj')
    · rcases hcases r₂ idx₂ h₂ with ⟨_, hidx₂⟩ | hr₂
      · rw [hidx₂] at hc
        exact absurd hc (hother r₁ idx₁ hr₁ j' hj' j hj)
      · exact hs.apart r₁ r₂ idx₁ idx₂ hr₁ hr₂ j hj j' hj' hc
  · rcases request?_update hr' with ⟨_, hc⟩ | ⟨_, hr'⟩
    · rw [hnone] at hc
      cases hc
    · exact hs.chain r' idx' b hr'
  · obtain ⟨r', idx', b, hwait, hhead⟩ := h.waits x hx
    refine ⟨r', idx', b, ?_, hhead⟩
    have hne : r' ≠ r := by
      rintro rfl
      rw [hwait] at hr
      cases hr
    rwa [Function.update_of_ne hne]

/-- A requester formats its descriptors, for a buffer that the disk does not own. -/
theorem format (h : Owners d phase pend) (hform : Formatted d d' idx b)
    (hr : (phase r).idx? = some idx) (hnone : (phase r).request? = none)
    (hfree : (d.bufs b).disk = false) :
    Owners d' (Function.update phase r (.publishing idx b)) pend := by
  have hidx : ∀ r' idx', (Function.update phase r (.publishing idx b) r').idx? = some idx' →
      (phase r').idx? = some idx' := idx?_update fun idx' hc => by
    rw [hr]
    exact hc
  have hbufs : ∀ b', (d'.bufs b').disk = true ↔ b' = b ∨ (d.bufs b').disk = true := by
    intro b'
    rw [hform.bufs]
    by_cases hb : b' = b
    · rw [hb, Function.update_self]
      exact ⟨fun _ => Or.inl rfl, fun _ => rfl⟩
    · rw [Function.update_of_ne hb]
      exact ⟨Or.inr, fun hc => hc.resolve_left hb⟩
  have hself : ∀ {b'}, Open (Function.update phase r (.publishing idx b)) pend r b' → b' = b := by
    rintro b' ⟨idx', hcase⟩
    rw [Function.update_self] at hcase
    rcases hcase with hc | ⟨hc, _⟩
    · cases hc
      rfl
    · cases hc
  refine ⟨fun r' idx' hr' => ?_, fun r₁ r₂ idx₁ idx₂ h₁ h₂ =>
    h.apart r₁ r₂ idx₁ idx₂ (hidx r₁ idx₁ h₁) (hidx r₂ idx₂ h₂),
    fun r' idx' b' hr' => ?_, fun x hx => ?_, fun r' b' ho => ?_, fun r₁ r₂ b' h₁ h₂ => ?_⟩
  · rw [hform.rest.2.2.2]
    exact h.held r' idx' (hidx r' idx' hr')
  · rcases request?_update hr' with ⟨_, hc⟩ | ⟨hne, hr'⟩
    · cases hc
      exact hform.chain
    · have hother := h.ne hr (Phase.idx?_of_request hr') hne
      refine (h.chain r' idx' b' hr').congr (fun j hj => hform.desc _ (hother j hj)) ?_
      rw [hform.info _ (hother 0 (by decide) 0 (by decide))]
  · obtain ⟨r', idx', b', hwait, hhead⟩ := h.waits x hx
    refine ⟨r', idx', b', ?_, hhead⟩
    have hne : r' ≠ r := by
      rintro rfl
      rw [hwait] at hnone
      cases hnone
    rwa [Function.update_of_ne hne]
  · rw [hbufs]
    rcases open_update ho with ⟨_, _, ho⟩ | ⟨_, ho⟩
    · exact Or.inl (hself ho)
    · exact Or.inr (h.owned r' b' ho)
  · -- Another request for the buffer would own it.
    have hno : ∀ {r'}, ¬ Open phase pend r' b := by
      intro r' ho
      rw [h.owned r' b ho] at hfree
      cases hfree
    rcases open_update h₁ with ⟨hr₁, _, h₁⟩ | ⟨_, h₁⟩
    · rcases open_update h₂ with ⟨hr₂, _, _⟩ | ⟨_, h₂⟩
      · rw [hr₁, hr₂]
      · rw [hself h₁] at h₂
        exact absurd h₂ hno
    · rcases open_update h₂ with ⟨_, _, h₂⟩ | ⟨_, h₂⟩
      · rw [hself h₂] at h₁
        exact absurd h₁ hno
      · exact h.unique r₁ r₂ b' h₁ h₂

/-- The head of a request goes on its way. -/
theorem publish (h : Owners d phase pend) (hr : phase r = .publishing idx b) :
    Owners d (Function.update phase r (.waiting idx b)) (fun x => pend x ∨ x = idx 0) := by
  have hr? : (phase r).idx? = some idx := by rw [hr]; rfl
  have hidx : ∀ r' idx', (Function.update phase r (.waiting idx b) r').idx? = some idx' →
      (phase r').idx? = some idx' := idx?_update fun idx' hc => by
    rw [hr?]
    exact hc
  have hopen : ∀ {r' b'}, Open (Function.update phase r (.waiting idx b)) (fun x => pend x ∨
      x = idx 0) r' b' →
      Open phase pend r' b' := by
    intro r' b' ho
    rcases open_update ho with ⟨rfl, _, idx', hcase⟩ | ⟨hne, idx', hcase⟩
    · rw [Function.update_self] at hcase
      rcases hcase with hc | ⟨hc, _⟩
      · cases hc
      · cases hc
        exact ⟨idx, Or.inl hr⟩
    · rcases hcase with hc | ⟨hc, hpend | heq⟩
      · exact ⟨idx', Or.inl hc⟩
      · exact ⟨idx', Or.inr ⟨hc, hpend⟩⟩
      · have hr' : (phase r').idx? = some idx' := by rw [hc]; rfl
        exact absurd heq (h.ne hr? hr' hne 0 (by decide) 0 (by decide))
  refine ⟨fun r' idx' hr' => h.held r' idx' (hidx r' idx' hr'), fun r₁ r₂ idx₁ idx₂ h₁ h₂ =>
    h.apart r₁ r₂ idx₁ idx₂ (hidx r₁ idx₁ h₁) (hidx r₂ idx₂ h₂), fun r' idx' b' hr' => ?_,
      fun x hx => ?_,
    fun r' b' ho => h.owned r' b' (hopen ho), fun r₁ r₂ b' h₁ h₂ =>
    h.unique r₁ r₂ b' (hopen h₁) (hopen h₂)⟩
  · rcases request?_update hr' with ⟨_, hc⟩ | ⟨_, hr'⟩
    · cases hc
      exact h.chain r idx b (by rw [hr]; rfl)
    · exact h.chain r' idx' b' hr'
  · rcases hx with hx | rfl
    · obtain ⟨r', idx', b', hwait, hhead⟩ := h.waits x hx
      refine ⟨r', idx', b', ?_, hhead⟩
      have hne : r' ≠ r := by
        rintro rfl
        rw [hwait] at hr
        cases hr
      rwa [Function.update_of_ne hne]
    · exact ⟨r, idx, b, Function.update_self _ _ _, rfl⟩

/-- The disk is done with a buffer: its head is on its way no more. -/
theorem give (h : Owners d phase pend) (hr : phase r = .waiting idx b) (hpend : pend (idx 0))
    (hdesc : d'.desc = d.desc) (hfree : d'.free = d.free) (hinfo : d'.info = d.info)
    (hbufs : ∀ b' ≠ b, d'.bufs b' = d.bufs b') : Owners d' phase (fun x => pend x ∧ x ≠ idx 0) := by
  have hopen : ∀ {r' b'}, Open phase (fun x => pend x ∧ x ≠ idx 0) r' b' →
      r' ≠ r ∧ Open phase pend r' b' := by
    rintro r' b' ⟨idx', hcase⟩
    rcases hcase with hc | ⟨hc, hpend', hne⟩
    · refine ⟨?_, idx', Or.inl hc⟩
      rintro rfl
      cases hr.symm.trans hc
    · refine ⟨?_, idx', Or.inr ⟨hc, hpend'⟩⟩
      rintro rfl
      cases hr.symm.trans hc
      exact hne rfl
  refine ⟨fun r' idx' hr' => ?_, h.apart, fun r' idx' b' hr' => ?_, fun x hx => h.waits x hx.1,
    fun r' b' ho => ?_, fun r₁ r₂ b' h₁ h₂ => h.unique r₁ r₂ b' (hopen h₁).2 (hopen h₂).2⟩
  · rw [hfree]
    exact h.held r' idx' hr'
  · exact (h.chain r' idx' b' hr').congr (fun j _ => by rw [hdesc]) (by rw [hinfo])
  · obtain ⟨hne, ho⟩ := hopen ho
    have hb : b' ≠ b := by
      rintro rfl
      exact hne (h.unique r' r b' ho ⟨idx, Or.inr ⟨hr, hpend⟩⟩)
    rw [hbufs b' hb]
    exact h.owned r' b' ho

/-- A requester that is not waited for gives its descriptors back. -/
theorem finish (h : Owners d phase pend) (hfin : Finished d d' idx) (hr : phase r = .waiting idx b)
    (hdone : ¬ pend (idx 0)) : Owners d' (Function.update phase r .idle) pend := by
  have hr? : (phase r).idx? = some idx := by rw [hr]; rfl
  have hq : Owners d (Function.update phase r .idle) pend := by
    refine h.quiet (fun _ hc => ?_) rfl fun idx' b' hc => ?_
    · cases hc
    · cases hr.symm.trans hc
      exact hdone
  have hother : ∀ r' idx', (Function.update phase r .idle r').idx? = some idx' →
      ∀ j < 3, ∀ j' < 3, idx' j ≠ idx j' := by
    intro r' idx' hr' j hj j' hj'
    by_cases hrr : r' = r
    · rw [hrr, Function.update_self] at hr'
      cases hr'
    · rw [Function.update_of_ne hrr] at hr'
      exact h.ne hr? hr' hrr j hj j' hj'
  refine ⟨fun r' idx' hr' j hj => ?_, hq.apart, fun r' idx' b' hr' => ?_, hq.waits,
    fun r' b' ho => ?_, hq.unique⟩
  · rw [(hfin.others _ (hother r' idx' hr' j hj)).2]
    exact hq.held r' idx' hr' j hj
  · have hne := hother r' idx' (Phase.idx?_of_request hr')
    refine (hq.chain r' idx' b' hr').congr (fun j hj => (hfin.others _ (hne j hj)).1) ?_
    rw [hfin.info _ (hne 0 (by decide) 0 (by decide))]
  · rw [hfin.rest.2.2.2]
    exact hq.owned r' b' ho

/-- Heads on their way are numbers of descriptors. -/
theorem head_lt (h : Owners d phase pend) {x : Nat} (hx : pend x) : x < NUM := by
  obtain ⟨r, idx, b, hwait, rfl⟩ := h.waits x hx
  exact (h.held r idx (by rw [hwait]; rfl) 0 (by decide)).1

end Owners

/-! ## The rings -/

/-- Heads without repeats are at most as many as descriptors. -/
theorem length_le_NUM {l : List Nat} (hnodup : l.Nodup) (hlt : ∀ x ∈ l, x < NUM) :
    l.length ≤ NUM := by
  have hsub : l ⊆ List.range NUM := fun x hx => List.mem_range.mpr (hlt x hx)
  have hle := (List.subperm_of_subset hnodup hsub).length_le
  rwa [List.length_range] at hle

theorem NUM_dvd : NUM ∣ 2 ^ 16 := by decide

/-- What holds in every state: the heads in the avail ring are `A`, those in the
used ring `U`. A buffer was handed over once more than it was given back just
when the disk owns it. -/
structure Coherent (s : System) (A U : List Nat) : Prop where
  avail : Window NUM (2 ^ 16) s.disk.avail.ring s.seen s.disk.avail.idx A
  used : Window NUM (2 ^ 16) s.disk.used.ring s.disk.used_idx s.disk.used.idx U
  nodup : (A ++ (s.working ++ U)).Nodup
  owners : Owners s.disk s.phase (· ∈ A ++ (s.working ++ U))
  status : ∀ h ∈ U, (s.disk.info h).status = 0
  served : s.served = s.told ++ U.filterMap fun h => (s.disk.info h).b
  count : ∀ b, s.asked.count b = s.told.count b + (s.disk.bufs b).disk.toNat

namespace Coherent

theorem start (blockno : Nat → Nat) (ops : Nat → virtio_blk_req) :
    Coherent (Virtio.start blockno ops) [] [] := by
  refine ⟨.nil (Nat.two_pow_pos 16), .nil (Nat.two_pow_pos 16), List.nodup_nil,
    ⟨?_, ?_, ?_, ?_, ?_, ?_⟩, ?_, rfl, fun b => rfl⟩
  · exact fun r idx hc => by cases hc
  · exact fun r r' idx idx' hc => by cases hc
  · exact fun r idx b hc => by cases hc
  · exact fun x hx => by cases hx
  · rintro r b ⟨idx, hc | ⟨hc, _⟩⟩
    · cases hc
    · cases hc
  · rintro r r' b ⟨idx, hc | ⟨hc, _⟩⟩
    · cases hc
    · cases hc
  · exact fun x hx => by cases hx

/-- Steps that touch no ring. -/
theorem keep (h : Coherent s A U) (howners : Owners s'.disk s'.phase (· ∈ A ++ (s.working ++ U)))
    (hrings : s'.disk.avail = s.disk.avail ∧ s'.disk.used = s.disk.used ∧
    s'.disk.used_idx = s.disk.used_idx)
    (hinfo : ∀ x ∈ U, s'.disk.info x = s.disk.info x)
    (hdevice : s'.seen = s.seen ∧ s'.working = s.working)
    (hlog : s'.served = s.served ∧ s'.told = s.told)
    (hcount : ∀ b, s'.asked.count b = s'.told.count b + (s'.disk.bufs b).disk.toNat) :
    Coherent s' A U := by
  obtain ⟨havail, hused, hidx⟩ := hrings
  obtain ⟨hseen, hworking⟩ := hdevice
  obtain ⟨hserved, htold⟩ := hlog
  refine ⟨?_, ?_, ?_, ?_, fun x hx => ?_, ?_, hcount⟩
  · rw [havail, hseen]
    exact h.avail
  · rw [hused, hidx]
    exact h.used
  · rw [hworking]
    exact h.nodup
  · rw [hworking]
    exact howners
  · rw [hinfo x hx]
    exact h.status x hx
  · rw [hserved, htold, h.served]
    congr 1
    exact List.filterMap_congr fun x hx => by rw [hinfo x hx]

/-- The heads of the used ring are not those of a requester that formats. -/
theorem ne_head (h : Coherent s A U) (hr : (s.phase r).idx? = some idx)
    (hnone : (s.phase r).request? = none) :
    idx 0 ∉ A ++ (s.working ++ U) := by
  intro hmem
  obtain ⟨idx', b, hwait⟩ := h.owners.of_head hr hmem
  rw [hwait] at hnone
  cases hnone

theorem call (h : Coherent s A U) (b blockno : Nat) (write : Bool) (hr : s.phase r = .idle) :
    Coherent { s with
      disk := { s.disk with bufs := Function.update s.disk.bufs b { s.disk.bufs b with blockno } }
      phase := Function.update s.phase r (.starting b write) } A U := by
  have hdisk : ∀ b', (Function.update s.disk.bufs b { s.disk.bufs b with blockno } b').disk =
      (s.disk.bufs b').disk := by
    intro b'
    by_cases hb : b' = b
    · rw [hb, Function.update_self]
    · rw [Function.update_of_ne hb]
  have hframe :
    Owners { s.disk with bufs := Function.update s.disk.bufs b { s.disk.bufs b with blockno } }
    s.phase _ :=
    h.owners.frame rfl rfl (fun _ => rfl) hdisk
  refine h.keep (hframe.quiet (fun _ hc => ?_) rfl fun _ _ hc => ?_) ⟨rfl, rfl, rfl⟩ (fun _ _ =>
    rfl) ⟨rfl, rfl⟩
    ⟨rfl, rfl⟩ fun b' => ?_
  · cases hc
  · cases hr.symm.trans hc
  · dsimp only
    rw [hdisk]
    exact h.count b'

theorem alloc (h : Coherent s A U) (write : Bool) (hr : s.phase r = .starting b write)
    (htaken : Taken s.disk d' 3 idx) :
    Coherent { s with disk := d', phase := Function.update s.phase r (.formatting idx b write) }
    A U := by
  have hrest := htaken.spare.rest
  refine h.keep (h.owners.alloc htaken (by rw [hr]; rfl) rfl rfl) ?_ (fun _ _ => ?_) ⟨rfl,
    rfl⟩ ⟨rfl, rfl⟩ fun b' => ?_
  · rw [hrest]
    exact ⟨rfl, rfl, rfl⟩
  · rw [hrest]
  · rw [hrest]
    exact h.count b'

theorem retry (h : Coherent s A U) (hspare : Spare s.disk d') :
    Coherent { s with disk := d' } A U := by
  have hrest := hspare.rest
  refine h.keep (h.owners.spare hspare) ?_ (fun _ _ => ?_) ⟨rfl, rfl⟩ ⟨rfl, rfl⟩ fun b' => ?_
  · rw [hrest]
    exact ⟨rfl, rfl, rfl⟩
  · rw [hrest]
  · rw [hrest]
    exact h.count b'

/-- The disk owns one buffer more. -/
theorem format (h : Coherent s A U) (write : Bool) (hr : s.phase r = .formatting idx b write)
    (hform : Formatted s.disk d' idx b) (hfree : (s.disk.bufs b).disk = false) :
    Coherent
    { s with
      disk := d'
      phase := Function.update s.phase r (.publishing idx b)
      asked := s.asked ++ [b] }
      A U := by
  have hr? : (s.phase r).idx? = some idx := by rw [hr]; rfl
  have hnone : (s.phase r).request? = none := by rw [hr]; rfl
  have hhead := h.ne_head hr? hnone
  obtain ⟨havail, hused, hidx, _⟩ := hform.rest
  refine h.keep (h.owners.format hform hr? hnone hfree) ⟨havail, hused, hidx⟩ (fun x hx =>
    hform.info x ?_) ⟨rfl, rfl⟩
    ⟨rfl, rfl⟩ fun b' => ?_
  · rintro rfl
    exact hhead (List.mem_append_right _ (List.mem_append_right _ hx))
  · have hcount := h.count b'
    dsimp only
    rw [List.count_append, List.count_singleton, hform.bufs]
    by_cases hb : b' = b
    · rw [hb, hfree] at hcount
      rw [hb, Function.update_self, hcount, beq_self_eq_true]
      rfl
    · have hbeq : ¬ (b == b') = true := fun hc => hb (beq_iff_eq.mp hc).symm
      rw [Function.update_of_ne hb, hcount, if_neg hbeq, Nat.add_zero]

/-- The head of a request joins the avail ring. -/
theorem publish (h : Coherent s A U) (hr : s.phase r = .publishing idx b) :
    Coherent { s with
      disk := { s.disk with avail :=
        ⟨(s.disk.avail.idx + 1) % 2 ^ 16,
          Function.update s.disk.avail.ring (s.disk.avail.idx % NUM) (idx 0)⟩ }
      phase := Function.update s.phase r (.waiting idx b) } (A ++ [idx 0]) U := by
  have hr? : (s.phase r).idx? = some idx := by rw [hr]; rfl
  have hnew : idx 0 ∉ A ++ (s.working ++ U) := by
    intro hmem
    obtain ⟨idx', b', hwait⟩ := h.owners.of_head hr? hmem
    cases hr.symm.trans hwait
  have hperm : (A ++ [idx 0] ++ (s.working ++ U)).Perm (idx 0 :: (A ++ (s.working ++ U))) := by
    rw [List.append_assoc, List.singleton_append]
    exact List.perm_middle
  have hnodup : (idx 0 :: (A ++ (s.working ++ U))).Nodup := List.nodup_cons.mpr ⟨hnew, h.nodup⟩
  have hlen : A.length < NUM := by
    have hle := length_le_NUM hnodup (List.forall_mem_cons.mpr
      ⟨(h.owners.held r idx hr? 0 (by decide)).1, fun x hx => h.owners.head_lt hx⟩)
    rw [List.length_cons, List.length_append] at hle
    omega
  refine ⟨h.avail.push NUM_dvd hlen, h.used, hperm.nodup_iff.mpr hnodup, ?_, h.status,
    h.served, h.count⟩
  apply Owners.congr
  · exact (h.owners.publish hr).frame rfl rfl (fun _ => rfl) fun _ => rfl
  · intro x
    rw [hperm.mem_iff, List.mem_cons]
    exact or_comm

/-- The device takes the oldest head of the avail ring. -/
theorem take (h : Coherent s (head :: A) U) :
    Coherent { s with seen := (s.seen + 1) % 2 ^ 16, working := head :: s.working } A U := by
  have hperm : (A ++ (head :: s.working ++ U)).Perm (head :: A ++ (s.working ++ U)) :=
    List.perm_middle
  exact ⟨(h.avail.pop NUM_dvd).2, h.used, hperm.nodup_iff.mpr h.nodup, h.owners.congr fun x =>
    hperm.mem_iff, h.status, h.served, h.count⟩

/-- The device is done with a chain, and its head joins the used ring. -/
theorem complete (h : Coherent s A U) (hhead : head ∈ s.working) :
    Coherent { s with
      disk := s.disk.complete head
      working := s.working.erase head
      served := s.served ++ (s.disk.carried head).toList } A (U ++ [head]) := by
  have hmem : head ∈ A ++ (s.working ++ U) := List.mem_append_right _ (List.mem_append_left _ hhead)
  obtain ⟨r, idx, b, hwait, rfl⟩ := h.owners.waits head hmem
  have hchain := h.owners.chain r idx b (by rw [hwait]; rfl)
  have hperm : (A ++ (s.working.erase (idx 0) ++ (U ++ [idx 0]))).Perm (A ++ (s.working ++ U)) := by
    apply List.Perm.append_left
    rw [← List.append_assoc]
    have hcons := (List.perm_cons_erase hhead).symm
    exact (List.perm_append_singleton _ _).trans (hcons.append_right U)
  have hlen : U.length < NUM := by
    have hle := length_le_NUM h.nodup fun x hx => h.owners.head_lt hx
    have hpos := List.length_pos_of_mem hhead
    rw [List.length_append, List.length_append] at hle
    omega
  have hb : ∀ x,
      (Function.update s.disk.info (idx 0) { s.disk.info (idx 0) with status := 0 } x).b =
      (s.disk.info x).b := by
    intro x
    by_cases hx : x = idx 0
    · rw [hx, Function.update_self]
    · rw [Function.update_of_ne hx]
  rw [hchain.complete, hchain.carried]
  refine ⟨h.avail, h.used.push NUM_dvd hlen, hperm.nodup_iff.mpr h.nodup, ?_, fun x hx => ?_,
    ?_, h.count⟩
  · apply Owners.congr
    · exact Owners.frame h.owners rfl rfl hb fun _ => rfl
    · exact fun x => hperm.mem_iff
  · dsimp only
    by_cases hxh : x = idx 0
    · rw [hxh, Function.update_self]
    · rw [Function.update_of_ne hxh]
      rw [List.mem_append, List.mem_singleton] at hx
      exact h.status x (hx.resolve_right hxh)
  · refine Eq.trans ?_ (congrArg (s.told ++ ·) (List.filterMap_congr fun x _ => (hb x).symm))
    dsimp only
    rw [h.served, List.append_assoc, List.filterMap_append, List.filterMap_cons, hchain.info]
    rfl

/-- The handler gives back the buffer of the oldest head of the used ring. -/
theorem intr (h : Coherent s A (head :: U)) :
    ∃ b, Runs (fun _ => False) intrTurn s.disk (fun r d' => r = b ∧
    Coherent { s with disk := d', told := s.told ++ [b] } A U) := by
  have hhead : head ∈ A ++ (s.working ++ head :: U) :=
    List.mem_append_right _ (List.mem_append_right _ (List.mem_cons_self ..))
  obtain ⟨r, idx, b, hwait, rfl⟩ := h.owners.waits head hhead
  have hchain := h.owners.chain r idx b (by rw [hwait]; rfl)
  have howned : (s.disk.bufs b).disk = true := h.owners.owned r b ⟨idx, Or.inr ⟨hwait, hhead⟩⟩
  refine ⟨b, (intrTurn_runs (h.used.pop NUM_dvd).1 (h.status _ (List.mem_cons_self ..))
    hchain.info).imp ?_⟩
  rintro b d' ⟨rfl, rfl⟩
  have hperm : (A ++ (s.working ++ idx 0 :: U)).Perm (idx 0 :: (A ++ (s.working ++ U))) := by
    rw [← List.append_assoc, ← List.append_assoc]
    exact List.perm_middle
  have hnodup := hperm.nodup_iff.mp h.nodup
  refine ⟨rfl, h.avail, (h.used.pop NUM_dvd).2, (List.nodup_cons.mp hnodup).2, ?_, fun x hx => ?_,
    ?_, fun b' => ?_⟩
  · apply Owners.congr
    · exact Owners.give h.owners hwait hhead rfl rfl rfl fun b' hb => Function.update_of_ne hb _ _
    · intro x
      rw [hperm.mem_iff, List.mem_cons]
      constructor
      · intro hx
        refine ⟨Or.inr hx, ?_⟩
        rintro rfl
        exact (List.nodup_cons.mp hnodup).1 hx
      · rintro ⟨hx, hne⟩
        exact hx.resolve_left hne
  · exact h.status x (List.mem_cons_of_mem _ hx)
  · dsimp only
    rw [h.served, List.filterMap_cons, hchain.info, List.append_assoc]
    rfl
  · have hcount := h.count b'
    dsimp only
    rw [List.count_append, List.count_singleton]
    by_cases hb : b' = b
    · rw [hb, howned] at hcount
      rw [hb, Function.update_self, hcount, beq_self_eq_true]
      rfl
    · have hbeq : ¬ (b == b') = true := fun hc => hb (beq_iff_eq.mp hc).symm
      rw [Function.update_of_ne hb, if_neg hbeq, Nat.add_zero]
      exact hcount

/-- A requester sees that its buffer is back: its chain is done. -/
theorem done (h : Coherent s A U) (hr : s.phase r = .waiting idx b)
    (hdone : (s.disk.bufs b).disk = false) :
    idx 0 ∉ A ++ (s.working ++ U) := by
  intro hmem
  rw [h.owners.owned r b ⟨idx, Or.inr ⟨hr, hmem⟩⟩] at hdone
  cases hdone

theorem finish (h : Coherent s A U) (hr : s.phase r = .waiting idx b)
    (hdone : (s.disk.bufs b).disk = false) :
    Runs (fun _ => False) (finish idx) s.disk (fun _ d' =>
      Coherent { s with disk := d', phase := Function.update s.phase r .idle } A U) := by
  have hr? : (s.phase r).idx? = some idx := by rw [hr]; rfl
  have hnot := h.done hr hdone
  apply (finish_runs (h.owners.three hr?) (h.owners.chain r idx b (by rw [hr]; rfl))).imp
  intro _ d' hfin
  obtain ⟨havail, hused, hidx, hbufs⟩ := hfin.rest
  refine h.keep (h.owners.finish hfin hr hnot) ⟨havail, hused, hidx⟩ (fun x hx => hfin.info x ?_)
    ⟨rfl, rfl⟩ ⟨rfl, rfl⟩ fun b' => ?_
  · rintro rfl
    exact hnot (List.mem_append_right _ (List.mem_append_right _ hx))
  · dsimp only
    rw [hbufs]
    exact h.count b'

/-- Every step keeps it, when only buffers that the disk does not own are handed
over. -/
theorem step (h : ∃ A U, Coherent s A U) (hs : Step (fun d b => (d.bufs b).disk = false) s s') :
    ∃ A U, Coherent s' A U := by
  obtain ⟨A, U, h⟩ := h
  cases hs with
  | call r b blockno write hr => exact ⟨A, U, h.call b blockno write hr⟩
  | alloc r b write idx hr hrun =>
    rcases (alloc3_desc_runs (E := fun _ => False)).of_ok hrun with ⟨idx', heq, htaken⟩ | ⟨hc, _⟩
    · cases heq
      exact ⟨A, U, h.alloc write hr htaken⟩
    · cases hc
  | retry r b write hr hrun =>
    rcases (alloc3_desc_runs (E := fun _ => False)).of_ok hrun with ⟨idx', hc, _⟩ | ⟨_, hspare, _⟩
    · cases hc
    · exact ⟨A, U, h.retry hspare⟩
  | format r b write idx hr hok hrun =>
    have hr? : (s.phase r).idx? = some idx := by rw [hr]; rfl
    have hform := (format_runs (E := fun _ => False) (h.owners.three hr?) write).of_ok hrun
    exact ⟨A, U, h.format write hr hform hok⟩
  | publish r b idx hr hrun =>
    have hd := (publish_runs (E := fun _ => False)).of_ok hrun
    rw [hd]
    exact ⟨_, U, h.publish hr⟩
  | finish r b idx hr hdone hrun => exact ⟨A, U, (h.finish hr hdone).of_ok hrun⟩
  | intr b hne hrun =>
    obtain ⟨head, U', rfl⟩ := h.used.cons_of_ne (by decide) hne
    obtain ⟨b', hruns⟩ := h.intr
    obtain ⟨rfl, h'⟩ := hruns.of_ok hrun
    exact ⟨A, U', h'⟩
  | take hne =>
    obtain ⟨head, A', rfl⟩ := h.avail.cons_of_ne (by decide) hne
    rw [(h.avail.pop NUM_dvd).1]
    exact ⟨A', U, h.take⟩
  | complete head hhead => exact ⟨A, _, h.complete hhead⟩

/-- While the disk does not own a buffer, no chain on its way carries it. -/
theorem served_count (h : Coherent s A U) (hfree : (s.disk.bufs b).disk = false) :
    s.served.count b = s.asked.count b := by
  have hcount := h.count b
  rw [hfree] at hcount
  have hnone : (U.filterMap fun x => (s.disk.info x).b).count b = 0 := by
    apply List.count_eq_zero.mpr
    intro hmem
    obtain ⟨x, hx, hb⟩ := List.mem_filterMap.mp hmem
    have hpend : x ∈ A ++ (s.working ++ U) := List.mem_append_right _ (List.mem_append_right _ hx)
    obtain ⟨r, idx, b', hwait, rfl⟩ := h.owners.waits x hpend
    have hchain := h.owners.chain r idx b' (by rw [hwait]; rfl)
    cases hchain.info.symm.trans hb
    rw [h.owners.owned r b ⟨idx, Or.inr ⟨hwait, hpend⟩⟩] at hfree
    cases hfree
  rw [h.served, List.count_append, hnone, hcount]
  rfl

/-- The handler goes on until it has seen the whole used ring. Each turn is a step
of the system. -/
theorem intrLoop_runs {ok : Disk → Nat → Prop} {n : Nat} (h : Coherent s A U) (hn : U.length < n) :
    Runs (fun _ => False) (intrLoop n) s.disk (fun _ d' => ∃ told,
      Relation.ReflTransGen (Step ok) s { s with disk := d', told } ∧
      Coherent { s with disk := d', told } A []) := by
  induction n generalizing s U with
  | zero => omega
  | succ n ih =>
    unfold intrLoop
    rw [Runs.bind_iff, Runs.get_iff]
    split
    · rename_i heq
      rw [h.used.eq_iff (by decide)] at heq
      subst heq
      exact ⟨s.told, .refl, h⟩
    · rename_i hne
      obtain ⟨head, U', rfl⟩ := h.used.cons_of_ne (by decide) hne
      obtain ⟨b, hruns⟩ := h.intr
      apply (hruns.with_run).bind
      rintro _ d₁ ⟨⟨rfl, h₁⟩, hok⟩
      rw [List.length_cons] at hn
      apply (ih h₁ (by omega)).imp
      rintro _ d₂ ⟨told, hsteps, h₂⟩
      exact ⟨told, .head (.intr _ hne hok) hsteps, h₂⟩

theorem virtio_disk_intr_runs (ok : Disk → Nat → Prop) (h : Coherent s A U) :
    Runs (fun _ => False) virtio_disk_intr s.disk (fun _ d' => ∃ told,
      Relation.ReflTransGen (Step ok) s { s with disk := d', told } ∧
      Coherent { s with disk := d', told } A []) := by
  refine h.intrLoop_runs ?_
  have hle : U.length ≤ NUM := by
    refine length_le_NUM (h.nodup.sublist ?_) fun x hx => h.owners.head_lt ?_
    · exact (List.sublist_append_right s.working U).trans (List.sublist_append_right A _)
    · exact List.mem_append_right _ (List.mem_append_right _ hx)
  unfold NUM at hle
  omega

end Coherent

/-- In every run in which requests are made for buffers that the disk does not
own: requesters have their own descriptors, which are not free, a failed attempt
to take three leaves the same ones free, a buffer is given back only when the
device has completed each chain that carried it, the handler gives back the
buffers in the order in which their chains were completed and misses none, and
no function of the driver stops. -/
theorem each_buffer_comes_back_when_its_chain_is_done (blockno : Nat → Nat)
    (ops : Nat → virtio_blk_req)
    (hrun : Relation.ReflTransGen (Step fun d b => (d.bufs b).disk = false) (start blockno ops) s) :
    (∀ r r' idx idx', (s.phase r).idx? = some idx → (s.phase r').idx? = some idx' →
      ∀ j < 3, ∀ j' < 3, idx j = idx' j' → r = r' ∧ j = j') ∧
    (∀ r idx, (s.phase r).idx? = some idx → ∀ j < 3, idx j < NUM ∧ s.disk.free (idx j) = false) ∧
    (∃ r d, alloc3_desc s.disk = .ok (r, d) ∧ (r = none → d.free = s.disk.free)) ∧
    (∀ b, (s.disk.bufs b).disk = false → s.served.count b = s.asked.count b) ∧
    (∀ b, (s.disk.bufs b).disk = true → s.asked.count b = s.told.count b + 1) ∧
    s.told <+: s.served ∧ (s.disk.used_idx = s.disk.used.idx → s.told = s.served) ∧
    (s.disk.used_idx ≠ s.disk.used.idx → ∃ b d, intrTurn s.disk = .ok (b, d) ∧
    s.told ++ [b] <+: s.served) ∧
    (∀ r idx b, s.phase r = .waiting idx b → (s.disk.bufs b).disk = false →
    ∃ d, finish idx s.disk = .ok ((), d)) := by
  have hinv : ∃ A U, Coherent s A U := by
    induction hrun with
    | refl => exact ⟨[], [], .start blockno ops⟩
    | tail _ hlast ih => exact Coherent.step ih hlast
  obtain ⟨A, U, h⟩ := hinv
  refine ⟨h.owners.apart, h.owners.held, ?_, fun b hb => h.served_count hb, fun b hb => ?_,
    ⟨_, h.served.symm⟩, fun heq => ?_, fun hne => ?_, fun r idx b hr hdone => ?_⟩
  · obtain ⟨r, d, hok, hcase⟩ := (alloc3_desc_runs (d := s.disk)).exists_ok fun _ he => he
    refine ⟨r, d, hok, fun hr => ?_⟩
    rcases hcase with ⟨idx, hc, _⟩ | ⟨_, _, hfree⟩
    · rw [hr] at hc
      cases hc
    · exact hfree
  · rw [h.count b, hb]
    rfl
  · rw [h.served, (h.used.eq_iff (by decide)).mp heq]
    exact (List.append_nil _).symm
  · obtain ⟨head, U', rfl⟩ := h.used.cons_of_ne (by decide) hne
    obtain ⟨b, hruns⟩ := h.intr
    obtain ⟨_, d, hok, rfl, h'⟩ := hruns.exists_ok fun _ he => he
    exact ⟨_, d, hok, _, h'.served.symm⟩
  · obtain ⟨_, d, hok, _⟩ := (h.finish hr hdone).exists_ok fun _ he => he
    exact ⟨d, hok⟩

/-- One request: the buffer was handed over, and has come back. -/
theorem each_buffer_comes_back_when_its_chain_is_done_once : ∃ s : System,
    s.asked = [5] ∧ s.told = [5] ∧ s.served.count 5 = s.asked.count 5 := by
  have h₁ := Relation.ReflTransGen.single (@Step.call (fun d b => (d.bufs b).disk = false)
    (start (fun _ => 0) fun _ => ⟨0, 0, 0⟩) 0 5 1 false rfl)
  have h₂ := h₁.tail (.alloc 0 5 false _ rfl rfl)
  have h₃ := h₂.tail (.format 0 5 false _ rfl rfl rfl)
  have h₄ := h₃.tail (.publish 0 5 _ rfl rfl)
  have h₅ := h₄.tail (.take (by decide))
  have h₆ := h₅.tail (.complete 0 (by decide))
  have h₇ := h₆.tail (.intr 5 (by decide) rfl)
  exact ⟨_, rfl, rfl, (each_buffer_comes_back_when_its_chain_is_done _ _ h₇).2.2.2.1 5 rfl⟩

/-- Two requests for one buffer: it is given back when the first chain is done,
and the other is still with the device. -/
theorem a_buffer_comes_back_before_its_second_chain :
    ¬ ∀ (blockno : Nat → Nat) (ops : Nat → virtio_blk_req)
    (s : System), Relation.ReflTransGen (Step fun _ _ => True) (start blockno ops) s →
    ∀ b, (s.disk.bufs b).disk = false → s.served.count b = s.asked.count b := by
  intro hall
  have h₁ := Relation.ReflTransGen.single (@Step.call (fun _ _ => True)
    (start (fun _ => 0) fun _ => ⟨0, 0, 0⟩) 0 5 1 false rfl)
  have h₂ := h₁.tail (.alloc 0 5 false _ rfl rfl)
  have h₃ := h₂.tail (.format 0 5 false _ rfl trivial rfl)
  have h₄ := h₃.tail (.publish 0 5 _ rfl rfl)
  have h₅ := h₄.tail (.call 1 5 1 false rfl)
  have h₆ := h₅.tail (.alloc 1 5 false _ rfl rfl)
  have h₇ := h₆.tail (.format 1 5 false _ rfl trivial rfl)
  have h₈ := h₇.tail (.publish 1 5 _ rfl rfl)
  have h₉ := h₈.tail (.take (by decide))
  have h₁₀ := h₉.tail (.complete 0 (by decide))
  have h₁₁ := h₁₀.tail (.intr 5 (by decide) rfl)
  exact absurd (hall _ _ _ h₁₁ 5 rfl) (by decide)

end ThuKernel.Virtio

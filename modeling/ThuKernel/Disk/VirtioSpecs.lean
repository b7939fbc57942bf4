-- What the functions of the driver do: which descriptors they take, write and
-- give back, and that they do not panic on a chain that is held.
import ThuKernel.Disk.Virtio

namespace ThuKernel.Virtio

variable {E : Stop → Prop} {d d₀ d' : Disk} {i b : Nat} {idx : Nat → Nat}

/-! ## Taking descriptors -/

/-- Nothing changes but descriptors that were free. -/
structure Spare (d d' : Disk) : Prop where
  desc : ∀ i, d.free i = false → d'.desc i = d.desc i
  free : ∀ i, d.free i = false → d'.free i = false
  rest : d' = { d with desc := d'.desc, free := d'.free }

theorem Spare.refl (d : Disk) : Spare d d := ⟨fun _ _ => rfl, fun _ h => h, rfl⟩

/-- The first `n` descriptors of `idx` are taken from those that were free. -/
structure Taken (d d' : Disk) (n : Nat) (idx : Nat → Nat) : Prop where
  spare : Spare d d'
  below : ∀ j < n, idx j < NUM
  were : ∀ j < n, d.free (idx j) = true
  apart : ∀ j < n, ∀ j' < n, idx j = idx j' → j = j'
  free : ∀ i, d'.free i = true ↔ d.free i = true ∧ ∀ j < n, idx j ≠ i

namespace Taken

theorem refl (d : Disk) (idx : Nat → Nat) : Taken d d 0 idx :=
  ⟨.refl d, by omega, by omega, by omega, fun _ => ⟨fun h => ⟨h, by omega⟩, fun h => h.1⟩⟩

theorem held (h : Taken d d' 3 idx) {j : Nat} (hj : j < 3) : d'.free (idx j) = false := by
  cases hf : d'.free (idx j) with
  | false => rfl
  | true => exact absurd rfl (((h.free _).mp hf).2 j hj)

/-- One more descriptor. -/
theorem push {n x : Nat} (h : Taken d d' n idx) (hx : x < NUM) (hfree : d'.free x = true) :
    Taken d { d' with free := Function.update d'.free x false } (n + 1)
    (Function.update idx n x) := by
  obtain ⟨hwas, hnew⟩ := (h.free x).mp hfree
  have hold : ∀ j < n, Function.update idx n x j = idx j :=
    fun j hj => Function.update_of_ne (by omega) _ _
  have hself : Function.update idx n x n = x := Function.update_self _ _ _
  have hcases : ∀ {P : Nat → Prop}, (∀ j < n, P j) → P n → ∀ j < n + 1, P j := by
    intro P h1 h2 j hj
    rcases Nat.lt_succ_iff_lt_or_eq.mp hj with hlt | rfl
    · exact h1 j hlt
    · exact h2
  refine ⟨⟨h.spare.desc, fun i hi => ?_, ?_⟩, hcases (fun j hj => ?_) ?_,
    hcases (fun j hj => ?_) ?_,
    hcases (fun j hj => hcases (fun j' hj' => ?_) ?_) (hcases (fun j' hj' => ?_) ?_), fun i => ?_⟩
  · dsimp only
    by_cases hix : i = x
    · rw [hix, Function.update_self]
    · rw [Function.update_of_ne hix]
      exact h.spare.free i hi
  · rw [h.spare.rest]
  · rw [hold j hj]
    exact h.below j hj
  · rw [hself]
    exact hx
  · rw [hold j hj]
    exact h.were j hj
  · rw [hself]
    exact hwas
  · rw [hold j hj, hold j' hj']
    exact h.apart j hj j' hj'
  · rw [hold j hj, hself]
    exact fun hc => absurd hc (hnew j hj)
  · rw [hold j' hj', hself]
    exact fun hc => absurd hc.symm (hnew j' hj')
  · exact fun _ => rfl
  · dsimp only
    by_cases hix : i = x
    · rw [hix, Function.update_self]
      constructor
      · exact fun hc => absurd hc Bool.false_ne_true
      · rintro ⟨_, hc⟩
        exact absurd hself (hc n (Nat.lt_succ_self n))
    · rw [Function.update_of_ne hix, h.free]
      constructor
      · rintro ⟨hi, hne⟩
        refine ⟨hi, hcases (fun j hj => ?_) ?_⟩
        · rw [hold j hj]
          exact hne j hj
        · rw [hself]
          exact fun hc => hix hc.symm
      · rintro ⟨hi, hne⟩
        refine ⟨hi, fun j hj => ?_⟩
        rw [← hold j hj]
        exact hne j (by omega)

end Taken

theorem alloc_desc_runs : Runs E alloc_desc d (fun r d' => (r = none ∧ d' = d) ∨
    ∃ x < NUM, r = some x ∧ d.free x = true ∧
    d' = { d with free := Function.update d.free x false }) := by
  unfold alloc_desc
  rw [Runs.bind_iff, Runs.get_iff]
  cases hfind : (List.range NUM).find? d.free with
  | none => exact Or.inl ⟨rfl, rfl⟩
  | some x =>
    exact Or.inr ⟨x, List.mem_range.mp (List.mem_of_find?_eq_some hfind), rfl,
      List.find?_some hfind, rfl⟩

/-- A descriptor is zeroed and free. -/
def Disk.freed (d : Disk) (i : Nat) : Disk := { d with
  desc := Function.update d.desc i ⟨.null, 0, 0, 0⟩
  free := Function.update d.free i true }

theorem Disk.freed_desc {x : Nat} (h : x ≠ i) : (d.freed i).desc x = d.desc x :=
  Function.update_of_ne h _ _

theorem Disk.freed_free {x : Nat} (h : x ≠ i) : (d.freed i).free x = d.free x :=
  Function.update_of_ne h _ _

@[simp] theorem Disk.freed_self : (d.freed i).free i = true := Function.update_self _ _ _

theorem free_desc_runs (hi : i < NUM) (hf : d.free i = false) {Q : Unit → Disk → Prop} :
    Runs E (free_desc i) d Q ↔ Q () (d.freed i) := by
  unfold free_desc
  rw [Runs.bind_iff, Runs.get_iff, if_neg (by omega), if_neg (by rw [hf]; exact Bool.false_ne_true),
    Runs.bind_iff]
  rfl

/-- Some of the descriptors that were taken are back, those before turn `j`. -/
structure Back (d d' : Disk) (j n : Nat) (idx : Nat → Nat) : Prop where
  spare : Spare d d'
  free : ∀ i, d'.free i = true ↔ d.free i = true ∧ ∀ j', j ≤ j' → j' < n → idx j' ≠ i

/-- All that were taken go back. -/
theorem Taken.undo {n : Nat} (h : Taken d₀ d n idx) :
    Runs E (Prog.forUp (fun j => free_desc (idx j)) 0 n) d (fun _ d' => Back d₀ d' n n idx) := by
  have hstart : Back d₀ d 0 n idx := ⟨h.spare, fun i => (h.free i).trans
    ⟨fun hi => ⟨hi.1, fun j _ hj => hi.2 j hj⟩,
      fun hi => ⟨hi.1, fun j hj => hi.2 j (Nat.zero_le j) hj⟩⟩⟩
  have hloop : Runs E (Prog.forUp (fun j => free_desc (idx j)) 0 n) d
      (fun _ d' => Back d₀ d' (0 + n) n idx) := by
    refine Runs.forUp (fun j d' => Back d₀ d' j n idx) ?_ hstart
    rintro j d₁ _ hj ⟨hspare, hfree⟩
    have hj : j < n := by omega
    have hheld : d₁.free (idx j) = false := by
      cases hf : d₁.free (idx j) with
      | false => rfl
      | true => exact absurd rfl (((hfree _).mp hf).2 j (Nat.le_refl j) hj)
    rw [free_desc_runs (h.below j hj) hheld]
    have hother : ∀ i, d₀.free i = false → i ≠ idx j := by
      rintro i hi rfl
      rw [h.were j hj] at hi
      cases hi
    refine ⟨⟨fun i hi => ?_, fun i hi => ?_, ?_⟩, fun i => ?_⟩
    · rw [Disk.freed_desc (hother i hi)]
      exact hspare.desc i hi
    · rw [Disk.freed_free (hother i hi)]
      exact hspare.free i hi
    · unfold Disk.freed
      rw [hspare.rest]
    · by_cases hi : i = idx j
      · rw [hi, Disk.freed_self]
        refine ⟨fun _ => ⟨h.were j hj, fun j' hle hlt hc => ?_⟩, fun _ => rfl⟩
        have := h.apart j' hlt j hj hc
        omega
      · rw [Disk.freed_free hi, hfree]
        refine and_congr_right fun _ => ⟨fun hne j' hle hlt => hne j' (by omega) hlt,
          fun hne j' hle hlt => ?_⟩
        by_cases hjj : j' = j
        · rw [hjj]
          exact fun hc => hi hc.symm
        · exact hne j' (by omega) hlt
  rw [Nat.zero_add] at hloop
  exact hloop

/-- Three descriptors, or the same are free as before. It never stops. -/
theorem alloc3_desc_runs : Runs E alloc3_desc d (fun r d' =>
    (∃ idx, r = some idx ∧ Taken d d' 3 idx) ∨ (r = none ∧ Spare d d' ∧ d'.free = d.free)) := by
  have hloop : ∀ (n i : Nat) (idx : Nat → Nat) (d₁ : Disk), Taken d d₁ i idx →
      Runs E (alloc3Loop n i idx) d₁ (fun r d' => (∃ idx, r = some idx ∧ Taken d d' (i + n) idx) ∨
        (r = none ∧ Spare d d' ∧ d'.free = d.free)) := by
    intro n
    induction n with
    | zero => exact fun i idx d₁ h => Or.inl ⟨idx, rfl, h⟩
    | succ n ih =>
      intro i idx d₁ h
      unfold alloc3Loop
      apply alloc_desc_runs.bind
      rintro r d₂ (⟨rfl, rfl⟩ | ⟨x, hx, rfl, hfree, rfl⟩)
      · apply h.undo.bind
        rintro _ d₃ ⟨hspare, hfree⟩
        refine Or.inr ⟨rfl, hspare, funext fun x => Bool.eq_iff_iff.mpr ((hfree x).trans ?_)⟩
        exact ⟨fun hx => hx.1, fun hx => ⟨hx, by omega⟩⟩
      · rw [Nat.add_comm n 1, ← Nat.add_assoc]
        exact ih (i + 1) _ _ (h.push hx hfree)
  exact hloop 3 0 _ d (.refl d _)

/-! ## Chains -/

/-- The descriptors `idx 0`, `idx 1` and `idx 2` are a request for a buffer. -/
structure Chain (d : Disk) (idx : Nat → Nat) (b : Nat) : Prop where
  first : (d.desc (idx 0)).flags &&& VRING_DESC_F_NEXT ≠ 0 ∧ (d.desc (idx 0)).next = idx 1
  second : (d.desc (idx 1)).flags &&& VRING_DESC_F_NEXT ≠ 0 ∧ (d.desc (idx 1)).next = idx 2
  data : (d.desc (idx 1)).addr = .data b
  third : (d.desc (idx 2)).flags &&& VRING_DESC_F_NEXT = 0
  status : (d.desc (idx 2)).addr = .status (idx 0)
  info : (d.info (idx 0)).b = some b

namespace Chain

theorem congr (h : Chain d idx b) (hdesc : ∀ j < 3, d'.desc (idx j) = d.desc (idx j))
    (hinfo : (d'.info (idx 0)).b = (d.info (idx 0)).b) : Chain d' idx b := by
  have h0 := hdesc 0 (by decide)
  have h1 := hdesc 1 (by decide)
  have h2 := hdesc 2 (by decide)
  refine ⟨?_, ?_, ?_, ?_, ?_, ?_⟩
  · rw [h0]
    exact h.first
  · rw [h1]
    exact h.second
  · rw [h1]
    exact h.data
  · rw [h2]
    exact h.third
  · rw [h2]
    exact h.status
  · rw [hinfo]
    exact h.info

/-- The device finds the buffer of the request. -/
theorem carried (h : Chain d idx b) : d.carried (idx 0) = some b := by
  unfold Disk.carried
  rw [h.first.2, h.data]

/-- The device reports the status of the request. -/
theorem complete (h : Chain d idx b) : d.complete (idx 0) = { d with
    info := Function.update d.info (idx 0) { d.info (idx 0) with status := 0 }
    used := ⟨(d.used.idx + 1) % 2 ^ 16, Function.update d.used.ring (d.used.idx % NUM) (idx 0)⟩
      } := by
  unfold Disk.complete
  dsimp only
  rw [h.first.2, h.second.2, h.status]

end Chain

/-- The three descriptors of a request. -/
structure Three (d : Disk) (idx : Nat → Nat) : Prop where
  below : ∀ j < 3, idx j < NUM
  held : ∀ j < 3, d.free (idx j) = false
  apart : ∀ j < 3, ∀ j' < 3, idx j = idx j' → j = j'

/-- A request is formatted: its own descriptors are written. -/
structure Formatted (d d' : Disk) (idx : Nat → Nat) (b : Nat) : Prop where
  chain : Chain d' idx b
  desc : ∀ i, (∀ j < 3, i ≠ idx j) → d'.desc i = d.desc i
  info : ∀ i ≠ idx 0, d'.info i = d.info i
  bufs : d'.bufs = Function.update d.bufs b { d.bufs b with disk := true }
  rest : d'.avail = d.avail ∧ d'.used = d.used ∧ d'.used_idx = d.used_idx ∧ d'.free = d.free

theorem format_runs (h : Three d idx) (write : Bool) :
    Runs E (format idx b write) d (fun _ d' => Formatted d d' idx b) := by
  have h01 : idx 0 ≠ idx 1 := fun hc => absurd (h.apart 0 (by decide) 1 (by decide) hc) (by decide)
  have h02 : idx 0 ≠ idx 2 := fun hc => absurd (h.apart 0 (by decide) 2 (by decide) hc) (by decide)
  have h12 : idx 1 ≠ idx 2 := fun hc => absurd (h.apart 1 (by decide) 2 (by decide) hc) (by decide)
  have hflags : ((if write then 0 else VRING_DESC_F_WRITE) ||| VRING_DESC_F_NEXT) &&&
      VRING_DESC_F_NEXT ≠ 0 := by
    cases write
    · decide
    · decide
  unfold format
  simp only [Runs.bind_iff, Runs.get_iff, Runs.modify_iff, setDesc, setInfo, setBuf]
  refine ⟨⟨?_, ?_, ?_, ?_, ?_, ?_⟩, fun i hi => ?_, fun i hi => ?_, rfl, rfl, rfl, rfl, rfl⟩
  · dsimp only
    rw [Function.update_of_ne h02, Function.update_of_ne h01, Function.update_self]
    exact ⟨(by decide : VRING_DESC_F_NEXT &&& VRING_DESC_F_NEXT ≠ 0), rfl⟩
  · dsimp only
    rw [Function.update_of_ne h12, Function.update_self]
    exact ⟨hflags, rfl⟩
  · dsimp only
    rw [Function.update_of_ne h12, Function.update_self]
  · dsimp only
    rw [Function.update_self]
    exact (by decide : VRING_DESC_F_WRITE &&& VRING_DESC_F_NEXT = 0)
  · dsimp only
    rw [Function.update_self]
  · dsimp only
    rw [Function.update_self]
  · dsimp only
    rw [Function.update_of_ne (hi 2 (by decide)), Function.update_of_ne (hi 1 (by decide)),
      Function.update_of_ne (hi 0 (by decide))]
  · dsimp only
    rw [Function.update_of_ne hi, Function.update_of_ne hi]

/-- The request is over: its descriptors are free. -/
structure Finished (d d' : Disk) (idx : Nat → Nat) : Prop where
  free : ∀ j < 3, d'.free (idx j) = true
  others : ∀ i, (∀ j < 3, i ≠ idx j) → d'.desc i = d.desc i ∧ d'.free i = d.free i
  info : ∀ i ≠ idx 0, d'.info i = d.info i
  rest : d'.avail = d.avail ∧ d'.used = d.used ∧ d'.used_idx = d.used_idx ∧ d'.bufs = d.bufs

theorem freeChain_next {n : Nat} (hi : i < NUM) (hf : d.free i = false)
    (hnext : (d.desc i).flags &&& VRING_DESC_F_NEXT ≠ 0) {Q : Unit → Disk → Prop} :
    Runs E (freeChainLoop (n + 1) i) d Q ↔
    Runs E (freeChainLoop n (d.desc i).next) (d.freed i) Q := by
  conv => lhs; unfold freeChainLoop
  rw [Runs.bind_iff, Runs.get_iff, Runs.bind_iff, free_desc_runs hi hf, Prog.when, if_pos hnext]

theorem freeChain_last {n : Nat} (hi : i < NUM) (hf : d.free i = false)
    (hlast : (d.desc i).flags &&& VRING_DESC_F_NEXT = 0) {Q : Unit → Disk → Prop} :
    Runs E (freeChainLoop (n + 1) i) d Q ↔ Q () (d.freed i) := by
  unfold freeChainLoop
  rw [Runs.bind_iff, Runs.get_iff, Runs.bind_iff, free_desc_runs hi hf, Prog.when,
    if_neg (not_not.mpr hlast), Runs.pure_iff]

/-- The three descriptors of a chain are freed one after the other. -/
theorem free_chain_runs (h : Three d idx)
    (hfirst : (d.desc (idx 0)).flags &&& VRING_DESC_F_NEXT ≠ 0 ∧ (d.desc (idx 0)).next = idx 1)
    (hsecond : (d.desc (idx 1)).flags &&& VRING_DESC_F_NEXT ≠ 0 ∧ (d.desc (idx 1)).next = idx 2)
    (hthird : (d.desc (idx 2)).flags &&& VRING_DESC_F_NEXT = 0) : Runs E (free_chain (idx 0))
    d (fun _ d' =>
      d' = ((d.freed (idx 0)).freed (idx 1)).freed (idx 2)) := by
  have h01 : idx 1 ≠ idx 0 := fun hc => absurd (h.apart 1 (by decide) 0 (by decide) hc) (by decide)
  have h02 : idx 2 ≠ idx 0 := fun hc => absurd (h.apart 2 (by decide) 0 (by decide) hc) (by decide)
  have h12 : idx 2 ≠ idx 1 := fun hc => absurd (h.apart 2 (by decide) 1 (by decide) hc) (by decide)
  have hheld₁ : (d.freed (idx 0)).free (idx 1) = false :=
    (Disk.freed_free h01).trans (h.held 1 (by decide))
  have hheld₂ : ((d.freed (idx 0)).freed (idx 1)).free (idx 2) = false :=
    (Disk.freed_free h12).trans ((Disk.freed_free h02).trans (h.held 2 (by decide)))
  rw [← Disk.freed_desc h01] at hsecond
  rw [← Disk.freed_desc h02, ← Disk.freed_desc h12] at hthird
  unfold free_chain
  rw [freeChain_next (h.below 0 (by decide)) (h.held 0 (by decide)) hfirst.1, hfirst.2, NUM,
    freeChain_next (h.below 1 (by decide)) hheld₁ hsecond.1, hsecond.2,
    freeChain_last (h.below 2 (by decide)) hheld₂ hthird]

theorem finish_runs (h : Three d idx) (hchain : Chain d idx b) :
    Runs E (finish idx) d (fun _ d' => Finished d d' idx) := by
  have h01 : idx 1 ≠ idx 0 := fun hc => absurd (h.apart 1 (by decide) 0 (by decide) hc) (by decide)
  have h02 : idx 2 ≠ idx 0 := fun hc => absurd (h.apart 2 (by decide) 0 (by decide) hc) (by decide)
  have h12 : idx 2 ≠ idx 1 := fun hc => absurd (h.apart 2 (by decide) 1 (by decide) hc) (by decide)
  unfold finish
  rw [Runs.bind_iff, Runs.get_iff, Runs.bind_iff, setInfo, Runs.modify_iff]
  have hthree :
    Three { d with info := Function.update d.info (idx 0) { d.info (idx 0) with b := none } } idx :=
    ⟨h.below, h.held, h.apart⟩
  apply (free_chain_runs hthree hchain.first hchain.second hchain.third).imp
  rintro _ d' rfl
  refine ⟨fun j hj => ?_, fun i hi => ⟨?_, ?_⟩, fun i hi => Function.update_of_ne hi _ _, rfl,
    rfl, rfl, rfl⟩
  · obtain rfl | rfl | rfl : j = 0 ∨ j = 1 ∨ j = 2 := by omega
    · rw [Disk.freed_free h02.symm, Disk.freed_free h01.symm, Disk.freed_self]
    · rw [Disk.freed_free h12.symm, Disk.freed_self]
    · exact Disk.freed_self
  · rw [Disk.freed_desc (hi 2 (by decide)), Disk.freed_desc (hi 1 (by decide)),
      Disk.freed_desc (hi 0 (by decide))]
  · rw [Disk.freed_free (hi 2 (by decide)), Disk.freed_free (hi 1 (by decide)),
      Disk.freed_free (hi 0 (by decide))]

theorem publish_runs : Runs E (publish idx) d (fun _ d' => d' = { d with
    avail := ⟨(d.avail.idx + 1) % 2 ^ 16, Function.update d.avail.ring (d.avail.idx % NUM) (idx 0)⟩
      }) := rfl

theorem intrTurn_runs {head : Nat} (hhead : d.used.ring (d.used_idx % NUM) = head)
    (hstatus : (d.info head).status = 0) (hb : (d.info head).b = some b) :
    Runs E intrTurn d (fun r d' => r = b ∧ d' = { d with
      bufs := Function.update d.bufs b { d.bufs b with disk := false }
      used_idx := (d.used_idx + 1) % 2 ^ 16 }) := by
  unfold intrTurn
  rw [Runs.bind_iff, Runs.get_iff]
  dsimp only
  rw [hhead, if_neg (not_not.mpr hstatus), hb]
  exact ⟨rfl, rfl⟩

end ThuKernel.Virtio

-- The laws of the buffer cache: the list stays a ring of all the buffers, a
-- block sits in one buffer, and what reading, changing, writing and
-- releasing a buffer does to the buffers that other code holds.
import ThuKernel.Fs.Bio
import Mathlib.Data.List.Perm.Basic
import Mathlib.Data.Set.Basic

namespace ThuKernel

/-! ## The buffers without their links -/

/-- What a buffer holds, without its two pointers. -/
structure Core where
  valid : Bool
  dev : Nat
  blockno : Nat
  refcnt : Int
  data : Bytes

namespace Bio

def core (s : Bio) (i : Nat) : Core :=
  ⟨(s.buf i).valid, (s.buf i).dev, (s.buf i).blockno, (s.buf i).refcnt, (s.buf i).data⟩

section Fields

variable (s : Bio) (b i n : Nat) (r : Int) (d : Bytes) (x : ThuKernel.buf)

@[simp] theorem set_disk : (s.set b x).disk = s.disk := rfl
@[simp] theorem setNext_disk : (s.setNext b n).disk = s.disk := rfl
@[simp] theorem setPrev_disk : (s.setPrev b n).disk = s.disk := rfl
@[simp] theorem setRefcnt_disk : (s.setRefcnt b r).disk = s.disk := rfl
@[simp] theorem setData_disk : (s.setData b d).disk = s.disk := rfl

theorem set_buf : (s.set b x).buf i = if i = b then x else s.buf i := by
  simp [set, Function.update_apply]

@[simp] theorem set_buf_self : (s.set b x).buf b = x := by simp [set]

@[simp] theorem set_set (y : ThuKernel.buf) : (s.set b x).set b y = s.set b y := by
  simp [set]

@[simp] theorem core_setNext : (s.setNext b n).core i = s.core i := by
  unfold core setNext
  rw [set_buf]
  split
  · subst i; rfl
  · rfl

@[simp] theorem core_setPrev : (s.setPrev b n).core i = s.core i := by
  unfold core setPrev
  rw [set_buf]
  split
  · subst i; rfl
  · rfl

theorem core_setRefcnt :
    (s.setRefcnt b r).core i = if i = b then { s.core b with refcnt := r } else s.core i := by
  unfold core setRefcnt
  rw [set_buf]
  split
  · rfl
  · rfl

theorem core_setData :
    (s.setData b d).core i = if i = b then { s.core b with data := d } else s.core i := by
  unfold core setData
  rw [set_buf]
  split
  · rfl
  · rfl

@[simp] theorem core_diskWrite : (s.diskWrite b).core i = s.core i := rfl

@[simp] theorem core_unlink : (s.unlink b).core i = s.core i := by simp [unlink]
@[simp] theorem core_pushFront : (s.pushFront b).core i = s.core i := by simp [pushFront]
@[simp] theorem unlink_disk : (s.unlink b).disk = s.disk := rfl
@[simp] theorem pushFront_disk : (s.pushFront b).disk = s.disk := rfl

theorem next_setNext : (s.setNext b n).next = Function.update s.next b n := by
  funext j
  unfold next setNext
  rw [set_buf, Function.update_apply]
  split
  · rfl
  · rfl

theorem prev_setPrev : (s.setPrev b n).prev = Function.update s.prev b n := by
  funext j
  unfold prev setPrev
  rw [set_buf, Function.update_apply]
  split
  · rfl
  · rfl

@[simp] theorem next_setPrev : (s.setPrev b n).next = s.next := by
  funext j
  unfold next setPrev
  rw [set_buf]
  split
  · subst j; rfl
  · rfl

@[simp] theorem prev_setNext : (s.setNext b n).prev = s.prev := by
  funext j
  unfold prev setNext
  rw [set_buf]
  split
  · subst j; rfl
  · rfl

/-- A change of a buffer that keeps its two pointers keeps the list. -/
theorem links_set (h1 : x.next = (s.buf b).next) (h2 : x.prev = (s.buf b).prev) :
    (s.set b x).next = s.next ∧ (s.set b x).prev = s.prev := by
  constructor
  · funext j
    unfold next
    rw [set_buf]
    split
    · subst j; exact h1
    · rfl
  · funext j
    unfold prev
    rw [set_buf]
    split
    · subst j; exact h2
    · rfl

theorem unlink_links : (s.unlink b).next = Function.update s.next (s.prev b) (s.next b) ∧
    (s.unlink b).prev = Function.update s.prev (s.next b) (s.prev b) := by
  have hp : Function.update s.prev (s.next b) (s.prev b) b = s.prev b := by
    rw [Function.update_apply]; split <;> rfl
  unfold unlink
  simp [next_setNext, prev_setPrev, hp]

theorem pushFront_links :
    (s.pushFront b).next = Function.update (Function.update s.next b (s.next HEAD)) HEAD b ∧
      (s.pushFront b).prev =
        Function.update (Function.update s.prev b HEAD) (s.next HEAD) b := by
  have hn : Function.update s.next b (s.next HEAD) HEAD = s.next HEAD := by
    rw [Function.update_apply]; split <;> rfl
  unfold pushFront
  simp [next_setNext, prev_setPrev, hn]

end Fields

/-! ## The invariant of the cache -/

/-- The list is a ring of all the buffers. -/
def RingOk (s : Bio) : Prop :=
  ∃ l, Ring s.next s.prev HEAD l ∧ l.Perm (List.range NBUF)

end Bio

/-- What holds of the cache after each function of bio.c: a block is in one
buffer at most, and the buffers with data are for the one disk. -/
structure CacheOk (s : Bio) : Prop where
  ring : s.RingOk
  refcnt : ∀ i < NBUF, 0 ≤ (s.core i).refcnt
  one : ∀ i < NBUF, ∀ j < NBUF, (s.core i).dev ≠ 0 → (s.core i).dev = (s.core j).dev →
    (s.core i).blockno = (s.core j).blockno → i = j
  root : ∀ i < NBUF, (s.core i).valid = true ↔ (s.core i).dev = ROOTDEV

/-- What the cache holds of block `b`, if it holds anything, is what the
disk holds. -/
def Clean (s : Bio) (b : Nat) : Prop :=
  ∀ i < NBUF, (s.core i).valid = true → (s.core i).blockno = b → (s.core i).data = s.disk b

/-- Buffer `i` is in use for block `b` of the disk. -/
structure HasBlock (s : Bio) (i b : Nat) : Prop where
  lt : i < NBUF
  valid : (s.core i).valid = true
  blockno : (s.core i).blockno = b
  held : 0 < (s.core i).refcnt

/-- From `s` to `s'`, buffer `h` was taken and not given back, and no block
outside `T` was changed: not on the disk, and not in a buffer in use. -/
structure Since (h : Option Nat) (T : Set Nat) (s s' : Bio) : Prop where
  refcnt : ∀ i < NBUF, (s'.core i).refcnt = (s.core i).refcnt + if h = some i then 1 else 0
  held : ∀ i < NBUF, 0 < (s.core i).refcnt →
    (s'.core i).valid = (s.core i).valid ∧ (s'.core i).dev = (s.core i).dev ∧
      (s'.core i).blockno = (s.core i).blockno ∧
      ((s.core i).blockno ∉ T → (s'.core i).data = (s.core i).data)
  disk : ∀ b ∉ T, s'.disk b = s.disk b
  clean : ∀ b ∉ T, Clean s b → Clean s' b

/-- No buffer was kept, and no block outside `T` was changed. -/
abbrev Follows (T : Set Nat) (s s' : Bio) : Prop := Since none T s s'

/-- Some buffer is in no use. -/
def Room (s : Bio) : Prop := ∃ i < NBUF, (s.core i).refcnt = 0

/-- Two buffers are in no use. -/
def Room2 (s : Bio) : Prop :=
  ∃ i < NBUF, ∃ j < NBUF, i ≠ j ∧ (s.core i).refcnt = 0 ∧ (s.core j).refcnt = 0

variable {s s₁ s₂ : Bio} {T T' : Set Nat} {h : Option Nat} {i b : Nat} {d : Bytes}
  {E : Stop → Prop}

theorem Room2.room (hr : Room2 s) : Room s := by
  obtain ⟨i, hi, _, _, _, h0, _⟩ := hr
  exact ⟨i, hi, h0⟩

namespace Since

theorem refl (T : Set Nat) (s : Bio) : Follows T s s :=
  ⟨fun _ _ => by simp, fun _ _ _ => ⟨rfl, rfl, rfl, fun _ => rfl⟩, fun _ _ => rfl, fun _ _ hc => hc⟩

theorem mono (hs : Since h T s s₁) (hT : T ⊆ T') : Since h T' s s₁ := by
  refine ⟨hs.refcnt, fun i hi h0 => ?_, fun b hb => hs.disk b fun hm => hb (hT hm),
    fun b hb => hs.clean b fun hm => hb (hT hm)⟩
  obtain ⟨h1, h2, h3, h4⟩ := hs.held i hi h0
  exact ⟨h1, h2, h3, fun hn => h4 fun hm => hn (hT hm)⟩

/-- A buffer in use stays in use. -/
theorem held_pos (hs : Since h T s s₁) (hi : i < NBUF) (h0 : 0 < (s.core i).refcnt) :
    0 < (s₁.core i).refcnt := by
  rw [hs.refcnt i hi]
  split <;> omega

theorem trans (hs : Since h T s s₁) (hs' : Follows T s₁ s₂) : Since h T s s₂ := by
  refine ⟨fun i hi => ?_, fun i hi h0 => ?_, fun b hb => ?_, fun b hb hc => ?_⟩
  · rw [hs'.refcnt i hi, hs.refcnt i hi]
    simp
  · obtain ⟨h1, h2, h3, h4⟩ := hs.held i hi h0
    obtain ⟨k1, k2, k3, k4⟩ := hs'.held i hi (hs.held_pos hi h0)
    refine ⟨k1.trans h1, k2.trans h2, k3.trans h3, fun hn => ?_⟩
    rw [k4 (by rwa [h3]), h4 hn]
  · rw [hs'.disk b hb, hs.disk b hb]
  · exact hs'.clean b hb (hs.clean b hb hc)

theorem room (hs : Follows T s s₁) (hr : Room s) : Room s₁ := by
  obtain ⟨i, hi, h0⟩ := hr
  exact ⟨i, hi, by rw [hs.refcnt i hi, h0]; simp⟩

theorem room2 (hs : Follows T s s₁) (hr : Room2 s) : Room2 s₁ := by
  obtain ⟨i, hi, j, hj, hij, h0, h1⟩ := hr
  exact ⟨i, hi, j, hj, hij, by rw [hs.refcnt i hi, h0]; simp, by rw [hs.refcnt j hj, h1]; simp⟩

/-- With one buffer taken out of two that are in no use, one is left. -/
theorem room_of_room2 (hs : Since (some b) T s s₁) (hr : Room2 s) : Room s₁ := by
  obtain ⟨i, hi, j, hj, hij, h0, h1⟩ := hr
  by_cases hb : b = i
  · refine ⟨j, hj, ?_⟩
    rw [hs.refcnt j hj, h1, if_neg (by simpa [hb] using hij)]
    rfl
  · refine ⟨i, hi, ?_⟩
    rw [hs.refcnt i hi, h0, if_neg (by simpa using hb)]
    rfl

/-- A buffer in use for a block outside `T` keeps the block and its data. -/
theorem hasBlock (hs : Since h T s s₁) (hb : HasBlock s i b) : HasBlock s₁ i b := by
  obtain ⟨h1, _, h3, _⟩ := hs.held i hb.lt hb.held
  exact ⟨hb.lt, h1.trans hb.valid, h3.trans hb.blockno, hs.held_pos hb.lt hb.held⟩

theorem data (hs : Since h T s s₁) (hb : HasBlock s i b) (hT : b ∉ T) :
    (s₁.core i).data = (s.core i).data :=
  (hs.held i hb.lt hb.held).2.2.2 (by rwa [hb.blockno])

end Since

/-! ## The list under the functions -/

theorem Bio.RingOk.of_links (hr : s.RingOk) (hn : s₁.next = s.next) (hp : s₁.prev = s.prev) :
    s₁.RingOk := by
  unfold Bio.RingOk
  rw [hn, hp]
  exact hr

theorem ring_length {l : List Nat} (hl : l.Perm (List.range NBUF)) : l.length < NBUF + 1 := by
  rw [hl.length_eq, List.length_range]
  omega

theorem mem_ring {l : List Nat} (hl : l.Perm (List.range NBUF)) : i ∈ l ↔ i < NBUF := by
  rw [hl.mem_iff, List.mem_range]

/-- A released buffer goes to the front of the list. -/
theorem ring_moveFront {l₁ l₂ : List Nat} (hring : Ring s.next s.prev HEAD (l₁ ++ i :: l₂)) :
    Ring ((s.unlink i).pushFront i).next ((s.unlink i).pushFront i).prev HEAD
    (i :: (l₁ ++ l₂)) := by
  have hun := hring.unlink
  rw [← (s.unlink_links i).1, ← (s.unlink_links i).2] at hun
  have hnd := hring.nodup
  have hpush := hun.push (x := i) (by
    simp only [List.nodup_cons, List.nodup_append, List.mem_append, List.mem_cons, not_or] at hnd ⊢
    refine ⟨fun he => hnd.1.2.1 he.symm, fun hm => ?_, hnd.2.2.1.1⟩
    exact hnd.2.2.2 i hm i (Or.inl rfl) rfl)
  rwa [← ((s.unlink i).pushFront_links i).1, ← ((s.unlink i).pushFront_links i).2] at hpush

theorem Bio.RingOk.moveFront (hr : s.RingOk) (hi : i < NBUF) :
    ((s.unlink i).pushFront i).RingOk := by
  obtain ⟨l, hring, hperm⟩ := hr
  obtain ⟨l₁, l₂, rfl⟩ := List.append_of_mem ((mem_ring hperm).mpr hi)
  exact ⟨_, ring_moveFront hring, List.perm_middle.symm.trans hperm⟩

/-! ## A change of one buffer -/

/-- `t` is `s` with other contents in buffer `i`. -/
structure OneBuf (s t : Bio) (i : Nat) (c : Core) : Prop where
  next : t.next = s.next
  prev : t.prev = s.prev
  disk : t.disk = s.disk
  self : t.core i = c
  other : ∀ j, j ≠ i → t.core j = s.core j

namespace OneBuf

variable {t : Bio} {c : Core}

theorem cacheOk (ho : OneBuf s t i c) (hs : CacheOk s) (hr : 0 ≤ c.refcnt)
    (hroot : c.valid = true ↔ c.dev = ROOTDEV)
    (hone : ∀ j < NBUF, j ≠ i → c.dev ≠ 0 → (s.core j).dev = c.dev →
      (s.core j).blockno ≠ c.blockno) : CacheOk t := by
  refine ⟨hs.ring.of_links ho.next ho.prev, fun j hj => ?_, fun j hj k hk => ?_, fun j hj => ?_⟩
  · by_cases hji : j = i
    · subst hji; rw [ho.self]; exact hr
    · rw [ho.other j hji]; exact hs.refcnt j hj
  · by_cases hji : j = i
    · subst hji
      by_cases hki : k = j
      · exact fun _ _ _ => hki.symm
      · rw [ho.self, ho.other k hki]
        intro h1 h2 h3
        exact absurd h3.symm (hone k hk hki h1 h2.symm)
    · by_cases hki : k = i
      · subst hki
        rw [ho.self, ho.other j hji]
        intro h1 h2 h3
        exact absurd h3 (hone j hj hji (h2 ▸ h1) h2)
      · rw [ho.other j hji, ho.other k hki]
        exact hs.one j hj k hk
  · by_cases hji : j = i
    · subst hji; rw [ho.self]; exact hroot
    · rw [ho.other j hji]; exact hs.root j hj

/-- The buffer is taken once more, with data that agree with the disk if the
data of its block did. -/
theorem since (ho : OneBuf s t i c) (hr : c.refcnt = (s.core i).refcnt + 1)
    (hheld : 0 < (s.core i).refcnt →
      c.valid = (s.core i).valid ∧ c.dev = (s.core i).dev ∧ c.blockno = (s.core i).blockno ∧
        c.data = (s.core i).data)
    (hclean : c.valid = true → Clean s c.blockno → c.data = s.disk c.blockno) :
    Since (some i) ∅ s t := by
  refine ⟨fun j _ => ?_, fun j _ h0 => ?_, fun b _ => by rw [ho.disk], fun b _ hb j hj hv hbj => ?_⟩
  · by_cases hji : j = i
    · subst hji; rw [ho.self, hr]; simp
    · rw [ho.other j hji, if_neg (by simpa using fun h => hji h.symm), add_zero]
  · by_cases hji : j = i
    · subst hji
      obtain ⟨h1, h2, h3, h4⟩ := hheld h0
      rw [ho.self]
      exact ⟨h1, h2, h3, fun _ => h4⟩
    · rw [ho.other j hji]
      exact ⟨rfl, rfl, rfl, fun _ => rfl⟩
  · rw [ho.disk]
    by_cases hji : j = i
    · subst hji
      rw [ho.self] at hv hbj ⊢
      subst hbj
      exact hclean hv hb
    · rw [ho.other j hji] at hv hbj ⊢
      exact hb j hj hv hbj

end OneBuf

/-! ## The functions of bio.c -/

/-- `bread` finds the block in a buffer, or takes a buffer that is in no use
and reads the block into it. It stops for no reason. -/
theorem bread_spec (hs : CacheOk s) (hroom : Room s) (b : Nat) :
    Runs E (bread ROOTDEV b) s (fun i t => CacheOk t ∧ Since (some i) ∅ s t ∧ HasBlock t i b ∧
      t.disk = s.disk ∧ (Clean s b → (t.core i).data = s.disk b)) := by
  obtain ⟨l, hring, hperm⟩ := hs.ring
  have hlen := ring_length hperm
  unfold bread bget
  simp only [Runs.bind_iff, Runs.get_iff]
  rw [hring.firstAlong_next _ hlen, hring.firstAlong_prev _ hlen]
  cases hfind : l.find? (fun j => (s.buf j).dev == ROOTDEV && (s.buf j).blockno == b) with
  | some i =>
    have hi := (mem_ring hperm).mp (List.mem_of_find?_eq_some hfind)
    have hp := List.find?_some hfind
    simp only [Bool.and_eq_true, beq_iff_eq] at hp
    obtain ⟨hdev, hb⟩ : (s.core i).dev = ROOTDEV ∧ (s.core i).blockno = b := hp
    have hv := (hs.root i hi).mpr hdev
    have hnn := hs.refcnt i hi
    simp only [Runs.bind_iff, Runs.set_iff, Runs.pure_iff]
    have hone : OneBuf s (s.setRefcnt i ((s.buf i).refcnt + 1)) i
        { s.core i with refcnt := (s.core i).refcnt + 1 } := by
      obtain ⟨h1, h2⟩ := s.links_set i { s.buf i with refcnt := (s.buf i).refcnt + 1 } rfl rfl
      refine ⟨h1, h2, rfl, ?_, fun j hj => ?_⟩
      · rw [Bio.core_setRefcnt, if_pos rfl]; rfl
      · rw [Bio.core_setRefcnt, if_neg hj]
    have hvt : ((s.setRefcnt i ((s.buf i).refcnt + 1)).buf i).valid = true := by
      have := hone.self
      exact (congrArg Core.valid this).trans hv
    rw [if_pos hvt]
    simp only [Runs.pure_iff]
    refine ⟨hone.cacheOk hs (by simpa using by omega) (by simp [hv, hdev]) ?_,
      hone.since rfl (fun _ => ⟨rfl, rfl, rfl, rfl⟩) (fun hv' hc => hc i hi hv rfl),
      ⟨hi, hvt, ?_, ?_⟩, rfl, fun hc => ?_⟩
    · intro j hj hji h1 h2 h3
      exact hji (hs.one j hj i hi (by rw [h2]; exact h1) h2 h3)
    · rw [hone.self]; exact hb
    · rw [hone.self]; simpa using by omega
    · rw [hone.self]; exact hc i hi hv hb
  | none =>
    simp only
    cases hfree : l.reverse.find? (fun j => (s.buf j).refcnt == 0) with
    | none =>
      -- A buffer in no use is in the list, so the scan cannot miss it.
      obtain ⟨j, hj, h0⟩ := hroom
      have := List.find?_eq_none.mp hfree j (by simpa using (mem_ring hperm).mpr hj)
      have hne : (s.buf j).refcnt ≠ 0 := by simpa using this
      exact absurd h0 hne
    | some i =>
      have hi : i < NBUF := by
        have := List.mem_of_find?_eq_some hfree
        exact (mem_ring hperm).mp (by simpa using this)
      have h0 : (s.buf i).refcnt = 0 := by simpa using List.find?_some hfree
      have hnew : ∀ j < NBUF, (s.core j).dev = ROOTDEV → (s.core j).blockno ≠ b := by
        intro j hj h1 h2
        have := List.find?_eq_none.mp hfind j ((mem_ring hperm).mpr hj)
        simp only [Bool.and_eq_true, beq_iff_eq, not_and] at this
        exact this h1 h2
      simp only [Runs.bind_iff, Runs.set_iff, Runs.pure_iff, Bio.set_buf_self, Bio.diskRead,
        Bio.setData, Bio.set_set, Bio.set_disk, Bool.false_eq_true, if_false]
      have hone :
          OneBuf s
          (s.set i
          { s.buf i with
            dev := ROOTDEV
            blockno := b
            refcnt := 1
            valid := true
            data := s.disk b }) i
          ⟨true, ROOTDEV, b, 1, s.disk b⟩ := by
        obtain ⟨h1, h2⟩ :=
          s.links_set i
            { s.buf i with
              dev := ROOTDEV
              blockno := b
              refcnt := 1
              valid := true
              data := s.disk b } rfl rfl
        refine ⟨h1, h2, rfl, ?_, fun j hj => ?_⟩
        · simp [Bio.core]
        · simp [Bio.core, Bio.set_buf, hj]
      refine ⟨hone.cacheOk hs (by simp) (by simp) ?_, hone.since (by simp [Bio.core, h0]) ?_ ?_,
        ⟨hi, ?_, ?_, ?_⟩, trivial, fun _ => ?_⟩
      · exact fun j hj _ _ h2 => hnew j hj h2
      · intro hpos
        have hpos' : 0 < (s.buf i).refcnt := hpos
        omega
      · exact fun _ _ => rfl
      · rw [hone.self]
      · rw [hone.self]
      · rw [hone.self]; simp
      · rw [hone.self]

/-- After the start, the list has all the buffers and none is in use. -/
theorem binit_spec (disk : Nat → Bytes) :
    CacheOk (binit disk) ∧ (binit disk).disk = disk ∧
      ∀ i, ((binit disk).core i).refcnt = 0 ∧ ((binit disk).core i).valid = false := by
  have hlist : ∀ (s : Bio) (n : Nat), n ≤ NBUF → Ring s.next s.prev HEAD [] →
      Ring ((List.range n).foldl (fun s b => s.pushFront b) s).next
          ((List.range n).foldl (fun s b => s.pushFront b) s).prev HEAD (List.range n).reverse ∧
        ((List.range n).foldl (fun s b => s.pushFront b) s).disk = s.disk ∧
        ∀ i, ((List.range n).foldl (fun s b => s.pushFront b) s).core i = s.core i := by
    intro s n hn h0
    induction n with
    | zero => exact ⟨h0, rfl, fun _ => rfl⟩
    | succ n ih =>
      obtain ⟨h1, h2, h3⟩ := ih (by omega)
      rw [List.range_succ, List.foldl_append, List.foldl_cons, List.foldl_nil,
        List.reverse_append, List.reverse_singleton, List.singleton_append]
      refine ⟨?_, h2, fun i => by rw [Bio.core_pushFront, h3 i]⟩
      have hpush := h1.push (x := n) (by
        simp only [List.mem_cons, List.mem_reverse, List.mem_range, not_or]
        unfold HEAD
        omega)
      rw [← (Bio.pushFront_links _ n).1, ← (Bio.pushFront_links _ n).2] at hpush
      exact hpush
  let zero : buf :=
    { valid := false
      dev := 0
      blockno := 0
      refcnt := 0
      prev := 0
      next := 0
      data := fun _ => 0 }
  let s : Bio := { buf := fun _ => zero, disk }
  let s₀ := (s.setPrev HEAD HEAD).setNext HEAD HEAD
  have hs₀ : ∀ i, s₀.core i = ⟨false, 0, 0, 0, fun _ => 0⟩ := fun i => by
    rw [Bio.core_setNext, Bio.core_setPrev]
    rfl
  have h0 : Ring s₀.next s₀.prev HEAD [] := by
    refine ⟨⟨?_, ?_⟩, by simp⟩
    · rw [Bio.next_setNext]
      simp
    · rw [Bio.prev_setNext, Bio.prev_setPrev]
      simp
  obtain ⟨h1, h2, h3⟩ := hlist s₀ NBUF le_rfl h0
  have hcore : ∀ i, (binit disk).core i = ⟨false, 0, 0, 0, fun _ => 0⟩ :=
    fun i => (h3 i).trans (hs₀ i)
  refine ⟨⟨⟨_, h1, List.reverse_perm _⟩, fun i _ => ?_, fun i _ j _ hd => ?_, fun i _ => ?_⟩,
    h2, fun i => ?_⟩
  · rw [hcore]
  · rw [hcore] at hd
    exact absurd rfl hd
  · rw [hcore]
    decide
  · rw [hcore]
    exact ⟨rfl, rfl⟩

theorem Clean.of_core (hc : Clean s b) (hcore : ∀ i < NBUF, s₁.core i = s.core i)
    (hd : s₁.disk b = s.disk b) : Clean s₁ b := by
  intro i hi hv hb
  rw [hcore i hi] at hv hb ⊢
  rw [hd]
  exact hc i hi hv hb

/-- New data in a buffer in use for block `b`. -/
theorem setData_spec (hs : CacheOk s) (hb : HasBlock s i b) :
    CacheOk (s.setData i d) ∧ HasBlock (s.setData i d) i b ∧ ((s.setData i d).core i).data = d ∧
      (∀ j ≠ i, (s.setData i d).core j = s.core j) ∧
      ∀ b' ≠ b, Clean s b' → Clean (s.setData i d) b' := by
  have hone : OneBuf s (s.setData i d) i { s.core i with data := d } := by
    obtain ⟨h1, h2⟩ := s.links_set i { s.buf i with data := d } rfl rfl
    exact ⟨h1, h2, rfl, by simp [Bio.core_setData], fun j hj => by simp [Bio.core_setData, hj]⟩
  refine ⟨hone.cacheOk hs (hs.refcnt i hb.lt) (hs.root i hb.lt) ?_, ⟨hb.lt, ?_, ?_, ?_⟩, ?_,
    hone.other, ?_⟩
  · intro j hj hji h1 h2 h3
    exact hji (hs.one j hj i hb.lt (by rw [h2]; exact h1) h2 h3)
  · rw [hone.self]; exact hb.valid
  · rw [hone.self]; exact hb.blockno
  · rw [hone.self]; exact hb.held
  · rw [hone.self]
  · intro b' hb' hc j hj hv hbj
    by_cases hji : j = i
    · subst hji
      rw [hone.self] at hbj
      exact absurd (hbj.symm.trans hb.blockno) hb'
    · rw [hone.other j hji] at hv hbj ⊢
      exact hc j hj hv hbj

/-- New data in a buffer, stored to the disk at once. -/
theorem update_spec (hs : CacheOk s) (hb : HasBlock s i b) {t : Bio}
    (ht : t = (s.setData i d).diskWrite i) :
    CacheOk t ∧ HasBlock t i b ∧ (t.core i).data = d ∧ (∀ j ≠ i, t.core j = s.core j) ∧
      t.disk = Function.update s.disk b d ∧ Clean t b ∧ ∀ b', Clean s b' → Clean t b' := by
  obtain ⟨h1, h2, h3, h4, h5⟩ := setData_spec (d := d) hs hb
  have hcore : ∀ j, t.core j = (s.setData i d).core j := fun j => by rw [ht]; rfl
  have hdisk : t.disk = Function.update s.disk b d := by
    rw [ht]
    unfold Bio.diskWrite
    have e1 : ((s.setData i d).buf i).blockno = b := h2.blockno
    have e2 : ((s.setData i d).buf i).data = d := h3
    rw [e1, e2]
    rfl
  have hclean : Clean t b := by
    intro j hj hv hbj
    rw [hcore j] at hv hbj ⊢
    have hji : j = i := by
      refine h1.one j hj i h2.lt ?_ ?_ (hbj.trans h2.blockno.symm)
      · rw [(h1.root j hj).mp hv]; decide
      · rw [(h1.root j hj).mp hv, (h1.root i h2.lt).mp h2.valid]
    rw [hji, h3, hdisk]
    simp
  refine ⟨⟨?_, ?_, ?_, ?_⟩, ⟨h2.lt, ?_, ?_, ?_⟩, ?_, ?_, hdisk, hclean, ?_⟩
  · exact h1.ring.of_links (by rw [ht]; rfl) (by rw [ht]; rfl)
  · simpa only [hcore] using h1.refcnt
  · simpa only [hcore] using h1.one
  · simpa only [hcore] using h1.root
  · rw [hcore]; exact h2.valid
  · rw [hcore]; exact h2.blockno
  · rw [hcore]; exact h2.held
  · rw [hcore]; exact h3
  · intro j hj
    rw [hcore]; exact h4 j hj
  · intro b' hc
    by_cases hbb : b' = b
    · exact hbb ▸ hclean
    · refine Clean.of_core (h5 b' hbb hc) (fun j _ => hcore j) ?_
      rw [hdisk, Function.update_of_ne hbb]
      rfl

/-- New data in a buffer for a block in `T`, seen from the start of the
function. -/
theorem Since.setData (hsince : Since h T s s₁) (hs : CacheOk s₁) (hb : HasBlock s₁ i b)
    (hT : b ∈ T) : Since h T s (s₁.setData i d) := by
  obtain ⟨_, _, _, h4, h5⟩ := setData_spec (d := d) hs hb
  have hcore : (s₁.setData i d).core i = { s₁.core i with data := d } := by
    rw [Bio.core_setData, if_pos rfl]
  refine ⟨fun j hj => ?_, fun j hj h0 => ?_, fun b' hb' => hsince.disk b' hb',
    fun b' hb' hc => h5 b' ?_ (hsince.clean b' hb' hc)⟩
  · rw [← hsince.refcnt j hj]
    by_cases hji : j = i
    · subst hji; rw [hcore]
    · rw [h4 j hji]
  · obtain ⟨k1, k2, k3, k4⟩ := hsince.held j hj h0
    by_cases hji : j = i
    · subst hji
      rw [hcore]
      refine ⟨k1, k2, k3, fun hn => absurd hT ?_⟩
      rwa [← hb.blockno, k3]
    · rw [h4 j hji]
      exact ⟨k1, k2, k3, k4⟩
  · rintro rfl
    exact hb' hT

/-- The update of a block in `T`, seen from the start of the function. -/
theorem Since.update (hsince : Since h T s s₁) (hs : CacheOk s₁) (hb : HasBlock s₁ i b) (hT : b ∈ T)
    (ht : s₂ = (s₁.setData i d).diskWrite i) : Since h T s s₂ := by
  obtain ⟨_, h2, h3, h4, h5, _, h7⟩ := update_spec hs hb ht
  have hcore : s₂.core i = { s₁.core i with data := d } := by
    rw [ht, Bio.core_diskWrite, Bio.core_setData, if_pos rfl]
  refine ⟨fun j hj => ?_, fun j hj h0 => ?_, fun b' hb' => ?_,
    fun b' hb' hc => h7 b' (hsince.clean b' hb' hc)⟩
  · rw [← hsince.refcnt j hj]
    by_cases hji : j = i
    · subst hji; rw [hcore]
    · rw [h4 j hji]
  · obtain ⟨k1, k2, k3, k4⟩ := hsince.held j hj h0
    by_cases hji : j = i
    · subst hji
      rw [hcore]
      refine ⟨k1, k2, k3, fun hn => absurd hT ?_⟩
      rwa [← hb.blockno, k3]
    · rw [h4 j hji]
      exact ⟨k1, k2, k3, k4⟩
  · rw [h5, Function.update_of_ne, hsince.disk b' hb']
    rintro rfl
    exact hb' hT

/-- Giving a buffer back. -/
theorem release_spec (hs : CacheOk s) (hb : HasBlock s i b) :
    CacheOk (s.release i) ∧ (s.release i).disk = s.disk ∧
      (∀ j, (s.release i).core j =
        if j = i then { s.core i with refcnt := (s.core i).refcnt - 1 } else s.core j) := by
  have hone : OneBuf s (s.setRefcnt i ((s.buf i).refcnt - 1)) i
      { s.core i with refcnt := (s.core i).refcnt - 1 } := by
    obtain ⟨h1, h2⟩ := s.links_set i { s.buf i with refcnt := (s.buf i).refcnt - 1 } rfl rfl
    refine ⟨h1, h2, rfl, ?_, fun j hj => by simp [Bio.core_setRefcnt, hj]⟩
    rw [Bio.core_setRefcnt, if_pos rfl]; rfl
  have hheld := hb.held
  have hok := hone.cacheOk hs (by simpa using by omega) (hs.root i hb.lt) (by
    intro j hj hji h1 h2 h3
    exact hji (hs.one j hj i hb.lt (by rw [h2]; exact h1) h2 h3))
  have hcore : ∀ j, (s.setRefcnt i ((s.buf i).refcnt - 1)).core j =
      if j = i then { s.core i with refcnt := (s.core i).refcnt - 1 } else s.core j := by
    intro j
    split
    · subst j; exact hone.self
    · exact hone.other j ‹_›
  unfold Bio.release
  dsimp only
  split
  · refine ⟨⟨hok.ring.moveFront hb.lt, ?_, ?_, ?_⟩, rfl, ?_⟩
    · simpa only [Bio.core_pushFront, Bio.core_unlink] using hok.refcnt
    · simpa only [Bio.core_pushFront, Bio.core_unlink] using hok.one
    · simpa only [Bio.core_pushFront, Bio.core_unlink] using hok.root
    · simpa only [Bio.core_pushFront, Bio.core_unlink] using hcore
  · exact ⟨hok, rfl, hcore⟩

theorem Clean.release (hs : CacheOk s) (hb : HasBlock s i b) {b' : Nat} (hc : Clean s b') :
    Clean (s.release i) b' := by
  obtain ⟨_, h2, h3⟩ := release_spec hs hb
  intro j hj hv hbj
  rw [h2]
  rw [h3 j] at hv hbj ⊢
  split at hv
  · subst j
    rw [if_pos rfl] at hbj ⊢
    exact hc i hj hv hbj
  · rename_i hji
    rw [if_neg hji] at hbj ⊢
    exact hc j hj hv hbj

/-- A buffer taken in the function and given back. -/
theorem Since.release (hsince : Since (some i) T s s₁) (hs : CacheOk s₁) (hb : HasBlock s₁ i b) :
    Follows T s (s₁.release i) := by
  obtain ⟨_, h2, h3⟩ := release_spec hs hb
  refine ⟨fun j hj => ?_, fun j hj h0 => ?_, fun b' hb' => by rw [h2]; exact hsince.disk b' hb',
    fun b' hb' hc => (hsince.clean b' hb' hc).release hs hb⟩
  · have := hsince.refcnt j hj
    rw [h3 j]
    by_cases hji : j = i
    · subst hji
      rw [if_pos rfl]
      simp only [if_true] at this
      simp [this]
    · rw [if_neg hji, this, if_neg (by simpa using fun he => hji he.symm)]
      simp
  · have := hsince.held j hj h0
    rw [h3 j]
    by_cases hji : j = i
    · subst hji
      rw [if_pos rfl]
      exact this
    · rw [if_neg hji]
      exact this

end ThuKernel

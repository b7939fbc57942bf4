-- The copies between the kernel and user pages: a look-up changes nothing,
-- and a copy always ends, with 0 or with -1.
import ThuKernel.Vm.Vm

namespace ThuKernel

/-- The address of the PTE of `va` under a table of a level, when no table
page on the way is missing. -/
def slotAt (mem : Bytes) (va : Nat) : (level : Nat) → (pagetable : Nat) → Option Nat
  | 0, pagetable => some (pagetable + 8 * PX 0 va)
  | level + 1, pagetable =>
    let v := mem.get64 (pagetable + 8 * PX (level + 1) va)
    if v.testBit 0 then slotAt mem va level (PTE2PA v) else none

/-- The user page of `va`, or 0 if not mapped. -/
def userPage (mem : Bytes) (pagetable va : Nat) : Nat :=
  if MAXVA ≤ va then 0
  else match slotAt mem va 2 pagetable with
    | none => 0
    | some pte =>
      let v := mem.get64 pte
      if v.testBit 0 ∧ v.testBit 4 then PTE2PA v else 0

variable {E : Stop → Prop} {s : Mm}

theorem walkFrom_lookup (va level pagetable : Nat) :
    walkFrom va false level pagetable s = .ok (slotAt s.mem va level pagetable, s) := by
  induction level generalizing pagetable with
  | zero => rfl
  | succ level ih =>
    simp only [walkFrom, slotAt, bind, StateT.bind, get, getThe, MonadStateOf.get, StateT.get,
      Except.bind, pure, Except.pure]
    split
    · exact ih _
    · rfl

theorem runs_lookup {va pagetable : Nat} (hva : va < MAXVA) {Q : Option Nat → Mm → Prop} :
    Runs E (walk pagetable va false) s Q ↔ Q (slotAt s.mem va 2 pagetable) s := by
  unfold Runs walk
  rw [if_neg (by omega), walkFrom_lookup]

theorem runs_walkaddr {va pagetable : Nat} {Q : Nat → Mm → Prop} :
    Runs E (walkaddr pagetable va) s Q ↔ Q (userPage s.mem pagetable va) s := by
  unfold walkaddr userPage
  split
  · exact Runs.pure_iff
  · rw [Runs.bind_iff, runs_lookup (by omega)]
    cases slotAt s.mem va 2 pagetable with
    | none => exact Runs.pure_iff
    | some pte =>
      simp only [Runs.bind_iff, Runs.get_iff]
      split
      · simp [*]
      · split
        · simp [*]
        · simp_all

theorem PGROUNDDOWN_le (a : Nat) : PGROUNDDOWN a ≤ a := Nat.div_mul_le_self a PGSIZE

theorem lt_PGROUNDDOWN_add (a : Nat) : a < PGROUNDDOWN a + PGSIZE := by
  unfold PGROUNDDOWN PGSIZE
  omega

/-- The byte at a user address lies on a mapped page. -/
def Mapped (mem : Bytes) (pagetable a : Nat) : Prop :=
  userPage mem pagetable (PGROUNDDOWN (a % 2 ^ 64)) ≠ 0

theorem mapped_mod (mem : Bytes) (pagetable a b : Nat) :
    Mapped mem pagetable (a % 2 ^ 64 + b) ↔ Mapped mem pagetable (a + b) := by
  unfold Mapped
  rw [Nat.mod_add_mod]

/-- All bytes up to the end of a page are mapped, or none. -/
theorem mapped_page {mem : Bytes} {pagetable a u : Nat} (ha : a < 2 ^ 64)
    (hu : u < PGSIZE - (a - PGROUNDDOWN a)) :
    Mapped mem pagetable (a + u) ↔ userPage mem pagetable (PGROUNDDOWN a) ≠ 0 := by
  have hpage : PGROUNDDOWN ((a + u) % 2 ^ 64) = PGROUNDDOWN a := by
    unfold PGROUNDDOWN PGSIZE at *
    omega
  unfold Mapped
  rw [hpage]

/-- The physical address of a user address. -/
def userAddr (mem : Bytes) (pagetable a : Nat) : Nat :=
  userPage mem pagetable (PGROUNDDOWN (a % 2 ^ 64)) + a % PGSIZE

/-- The bytes at a user address and after it. -/
def userBytes (mem : Bytes) (pagetable va n : Nat) : List Byte :=
  (List.range n).map fun i => mem (userAddr mem pagetable (va + i))

@[simp] theorem length_userBytes (mem : Bytes) (pagetable va n : Nat) :
    (userBytes mem pagetable va n).length = n := by
  simp [userBytes]

theorem userAddr_mod (mem : Bytes) (pagetable a b : Nat) :
    userAddr mem pagetable (a % 2 ^ 64 + b) = userAddr mem pagetable (a + b) := by
  unfold userAddr
  rw [Nat.mod_add_mod]
  congr 1
  unfold PGSIZE
  omega

theorem userBytes_mod (mem : Bytes) (pagetable a n : Nat) :
    userBytes mem pagetable (a % 2 ^ 64) n = userBytes mem pagetable a n := by
  unfold userBytes
  simp only [userAddr_mod]

theorem userBytes_add (mem : Bytes) (pagetable va m n : Nat) :
    userBytes mem pagetable va (m + n) =
      userBytes mem pagetable va m ++ userBytes mem pagetable (va + m) n := by
  unfold userBytes
  rw [List.range_add, List.map_append, List.map_map]
  simp [Function.comp_def, Nat.add_assoc]

/-- Inside a page, user bytes are the bytes of the page. -/
theorem userBytes_page {mem : Bytes} {pagetable a n : Nat} (ha : a < 2 ^ 64)
    (hn : n ≤ PGSIZE - (a - PGROUNDDOWN a)) :
    userBytes mem pagetable a n =
      mem.load (userPage mem pagetable (PGROUNDDOWN a) + (a - PGROUNDDOWN a)) n := by
  unfold userBytes Bytes.load
  apply List.map_congr_left
  intro i hi
  have hi := List.mem_range.mp hi
  have hpage : PGROUNDDOWN ((a + i) % 2 ^ 64) = PGROUNDDOWN a := by
    unfold PGROUNDDOWN PGSIZE at *
    omega
  have hoff : (a + i) % PGSIZE = a - PGROUNDDOWN a + i := by
    unfold PGROUNDDOWN PGSIZE at *
    omega
  unfold userAddr
  rw [hpage, hoff, Nat.add_assoc]

/-- What `copyin` gives: 0 with all the bytes, when all are mapped, or -1 with
the bytes before the first one that is not. -/
structure CopiedIn (s : Mm) (pagetable srcva len : Nat) (r : Int × List Byte) : Prop where
  bytes : r.2 = userBytes s.mem pagetable srcva r.2.length
  mapped : ∀ u < r.2.length, Mapped s.mem pagetable (srcva + u)
  result : r.1 = 0 ∧ r.2.length = len ∨
    r.1 = -1 ∧ r.2.length < len ∧ ¬ Mapped s.mem pagetable (srcva + r.2.length)

theorem CopiedIn.length_le {s : Mm} {pagetable srcva len : Nat} {r : Int × List Byte}
    (h : CopiedIn s pagetable srcva len r) : r.2.length ≤ len := by
  rcases h.result with ⟨_, h1⟩ | ⟨_, h1, _⟩
  · exact h1.le
  · exact h1.le

/-- The first page, and then the copy from the page after it. -/
theorem CopiedIn.page {pagetable srcva len n : Nat} {r : Int × List Byte}
    (hva : srcva < 2 ^ 64) (hn : n = min (PGSIZE - (srcva - PGROUNDDOWN srcva)) len)
    (hpa : userPage s.mem pagetable (PGROUNDDOWN srcva) ≠ 0)
    (h : CopiedIn s pagetable ((PGROUNDDOWN srcva + PGSIZE) % 2 ^ 64) (len - n) r) :
    CopiedIn s pagetable srcva len (r.1,
      s.mem.load (userPage s.mem pagetable (PGROUNDDOWN srcva) + (srcva - PGROUNDDOWN srcva)) n ++
        r.2) := by
  have h1 := PGROUNDDOWN_le srcva
  have h2 := lt_PGROUNDDOWN_add srcva
  obtain ⟨hbytes, hall, hend⟩ := h
  simp only [mapped_mod] at hall hend
  rw [userBytes_mod] at hbytes
  -- Behind the first page, both addresses are the same.
  have hnext : r.2.length ≠ 0 ∨ len ≠ n → PGROUNDDOWN srcva + PGSIZE = srcva + n := by omega
  refine ⟨?_, fun u hu => ?_, ?_⟩
  · rw [List.length_append, Bytes.length_load, userBytes_add, userBytes_page hva (by omega)]
    refine congrArg (_ ++ ·) ?_
    by_cases h0 : r.2.length = 0
    · rw [h0]
      exact List.length_eq_zero_iff.mp h0
    · rw [← hnext (Or.inl h0)]
      exact hbytes
  · simp only [List.length_append, Bytes.length_load] at hu
    by_cases hlt : u < n
    · exact (mapped_page hva (by omega)).mpr hpa
    · have := hall (u - n) (by omega)
      rwa [hnext (Or.inl (by omega)), show srcva + n + (u - n) = srcva + u by omega] at this
  · simp only [List.length_append, Bytes.length_load]
    rcases hend with ⟨h3, h4⟩ | ⟨h3, h4, h5⟩
    · exact Or.inl ⟨h3, by omega⟩
    · refine Or.inr ⟨h3, by omega, ?_⟩
      rwa [hnext (Or.inr (by omega)), Nat.add_assoc] at h5

theorem copyin_runs (pagetable srcva len : Nat) :
    Runs E (copyin pagetable srcva len) s (fun r s' => s' = s ∧
      CopiedIn s pagetable srcva len r) := by
  have hloop : ∀ fuel srcva len, len < fuel → srcva < 2 ^ 64 →
      Runs E (copyinLoop pagetable fuel srcva len) s (fun r s' => s' = s ∧
        CopiedIn s pagetable srcva len r) := by
    intro fuel
    induction fuel with
    | zero => intro srcva len h; omega
    | succ fuel ih =>
      intro srcva len h hva
      unfold copyinLoop
      split
      · rename_i h0
        subst h0
        exact ⟨rfl, rfl, fun u hu => by simp at hu, Or.inl ⟨rfl, rfl⟩⟩
      · rw [Runs.bind_iff, runs_walkaddr]
        have h1 := PGROUNDDOWN_le srcva
        have h2 := lt_PGROUNDDOWN_add srcva
        split
        · rename_i hpa
          simp only [Runs.pure_iff]
          refine ⟨trivial, rfl, fun u hu => by simp at hu, Or.inr ⟨rfl, by simp; omega, ?_⟩⟩
          rw [List.length_nil, mapped_page hva (by omega)]
          exact fun hn => hn hpa
        · rename_i hpa
          simp only [Runs.bind_iff, Runs.get_iff, Runs.pure_iff]
          refine (ih _ (len - min (PGSIZE - (srcva - PGROUNDDOWN srcva)) len) (by omega)
            (Nat.mod_lt _ (by omega))).imp fun r s' hr => ?_
          exact ⟨hr.1, hr.2.page hva rfl hpa⟩
  refine (hloop _ _ _ (by omega) (Nat.mod_lt _ (by omega))).imp fun r s' hr => ?_
  obtain ⟨hs, hbytes, hall, hend⟩ := hr
  simp only [mapped_mod] at hall hend
  rw [userBytes_mod] at hbytes
  exact ⟨hs, hbytes, hall, hend⟩

/-- `copyout` returns 0 or -1. -/
theorem copyout_runs (pagetable dstva : Nat) (src : List Byte) :
    Runs E (copyout pagetable dstva src) s (fun r s' =>
      (r = 0 ∨ r = -1) ∧ s'.freelist = s.freelist) := by
  have hloop : ∀ fuel dstva src (s : Mm), src.length < fuel →
      Runs E (copyoutLoop pagetable fuel dstva src) s (fun r s' =>
        (r = 0 ∨ r = -1) ∧ s'.freelist = s.freelist) := by
    intro fuel
    induction fuel with
    | zero => intro dstva src s h; omega
    | succ fuel ih =>
      intro dstva src s h
      unfold copyoutLoop
      split
      · simp
      · simp only [Runs.bind_iff, runs_walkaddr]
        split
        · simp
        · have h1 := PGROUNDDOWN_le dstva
          have h2 := lt_PGROUNDDOWN_add dstva
          simp only [Runs.bind_iff, Runs.modify_iff]
          refine (ih _ _ _ ?_).imp fun r s' hr => hr
          rw [List.length_drop]
          omega
  exact hloop _ _ _ _ (by omega)

theorem copyChars_length (mem : Bytes) (p n : Nat) :
    (copyChars mem p n).1.length ≤ n ∧
      ((copyChars mem p n).2 = true → 0 < (copyChars mem p n).1.length) := by
  induction n generalizing p with
  | zero => simp [copyChars]
  | succ n ih =>
    unfold copyChars
    split
    · simp
    · have := ih (p + 1)
      simp only [List.length_cons]
      omega

/-- `copyinstr` returns -1, or a length of at most `max`. -/
theorem copyinstr_runs (pagetable srcva max : Nat) :
    Runs E (copyinstr pagetable srcva max) s (fun r s' => s' = s ∧ -1 ≤ r.1 ∧ r.1 ≤ max ∧
      r.2.length ≤ max) := by
  have hloop : ∀ fuel srcva max len, max < fuel →
      Runs E (copyinstrLoop pagetable fuel srcva max len) s (fun r s' => s' = s ∧ -1 ≤ r.1 ∧
        r.1 ≤ len + max ∧ r.2.length ≤ max) := by
    intro fuel
    induction fuel with
    | zero => intro srcva max len h; omega
    | succ fuel ih =>
      intro srcva max len h
      unfold copyinstrLoop
      split
      · simp [*]
      · simp only [Runs.bind_iff, runs_walkaddr]
        split
        · simp only [Runs.pure_iff, List.length_nil]
          exact ⟨trivial, by omega, by omega, by omega⟩
        · have h1 := PGROUNDDOWN_le srcva
          have h2 := lt_PGROUNDDOWN_add srcva
          rw [Runs.bind_iff, Runs.get_iff]
          obtain ⟨h3, h4⟩ := copyChars_length s.mem
            (userPage s.mem pagetable (PGROUNDDOWN srcva) + (srcva - PGROUNDDOWN srcva))
            (min (PGSIZE - (srcva - PGROUNDDOWN srcva)) max)
          split
          · rename_i hnull
            have := h4 hnull
            simp only [Runs.pure_iff]
            exact ⟨trivial, by omega, by omega, by omega⟩
          · simp only [Runs.bind_iff, Runs.pure_iff, List.length_append]
            refine (ih _ _ _ (by omega)).imp fun r s' hr => ?_
            obtain ⟨hs, h5, h6, h7⟩ := hr
            exact ⟨hs, h5, by omega, by omega⟩
  refine (hloop _ _ _ _ (by omega)).imp fun r s' hr => ?_
  simpa using hr

end ThuKernel

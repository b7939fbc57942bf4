-- Results that `wait` and `get_time` store through a pointer of the user: the
-- kernel makes it a physical address once, and stores all the bytes from there on.
import ThuKernel.Kernel.Statuses
import ThuKernel.Kernel.PipeUndo

namespace ThuKernel

/-! ## proc.c -/

/-- A store of 8 bytes. The kernel has no page at the address 0. -/
def storeU64 (a v : Nat) : Prog Kernel Unit :=
  if a < PGSIZE then Prog.fault "get_time: no page"
  else onMm (modify fun s => { s with mem := s.mem.put64 a v })

/-- `get_cycle` is called for each of the fields. -/
def get_time (ts cycle₀ cycle₁ : Nat) : Prog Kernel Int := do
  storeU64 ts (cycle₀ / 12500000)
  storeU64 (ts + 8) (cycle₁ % 12500000 * 10 / 125)
  pure 0

def sys_get_time (ts cycle₀ cycle₁ : Nat) : Prog Kernel Int := do
  let p ← curr_proc
  let physical_addr ← onMm (useraddr p.pagetable ts)
  get_time physical_addr cycle₀ cycle₁

/-! ## Where the bytes go -/

variable {lk : Link} {E : Stop → Prop} {k k₀ : Kernel} {s s' : Mm} {root va : Nat} {src : List Byte}

/-- The bytes are at the user addresses from `va` on, and nothing else changed. -/
structure StoredAt (s s' : Mm) (root va : Nat) (src : List Byte) : Prop where
  bytes : ∀ u < src.length, some (s'.mem (userAddr s.mem root (va + u))) = src[u]?
  frame : ∀ x, (∀ u < src.length, x ≠ userAddr s.mem root (va + u)) → s'.mem x = s.mem x
  free : s'.freelist = s.freelist

/-- Byte `u` of a result is mapped, and its place is the one that the kernel
stores to; or both places hold it already. -/
def Lands (mem : Bytes) (root va : Nat) (src : List Byte) (u : Nat) : Prop :=
  userAddr mem root (va + u) = userAddr mem root va + u ∨
    (some (mem (userAddr mem root (va + u))) = src[u]? ∧
    some (mem (userAddr mem root va + u)) = src[u]?)

/-- On the next page, the place of a byte is not among those that the kernel
stores to, if it is not the right one. -/
theorem userAddr_apart {u v : Nat} (hva : va < 2 ^ 64) (hu : u < PGSIZE) (hv : v < PGSIZE)
    (hne : userAddr s.mem root (va + u) ≠ userAddr s.mem root va + u) :
    userAddr s.mem root (va + u) ≠ userAddr s.mem root va + v ∧
      userAddr s.mem root (va + v) ≠ userAddr s.mem root va + u := by
  have hin : ∀ w, va % PGSIZE + w < PGSIZE →
      userAddr s.mem root (va + w) = userAddr s.mem root va + w :=
    fun w hw => userAddr_add hva hw
  -- The bytes that are not on the page of the first one are on the next page.
  have hnext : ∀ w < PGSIZE, ¬ va % PGSIZE + w < PGSIZE → userAddr s.mem root (va + w) =
      userPage s.mem root (PGROUNDDOWN ((va + PGSIZE) % 2 ^ 64)) + (va % PGSIZE + w - PGSIZE) := by
    intro w hw hover
    have hpage : PGROUNDDOWN ((va + w) % 2 ^ 64) = PGROUNDDOWN ((va + PGSIZE) % 2 ^ 64) := by
      unfold PGROUNDDOWN PGSIZE at *
      omega
    have hoff : (va + w) % PGSIZE = va % PGSIZE + w - PGSIZE := by
      unfold PGSIZE at *
      omega
    unfold userAddr
    rw [hpage, hoff]
  have hfirst := (isPage_userPage s.mem root (PGROUNDDOWN (va % 2 ^ 64))).aligned
  have hsecond := (isPage_userPage s.mem root (PGROUNDDOWN ((va + PGSIZE) % 2 ^ 64))).aligned
  have haddr : userAddr s.mem root va = userPage s.mem root (PGROUNDDOWN (va % 2 ^ 64)) +
      va % PGSIZE := rfl
  generalize userPage s.mem root (PGROUNDDOWN (va % 2 ^ 64)) = p at hfirst haddr
  generalize userPage s.mem root (PGROUNDDOWN ((va + PGSIZE) % 2 ^ 64)) = q at hsecond hnext
  have hover : ¬ va % PGSIZE + u < PGSIZE := fun hc => hne (hin u hc)
  have hu' := hnext u hu hover
  rw [hu'] at hne ⊢
  have hoff : va % PGSIZE < PGSIZE := Nat.mod_lt _ (by decide)
  by_cases hc : va % PGSIZE + v < PGSIZE
  · rw [hin v hc]
    unfold PGSIZE at *
    omega
  · rw [hnext v hv hc]
    unfold PGSIZE at *
    omega

/-- All bytes that the kernel stores from the address of the first one on are in
place just when each of them lands. -/
theorem stored_iff (hva : va < 2 ^ 64) (hlen : src.length ≤ PGSIZE) :
    StoredAt s { s with mem := s.mem.store (userAddr s.mem root va) src } root va src ↔
      ∀ u < src.length, Lands s.mem root va src u := by
  have hat : ∀ u < src.length, some
      (s.mem.store (userAddr s.mem root va) src (userAddr s.mem root va + u)) = src[u]? := by
    intro u hu
    have hsub : userAddr s.mem root va + u - userAddr s.mem root va = u := by omega
    rw [Bytes.store_inside (by omega) (by omega), List.getElem?_eq_getElem hu]
    simp only [hsub]
  have hout : ∀ x, (∀ v < src.length, x ≠ userAddr s.mem root va + v) →
      s.mem.store (userAddr s.mem root va) src x = s.mem x := by
    intro x hx
    apply Bytes.store_outside
    by_contra hc
    exact hx (x - userAddr s.mem root va) (by omega) (by omega)
  constructor
  · rintro ⟨hbytes, hframe, _⟩ u hu
    by_cases heq : userAddr s.mem root (va + u) = userAddr s.mem root va + u
    · exact Or.inl heq
    · right
      have hb := hbytes u hu
      have ha := hat u hu
      dsimp only at hb hframe
      rw [hout _ fun v hv => (userAddr_apart hva (by omega) (by omega) heq).1] at hb
      rw [hframe _ fun v hv => (userAddr_apart hva (by omega) (by omega) heq).2.symm] at ha
      exact ⟨hb, ha⟩
  · intro hlands
    refine ⟨fun u hu => ?_, fun x hx => ?_, rfl⟩
    · dsimp only
      rcases hlands u hu with heq | ⟨hb, _⟩
      · rw [heq]
        exact hat u hu
      · by_cases heq : userAddr s.mem root (va + u) = userAddr s.mem root va + u
        · rw [heq]
          exact hat u hu
        · rw [hout _ fun v hv => (userAddr_apart hva (by omega) (by omega) heq).1]
          exact hb
    · dsimp only
      by_cases hin : ∃ v < src.length, x = userAddr s.mem root va + v
      · obtain ⟨v, hv, rfl⟩ := hin
        rcases hlands v hv with heq | ⟨_, ha⟩
        · exact absurd heq.symm (hx v hv)
        · have := hat v hv
          rw [← ha] at this
          exact Option.some.inj this
      · exact hout x fun v hv hc => hin ⟨v, hv, hc⟩

/-- The physical address is on the page 0, which the kernel does not have, just
when the user address is not mapped. -/
theorem userAddr_lt_iff : userAddr s.mem root va < PGSIZE ↔ ¬ Mapped s.mem root va := by
  have haligned := (isPage_userPage s.mem root (PGROUNDDOWN (va % 2 ^ 64))).aligned
  unfold Mapped userAddr
  rw [not_not]
  unfold PGSIZE at *
  omega

/-! ## The calls -/

/-- The first child that a `wait` of the current process would return. -/
def zombieOf (k : Kernel) (pid : Int) : Option Nat :=
  (List.range NPROC).find? fun j => isKid k.current_proc pid (k.pool j) &&
    (k.pool j).state == .ZOMBIE

/-- The 4 bytes of an exit code. -/
def codeBytes (code : Int) : List Byte :=
  (Bytes.put32 (fun _ => 0) 0 (BitVec.ofInt 32 code).toNat).load 0 4

/-- The 16 bytes of a time. -/
def timeBytes (cycle₀ cycle₁ : Nat) : List Byte :=
  u64Bytes (cycle₀ / 12500000) ++ u64Bytes (cycle₁ % 12500000 * 10 / 125)

/-- A result is where the user wants it, and the call returns `ok`; or some byte
of it has no place, the call returns -1, and no memory has changed. -/
def ResultFine (s s' : Mm) (root va : Nat) (src : List Byte) (r ok : Int) : Prop :=
  ((∀ u < src.length, Mapped s.mem root (va + u)) ∧ r = ok ∧ StoredAt s s' root va src) ∨
    ((∃ u < src.length, ¬ Mapped s.mem root (va + u)) ∧ r = -1 ∧ s' = s)

/-- All bytes of a result are mapped, and each of them lands. -/
def AllLand (mem : Bytes) (root va : Nat) (src : List Byte) : Prop :=
  ∀ u < src.length, Mapped mem root (va + u) ∧ Lands mem root va src u

def TimeFine (k : Kernel) (ts cycle₀ cycle₁ : Nat) : Prop :=
  Runs (fun _ => False) (sys_get_time ts cycle₀ cycle₁) k fun r k' =>
    ResultFine k.mm k'.mm (k.pool k.current_proc).pagetable ts (timeBytes cycle₀ cycle₁) r 0

/-- A scan in `k` of a call of `sys_wait` that started in `k₀`. -/
def WaitFine (k₀ k : Kernel) (pid : Int) (va : Nat) : Prop :=
  ∀ code, waitCode va k₀ = .ok (code, k₀) → Runs (fun _ => False) (waitTurn pid code) k fun r k' =>
    match zombieOf k pid with
    | none => (r = .yield ∨ r = .ret (-1)) ∧ k'.mm = k.mm
    | some j => ∃ n, r = .ret n ∧ ResultFine k.mm k'.mm (k.pool k.current_proc).pagetable va
        (codeBytes (k.pool j).exit_code) n (k.pool j).pid

/-- A result that is stored at once is fine just when all its bytes land. -/
theorem resultFine_iff (hva : va < 2 ^ 64) (hlen : src.length ≤ PGSIZE) {r : Int} (hr : r ≠ -1) :
    ResultFine s { s with mem := s.mem.store (userAddr s.mem root va) src } root va src r r ↔
      AllLand s.mem root va src := by
  unfold ResultFine AllLand
  rw [stored_iff hva hlen]
  constructor
  · rintro (⟨hmapped, _, hlands⟩ | ⟨_, hc, _⟩)
    · exact fun u hu => ⟨hmapped u hu, hlands u hu⟩
    · exact absurd hc hr
  · exact fun h => Or.inl ⟨fun u hu => (h u hu).1, rfl, fun u hu => (h u hu).2⟩

/-- A number goes to memory as its bytes. -/
theorem putLE_eq_store (n : Nat) (b : Bytes) (a v : Nat) :
    Bytes.putLE n b a v = b.store a ((Bytes.putLE n (fun _ => 0) 0 v).load 0 n) := by
  funext x
  by_cases hx : a ≤ x ∧ x < a + n
  · rw [Bytes.store_inside hx.1 (by rw [Bytes.length_load]; omega)]
    simp only [Bytes.load, Bytes.putLE, List.getElem_map, List.getElem_range]
    rw [if_pos hx, if_pos (by omega), Nat.zero_add, Nat.sub_zero]
  · rw [Bytes.store_outside (by rw [Bytes.length_load]; omega)]
    unfold Bytes.putLE
    rw [if_neg hx]

/-- The time is stored as its bytes, when the address is one. -/
theorem runs_get_time {a cycle₀ cycle₁ : Nat} {Q : Int → Kernel → Prop} :
    Runs E (get_time a cycle₀ cycle₁) k Q ↔
      if a < PGSIZE then E (.fault "get_time: no page")
      else Q 0
        { k with mm := { k.mm with mem := k.mm.mem.store a (timeBytes cycle₀ cycle₁) } } := by
  unfold get_time storeU64
  by_cases h : a < PGSIZE
  · rw [if_pos h, if_pos h]
    rfl
  · rw [if_neg h, if_neg h, if_neg (by omega)]
    simp only [Runs.bind_iff, runs_onMm, Runs.modify_iff, Runs.pure_iff]
    have hput : ∀ (b : Bytes) (o v : Nat), b.put64 o v = b.store o (u64Bytes v) := putLE_eq_store 8
    unfold timeBytes
    rw [← Bytes.store_append, length_u64Bytes, hput, hput]

theorem runs_storeCode {a : Nat} {code : Int} {Q : Unit → Kernel → Prop} :
    Runs E (storeCode a code) k Q ↔
      if a < PGSIZE then E (.fault "wait: no page")
      else Q () { k with mm := { k.mm with mem := k.mm.mem.store a (codeBytes code) } } := by
  unfold storeCode
  by_cases h : a < PGSIZE
  · rw [if_pos h, if_pos h]
    rfl
  · have hput : ∀ (b : Bytes) (o v : Nat),
        b.put32 o v = b.store o ((Bytes.put32 (fun _ => 0) 0 v).load 0 4) := putLE_eq_store 4
    rw [if_neg h, if_neg h, runs_onMm, Runs.modify_iff, hput]
    rfl

theorem length_codeBytes (code : Int) : (codeBytes code).length = 4 := Bytes.length_load ..

theorem length_timeBytes (cycle₀ cycle₁ : Nat) : (timeBytes cycle₀ cycle₁).length = 16 := by
  unfold timeBytes
  rw [List.length_append, length_u64Bytes, length_u64Bytes]

/-- A result whose first byte has no place does not land. -/
theorem not_allLand (h : userAddr s.mem root va < PGSIZE) (hlen : 0 < src.length) :
    ¬ AllLand s.mem root va src := by
  intro hall
  have hno := userAddr_lt_iff.mp h
  exact hno (hall 0 hlen).1

/-- `get_time` is fine just when all 16 bytes land. -/
theorem timeFine_iff {ts : Nat} (hts : ts < 2 ^ 64) (cycle₀ cycle₁ : Nat) :
    TimeFine k ts cycle₀ cycle₁ ↔
    AllLand k.mm.mem (k.pool k.current_proc).pagetable ts (timeBytes cycle₀ cycle₁) := by
  have hlen := length_timeBytes cycle₀ cycle₁
  unfold TimeFine sys_get_time
  rw [Runs.bind_iff, runs_curr_proc, Runs.bind_iff, runs_onMm, runs_useraddr hts, runs_get_time]
  by_cases h : userAddr k.mm.mem (k.pool k.current_proc).pagetable ts < PGSIZE
  · rw [if_pos h]
    exact iff_of_false not_false (not_allLand h (by omega))
  · rw [if_neg h]
    exact resultFine_iff hts (by rw [hlen]; decide) (by decide)

/-- A scan is fine just when all 4 bytes of the code that it returns land. -/
theorem waitFine_iff (hva : va < 2 ^ 64)
    (hroot : (k₀.pool k₀.current_proc).pagetable = (k.pool k.current_proc).pagetable)
    (hpages : ∀ a, userPage k.mm.mem (k.pool k.current_proc).pagetable a =
      userPage k₀.mm.mem (k.pool k.current_proc).pagetable a) (pid : Int) :
    WaitFine k₀ k pid va ↔ ∀ j, zombieOf k pid = some j →
      AllLand k.mm.mem (k.pool k.current_proc).pagetable va (codeBytes (k.pool j).exit_code) := by
  have hcode : waitCode va k₀ = .ok (userAddr k.mm.mem (k.pool k.current_proc).pagetable va,
      k₀) := by
    rw [waitCode_eq hva, hroot]
    unfold userAddr
    rw [hpages]
  have hone : WaitFine k₀ k pid va ↔ Runs (fun _ => False)
      (waitTurn pid (userAddr k.mm.mem (k.pool k.current_proc).pagetable va)) k fun r k' =>
        match zombieOf k pid with
        | none => (r = .yield ∨ r = .ret (-1)) ∧ k'.mm = k.mm
        | some j => ∃ n, r = .ret n ∧ ResultFine k.mm k'.mm (k.pool k.current_proc).pagetable va
            (codeBytes (k.pool j).exit_code) n (k.pool j).pid := by
    constructor
    · exact fun h => h _ hcode
    · intro h code hc
      rw [hcode] at hc
      cases hc
      exact h
  rw [hone]
  unfold waitTurn
  rw [Runs.bind_iff, Runs.get_iff]
  dsimp only
  have hfind : (List.range NPROC).find? (fun j => isKid k.current_proc pid (k.pool j) &&
      (k.pool j).state == .ZOMBIE) =
      zombieOf k pid := rfl
  rw [hfind]
  cases hz : zombieOf k pid with
  | none =>
    -- There is nothing to store.
    refine iff_of_true ?_ fun j hj => by cases hj
    dsimp only
    split
    · rw [Runs.bind_iff, runs_modifyCurr, Runs.pure_iff]
      exact ⟨Or.inl rfl, rfl⟩
    · exact ⟨Or.inr rfl, rfl⟩
  | some j =>
    dsimp only
    rw [Runs.bind_iff, runs_getProc, Runs.bind_iff, runs_setProc, Runs.bind_iff, runs_storeCode]
    have hall : (∀ i, some j = some i → AllLand k.mm.mem (k.pool k.current_proc).pagetable va
        (codeBytes (k.pool i).exit_code)) ↔ AllLand k.mm.mem (k.pool k.current_proc).pagetable va
        (codeBytes (k.pool j).exit_code) := by
      constructor
      · exact fun h => h j rfl
      · rintro h i hi
        cases hi
        exact h
    have hlen := length_codeBytes (k.pool j).exit_code
    rw [hall]
    by_cases h : userAddr k.mm.mem (k.pool k.current_proc).pagetable va < PGSIZE
    · rw [if_pos h]
      exact iff_of_false not_false (not_allLand h (by omega))
    · rw [if_neg h, Runs.pure_iff, ← resultFine_iff hva (by rw [hlen]; decide) (r := (k.pool j).pid)
        (by omega)]
      constructor
      · rintro ⟨n, hn, hfine⟩
        cases hn
        exact hfine
      · exact fun hfine => ⟨_, rfl, hfine⟩

/-- `get_time` and a scan of `wait` store their results in the memory of the
caller just when all the bytes are mapped, and the place of each byte is the one
behind the first byte, or both places hold it already. -/
theorem results_land_in_the_callers_memory (hva : va < 2 ^ 64)
    (hroot : (k₀.pool k₀.current_proc).pagetable = (k.pool k.current_proc).pagetable)
    (hpages : ∀ a, userPage k.mm.mem (k.pool k.current_proc).pagetable a =
      userPage k₀.mm.mem (k.pool k.current_proc).pagetable a) (pid : Int) (cycle₀ cycle₁ : Nat) :
    (WaitFine k₀ k pid va ↔ ∀ j, zombieOf k pid = some j →
      AllLand k.mm.mem (k.pool k.current_proc).pagetable va (codeBytes (k.pool j).exit_code)) ∧
    (TimeFine k va cycle₀ cycle₁ ↔
      AllLand k.mm.mem (k.pool k.current_proc).pagetable va (timeBytes cycle₀ cycle₁)) :=
  ⟨waitFine_iff hva hroot hpages pid, timeFine_iff hva cycle₀ cycle₁⟩

/-- Results on the one page of a process. -/
theorem results_land_in_the_callers_memory_of_one_page :
    (WaitFine onePageKernel onePageKernel 0 0 ↔ ∀ j, zombieOf onePageKernel 0 = some j →
      AllLand onePageKernel.mm.mem 0x1000 0 (codeBytes (onePageKernel.pool j).exit_code)) ∧
    (TimeFine onePageKernel 0 0 0 ↔ AllLand onePageKernel.mm.mem 0x1000 0 (timeBytes 0 0)) :=
  results_land_in_the_callers_memory (by decide) rfl (fun _ => rfl) 0 0 0

/-- The time goes to an address that is not mapped. -/
theorem a_time_at_no_page_stops_the_machine :
    ¬ ∀ (k : Kernel) (ts cycle₀ cycle₁ : Nat), ts < 2 ^ 64 →
    TimeFine k ts cycle₀ cycle₁ := by
  intro hall
  have hland := (timeFine_iff (by decide) 0 0).mp (hall onePageKernel (2 ^ 38) 0 0 (by decide))
  exact not_mapped_top _ _ (hland 0 (by decide)).1

end ThuKernel

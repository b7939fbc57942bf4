-- Copies of strings from user pages: where `copyinstr` stops, and with which
-- bytes.
import ThuKernel.Vm.CopyOut

namespace ThuKernel

variable {E : Stop → Prop} {s : Mm} {mem : Bytes} {root va n max len : Nat}

/-- The byte at a user address. -/
def userByte (mem : Bytes) (root a : Nat) : Byte := mem (userAddr mem root a)

/-- The `n` bytes from a user address on are no NUL. -/
def NoNul (mem : Bytes) (root va n : Nat) : Prop := ∀ u < n, userByte mem root (va + u) ≠ 0

/-- How a string copy of at most `max` bytes ends, `len` bytes after its start:
with a NUL, with `max` bytes that are none, or before a byte that is not
mapped. -/
structure CopiedStr (s : Mm) (root va max len : Nat) (r : Int × List Byte) : Prop where
  bytes : r.2 = userBytes s.mem root va r.2.length
  mapped : ∀ u < r.2.length, Mapped s.mem root (va + u)
  result : (∃ n < max, r.1 = (len + n : Nat) ∧ r.2.length = n + 1 ∧ NoNul s.mem root va n ∧
        userByte s.mem root (va + n) = 0) ∨
      (r.1 = (len + max : Nat) ∧ r.2.length = max ∧ NoNul s.mem root va max) ∨
      (r.1 = -1 ∧ r.2.length < max ∧ NoNul s.mem root va r.2.length ∧
        ¬ Mapped s.mem root (va + r.2.length))

theorem userByte_mod (mem : Bytes) (root a b : Nat) :
    userByte mem root (a % 2 ^ 64 + b) = userByte mem root (a + b) := by
  unfold userByte
  rw [userAddr_mod]

theorem noNul_mod : NoNul mem root (va % 2 ^ 64) n ↔ NoNul mem root va n := by
  unfold NoNul
  simp only [userByte_mod]

theorem NoNul.append {m : Nat} (h : NoNul mem root va m) (h' : NoNul mem root (va + m) n) :
    NoNul mem root va (m + n) := by
  intro u hu
  by_cases hlt : u < m
  · exact h u hlt
  · have := h' (u - m) (by omega)
    rwa [Nat.add_assoc, Nat.add_sub_cancel' (by omega)] at this

/-- The characters of one page, up to a NUL. -/
theorem copyChars_eq (mem : Bytes) (p n : Nat) :
    (copyChars mem p n).1 = mem.load p (copyChars mem p n).1.length ∧
      (((copyChars mem p n).2 = true ∧ ∃ m < n, (copyChars mem p n).1.length = m + 1 ∧
          (∀ u < m, mem (p + u) ≠ 0) ∧ mem (p + m) = 0) ∨
        ((copyChars mem p n).2 = false ∧ (copyChars mem p n).1.length = n ∧
        ∀ u < n, mem (p + u) ≠ 0)) := by
  have hload : ∀ (q m : Nat), mem.load q (m + 1) = mem q :: mem.load (q + 1) m := by
    intro q m
    unfold Bytes.load
    rw [List.range_succ_eq_map, List.map_cons, List.map_map, Nat.add_zero]
    refine congrArg (_ :: ·) (List.map_congr_left fun i _ => ?_)
    rw [Function.comp_apply, Nat.succ_eq_add_one, Nat.add_assoc, Nat.add_comm 1 i]
  have hshift : ∀ {q m : Nat}, mem q ≠ 0 → (∀ u < m, mem (q + 1 + u) ≠ 0) →
      ∀ u < m + 1, mem (q + u) ≠ 0 := by
    intro q m h0 hrest u hu
    cases u with
    | zero => exact h0
    | succ u =>
      have := hrest u (by omega)
      rwa [Nat.add_assoc, Nat.add_comm 1 u] at this
  induction n generalizing p with
  | zero => exact ⟨rfl, Or.inr ⟨rfl, rfl, fun u hu => absurd hu (Nat.not_lt_zero u)⟩⟩
  | succ n ih =>
    unfold copyChars
    split
    · rename_i h0
      refine ⟨?_, Or.inl ⟨rfl, 0, Nat.succ_pos n, rfl, fun u hu => absurd hu (Nat.not_lt_zero u),
        h0⟩⟩
      rw [List.length_singleton, hload, h0]
      rfl
    · rename_i h0
      obtain ⟨hbytes, hend⟩ := ih (p + 1)
      dsimp only
      refine ⟨?_, ?_⟩
      · rw [List.length_cons, hload, ← hbytes]
      · rcases hend with ⟨hnull, m, hm, hlen, hno, hzero⟩ | ⟨hnull, hlen, hno⟩
        · refine Or.inl ⟨hnull, m + 1, by omega, by rw [List.length_cons, hlen], hshift h0 hno, ?_⟩
          rwa [Nat.add_assoc, Nat.add_comm 1 m] at hzero
        · exact Or.inr ⟨hnull, by rw [List.length_cons, hlen], hshift h0 hno⟩

/-- Inside the first page, the bytes of the user are those of the page. -/
theorem userByte_page {u : Nat} (hva : va < 2 ^ 64) (hu : u < PGSIZE - (va - PGROUNDDOWN va)) :
    userByte mem root (va + u) = mem (userPage mem root (PGROUNDDOWN va) +
      (va - PGROUNDDOWN va) + u) := by
  unfold userByte
  rw [userAddr_page hva hu]

/-- The first page without a NUL, and then the copy from the page after it. -/
theorem CopiedStr.page {r : Int × List Byte} (hva : va < 2 ^ 64)
    (hn : n = min (PGSIZE - (va - PGROUNDDOWN va)) max)
    (hpa : userPage s.mem root (PGROUNDDOWN va) ≠ 0) (hno : NoNul s.mem root va n)
    (h : CopiedStr s root ((PGROUNDDOWN va + PGSIZE) % 2 ^ 64) (max - n) (len + n) r) :
    CopiedStr s root va max len (r.1,
      s.mem.load (userPage s.mem root (PGROUNDDOWN va) + (va - PGROUNDDOWN va)) n ++ r.2) := by
  have h1 := PGROUNDDOWN_le va
  have h2 := lt_PGROUNDDOWN_add va
  obtain ⟨hbytes, hall, hend⟩ := h
  simp only [mapped_mod, userByte_mod, noNul_mod] at hall hend
  rw [userBytes_mod] at hbytes
  have hlen : (s.mem.load (userPage s.mem root (PGROUNDDOWN va) + (va - PGROUNDDOWN va)) n ++
      r.2).length =
      n + r.2.length := by rw [List.length_append, Bytes.length_load]
  -- Behind the first page, both addresses are the same.
  have hshort : r.2.length ≤ max - n := by
    rcases hend with ⟨m, hm, _, h3, _⟩ | ⟨_, h3, _⟩ | ⟨_, h3, _⟩
    · omega
    · omega
    · omega
  have hnext : r.2.length ≠ 0 ∨ max ≠ n → PGROUNDDOWN va + PGSIZE = va + n := by
    clear hend
    omega
  have hfits : n ≤ PGSIZE - (va - PGROUNDDOWN va) := by omega
  have hle : n ≤ max := by omega
  clear hn
  refine ⟨?_, fun u hu => ?_, ?_⟩
  · rw [hlen, userBytes_add, userBytes_page hva hfits]
    refine congrArg (_ ++ ·) ?_
    by_cases h0 : r.2.length = 0
    · rw [h0]
      exact List.length_eq_zero_iff.mp h0
    · rw [← hnext (Or.inl h0)]
      exact hbytes
  · rw [hlen] at hu
    by_cases hlt : u < n
    · exact (mapped_page hva (hlt.trans_le hfits)).mpr hpa
    · have := hall (u - n) (by omega)
      rwa [hnext (Or.inl (by omega)), Nat.add_assoc, Nat.add_sub_cancel' (by omega)] at this
  · rw [hlen]
    rcases hend with ⟨m, hm, h3, h4, h5, h6⟩ | ⟨h3, h4, h5⟩ | ⟨h3, h4, h5, h6⟩
    · have hat := hnext (Or.inl (by omega))
      rw [hat] at h5 h6
      refine Or.inl ⟨n + m, by omega, by rw [h3]; omega, by omega, hno.append h5, ?_⟩
      rw [← Nat.add_assoc]
      exact h6
    · refine Or.inr (Or.inl ⟨by rw [h3]; omega, by omega, ?_⟩)
      by_cases hfull : max = n
      · rw [hfull]
        exact hno
      · rw [hnext (Or.inr hfull)] at h5
        have := hno.append h5
        rwa [Nat.add_sub_cancel' hle] at this
    · have hat := hnext (Or.inr (by omega))
      rw [hat] at h5 h6
      exact Or.inr (Or.inr ⟨h3, by omega, hno.append h5, by rwa [← Nat.add_assoc]⟩)

/-- What `copyinstr` gives. -/
theorem copyinstr_copies (root va max : Nat) :
    Runs E (copyinstr root va max) s (fun r s' => s' = s ∧ CopiedStr s root va max 0 r) := by
  have hloop : ∀ fuel va max len, max < fuel → va < 2 ^ 64 →
      Runs E (copyinstrLoop root fuel va max len) s (fun r s' => s' = s ∧
        CopiedStr s root va max len r) := by
    intro fuel
    induction fuel with
    | zero => intro va max len h; omega
    | succ fuel ih =>
      intro va max len h hva
      have h1 := PGROUNDDOWN_le va
      have h2 := lt_PGROUNDDOWN_add va
      unfold copyinstrLoop
      split
      · rename_i h0
        subst h0
        exact ⟨rfl, rfl, fun u hu => absurd hu (Nat.not_lt_zero u),
          Or.inr (Or.inl ⟨rfl, rfl, fun u hu => absurd hu (Nat.not_lt_zero u)⟩)⟩
      · rw [Runs.bind_iff, runs_walkaddr]
        split
        · rename_i hpa
          refine ⟨rfl, rfl, fun u hu => absurd hu (Nat.not_lt_zero u), Or.inr (Or.inr ⟨rfl, ?_,
            fun u hu => absurd hu (Nat.not_lt_zero u), ?_⟩)⟩
          · rw [List.length_nil]
            omega
          · rw [List.length_nil, mapped_page hva (by omega)]
            exact fun hn => hn hpa
        · rename_i hpa
          dsimp only
          rw [Runs.bind_iff, Runs.get_iff]
          generalize hn : min (PGSIZE - (va - PGROUNDDOWN va)) max = n
          have hfits : n ≤ PGSIZE - (va - PGROUNDDOWN va) := by omega
          have hle : n ≤ max := by omega
          obtain ⟨hchars, hend⟩ := copyChars_eq s.mem
            (userPage s.mem root (PGROUNDDOWN va) + (va - PGROUNDDOWN va)) n
          generalize copyChars s.mem (userPage s.mem root (PGROUNDDOWN va) + (va - PGROUNDDOWN va))
            n = c at hchars hend
          obtain ⟨here, got_null⟩ := c
          dsimp only at hchars hend ⊢
          rcases hend with ⟨rfl, m, hm, hlen, hno, hzero⟩ | ⟨rfl, hlen, hno⟩
          · rw [if_pos rfl, Runs.pure_iff]
            refine ⟨rfl, ?_, fun u hu => ?_, Or.inl ⟨m, by omega, ?_, hlen, fun u hu => ?_, ?_⟩⟩
            · dsimp only
              rw [hlen, userBytes_page hva (by omega), ← hlen]
              exact hchars
            · dsimp only at hu
              exact (mapped_page hva (by omega)).mpr hpa
            · dsimp only
              rw [hlen]
              rfl
            · rw [userByte_page hva (by omega)]
              exact hno u hu
            · rw [userByte_page hva (by omega)]
              exact hzero
          · rw [if_neg (by decide), Runs.bind_iff]
            have hno' : NoNul s.mem root va n := by
              intro u hu
              rw [userByte_page hva (by omega)]
              exact hno u hu
            apply (ih _ (max - n) (len + n) (by omega) (Nat.mod_lt _ (by omega))).imp
            rintro r s' ⟨rfl, hr⟩
            rw [hlen] at hchars
            rw [Runs.pure_iff, hchars]
            exact ⟨rfl, hr.page hva hn.symm hpa hno'⟩
  apply (hloop _ _ _ _ (Nat.lt_succ_self max) (Nat.mod_lt va (by decide : 0 < 2 ^ 64))).imp
  rintro r s' ⟨hs, hbytes, hall, hend⟩
  simp only [mapped_mod, userByte_mod, noNul_mod] at hall hend
  rw [userBytes_mod] at hbytes
  exact ⟨hs, hbytes, hall, hend⟩

end ThuKernel

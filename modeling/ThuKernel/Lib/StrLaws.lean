-- C strings in buffers: which string a buffer holds, and what `strncmp` compares.
import ThuKernel.Lib.Str

namespace ThuKernel

namespace CStr

variable {b b' : Bytes} {o n : Nat} {l : List Byte} {s t : CStr}

theorem ext (h : s.bytes = t.bytes) : s = t := by
  cases s
  cases t
  cases h
  rfl

/-! ## The string of a buffer -/

theorem find_congr (h : ∀ i < n, b (o + i) = b' (o + i)) : find b o n = find b' o n := by
  induction n generalizing o with
  | zero => rfl
  | succ n ih =>
    have h0 : b o = b' o := h 0 (Nat.succ_pos n)
    unfold find
    rw [h0, ih fun i hi => by rw [Nat.add_assoc, Nat.add_comm 1 i]; exact h (i + 1) (by omega)]

theorem find_shift (p : Bytes) (o n : Nat) : find (fun i => p (i + 1)) o n = find p (o + 1) n := by
  induction n generalizing o with
  | zero => rfl
  | succ n ih =>
    unfold find
    rw [ih (o + 1)]

theorem length_find (b : Bytes) (o n : Nat) : (find b o n).length ≤ n := by
  induction n generalizing o with
  | zero => exact Nat.le_refl 0
  | succ n ih =>
    unfold find
    split
    · exact Nat.zero_le _
    · exact Nat.succ_le_succ (ih (o + 1))

/-- A shorter search gives the first bytes. -/
theorem take_find {m : Nat} (hm : m ≤ n) : (find b o n).take m = find b o m := by
  induction n generalizing o m with
  | zero =>
    obtain rfl : m = 0 := Nat.le_zero.mp hm
    rfl
  | succ n ih =>
    cases m with
    | zero => rfl
    | succ m =>
      unfold find
      split
      · rfl
      · rw [List.take_succ_cons, ih (Nat.le_of_succ_le_succ hm)]

theorem getElem_find {i : Nat} (hi : i < (find b o n).length) : (find b o n)[i] = b (o + i) := by
  induction n generalizing o i with
  | zero => exact absurd hi (Nat.not_lt_zero i)
  | succ n ih =>
    by_cases h0 : b o = 0
    · rw [find, if_pos h0] at hi
      exact absurd hi (Nat.not_lt_zero i)
    · have hfind : find b o (n + 1) = b o :: find b (o + 1) n := by rw [find, if_neg h0]
      cases i with
      | zero =>
        simp only [hfind, List.getElem_cons_zero]
        rfl
      | succ i =>
        simp only [hfind, List.getElem_cons_succ]
        rw [hfind, List.length_cons] at hi
        rw [ih (Nat.lt_of_succ_lt_succ hi), Nat.add_assoc, Nat.add_comm 1 i]

/-- Bytes that are no NUL begin the string. -/
theorem find_append (hl : ∀ i (hi : i < l.length), b (o + i) = l[i]) (hne : ∀ x ∈ l, x ≠ 0)
    (hn : l.length ≤ n) :
    find b o n = l ++ find b (o + l.length) (n - l.length) := by
  induction l generalizing o n with
  | nil => rfl
  | cons x l ih =>
    obtain ⟨m, rfl⟩ : ∃ m, n = m + 1 := ⟨n - 1, by rw [List.length_cons] at hn; omega⟩
    have h0 : b o = x := hl 0 (Nat.succ_pos _)
    have hx : b o ≠ 0 := by
      rw [h0]
      exact hne x (List.mem_cons_self ..)
    have hrest : ∀ i (hi : i < l.length), b (o + 1 + i) = l[i] := by
      intro i hi
      have := hl (i + 1) (Nat.succ_lt_succ hi)
      rwa [Nat.add_assoc, Nat.add_comm 1 i]
    rw [List.length_cons] at hn
    rw [find, if_neg hx, h0, ih hrest (fun y hy => hne y (List.mem_cons_of_mem _ hy)) (by omega),
      List.length_cons, List.cons_append, Nat.add_sub_add_right, Nat.add_assoc o, Nat.add_comm 1]

/-- The string ends at the first NUL. -/
theorem find_nul (hl : ∀ i (hi : i < l.length), b (o + i) = l[i]) (hne : ∀ x ∈ l, x ≠ 0)
    (hn : l.length < n) (h0 : b (o + l.length) = 0) : find b o n = l := by
  obtain ⟨m, hm⟩ : ∃ m, n - l.length = m + 1 := ⟨n - l.length - 1, by omega⟩
  rw [find_append hl hne hn.le, hm, find, if_pos h0, List.append_nil]

/-- A string that ended is the same in a longer search. -/
theorem find_longer {m : Nat} (h : (find b o n).length < n) (hm : n ≤ m) :
    find b o m = find b o n := by
  induction n generalizing o m with
  | zero => exact absurd h (Nat.not_lt_zero _)
  | succ n ih =>
    obtain ⟨m, rfl⟩ : ∃ m', m = m' + 1 := ⟨m - 1, by omega⟩
    unfold find at h ⊢
    split
    · rfl
    · rename_i h0
      rw [if_neg h0, List.length_cons] at h
      rw [ih (by omega) (by omega)]

theorem read_eq {i : Nat} (hi : i < s.bytes.length) : s.read i = s.bytes[i] := by
  unfold read
  rw [List.getElem?_eq_getElem hi]
  rfl

theorem read_end : s.read s.bytes.length = 0 := by
  unfold read
  rw [List.getElem?_eq_none (Nat.le_refl _)]
  rfl

/-- A string that fits is what its own bytes spell. -/
theorem ofBytes_read (h : s.bytes.length ≤ n) : ofBytes s.read 0 n = s := by
  apply ext
  have hread : ∀ i (hi : i < s.bytes.length), s.read (0 + i) = s.bytes[i] := by
    intro i hi
    rw [Nat.zero_add]
    exact read_eq hi
  rcases Nat.lt_or_eq_of_le h with hlt | heq
  · apply find_nul hread s.nonzero hlt
    rw [Nat.zero_add]
    exact read_end
  · have := find_append hread s.nonzero h
    rwa [heq, Nat.sub_self, find, List.append_nil] at this

/-- The bytes of a string may be stored over themselves. -/
theorem read_store {l : List Byte} (h : l <+: s.bytes) : s.read.store 0 l = s.read := by
  obtain ⟨t, ht⟩ := h
  funext x
  by_cases hx : x < l.length
  · have hlt : x < s.bytes.length := by
      rw [← ht, List.length_append]
      omega
    rw [Bytes.store_inside (Nat.zero_le x) hx, read_eq hlt]
    simp [← ht, hx]
  · exact Bytes.store_outside (Or.inr (by omega))

end CStr

/-! ## Comparing -/

theorem strncmp_congr {p p' q q' : Bytes} {n : Nat} (hp : ∀ i < n, p i = p' i)
    (hq : ∀ i < n, q i = q' i) :
    strncmp p q n = strncmp p' q' n := by
  induction n generalizing p p' q q' with
  | zero => rfl
  | succ n ih =>
    unfold strncmp
    rw [hp 0 (Nat.succ_pos n), hq 0 (Nat.succ_pos n),
      ih (fun i hi => hp (i + 1) (by omega)) (fun i hi => hq (i + 1) (by omega))]

/-- `strncmp` compares strings, of at most `n` bytes. -/
theorem strncmp_eq_zero {p q : Bytes} {n : Nat} :
    strncmp p q n = 0 ↔ CStr.find p 0 n = CStr.find q 0 n := by
  induction n generalizing p q with
  | zero => exact ⟨fun _ => rfl, fun _ => rfl⟩
  | succ n ih =>
    unfold strncmp CStr.find
    by_cases hp : p 0 = 0
    · rw [if_neg (fun hc => hc.1 hp), if_pos hp]
      by_cases hq : q 0 = 0
      · rw [if_pos hq, hp, hq]
        exact ⟨fun _ => rfl, fun _ => rfl⟩
      · rw [if_neg hq, hp]
        refine iff_of_false (fun hc => hq ?_) (fun hc => by cases hc)
        apply BitVec.eq_of_toNat_eq
        simpa using hc
    · by_cases heq : p 0 = q 0
      · rw [if_pos ⟨hp, heq⟩, if_neg hp, if_neg (heq ▸ hp), ih, CStr.find_shift, CStr.find_shift,
          heq, List.cons.injEq]
        exact ⟨fun h => ⟨rfl, h⟩, fun h => h.2⟩
      · rw [if_neg (fun hc => heq hc.2), if_neg hp]
        refine iff_of_false (fun hc => heq ?_) (fun hc => heq ?_)
        · apply BitVec.eq_of_toNat_eq
          omega
        · by_cases hq : q 0 = 0
          · rw [if_pos hq] at hc
            cases hc
          · rw [if_neg hq] at hc
            exact (List.cons.inj hc).1

theorem CStr.find_read (s : CStr) (n : Nat) : CStr.find s.read 0 n = s.bytes.take n := by
  have hread : ∀ i (hi : i < (s.bytes.take n).length), s.read (0 + i) = (s.bytes.take n)[i] := by
    intro i hi
    rw [List.length_take] at hi
    rw [Nat.zero_add, CStr.read_eq (by omega), List.getElem_take]
  have hne : ∀ x ∈ s.bytes.take n, x ≠ 0 := fun x hx => s.nonzero x (List.mem_of_mem_take hx)
  by_cases hn : s.bytes.length < n
  · rw [List.take_of_length_le hn.le] at hread hne ⊢
    apply CStr.find_nul hread hne hn
    rw [Nat.zero_add]
    exact CStr.read_end
  · have hlen : (s.bytes.take n).length = n := by
      rw [List.length_take]
      omega
    have := CStr.find_append hread hne hlen.le
    rwa [hlen, Nat.sub_self, CStr.find, List.append_nil] at this

end ThuKernel

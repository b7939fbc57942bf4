-- A memory as pages of one size: changes that leave some pages alone, and a
-- list of pages that is linked through their first words.
import ThuKernel.Lib.Bytes

namespace ThuKernel

open Bytes

variable {P : Nat} {keep keep' : Nat → Prop} {m m₁ m₂ : Bytes}

/-! ## Changes by pages -/

/-- The pages that `keep` says are the same in both memories. -/
def SameOn (P : Nat) (keep : Nat → Prop) (m m' : Bytes) : Prop :=
  ∀ x, keep (x / P * P) → m' x = m x

/-- A byte inside a page lies in it. -/
theorem page_of_inside {t o : Nat} (ht : t % P = 0) (ho : o < P) : (t + o) / P * P = t := by
  have hP : 0 < P := by omega
  obtain ⟨q, rfl⟩ := Nat.dvd_of_mod_eq_zero ht
  rw [Nat.mul_add_div hP, Nat.div_eq_of_lt ho, Nat.add_zero, Nat.mul_comm]

/-- A byte of another page is not inside. -/
theorem outside_of_page_ne {t x : Nat} (ht : t % P = 0) (hx : x / P * P ≠ t) :
    x < t ∨ t + P ≤ x := by
  by_contra hc
  push Not at hc
  have := page_of_inside (o := x - t) ht (by omega)
  rw [show t + (x - t) = x by omega] at this
  exact hx this

namespace SameOn

theorem refl : SameOn P keep m m := fun _ _ => rfl

theorem trans (h : SameOn P keep m m₁) (h' : SameOn P keep m₁ m₂) : SameOn P keep m m₂ := by
  intro x hx
  rw [h' x hx, h x hx]

theorem mono (h : SameOn P keep m m₁) (hk : ∀ a, keep' a → keep a) : SameOn P keep' m m₁ :=
  fun x hx => h x (hk _ hx)

theorem byte (h : SameOn P keep m m₁) {t o : Nat} (ht : t % P = 0) (hkeep : keep t) (ho : o < P) :
    m₁ (t + o) = m (t + o) := by
  apply h
  rwa [page_of_inside ht ho]

theorem get64 (h : SameOn P keep m m₁) {t o : Nat} (ht : t % P = 0) (hkeep : keep t)
    (ho : o + 8 ≤ P) : get64 m₁ (t + o) = get64 m (t + o) := by
  apply getLE_congr
  intro i hi
  rw [Nat.add_assoc]
  exact h.byte ht hkeep (by omega)

theorem putLE {n t o v : Nat} (ht : t % P = 0) (ho : o + n ≤ P) :
    SameOn P (· ≠ t) m (putLE n m (t + o) v) := by
  intro x hx
  apply putLE_outside
  rcases outside_of_page_ne ht hx with h | h
  · exact Or.inl (by omega)
  · exact Or.inr (by omega)

theorem put64 {t o v : Nat} (ht : t % P = 0) (ho : o + 8 ≤ P) :
    SameOn P (· ≠ t) m (m.put64 (t + o) v) := putLE ht ho

theorem put32 {t o v : Nat} (ht : t % P = 0) (ho : o + 4 ≤ P) :
    SameOn P (· ≠ t) m (m.put32 (t + o) v) := putLE ht ho

theorem fill {t n : Nat} {c : Byte} (ht : t % P = 0) (hn : n ≤ P) :
    SameOn P (· ≠ t) m (m.fill t n c) := by
  intro x hx
  apply fill_outside
  rcases outside_of_page_ne ht hx with h | h
  · exact Or.inl h
  · exact Or.inr (by omega)

theorem store {t o : Nat} {l : List Byte} (ht : t % P = 0) (hl : o + l.length ≤ P) :
    SameOn P (· ≠ t) m (m.store (t + o) l) := by
  intro x hx
  apply store_outside
  rcases outside_of_page_ne ht hx with h | h
  · exact Or.inl (by omega)
  · exact Or.inr (by omega)

end SameOn

/-- A page of zeros. -/
theorem get64_fill_zero {t o : Nat} (ho : o + 8 ≤ P) : get64 (m.fill t P 0) (t + o) = 0 := by
  apply getLE_zero
  intro i hi
  exact fill_inside (by omega) (by omega)

/-! ## Linked pages -/

/-- The pages of the list are linked from `head` on, and the last one is
linked to 0. -/
def Chain (m : Bytes) : Nat → List Nat → Prop
  | head, [] => head = 0
  | head, a :: l => head = a ∧ a ≠ 0 ∧ Chain m (m.get64 a) l

theorem Chain.same {head : Nat} {l : List Nat} (h : Chain m head l) (hP : 8 ≤ P)
    (hl : ∀ a ∈ l, a % P = 0 ∧ keep a) (hsame : SameOn P keep m m₁) : Chain m₁ head l := by
  induction l generalizing head with
  | nil => exact h
  | cons a l ih =>
    obtain ⟨h1, h2, h3⟩ := h
    obtain ⟨ha, hkeep⟩ := hl a (List.mem_cons_self ..)
    refine ⟨h1, h2, ?_⟩
    have := hsame.get64 (o := 0) ha hkeep (by omega)
    rw [Nat.add_zero] at this
    rw [this]
    exact ih h3 fun b hb => hl b (List.mem_cons_of_mem _ hb)

theorem Chain.head_eq_zero_iff {head : Nat} {l : List Nat} (h : Chain m head l) :
    head = 0 ↔ l = [] := by
  cases l with
  | nil =>
    constructor
    · intro _
      rfl
    · intro _
      exact h
  | cons a l =>
    obtain ⟨h1, h2, _⟩ := h
    constructor
    · intro h0
      omega
    · intro hl
      cases hl

end ThuKernel

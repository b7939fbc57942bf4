-- Blocks with an allocation map and the places that refer to them: each place
-- holds a block number, or 0. A block in use has exactly one place.
import Mathlib.Logic.Function.Basic

namespace ThuKernel

variable {ι : Type} {lo top b : Nat} {used used' : Nat → Bool} {ref ref' : ι → Nat} {i : ι}

/-- The places hold different blocks of `[lo, top)`, and these are the ones in
use. -/
structure Owned (lo top : Nat) (used : Nat → Bool) (ref : ι → Nat) : Prop where
  range : ∀ i, ref i ≠ 0 → lo ≤ ref i ∧ ref i < top
  marked : ∀ i, ref i ≠ 0 → used (ref i) = true
  one : ∀ i j, ref i ≠ 0 → ref i = ref j → i = j
  all : ∀ b, lo ≤ b → b < top → used b = true → ∃ i, ref i = b

namespace Owned

theorem congr (h : Owned lo top used ref) (hused : ∀ b, lo ≤ b → b < top → used' b = used b)
    (href : ∀ i, ref' i = ref i) : Owned lo top used' ref' := by
  refine ⟨fun i hi => ?_, fun i hi => ?_, fun i j hi hij => ?_, fun b hlo hhi hb => ?_⟩
  · rw [href] at hi ⊢
    exact h.range i hi
  · rw [href] at hi ⊢
    obtain ⟨h1, h2⟩ := h.range i hi
    rw [hused _ h1 h2]
    exact h.marked i hi
  · rw [href] at hi
    rw [href, href] at hij
    exact h.one i j hi hij
  · rw [hused b hlo hhi] at hb
    obtain ⟨i, hi⟩ := h.all b hlo hhi hb
    exact ⟨i, (href i).trans hi⟩

/-- A block in no use is in no place. -/
theorem ref_ne (h : Owned lo top used ref) (hb : used b = false) (hb0 : b ≠ 0) (i : ι) :
    ref i ≠ b := by
  rintro rfl
  rw [h.marked i hb0] at hb
  cases hb

/-- A block in no use goes into an empty place. -/
theorem alloc (h : Owned lo top used ref) (hpos : 0 < lo) (hlo : lo ≤ b) (hhi : b < top)
    (hb : used b = false) (hi0 : ref i = 0)
    (hused : ∀ c, lo ≤ c → c < top → used' c = (decide (c = b) || used c)) (hnew : ref' i = b)
    (hold : ∀ j ≠ i, ref' j = ref j) : Owned lo top used' ref' := by
  have hcases : ∀ j, ref' j ≠ 0 → j = i ∧ ref' j = b ∨ j ≠ i ∧ ref' j = ref j ∧ ref j ≠ 0 := by
    intro j hj
    by_cases hji : j = i
    · exact Or.inl ⟨hji, by rw [hji, hnew]⟩
    · rw [hold j hji] at hj
      exact Or.inr ⟨hji, hold j hji, hj⟩
  refine ⟨fun j hj => ?_, fun j hj => ?_, fun j k hj hjk => ?_, fun c hclo hchi hc => ?_⟩
  · rcases hcases j hj with ⟨_, hr⟩ | ⟨_, hr, h0⟩
    · rw [hr]
      exact ⟨hlo, hhi⟩
    · rw [hr]
      exact h.range j h0
  · rcases hcases j hj with ⟨_, hr⟩ | ⟨_, hr, h0⟩
    · rw [hr, hused b hlo hhi, decide_eq_true rfl, Bool.true_or]
    · obtain ⟨h1, h2⟩ := h.range j h0
      rw [hr, hused _ h1 h2, h.marked j h0, Bool.or_true]
  · have hk : ref' k ≠ 0 := by rwa [← hjk]
    rcases hcases j hj with ⟨hji, hr⟩ | ⟨_, hr, h0⟩
    · rcases hcases k hk with ⟨hki, _⟩ | ⟨_, hr', _⟩
      · rw [hji, hki]
      · rw [hr, hr'] at hjk
        exact absurd hjk.symm (h.ref_ne hb (by omega) k)
    · rcases hcases k hk with ⟨_, hr'⟩ | ⟨_, hr', _⟩
      · rw [hr, hr'] at hjk
        exact absurd hjk (h.ref_ne hb (by omega) j)
      · rw [hr, hr'] at hjk
        exact h.one j k h0 hjk
  · rw [hused c hclo hchi, Bool.or_eq_true, decide_eq_true_iff] at hc
    rcases hc with rfl | hc
    · exact ⟨i, hnew⟩
    · obtain ⟨j, hj⟩ := h.all c hclo hchi hc
      have hji : j ≠ i := by
        rintro rfl
        rw [hi0] at hj
        omega
      exact ⟨j, (hold j hji).trans hj⟩

/-- The blocks of some places go out of use, and these places are empty. -/
theorem drop (h : Owned lo top used ref) (S : ι → Prop)
    (hused : ∀ c, lo ≤ c → c < top → (used' c = true ↔ used c = true ∧ ∀ i, S i → ref i ≠ c))
    (hnew : ∀ i, S i → ref' i = 0)
    (hold : ∀ i, ¬ S i → ref' i = ref i) : Owned lo top used' ref' := by
  have hcases : ∀ j, ref' j ≠ 0 → ¬ S j ∧ ref' j = ref j ∧ ref j ≠ 0 := by
    intro j hj
    have hS : ¬ S j := fun hS => hj (hnew j hS)
    rw [hold j hS] at hj
    exact ⟨hS, hold j hS, hj⟩
  refine ⟨fun j hj => ?_, fun j hj => ?_, fun j k hj hjk => ?_, fun c hclo hchi hc => ?_⟩
  · obtain ⟨_, hr, h0⟩ := hcases j hj
    rw [hr]
    exact h.range j h0
  · obtain ⟨hS, hr, h0⟩ := hcases j hj
    obtain ⟨h1, h2⟩ := h.range j h0
    rw [hr, hused _ h1 h2]
    refine ⟨h.marked j h0, fun i hi hij => hS ?_⟩
    rwa [← h.one i j (by rwa [hij]) hij]
  · have hk : ref' k ≠ 0 := by rwa [← hjk]
    obtain ⟨_, hr, h0⟩ := hcases j hj
    obtain ⟨_, hr', _⟩ := hcases k hk
    rw [hr, hr'] at hjk
    exact h.one j k h0 hjk
  · rw [hused c hclo hchi] at hc
    obtain ⟨j, hj⟩ := h.all c hclo hchi hc.1
    have hS : ¬ S j := fun hS => hc.2 j hS hj
    exact ⟨j, (hold j hS).trans hj⟩

end Owned

end ThuKernel

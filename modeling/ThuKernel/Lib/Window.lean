-- A ring with two counters that never stop counting and wrap around on their
-- own: the items between the counters, oldest first.
import Mathlib.Data.Nat.ModEq
import Mathlib.Logic.Function.Basic

namespace ThuKernel

/-- The ring of `N` places holds `l` from the counter `lo` up to the counter
`hi`. Counters are below `M`. -/
structure Window {α : Type} (N M : Nat) (ring : Nat → α) (lo hi : Nat) (l : List α) : Prop where
  low : lo < M
  high : hi = (lo + l.length) % M
  room : l.length ≤ N
  items : ∀ t (ht : t < l.length), ring ((lo + t) % N) = l[t]

namespace Window

variable {α : Type} {N M lo hi : Nat} {ring : Nat → α} {l : List α} {a : α}

theorem nil (h : lo < M) : Window N M ring lo lo [] := by
  refine ⟨h, ?_, Nat.zero_le N, fun t ht => absurd ht (Nat.not_lt_zero t)⟩
  rw [List.length_nil, Nat.add_zero, Nat.mod_eq_of_lt h]

/-- The counters are the same just when nothing is between them. -/
theorem eq_iff (h : Window N M ring lo hi l) (hN : N < M) : lo = hi ↔ l = [] := by
  have hroom := h.room
  have hlow := h.low
  rw [h.high]
  constructor
  · intro heq
    have hmod : 0 ≡ l.length [MOD M] := Nat.ModEq.add_left_cancel' lo (by
      rw [Nat.ModEq, Nat.add_zero, Nat.mod_eq_of_lt hlow]
      exact heq)
    exact List.length_eq_zero_iff.mp (hmod.eq_of_lt_of_lt (by omega) (by omega)).symm
  · rintro rfl
    rw [List.length_nil, Nat.add_zero, Nat.mod_eq_of_lt hlow]

/-- An item goes in at the upper counter. -/
theorem push (h : Window N M ring lo hi l) (hN : N ∣ M) (hroom : l.length < N) :
    Window N M (Function.update ring (hi % N) a) lo ((hi + 1) % M) (l ++ [a]) := by
  have hplace : hi % N = (lo + l.length) % N := by rw [h.high, Nat.mod_mod_of_dvd _ hN]
  refine ⟨h.low, ?_, ?_, fun t ht => ?_⟩
  · rw [h.high, Nat.mod_add_mod, List.length_append, List.length_singleton, Nat.add_assoc]
  · rw [List.length_append, List.length_singleton]
    exact hroom
  · rw [List.length_append, List.length_singleton] at ht
    by_cases hlast : t = l.length
    · subst hlast
      rw [hplace, Function.update_self, List.getElem_concat_length rfl]
    · have hne : (lo + t) % N ≠ hi % N := by
        rw [hplace]
        intro hc
        have hmod : t ≡ l.length [MOD N] := Nat.ModEq.add_left_cancel' lo hc
        exact hlast (hmod.eq_of_lt_of_lt (by omega) hroom)
      rw [Function.update_of_ne hne, List.getElem_append_left (by omega)]
      exact h.items t (by omega)

/-- The item at the lower counter comes out. -/
theorem pop (h : Window N M ring lo hi (a :: l)) (hN : N ∣ M) :
    ring (lo % N) = a ∧ Window N M ring ((lo + 1) % M) hi l := by
  have hroom := h.room
  have hhigh := h.high
  rw [List.length_cons] at hroom hhigh
  refine ⟨h.items 0 (Nat.succ_pos _), Nat.mod_lt _ (Nat.zero_lt_of_lt h.low),
    ?_, by omega, fun t ht => ?_⟩
  · rw [hhigh, Nat.mod_add_mod]
    congr 1
    omega
  · have hplace : ((lo + 1) % M + t) % N = (lo + (t + 1)) % N := by
      rw [Nat.add_mod, Nat.mod_mod_of_dvd _ hN, ← Nat.add_mod]
      congr 1
      omega
    rw [hplace, h.items (t + 1) (Nat.succ_lt_succ ht)]
    rfl

/-- A window that is not empty has a first item. -/
theorem cons_of_ne (h : Window N M ring lo hi l) (hN : N < M) (hne : lo ≠ hi) :
    ∃ a l', l = a :: l' := by
  cases l with
  | nil => exact absurd ((h.eq_iff hN).mpr rfl) hne
  | cons a l => exact ⟨a, l, rfl⟩

end Window

end ThuKernel

-- A ring of bytes with two counters that never stop counting and wrap around
-- on their own: what is in it, and how a run of bytes goes in and comes out.
import ThuKernel.Lib.Bytes
import Mathlib.Data.Nat.ModEq

namespace ThuKernel

namespace Fifo

/-- How far the write counter is ahead of the read counter, with counters
below `M`. -/
def used (M r w : Nat) : Nat := (w + M - r) % M

/-- What is in the ring of `N` bytes, oldest first. -/
def contents (N M : Nat) (data : Bytes) (r w : Nat) : List Byte :=
  (List.range (used M r w)).map fun i => data ((r + i) % N)

variable {N M r w n : Nat} {data : Bytes}

@[simp] theorem length_contents : (contents N M data r w).length = used M r w := by
  simp [contents]

/-- The write counter is where the read counter is, plus what is in use. -/
theorem used_modEq (hr : r < M) : w % M = (r + used M r w) % M := by
  unfold used
  rw [Nat.add_mod_mod, show r + (w + M - r) = w + M by omega, Nat.add_mod_right]

theorem used_eq_zero (hr : r < M) (hw : w < M) : used M r w = 0 ↔ r = w := by
  unfold used
  constructor
  · intro h
    by_cases hle : r ≤ w
    · rw [show w + M - r = (w - r) + M by omega, Nat.add_mod_right,
        Nat.mod_eq_of_lt (by omega)] at h
      omega
    · rw [Nat.mod_eq_of_lt (by omega)] at h
      omega
  · rintro rfl
    rw [Nat.add_sub_cancel_left, Nat.mod_self]

theorem used_put (hr : r < M) (hw : w < M) (h : used M r w + n < M) :
    used M r ((w + n) % M) = used M r w + n := by
  have hu := used_modEq (w := w) hr
  have hlt : used M r w < M := Nat.mod_lt _ (by omega)
  have heq : (w + n) % M = (r + (used M r w + n)) % M := by
    rw [Nat.add_mod, hu, ← Nat.add_mod, Nat.add_assoc]
  rw [heq]
  generalize used M r w + n = m at *
  unfold used
  by_cases hn : r + m < M
  · rw [Nat.mod_eq_of_lt hn, show r + m + M - r = m + M by omega, Nat.add_mod_right,
      Nat.mod_eq_of_lt h]
  · have hwrap : (r + m) % M = r + m - M := by
      rw [Nat.mod_eq_sub_mod (by omega), Nat.mod_eq_of_lt (by omega)]
    rw [hwrap, show r + m - M + M - r = m by omega, Nat.mod_eq_of_lt h]

theorem used_take (hr : r < M) (hw : w < M) (h : n ≤ used M r w) :
    used M ((r + n) % M) w = used M r w - n := by
  have hlt : used M r w < M := Nat.mod_lt _ (by omega)
  have hr' : (r + n) % M < M := Nat.mod_lt _ (by omega)
  have hu := used_modEq (w := w) hr
  rw [Nat.mod_eq_of_lt hw] at hu
  have heq : w = ((r + n) % M + (used M r w - n)) % M := by
    rw [Nat.mod_add_mod, Nat.add_assoc, Nat.add_sub_cancel' h]
    exact hu
  have h0 : used M ((r + n) % M) ((r + n) % M) = 0 := (used_eq_zero hr' hr').mpr rfl
  have hput := used_put (n := used M r w - n) hr' hr' (by omega)
  rw [← heq, h0] at hput
  omega

/-- Bytes that fit behind the write counter join what is in the ring. -/
theorem contents_put (hN : N ∣ M) (hr : r < M) (hw : w < M) {l : List Byte}
    (hroom : used M r w + l.length ≤ N) (hlt : N < M) (hend : w % N + l.length ≤ N) :
    contents N M (data.store (w % N) l) r ((w + l.length) % M) = contents N M data r w ++ l := by
  have hmod : ∀ j, (r + (used M r w + j)) % N = (w + j) % N := by
    intro j
    have hu : w ≡ r + used M r w [MOD N] := (show w ≡ r + used M r w [MOD M] from
      used_modEq hr).of_dvd hN
    rw [← Nat.add_assoc]
    exact (hu.add_right j).symm
  apply List.ext_getElem
  · rw [length_contents, used_put hr hw (by omega), List.length_append, length_contents]
  · intro i h1 h2
    rw [length_contents, used_put hr hw (by omega)] at h1
    simp only [contents, List.getElem_map, List.getElem_range]
    by_cases hi : i < used M r w
    · rw [List.getElem_append_left (by simpa using hi)]
      simp only [List.getElem_map, List.getElem_range]
      -- A byte of the ring lies at none of the places behind it.
      refine Bytes.store_outside ?_
      by_contra hin
      obtain ⟨j, hj⟩ : ∃ j, (r + i) % N = w % N + j := ⟨(r + i) % N - w % N, by omega⟩
      have hplace : (w + j) % N = w % N + j := by
        rw [Nat.add_mod, Nat.mod_eq_of_lt (a := j) (by omega), Nat.mod_eq_of_lt (by omega)]
      have hcong : i ≡ used M r w + j [MOD N] :=
        Nat.ModEq.add_left_cancel' r (by rw [Nat.ModEq, hmod, hplace, hj])
      have := hcong.eq_of_lt_of_lt (by omega) (by omega)
      omega
    · obtain ⟨j, rfl⟩ : ∃ j, i = used M r w + j := ⟨i - used M r w, by omega⟩
      have hplace : (r + (used M r w + j)) % N = w % N + j := by
        rw [hmod, Nat.add_mod, Nat.mod_eq_of_lt (a := j) (by omega), Nat.mod_eq_of_lt (by omega)]
      rw [List.getElem_append_right (by simp), hplace, Bytes.store_inside (by omega) (by omega)]
      simp

/-- The bytes at the read counter leave the ring. -/
theorem contents_take (hN : N ∣ M) (hr : r < M) (hw : w < M) (h : n ≤ used M r w)
    (hend : r % N + n ≤ N) :
    contents N M data r w =
      data.load (r % N) n ++ contents N M data ((r + n) % M) w := by
  apply List.ext_getElem
  · rw [length_contents, List.length_append, length_contents, Bytes.length_load,
      used_take hr hw h]
    omega
  · intro i h1 h2
    rw [length_contents] at h1
    simp only [contents, List.getElem_map, List.getElem_range]
    by_cases hi : i < n
    · rw [List.getElem_append_left (by simpa using hi)]
      simp only [Bytes.load, List.getElem_map, List.getElem_range]
      rw [Nat.add_mod, Nat.mod_eq_of_lt (a := i) (by omega), Nat.mod_eq_of_lt (by omega)]
    · rw [List.getElem_append_right (by simpa using hi)]
      simp only [List.getElem_map, List.getElem_range, Bytes.length_load]
      have hplace : ((r + n) % M + (i - n)) % N = (r + i) % N := by
        rw [Nat.add_mod, Nat.mod_mod_of_dvd _ hN, ← Nat.add_mod]
        congr 1
        omega
      rw [hplace]

end Fifo

end ThuKernel

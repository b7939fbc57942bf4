-- A ring of slots with a read and a write position, in which one slot stays
-- empty: what is in it, and how a value goes in and comes out.
import ThuKernel.Lib.Fifo

namespace ThuKernel

namespace Slots

variable {α : Type} {N head tail n : Nat} {data : Nat → α}

/-- What is in the ring of `N` slots, oldest first. -/
def contents (N : Nat) (data : Nat → α) (head tail : Nat) : List α :=
  (List.range (Fifo.used N head tail)).map fun i => data ((head + i) % N)

@[simp] theorem length_contents : (contents N data head tail).length = Fifo.used N head tail := by
  simp [contents]

theorem contents_empty (h : head < N) : contents N data head head = [] := by
  rw [contents, (Fifo.used_eq_zero h h).mpr rfl]
  rfl

theorem contents_eq_nil (hh : head < N) (ht : tail < N) :
    contents N data head tail = [] ↔ tail = head := by
  rw [← List.length_eq_zero_iff, length_contents, Fifo.used_eq_zero hh ht]
  exact eq_comm

/-- The position behind the write position is the read position just when all
slots but one are in use. -/
theorem full_iff (hh : head < N) (ht : tail < N) :
    (1 + tail) % N = head ↔ Fifo.used N head tail + 1 = N := by
  have hu := Fifo.used_modEq (w := tail) hh
  have hlt : Fifo.used N head tail < N := Nat.mod_lt _ (by omega)
  rw [Nat.mod_eq_of_lt ht] at hu
  have hnext : (1 + tail) % N = (head + (Fifo.used N head tail + 1)) % N := by
    calc (1 + tail) % N = (1 + (head + Fifo.used N head tail) % N) % N := by rw [← hu]
      _ = (head + (Fifo.used N head tail + 1)) % N := by
        rw [Nat.add_mod_mod, Nat.add_comm 1, Nat.add_assoc]
  rw [hnext]
  generalize Fifo.used N head tail = u at *
  constructor
  · intro h
    by_contra hne
    by_cases hwrap : head + (u + 1) < N
    · rw [Nat.mod_eq_of_lt hwrap] at h
      omega
    · rw [Nat.mod_eq_sub_mod (by omega), Nat.mod_eq_of_lt (by omega)] at h
      omega
  · intro h
    rw [h, Nat.add_mod_right, Nat.mod_eq_of_lt hh]

/-- A slot in use is not the one at the write position. -/
theorem slot_ne_tail (hh : head < N) (ht : tail < N) {i : Nat} (hi : i < Fifo.used N head tail) :
    (head + i) % N ≠ tail := by
  have hu := Fifo.used_modEq (w := tail) hh
  have hlt : Fifo.used N head tail < N := Nat.mod_lt _ (by omega)
  rw [Nat.mod_eq_of_lt ht] at hu
  rw [hu]
  intro hc
  have hmod : i ≡ Fifo.used N head tail [MOD N] := Nat.ModEq.add_left_cancel' head hc
  have := hmod.eq_of_lt_of_lt (by omega) hlt
  omega

/-- The slot at the write position is not in use. -/
theorem contents_stale (hh : head < N) (ht : tail < N) (v : α) :
    contents N (Function.update data tail v) head tail = contents N data head tail := by
  unfold contents
  apply List.map_congr_left
  intro i hi
  exact Function.update_of_ne (slot_ne_tail hh ht (List.mem_range.mp hi)) _ _

/-- A value at the write position joins what is in the ring. -/
theorem contents_put (hh : head < N) (ht : tail < N) (hroom : (1 + tail) % N ≠ head) :
    contents N data head ((1 + tail) % N) = contents N data head tail ++ [data tail] := by
  have hlt : Fifo.used N head tail < N := Nat.mod_lt _ (by omega)
  have hroom : Fifo.used N head tail + 1 < N := by
    have := mt (full_iff hh ht).mpr hroom
    omega
  unfold contents
  rw [Nat.add_comm, Fifo.used_put hh ht hroom, List.range_succ, List.map_append, List.map_singleton,
    ← Fifo.used_modEq hh, Nat.mod_eq_of_lt ht]

/-- The value at the read position is the oldest one. -/
theorem contents_take (hh : head < N) (ht : tail < N) (hne : tail ≠ head) :
    contents N data head tail = data head :: contents N data ((1 + head) % N) tail := by
  have hpos : 0 < Fifo.used N head tail := by
    rw [Nat.pos_iff_ne_zero]
    exact fun hc => hne ((Fifo.used_eq_zero hh ht).mp hc).symm
  unfold contents
  rw [Nat.add_comm 1, Fifo.used_take hh ht hpos]
  obtain ⟨u, hu⟩ : ∃ u, Fifo.used N head tail = u + 1 := ⟨_, (Nat.succ_pred_eq_of_pos hpos).symm⟩
  rw [hu, List.range_succ_eq_map, List.map_cons, List.map_map, Nat.add_zero, Nat.mod_eq_of_lt hh,
    Nat.add_sub_cancel]
  refine congrArg (_ :: ·) (List.map_congr_left fun i _ => ?_)
  rw [Function.comp_apply, Nat.mod_add_mod, Nat.succ_eq_add_one, Nat.add_assoc, Nat.add_comm 1]

end Slots

end ThuKernel

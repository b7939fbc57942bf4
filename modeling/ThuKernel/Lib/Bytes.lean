-- Byte arrays: little-endian numbers, single bits and runs of bytes in a
-- memory, and what a write leaves alone.
import Mathlib.Logic.Function.Basic
import Mathlib.Tactic.Ring

namespace ThuKernel

abbrev Byte := BitVec 8

/-- A memory, a disk block or a buffer: the byte at each offset. -/
abbrev Bytes := Nat → Byte

namespace Bytes

/-! ## Numbers -/

/-- The little-endian number in the `n` bytes from `o`. -/
def getLE : (n : Nat) → Bytes → (o : Nat) → Nat
  | 0, _, _ => 0
  | n + 1, b, o => (b o).toNat + 256 * getLE n b (o + 1)

/-- Stores the low `n` bytes of `v` from `o` on. -/
def putLE (n : Nat) (b : Bytes) (o v : Nat) : Bytes := fun x =>
  if o ≤ x ∧ x < o + n then BitVec.ofNat 8 (v / 256 ^ (x - o)) else b x

def get16 (b : Bytes) (o : Nat) : Nat := getLE 2 b o
def put16 (b : Bytes) (o v : Nat) : Bytes := putLE 2 b o v
def get32 (b : Bytes) (o : Nat) : Nat := getLE 4 b o
def put32 (b : Bytes) (o v : Nat) : Bytes := putLE 4 b o v
def get64 (b : Bytes) (o : Nat) : Nat := getLE 8 b o
def put64 (b : Bytes) (o v : Nat) : Bytes := putLE 8 b o v

theorem getLE_lt (n : Nat) (b : Bytes) (o : Nat) : getLE n b o < 256 ^ n := by
  induction n generalizing o with
  | zero => simp [getLE]
  | succ n ih =>
    have h1 := (b o).isLt
    have h2 := ih (o + 1)
    simp only [getLE, pow_succ]
    omega

theorem get32_lt (b : Bytes) (o : Nat) : get32 b o < 2 ^ 32 := getLE_lt 4 b o

theorem getLE_congr {n : Nat} {b b' : Bytes} {o : Nat} (h : ∀ i < n, b (o + i) = b' (o + i)) :
    getLE n b o = getLE n b' o := by
  induction n generalizing o with
  | zero => rfl
  | succ n ih =>
    have h0 := h 0 (by omega)
    have hrest : getLE n b (o + 1) = getLE n b' (o + 1) := by
      apply ih
      intro i hi
      have := h (i + 1) (by omega)
      rwa [Nat.add_assoc, Nat.add_comm 1 i]
    simp only [Nat.add_zero] at h0
    simp only [getLE, h0, hrest]

theorem getLE_zero {n : Nat} {b : Bytes} {o : Nat} (h : ∀ i < n, b (o + i) = 0) :
    getLE n b o = 0 := by
  induction n generalizing o with
  | zero => rfl
  | succ n ih =>
    have h0 := h 0 (by omega)
    have hrest : getLE n b (o + 1) = 0 := by
      apply ih
      intro i hi
      have := h (i + 1) (by omega)
      rwa [Nat.add_assoc, Nat.add_comm 1 i]
    simp only [Nat.add_zero] at h0
    simp [getLE, h0, hrest]

theorem putLE_outside {n : Nat} {b : Bytes} {o v x : Nat} (h : x < o ∨ o + n ≤ x) :
    putLE n b o v x = b x := by
  unfold putLE
  rw [if_neg (by omega)]

/-- The bytes of a stored number spell it again, from any byte of it on. -/
theorem getLE_putLE_from (n : Nat) (b : Bytes) (o v : Nat) (k : Nat) :
    ∀ j, j + k ≤ n → getLE k (putLE n b o v) (o + j) = v / 256 ^ j % 256 ^ k := by
  induction k with
  | zero => intro j _; simp [getLE, Nat.mod_one]
  | succ k ih =>
    intro j hj
    have hhead : (putLE n b o v (o + j)).toNat = v / 256 ^ j % 256 := by
      unfold putLE
      rw [if_pos (by omega), Nat.add_sub_cancel_left]
      simp
    have htail := ih (j + 1) (by omega)
    rw [← Nat.add_assoc] at htail
    simp only [getLE, hhead, htail]
    rw [pow_succ 256 k, Nat.mul_comm (256 ^ k) 256, Nat.mod_mul, pow_succ 256 j,
      ← Nat.div_div_eq_div_mul]

theorem getLE_putLE (n : Nat) (b : Bytes) (o v : Nat) :
    getLE n (putLE n b o v) o = v % 256 ^ n := by
  have := getLE_putLE_from n b o v n 0 (by omega)
  simpa using this

theorem getLE_putLE_of_disjoint {m n : Nat} {b : Bytes} {o o' v : Nat}
    (h : o' + m ≤ o ∨ o + n ≤ o') : getLE m (putLE n b o v) o' = getLE m b o' :=
  getLE_congr fun i hi => putLE_outside (by omega)

theorem get16_put16 {b : Bytes} {o v : Nat} (h : v < 2 ^ 16) : get16 (put16 b o v) o = v := by
  unfold get16 put16
  rw [getLE_putLE]
  exact Nat.mod_eq_of_lt h

theorem get32_put32 {b : Bytes} {o v : Nat} (h : v < 2 ^ 32) : get32 (put32 b o v) o = v := by
  unfold get32 put32
  rw [getLE_putLE]
  exact Nat.mod_eq_of_lt h

theorem get64_put64 {b : Bytes} {o v : Nat} (h : v < 2 ^ 64) : get64 (put64 b o v) o = v := by
  unfold get64 put64
  rw [getLE_putLE]
  exact Nat.mod_eq_of_lt h

theorem get32_put32_ne {b : Bytes} {o o' v : Nat} (h : o' + 4 ≤ o ∨ o + 4 ≤ o') :
    get32 (put32 b o v) o' = get32 b o' := getLE_putLE_of_disjoint h

theorem get64_put64_ne {b : Bytes} {o o' v : Nat} (h : o' + 8 ≤ o ∨ o + 8 ≤ o') :
    get64 (put64 b o v) o' = get64 b o' := getLE_putLE_of_disjoint h

/-! ## Single bits -/

/-- Bit `i` of the array: bit `i % 8` of byte `i / 8`. -/
def bit (b : Bytes) (i : Nat) : Bool := (b (i / 8)).getLsbD (i % 8)

/-- `data[i / 8] |= 1 << (i % 8)`. -/
def setBit (b : Bytes) (i : Nat) : Bytes :=
  Function.update b (i / 8) (b (i / 8) ||| 1#8 <<< (i % 8))

/-- `data[i / 8] &= ~(1 << (i % 8))`. -/
def clearBit (b : Bytes) (i : Nat) : Bytes :=
  Function.update b (i / 8) (b (i / 8) &&& ~~~(1#8 <<< (i % 8)))

private theorem getLsbD_one_shiftLeft {k j : Nat} (hj : j < 8) :
    (1#8 <<< k).getLsbD j = decide (k = j) := by
  rw [BitVec.getLsbD_shiftLeft, BitVec.getLsbD_one]
  by_cases h : k = j
  · subst h; simp [hj]
  · have : ¬ (j - k = 0 ∧ k ≤ j) := by omega
    by_cases hkj : j < k
    · simp [h, hkj]
    · have : j - k ≠ 0 := by omega
      simp [h, this]

/-- The test of the C code, `(data[i / 8] & (1 << (i % 8))) == 0`. -/
theorem and_mask_eq_zero_iff (b : Bytes) (i : Nat) :
    b (i / 8) &&& 1#8 <<< (i % 8) = 0 ↔ bit b i = false := by
  have hlt : i % 8 < 8 := Nat.mod_lt _ (by decide)
  unfold bit
  constructor
  · intro h
    have h1 := congrArg (fun v => BitVec.getLsbD v (i % 8)) h
    simpa [getLsbD_one_shiftLeft hlt] using h1
  · intro h
    apply BitVec.eq_of_getLsbD_eq
    intro j hj
    rw [BitVec.getLsbD_and, getLsbD_one_shiftLeft hj]
    by_cases hij : i % 8 = j
    · subst hij; simp [h]
    · simp [hij]

private theorem div_mod_ext {i j : Nat} (h1 : i / 8 = j / 8) (h2 : i % 8 = j % 8) : i = j := by
  omega

theorem bit_setBit (b : Bytes) (i j : Nat) :
    bit (setBit b i) j = (decide (i = j) || bit b j) := by
  have hlt : j % 8 < 8 := Nat.mod_lt _ (by decide)
  unfold bit setBit
  by_cases h : j / 8 = i / 8
  · rw [h, Function.update_self, BitVec.getLsbD_or, getLsbD_one_shiftLeft hlt, Bool.or_comm]
    congr 1
    exact decide_eq_decide.mpr ⟨fun hm => div_mod_ext h.symm hm, fun hm => hm ▸ rfl⟩
  · have hij : i ≠ j := fun he => h (he ▸ rfl)
    rw [Function.update_of_ne h]
    simp [hij]

theorem bit_clearBit (b : Bytes) (i j : Nat) :
    bit (clearBit b i) j = (!decide (i = j) && bit b j) := by
  have hlt : j % 8 < 8 := Nat.mod_lt _ (by decide)
  unfold bit clearBit
  by_cases h : j / 8 = i / 8
  · rw [h, Function.update_self, BitVec.getLsbD_and, BitVec.getLsbD_not,
      getLsbD_one_shiftLeft hlt, Bool.and_comm]
    congr 1
    have hd : decide (i % 8 = j % 8) = decide (i = j) :=
      decide_eq_decide.mpr ⟨fun hm => div_mod_ext h.symm hm, fun hm => hm ▸ rfl⟩
    simp [hlt, hd]
  · have hij : i ≠ j := fun he => h (he ▸ rfl)
    rw [Function.update_of_ne h]
    simp [hij]

/-! ## Runs of bytes -/

/-- `memset(b + o, c, n)`. -/
def fill (b : Bytes) (o n : Nat) (c : Byte) : Bytes := fun x =>
  if o ≤ x ∧ x < o + n then c else b x

/-- The `n` bytes from `o` on. -/
def load (b : Bytes) (o n : Nat) : List Byte := (List.range n).map fun i => b (o + i)

/-- Copies the bytes of a list to `o`. -/
def store (b : Bytes) (o : Nat) (l : List Byte) : Bytes := fun x =>
  if o ≤ x then (l[x - o]?).getD (b x) else b x

@[simp] theorem length_load (b : Bytes) (o n : Nat) : (load b o n).length = n := by
  simp [load]

theorem getElem?_load {b : Bytes} {o n i : Nat} (h : i < n) :
    (load b o n)[i]? = some (b (o + i)) := by
  simp [load, h]

theorem fill_outside {b : Bytes} {o n x : Nat} {c : Byte} (h : x < o ∨ o + n ≤ x) :
    fill b o n c x = b x := by
  unfold fill
  rw [if_neg (by omega)]

theorem fill_inside {b : Bytes} {o n x : Nat} {c : Byte} (h1 : o ≤ x) (h2 : x < o + n) :
    fill b o n c x = c := by
  unfold fill
  rw [if_pos ⟨h1, h2⟩]

theorem store_outside {b : Bytes} {o x : Nat} {l : List Byte} (h : x < o ∨ o + l.length ≤ x) :
    store b o l x = b x := by
  unfold store
  split
  · rw [List.getElem?_eq_none (by omega)]
    rfl
  · rfl

theorem store_inside {b : Bytes} {o x : Nat} {l : List Byte} (h1 : o ≤ x) (h2 : x - o < l.length) :
    store b o l x = l[x - o] := by
  unfold store
  rw [if_pos h1, List.getElem?_eq_getElem h2]
  rfl

@[simp] theorem store_nil (b : Bytes) (o : Nat) : store b o [] = b := by
  funext x
  exact store_outside (by simp; omega)

theorem store_append (b : Bytes) (a : Nat) (l l' : List Byte) :
    (b.store a l).store (a + l.length) l' = b.store a (l ++ l') := by
  funext x
  by_cases h1 : x < a
  · rw [store_outside (by omega), store_outside (by omega), store_outside (by omega)]
  · by_cases h2 : x < a + l.length
    · rw [store_outside (by omega), store_inside (by omega) (by omega),
        store_inside (by omega) (by rw [List.length_append]; omega), List.getElem_append_left]
    · by_cases h3 : x < a + l.length + l'.length
      · rw [store_inside (by omega) (by omega),
          store_inside (by omega) (by rw [List.length_append]; omega),
          List.getElem_append_right (by omega)]
        congr 1
        omega
      · rw [store_outside (by omega), store_outside (by omega),
          store_outside (by rw [List.length_append]; omega)]

theorem load_congr {b b' : Bytes} {o n : Nat} (h : ∀ i < n, b (o + i) = b' (o + i)) :
    load b o n = load b' o n := by
  unfold load
  apply List.map_congr_left
  intro i hi
  exact h i (List.mem_range.mp hi)

theorem take_load (b : Bytes) (o m n : Nat) : (load b o n).take m = load b o (min m n) := by
  unfold load
  rw [← List.map_take, List.take_range]

theorem load_store (b : Bytes) (o : Nat) (l : List Byte) : load (store b o l) o l.length = l := by
  apply List.ext_getElem
  · simp
  · intro i h1 h2
    have hi : o + i - o = i := by omega
    simp only [load, List.getElem_map, List.getElem_range]
    rw [store_inside (by omega) (by omega)]
    simp [hi]

end Bytes

end ThuKernel

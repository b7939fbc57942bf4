-- C strings, and the functions of string.c that the directories use.
import ThuKernel.Lib.Bytes

namespace ThuKernel

/-- A C string: the bytes before its NUL. -/
structure CStr where
  bytes : List Byte
  nonzero : ∀ b ∈ bytes, b ≠ 0

namespace CStr

/-- What a `char *` to the string reads: the bytes, then the NUL. What lies
behind the NUL is never read. -/
def read (s : CStr) : Bytes := fun i => (s.bytes[i]?).getD 0

def strlen (s : CStr) : Nat := s.bytes.length

/-- The string that starts at `o`, when a NUL stands below `o + n`. -/
def find (b : Bytes) (o : Nat) : (n : Nat) → List Byte
  | 0 => []
  | n + 1 => if b o = 0 then [] else b o :: find b (o + 1) n

theorem find_nonzero (b : Bytes) (o n : Nat) : ∀ x ∈ find b o n, x ≠ 0 := by
  induction n generalizing o with
  | zero => intro x hx; cases hx
  | succ n ih =>
    intro x hx
    unfold find at hx
    split at hx
    · cases hx
    · rename_i h
      rcases List.mem_cons.mp hx with rfl | hx
      · exact h
      · exact ih _ x hx

/-- The bytes from `o` on, read as a string of at most `n` bytes. -/
def ofBytes (b : Bytes) (o n : Nat) : CStr := ⟨find b o n, find_nonzero b o n⟩

end CStr

/-- `strncmp(p, q, n)`, with `uchar` differences. -/
def strncmp (p q : Bytes) : (n : Nat) → Int
  | 0 => 0
  | n + 1 =>
    if p 0 ≠ 0 ∧ p 0 = q 0 then strncmp (fun i => p (i + 1)) (fun i => q (i + 1)) n
    else (p 0).toNat - (q 0).toNat

/-- What `strncpy(s, t, n)` stores: `t` up to its NUL, then zeros. -/
def strncpy (t : Bytes) : (n : Nat) → List Byte
  | 0 => []
  | n + 1 => if t 0 = 0 then List.replicate (n + 1) 0 else t 0 :: strncpy (fun i => t (i + 1)) n

end ThuKernel

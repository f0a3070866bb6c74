import Period.Foundation.RowMajor
import Period.Runtime.SharedMemory

/-!
# Writing a test and starting the target

Before a test the driver writes `N`, `M` and the flattened pattern into the segment; what
else is in `kp` stays there from earlier tests. The target takes its rows from what it finds.
-/

namespace Period.Driver

open Bytes RowMajor
open Period.Runtime
set_option autoImplicit false

def filledWithZero (pattern : List (List Nat)) (M : Nat) : List (List Nat) :=
  pattern.map fun row => if row.length < M then row ++ List.replicate (M - row.length) 0 else row

/-- `memmove(ADDR + offset, byref(x), w)` for a number `x` of `w` bytes. -/
def setNumber (offset w x : Nat) (m : Mem) : Mem := memmove m offset (arrayMem w [x]) 0 w

def writeTest (N M : Nat) (pattern : List (List Nat)) (m : Mem) : Mem :=
  memmovePatternList pattern (setNumber (8 + 4) 4 M (setNumber 8 4 N m))

/-- An `unsigned int` in an `int`. It is used as a bound only, where a negative number
acts like `0`. -/
def toInt (x : Nat) : Nat := if x < 2 ^ 31 then x else 0

def launch (loopUnwindedNum : Nat) (m : Mem) : Target :=
  traceBegin (toInt (schedInfo m).N) (toInt (schedInfo m).M) loopUnwindedNum (schedInfo m).kp

theorem toInt_of_lt {x : Nat} (h : x < 2 ^ 31) : toInt x = x := if_pos h

theorem filledWithZero_uniform {pattern : List (List Nat)} {M : Nat}
    (h : ∀ row ∈ pattern, row.length ≤ M) : Uniform M (filledWithZero pattern M) := by
  intro row hrow
  obtain ⟨short, hshort, rfl⟩ := List.mem_map.mp hrow
  have hle := h short hshort
  split
  · rw [List.length_append, List.length_replicate]
    omega
  · omega

theorem filledWithZero_entry {row : List Nat} {k : Nat} (M : Nat) (hk : k < row.length) :
    (if row.length < M then row ++ List.replicate (M - row.length) 0 else row)[k]? = row[k]? := by
  split
  · exact List.getElem?_append_left hk
  · rfl

section Numbers
variable (offset w x : Nat) (m : Mem)

theorem read_setNumber : read (setNumber offset w x m) offset w = x % 256 ^ w := by
  have hcopied : read (setNumber offset w x m) (offset + 0) w = read (arrayMem w [x]) (0 + 0) w := by
    unfold setNumber
    exact read_memmove (by omega)
  have hentry := read_arrayMem (w := w) [x] 0
  rw [Nat.mul_zero] at hentry
  exact hcopied.trans hentry

theorem read_setNumber_frame {a v : Nat} (h : a + v ≤ offset ∨ offset + w ≤ a) :
    read (setNumber offset w x m) a v = read m a v := by
  unfold setNumber
  exact read_memmove_frame h

end Numbers

section WriteTest
variable (N M : Nat) (pattern : List (List Nat)) (m : Mem)

theorem writeTest_N : (schedInfo (writeTest N M pattern m)).N = N % 2 ^ 32 := by
  have hkpAddr : kpAddr = 220 := rfl
  show read (writeTest N M pattern m) 8 4 = N % 256 ^ 4
  unfold writeTest
  rw [read_unwritten _ _ (Or.inl (by omega)), read_setNumber_frame _ _ _ _ (Or.inl (by omega)),
    read_setNumber]

theorem writeTest_M : (schedInfo (writeTest N M pattern m)).M = M % 2 ^ 32 := by
  have hkpAddr : kpAddr = 220 := rfl
  show read (writeTest N M pattern m) 12 4 = M % 256 ^ 4
  unfold writeTest
  rw [read_unwritten _ _ (Or.inl (by omega)), read_setNumber]

theorem writeTest_kp (i : Nat) : (schedInfo (writeTest N M pattern m)).kp i =
    overlay pattern.flatten (schedInfo m).kp i := by
  have hkpAddr : kpAddr = 220 := rfl
  have hkeep : (schedInfo (setNumber (8 + 4) 4 M (setNumber 8 4 N m))).kp = (schedInfo m).kp := by
    funext j
    rw [schedInfo_kp, read_setNumber_frame _ _ _ _ (Or.inr (by omega)),
      read_setNumber_frame _ _ _ _ (Or.inr (by omega)), schedInfo_kp]
  unfold writeTest
  rw [kp_memmovePatternList, hkeep]

end WriteTest

end Period.Driver

import Mathlib.Algebra.GroupWithZero.Nat
import Mathlib.Data.List.GetD
import Mathlib.Data.Nat.Basic

/-!
# Little-endian values in byte memory

Memory is a function from addresses to bytes. A value of `w` bytes is read with the low
byte first; `memmove` copies a range, so a value that was copied as a whole reads the
same at its new place and everything outside the range reads as before.
-/

namespace Period.Bytes

set_option autoImplicit false

abbrev Mem := Nat → UInt8

/-- The value of the `w` bytes at `a`. -/
def read (m : Mem) (a : Nat) : Nat → Nat
  | 0 => 0
  | w + 1 => (m a).toNat + 256 * read m (a + 1) w

def memmove (dst : Mem) (dstAddr : Nat) (src : Mem) (srcAddr n : Nat) : Mem := fun x =>
  if dstAddr ≤ x ∧ x < dstAddr + n then src (srcAddr + (x - dstAddr)) else dst x

def arrayMem (w : Nat) (vals : List Nat) : Mem := fun x =>
  UInt8.ofNat (vals.getD (x / w) 0 / 256 ^ (x % w))

theorem read_congr {m m' : Mem} {a b w : Nat} (h : ∀ i, i < w → m (a + i) = m' (b + i)) :
    read m a w = read m' b w := by
  induction w generalizing a b with
  | zero => rfl
  | succ w ih =>
    have h0 := h 0 (Nat.succ_pos w)
    rw [Nat.add_zero, Nat.add_zero] at h0
    have hrest : read m (a + 1) w = read m' (b + 1) w := by
      apply ih
      intro i hi
      have := h (i + 1) (by omega)
      rwa [Nat.add_comm i 1, ← Nat.add_assoc, ← Nat.add_assoc] at this
    rw [read, read, h0, hrest]

theorem read_lt (m : Mem) (a w : Nat) : read m a w < 256 ^ w := by
  induction w generalizing a with
  | zero => exact Nat.one_pos
  | succ w ih =>
    have hrest := ih (a + 1)
    have hbyte : (m a).toNat < 256 := (m a).toNat_lt
    rw [read, Nat.pow_succ]
    omega

section Memmove
variable {dst src : Mem} {dstAddr srcAddr n : Nat}

theorem read_memmove {o w : Nat} (h : o + w ≤ n) :
    read (memmove dst dstAddr src srcAddr n) (dstAddr + o) w = read src (srcAddr + o) w := by
  apply read_congr
  intro i hi
  rw [memmove, if_pos ⟨by omega, by omega⟩]
  congr 1
  omega

theorem read_memmove_frame {a w : Nat} (h : a + w ≤ dstAddr ∨ dstAddr + n ≤ a) :
    read (memmove dst dstAddr src srcAddr n) a w = read dst a w := by
  apply read_congr
  intro i hi
  rw [memmove, if_neg]
  omega

end Memmove

theorem read_digits {m : Mem} {a w : Nat} (v : Nat)
    (h : ∀ i, i < w → m (a + i) = UInt8.ofNat (v / 256 ^ i)) : read m a w = v % 256 ^ w := by
  induction w generalizing a v with
  | zero => rw [read, Nat.pow_zero, Nat.mod_one]
  | succ w ih =>
    have h0 := h 0 (Nat.succ_pos w)
    rw [Nat.add_zero, Nat.pow_zero, Nat.div_one] at h0
    have hrest : read m (a + 1) w = v / 256 % 256 ^ w := by
      apply ih
      intro i hi
      have := h (i + 1) (by omega)
      rw [Nat.add_assoc, Nat.add_comm 1 i, this, Nat.pow_succ', Nat.div_div_eq_div_mul]
    have hbyte : (UInt8.ofNat v).toNat = v % 256 := UInt8.toNat_ofNat'
    rw [read, h0, hrest, hbyte, Nat.pow_succ', Nat.mod_mul]

/-- An array entry reads as the entry, cut to its width. -/
theorem read_arrayMem {w : Nat} (vals : List Nat) (i : Nat) :
    read (arrayMem w vals) (w * i) w = vals.getD i 0 % 256 ^ w := by
  apply read_digits
  intro j hj
  rw [arrayMem, Nat.mul_add_div (by omega), Nat.div_eq_of_lt hj, Nat.add_zero,
    Nat.mul_add_mod, Nat.mod_eq_of_lt hj]

end Period.Bytes

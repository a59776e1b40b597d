/-!
# Little-endian numbers

The fixed-width numbers of every byte format of the library, least significant byte first. A number
below the bound of the width is read back from its bytes (`value_write`).
-/
namespace Chronicle

abbrev Bytes := List UInt8

namespace LittleEndian

/-- The low `width` bytes of `n`. -/
def write : Nat → Nat → Bytes
  | 0, _ => []
  | width + 1, n => UInt8.ofNat n :: write width (n / 256)

def value : Bytes → Nat
  | [] => 0
  | b :: bs => b.toNat + 256 * value bs

@[simp] theorem length_write (width n : Nat) : (write width n).length = width := by
  induction width generalizing n with
  | zero => rfl
  | succ w ih => simp [write, ih]

theorem value_write {width n : Nat} (h : n < Nat.pow 256 width) : value (write width n) = n := by
  induction width generalizing n with
  | zero =>
    change n < 1 at h
    simp [write, value, Nat.lt_one_iff.1 h]
  | succ w ih =>
    change n < Nat.pow 256 w * 256 at h
    have hd : n / 256 < Nat.pow 256 w := by omega
    have hb : (UInt8.ofNat n).toNat = n % 256 := by simp
    rw [write, value, ih hd, hb]
    omega

end LittleEndian

end Chronicle

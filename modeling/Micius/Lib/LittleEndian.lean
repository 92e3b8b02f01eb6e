import Mathlib.Data.List.Basic
import Mathlib.Tactic.Ring

/-!
# Little-endian fields in a byte string

Fixed-width little-endian integers over `List UInt8`, and the slice
`bytes[off .. off + len]` that a cursor parser takes. A `Nat` written at
width `w` keeps its residue modulo `256 ^ w`, which is what a cast to a
`w`-byte machine integer followed by `to_le_bytes` keeps.
-/

namespace LittleEndian

/-- The low `w` bytes of `n`, least significant first. -/
def toLe : Nat → Nat → List UInt8
  | 0, _ => []
  | w + 1, n => UInt8.ofNat n :: toLe w (n / 256)

/-- The number a little-endian byte string denotes. -/
def fromLe : List UInt8 → Nat
  | [] => 0
  | b :: bs => b.toNat + 256 * fromLe bs

@[simp] theorem length_toLe (w n : Nat) : (toLe w n).length = w := by
  induction w generalizing n with
  | zero => rfl
  | succ w ih => simp [toLe, ih]

/-- Reading a field back gives the value modulo the field's width. -/
theorem fromLe_toLe (w n : Nat) : fromLe (toLe w n) = n % 256 ^ w := by
  induction w generalizing n with
  | zero => simp [toLe, fromLe, Nat.mod_one]
  | succ w ih =>
    have hb : (UInt8.ofNat n).toNat = n % 256 := by simp [UInt8.toNat_ofNat']
    rw [toLe, fromLe, ih, hb, Nat.pow_succ, Nat.mul_comm (256 ^ w), Nat.mod_mul]

theorem fromLe_toLe_of_lt {w n : Nat} (h : n < 256 ^ w) : fromLe (toLe w n) = n := by
  rw [fromLe_toLe, Nat.mod_eq_of_lt h]

theorem fromLe_toLe_u32 (x : UInt32) : fromLe (toLe 4 x.toNat) = x.toNat :=
  fromLe_toLe_of_lt x.toNat_lt

theorem fromLe_lt (bs : List UInt8) : fromLe bs < 256 ^ bs.length := by
  induction bs with
  | nil => simp [fromLe]
  | cons b bs ih =>
    have hb : b.toNat < 256 := b.toNat_lt
    rw [fromLe, List.length_cons, Nat.pow_succ]
    omega

/-- A byte string of known length is determined by its number. -/
theorem fromLe_injective {as bs : List UInt8} (hlen : as.length = bs.length)
    (h : fromLe as = fromLe bs) : as = bs := by
  induction as generalizing bs with
  | nil => exact (List.length_eq_zero_iff.mp hlen.symm).symm
  | cons a as ih =>
    cases bs with
    | nil => cases hlen
    | cons b bs =>
      have ha := a.toNat_lt
      have hb := b.toNat_lt
      rw [fromLe, fromLe] at h
      have hhead : a = b := UInt8.toNat_inj.mp (by omega)
      rw [hhead, ih (Nat.succ.inj hlen) (by omega)]

/-! ## Slices -/

/-- The bytes `bs[off .. off + len]`, cut short at the end of `bs`. -/
def slice (bs : List UInt8) (off len : Nat) : List UInt8 :=
  (bs.drop off).take len

@[simp] theorem length_slice (bs : List UInt8) (off len : Nat) :
    (slice bs off len).length = min len (bs.length - off) := by
  simp [slice]

/-- A slice that starts right after `pre` and covers `mid`. -/
theorem slice_append {pre mid post : List UInt8} {off len : Nat}
    (hoff : off = pre.length) (hlen : len = mid.length) :
    slice (pre ++ (mid ++ post)) off len = mid := by
  subst hoff hlen
  simp [slice]

/-- A slice of `a ++ b` that lies inside `a`. -/
theorem slice_append_left {a b : List UInt8} {off len : Nat} (h : off + len ≤ a.length) :
    slice (a ++ b) off len = slice a off len := by
  have hle : off ≤ a.length := by omega
  have hlen : len ≤ (a.drop off).length := by
    rw [List.length_drop]
    omega
  rw [slice, slice, List.drop_append_of_le_length hle, List.take_append_of_le_length hlen]

/-- A slice of `a ++ b` that starts past `a`. -/
theorem slice_append_right (a b : List UInt8) (off len : Nat) :
    slice (a ++ b) (a.length + off) len = slice b off len := by
  simp [slice]

end LittleEndian

import Mathlib.Data.Nat.Bitwise
import Micius.Lib.LittleEndian

/-!
# Cyclic redundancy checks

A reflected CRC of any width, fed bytewise, on `Nat` states. Feeding bytes is
one division of the little-endian number they denote (`feed_eq_shifts`), and a
division step loses nothing on states of the width. So a change of no more
bytes than the state holds always changes the state, whatever follows.
-/

namespace Crc

open LittleEndian

/-- One window of at most `n` bytes is altered. -/
def Burst (n : Nat) (bs bs' : List UInt8) : Prop :=
  ∃ pre w w' post, bs = pre ++ (w ++ post) ∧ bs' = pre ++ (w' ++ post) ∧
    w'.length = w.length ∧ w.length ≤ n ∧ w ≠ w'

theorem Burst.length {n : Nat} {bs bs' : List UInt8} (h : Burst n bs bs') :
    bs'.length = bs.length := by
  obtain ⟨pre, w, w', post, rfl, rfl, hlen, -, -⟩ := h
  simp [hlen]

/-- A reflected CRC: the polynomial without its leading term, the state it
starts from and the mask of the result. The constant term of the polynomial,
which reflection makes the top bit, is set. -/
structure Params where
  width : Nat
  poly : Nat
  init : Nat
  xorOut : Nat
  poly_ge : 2 ^ width ≤ 2 * poly
  poly_lt : poly < 2 ^ width
  init_lt : init < 2 ^ width
  xorOut_lt : xorOut < 2 ^ width

/-- CRC-32 as Ethernet, gzip and `crc32fast` have it. -/
def ieee : Params where
  width := 32
  poly := 0xedb88320
  init := 0xffffffff
  xorOut := 0xffffffff
  poly_ge := by decide
  poly_lt := by decide
  init_lt := by decide
  xorOut_lt := by decide

namespace Params

variable (p : Params)

/-- One division step: shift the low bit out and subtract the polynomial if it was set. -/
def shift (c : Nat) : Nat := if c % 2 = 1 then (c / 2) ^^^ p.poly else c / 2

/-- Several division steps. -/
def shifts : Nat → Nat → Nat
  | 0, c => c
  | n + 1, c => shifts n (p.shift c)

/-- The state after one more byte. -/
def byte (c : Nat) (b : UInt8) : Nat := p.shifts 8 (c ^^^ b.toNat)

/-- The state after some bytes. -/
def feed (c : Nat) (bs : List UInt8) : Nat := bs.foldl p.byte c

/-- The checksum of a byte string. -/
def checksum (bs : List UInt8) : Nat := p.feed p.init bs ^^^ p.xorOut

/-! ## Division steps are linear and lose nothing -/

theorem shift_xor (a b : Nat) : p.shift (a ^^^ b) = p.shift a ^^^ p.shift b := by
  have hdiv : (a ^^^ b) / 2 = a / 2 ^^^ b / 2 := Nat.xor_div_two
  have hmod : (a ^^^ b) % 2 = (a % 2 ^^^ b % 2) := by
    have := @Nat.xor_mod_two_pow a b 1
    simpa using this
  rcases Nat.mod_two_eq_zero_or_one a with ha | ha <;>
    rcases Nat.mod_two_eq_zero_or_one b with hb | hb <;>
    simp [shift, hdiv, hmod, ha, hb, Nat.xor_comm, Nat.xor_left_comm]

theorem shifts_xor (n a b : Nat) : p.shifts n (a ^^^ b) = p.shifts n a ^^^ p.shifts n b := by
  induction n generalizing a b with
  | zero => rfl
  | succ n ih => rw [shifts, shifts, shifts, shift_xor, ih]

theorem shifts_add (m n c : Nat) : p.shifts (m + n) c = p.shifts n (p.shifts m c) := by
  induction m generalizing c with
  | zero => rw [Nat.zero_add, shifts]
  | succ m ih => rw [Nat.succ_add, shifts, ih, shifts]

theorem shift_lt {c : Nat} (h : c < 2 ^ p.width) : p.shift c < 2 ^ p.width := by
  have hhalf : c / 2 < 2 ^ p.width := by omega
  rw [shift]
  split
  · exact Nat.xor_lt_two_pow hhalf p.poly_lt
  · exact hhalf

theorem shifts_lt (n : Nat) {c : Nat} (h : c < 2 ^ p.width) : p.shifts n c < 2 ^ p.width := by
  induction n generalizing c with
  | zero => exact h
  | succ n ih => exact ih (p.shift_lt h)

/-- The top bit of the polynomial tells an odd state from an even one. -/
theorem eq_zero_of_shift {c : Nat} (h : c < 2 ^ p.width) (hzero : p.shift c = 0) : c = 0 := by
  have hge := p.poly_ge
  rw [shift] at hzero
  split at hzero
  · have : c / 2 = p.poly := Nat.eq_of_xor_eq_zero hzero
    omega
  · omega

theorem eq_zero_of_shifts {n c : Nat} (h : c < 2 ^ p.width) (hzero : p.shifts n c = 0) : c = 0 := by
  induction n generalizing c with
  | zero => exact hzero
  | succ n ih => exact p.eq_zero_of_shift h (ih (p.shift_lt h) hzero)

theorem shifts_injective {n a b : Nat} (ha : a < 2 ^ p.width) (hb : b < 2 ^ p.width)
    (h : p.shifts n a = p.shifts n b) : a = b := by
  refine Nat.eq_of_xor_eq_zero (p.eq_zero_of_shifts (n := n) (Nat.xor_lt_two_pow ha hb) ?_)
  rw [shifts_xor, h, Nat.xor_self]

/-! ## Feeding bytes is one division -/

/-- Eight steps move a state with clear low bits down by a byte. -/
theorem shifts_mul_two_pow (n c : Nat) : p.shifts n (2 ^ n * c) = c := by
  induction n generalizing c with
  | zero => rw [shifts, Nat.pow_zero, Nat.one_mul]
  | succ n ih =>
    have heven : 2 ^ (n + 1) * c = 2 * (2 ^ n * c) := by ring
    have hshift : p.shift (2 * (2 ^ n * c)) = 2 ^ n * c := by
      rw [shift, if_neg (by omega), Nat.mul_div_cancel_left _ Nat.two_pos]
    rw [shifts, heven, hshift, ih]

theorem fromLe_cons_xor (b : UInt8) (bs : List UInt8) :
    fromLe (b :: bs) = b.toNat ^^^ 2 ^ 8 * fromLe bs := by
  have hb : b.toNat < 2 ^ 8 := b.toNat_lt
  have hsum : fromLe (b :: bs) = 2 ^ 8 * fromLe bs + b.toNat := Nat.add_comm _ _
  refine Nat.eq_of_testBit_eq fun i => ?_
  rw [hsum, Nat.testBit_two_pow_mul_add _ hb, Nat.testBit_xor, Nat.testBit_two_pow_mul]
  by_cases hi : i < 8
  · simp [hi, Nat.not_le.mpr hi]
  · have hge : 8 ≤ i := Nat.not_lt.mp hi
    have hclear : b.toNat.testBit i = false :=
      Nat.testBit_lt_two_pow (hb.trans_le (Nat.pow_le_pow_right Nat.two_pos hge))
    simp [hi, hge, hclear]

/-- The state after some bytes is what division leaves of their number. -/
theorem feed_eq_shifts (c : Nat) (bs : List UInt8) :
    p.feed c bs = p.shifts (8 * bs.length) (c ^^^ fromLe bs) := by
  induction bs generalizing c with
  | nil => simp [feed, fromLe, shifts]
  | cons b bs ih =>
    have hbyte : p.byte c b ^^^ fromLe bs = p.shifts 8 (c ^^^ fromLe (b :: bs)) := by
      rw [fromLe_cons_xor, ← Nat.xor_assoc, shifts_xor, shifts_mul_two_pow, byte]
    calc p.feed c (b :: bs)
        = p.shifts (8 * bs.length) (p.byte c b ^^^ fromLe bs) := ih _
      _ = p.shifts (8 * (b :: bs).length) (c ^^^ fromLe (b :: bs)) := by
        rw [hbyte, ← shifts_add, List.length_cons, Nat.mul_succ, Nat.add_comm]

theorem feed_append (c : Nat) (as bs : List UInt8) :
    p.feed c (as ++ bs) = p.feed (p.feed c as) bs := List.foldl_append

theorem byte_lt (hwidth : 8 ≤ p.width) {c : Nat} (h : c < 2 ^ p.width) (b : UInt8) :
    p.byte c b < 2 ^ p.width :=
  p.shifts_lt 8 (Nat.xor_lt_two_pow h
    (b.toNat_lt.trans_le (Nat.pow_le_pow_right Nat.two_pos hwidth)))

theorem feed_lt (hwidth : 8 ≤ p.width) {c : Nat} (h : c < 2 ^ p.width) (bs : List UInt8) :
    p.feed c bs < 2 ^ p.width := by
  induction bs generalizing c with
  | nil => exact h
  | cons b bs ih => exact ih (p.byte_lt hwidth h b)

/-- No two states meet again under the same bytes. -/
theorem feed_injective (hwidth : 8 ≤ p.width) {c d : Nat} (hc : c < 2 ^ p.width)
    (hd : d < 2 ^ p.width) (bs : List UInt8) (h : p.feed c bs = p.feed d bs) : c = d := by
  induction bs generalizing c d with
  | nil => exact h
  | cons b bs ih =>
    have hb : b.toNat < 2 ^ p.width :=
      b.toNat_lt.trans_le (Nat.pow_le_pow_right Nat.two_pos hwidth)
    have hbyte : p.byte c b = p.byte d b := ih (p.byte_lt hwidth hc b) (p.byte_lt hwidth hd b) h
    have hxor : c ^^^ b.toNat = d ^^^ b.toNat :=
      p.shifts_injective (Nat.xor_lt_two_pow hc hb) (Nat.xor_lt_two_pow hd hb) hbyte
    exact Nat.xor_left_injective hxor

/-- A window that fits the state can be read off the state after it. -/
theorem feed_window {c : Nat} (hc : c < 2 ^ p.width) {w w' : List UInt8}
    (hlen : w'.length = w.length) (hfits : 8 * w.length ≤ p.width)
    (h : p.feed c w = p.feed c w') : w = w' := by
  have hlt : ∀ v : List UInt8, v.length = w.length → c ^^^ fromLe v < 2 ^ p.width := by
    intro v hv
    have hv' : fromLe v < 2 ^ (8 * v.length) := by
      rw [Nat.pow_mul]
      exact fromLe_lt v
    exact Nat.xor_lt_two_pow hc (hv'.trans_le (Nat.pow_le_pow_right Nat.two_pos (by omega)))
  rw [feed_eq_shifts, feed_eq_shifts, hlen] at h
  exact fromLe_injective hlen.symm
    (Nat.xor_right_injective (p.shifts_injective (hlt w rfl) (hlt w' hlen) h))

/-- **Burst detection.** A burst no longer than the state changes the state. -/
theorem feed_burst (hwidth : 8 ≤ p.width) {n : Nat} (hfits : 8 * n ≤ p.width) {c : Nat}
    (hc : c < 2 ^ p.width) {bs bs' : List UInt8} (h : Burst n bs bs') :
    p.feed c bs ≠ p.feed c bs' := by
  obtain ⟨pre, w, w', post, rfl, rfl, hlen, hle, hne⟩ := h
  have hpre := p.feed_lt hwidth hc pre
  intro heq
  simp only [feed_append] at heq
  refine hne (p.feed_window hpre hlen (by omega) ?_)
  exact p.feed_injective hwidth (p.feed_lt hwidth hpre w) (p.feed_lt hwidth hpre w') post heq

/-! ## Checksums, apart from the data and behind it -/

theorem checksum_burst (hwidth : 8 ≤ p.width) {n : Nat} (hfits : 8 * n ≤ p.width)
    {bs bs' : List UInt8} (h : Burst n bs bs') : p.checksum bs ≠ p.checksum bs' :=
  fun heq => p.feed_burst hwidth hfits p.init_lt h (Nat.xor_left_injective heq)

/-- A byte string that ends in the checksum of what stands before it. -/
def Sealed (bs : List UInt8) : Prop :=
  ∃ data stored, bs = data ++ stored ∧ 8 * stored.length = p.width ∧
    p.checksum data = fromLe stored

variable {p}

/-- The state after data and its checksum does not depend on the data. -/
theorem Sealed.feed {bs : List UInt8} (h : p.Sealed bs) :
    p.feed p.init bs = p.shifts p.width p.xorOut := by
  obtain ⟨data, stored, rfl, hstored, hsum⟩ := h
  rw [feed_append, feed_eq_shifts, hstored, ← hsum, checksum, ← Nat.xor_assoc, Nat.xor_self,
    Nat.zero_xor]

/-- A burst no longer than the checksum breaks the seal; it may reach into the
checksum. -/
theorem Sealed.burst (hwidth : 8 ≤ p.width) {n : Nat} (hfits : 8 * n ≤ p.width)
    {bs bs' : List UInt8} (h : p.Sealed bs) (hburst : Burst n bs bs') : ¬p.Sealed bs' :=
  fun h' => p.feed_burst hwidth hfits p.init_lt hburst (h.feed.trans h'.feed.symm)

end Params

end Crc

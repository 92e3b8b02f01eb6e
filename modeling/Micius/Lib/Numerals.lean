import Mathlib.Data.List.Basic
import Mathlib.Tactic.Ring
import Mathlib.Tactic.IntervalCases

/-!
# Numerals of a fixed width

Numbers written with zeros before them up to a width. As long as the number
fits the width, the numeral determines it, and the order of the texts is the
order of the numbers.
-/

namespace Numerals

/-- The digits of `n` in base `b`, with zeros before them up to the width `w`. -/
def padded (b w n : Nat) : List Char := (Nat.toDigits b n).leftpad w '0'

/-- The last `w` digits of `n` in base `b`. -/
def fixed (b : Nat) : Nat → Nat → List Char
  | 0, _ => []
  | w + 1, n => fixed b w (n / b) ++ [(n % b).digitChar]

@[simp] theorem length_fixed (b w n : Nat) : (fixed b w n).length = w := by
  induction w generalizing n with
  | zero => rfl
  | succ w ih => rw [fixed, List.length_append, ih, List.length_singleton]

theorem exists_fixed_append (b n : Nat) {w : Nat} (hw : 0 < w) :
    ∃ stem, fixed b w n = stem ++ [(n % b).digitChar] := by
  cases w with
  | zero => omega
  | succ w => exact ⟨_, rfl⟩

theorem fixed_zero (b w : Nat) : fixed b w 0 = List.replicate w '0' := by
  induction w with
  | zero => rfl
  | succ w ih =>
    rw [fixed, Nat.zero_div, ih, Nat.zero_mod, List.replicate_succ']
    rfl

theorem leftpad_append_singleton (w : Nat) (c d : Char) (l : List Char) :
    (l ++ [d]).leftpad (w + 1) c = l.leftpad w c ++ [d] := by
  rw [List.leftpad, List.leftpad, List.length_append, List.length_singleton, List.append_assoc,
    Nat.add_sub_add_right]

/-- A number that fits the width is written in it exactly. -/
theorem padded_eq_fixed {b w n : Nat} (hb : 1 < b) (hw : 0 < w) (h : n < b ^ w) :
    padded b w n = fixed b w n := by
  induction w generalizing n with
  | zero => omega
  | succ w ih =>
    by_cases hlt : n < b
    · have hone : Nat.toDigits b n = [] ++ [n.digitChar] := Nat.toDigits_of_lt_base hlt
      rw [padded, fixed, hone, leftpad_append_singleton, Nat.div_eq_of_lt hlt,
        Nat.mod_eq_of_lt hlt, fixed_zero, List.leftpad]
      simp
    · have hquot : n / b < b ^ w := by
        rw [Nat.pow_succ] at h
        exact Nat.div_lt_of_lt_mul (by rwa [Nat.mul_comm])
      have hpos : 0 < w := by
        rcases Nat.eq_zero_or_pos w with rfl | hpos
        · rw [Nat.pow_one] at h
          omega
        · exact hpos
      rw [padded, fixed, ← ih hpos hquot, Nat.toDigits_of_base_le hb (by omega),
        leftpad_append_singleton, padded]

/-! ## Reading a numeral -/

/-- The value of a digit of base `b`, in lower or upper case. -/
def digitValue (b : Nat) (c : Char) : Option Nat :=
  let v :=
    if '0' ≤ c ∧ c ≤ '9' then c.toNat - 48
    else if 'a' ≤ c ∧ c ≤ 'z' then c.toNat - 87
    else if 'A' ≤ c ∧ c ≤ 'Z' then c.toNat - 55
    else b
  if v < b then some v else none

/-- The value of a text of digits. -/
def value (b : Nat) (cs : List Char) : Option Nat :=
  cs.foldlM (fun n c => (digitValue b c).map (b * n + ·)) 0

theorem digitValue_digitChar {b n : Nat} (hb : b ≤ 16) (hn : n < b) :
    digitValue b n.digitChar = some n := by
  have hlt : n < 16 := by omega
  interval_cases n <;> exact if_pos hn

theorem value_append_singleton (b : Nat) (cs : List Char) (c : Char) :
    value b (cs ++ [c]) = (value b cs).bind fun n => (digitValue b c).map (b * n + ·) := by
  rw [value, List.foldlM_append]
  refine congrArg (Option.bind _) (funext fun n => ?_)
  rw [List.foldlM_cons]
  cases digitValue b c <;> rfl

theorem value_fixed {b : Nat} (hb : 0 < b) (hb' : b ≤ 16) (w n : Nat) :
    value b (fixed b w n) = some (n % b ^ w) := by
  induction w generalizing n with
  | zero => rw [Nat.pow_zero, Nat.mod_one]; rfl
  | succ w ih =>
    rw [fixed, value_append_singleton, ih, digitValue_digitChar hb' (Nat.mod_lt n hb),
      Nat.pow_succ, Nat.mul_comm (b ^ w), Nat.mod_mul, Nat.add_comm]
    rfl

/-! ## The order of numerals -/

theorem append_lt_of_lt {l l' : List Char} (hlen : l.length = l'.length) (h : l < l')
    (s t : List Char) : l ++ s < l' ++ t := by
  induction l generalizing l' with
  | nil =>
    obtain rfl := List.length_eq_zero_iff.mp hlen.symm
    exact absurd h (List.lt_irrefl _)
  | cons a l ih =>
    cases l' with
    | nil => cases hlen
    | cons b l' =>
      rw [List.cons_append, List.cons_append, List.cons_lt_cons_iff]
      rcases List.cons_lt_cons_iff.mp h with hab | ⟨hab, hlt⟩
      · exact .inl hab
      · exact .inr ⟨hab, ih (Nat.succ.inj hlen) hlt⟩

theorem append_lt_append (l : List Char) {c d : Char} (h : c < d) : l ++ [c] < l ++ [d] := by
  induction l with
  | nil => exact List.cons_lt_cons_iff.mpr (.inl h)
  | cons a l ih =>
    rw [List.cons_append, List.cons_append, List.cons_lt_cons_iff]
    exact .inr ⟨rfl, ih⟩

theorem digitChar_lt {m n : Nat} (hmn : m < n) (hn : n < 16) : m.digitChar < n.digitChar := by
  interval_cases n <;> interval_cases m <;> decide

/-- Numerals of one width compare as their numbers do. -/
theorem fixed_lt_fixed {b w m n : Nat} (hb : b ≤ 16) (hmn : m < n) (hn : n < b ^ w) :
    fixed b w m < fixed b w n := by
  induction w generalizing m n with
  | zero =>
    rw [Nat.pow_zero] at hn
    omega
  | succ w ih =>
    have hpos : 0 < b := by
      rcases Nat.eq_zero_or_pos b with rfl | hpos
      · rw [Nat.zero_pow (Nat.succ_pos w)] at hn
        omega
      · exact hpos
    have hquot : n / b < b ^ w := by
      rw [Nat.pow_succ] at hn
      exact Nat.div_lt_of_lt_mul (by rwa [Nat.mul_comm])
    have hm := Nat.div_add_mod m b
    have hn' := Nat.div_add_mod n b
    have hmod := Nat.mod_lt n hpos
    rcases Nat.lt_or_eq_of_le (Nat.div_le_div_right (c := b) hmn.le) with hlt | heq
    · exact append_lt_of_lt (by rw [length_fixed, length_fixed]) (ih hlt hquot) _ _
    · rw [fixed, fixed, heq]
      rw [heq] at hm
      exact append_lt_append _ (digitChar_lt (by omega) (by omega))

end Numerals

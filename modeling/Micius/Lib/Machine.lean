import Mathlib.Algebra.Group.Nat.Defs
import Mathlib.Tactic.Ring

/-!
# Calls that can panic

A call in a build with overflow checks returns a value, returns an error, or
panics. The arithmetic of `usize` (64 bits wide) and `i64` and the indexing of a
slice by a range are such calls; a function written over them panics exactly
where the machine would.
-/

namespace Machine

/-- What a call can do. -/
inductive Call (ε α : Type) where
  | ok (a : α)
  | err (e : ε)
  | panic
  deriving DecidableEq

variable {ε α β : Type}

namespace Call

/-- Run a second call on the value of the first. -/
def bind (c : Call ε α) (f : α → Call ε β) : Call ε β :=
  match c with
  | ok a => f a
  | err e => err e
  | panic => panic

instance : Monad (Call ε) where
  pure := ok
  bind := bind

@[simp] theorem pure_eq (a : α) : (pure a : Call ε α) = ok a := rfl

@[simp] theorem ok_bind (a : α) (f : α → Call ε β) : (ok a >>= f) = f a := rfl

@[simp] theorem panic_bind (f : α → Call ε β) : (panic >>= f) = panic := rfl

instance : LawfulMonad (Call ε) :=
  LawfulMonad.mk' (Call ε)
    (fun c => by cases c <;> rfl)
    (fun _ _ => rfl)
    (fun c _ _ => by cases c <;> rfl)

instance decidableEqPanic : (c : Call ε α) → Decidable (c = panic)
  | ok _ => isFalse (by intro h; cases h)
  | err _ => isFalse (by intro h; cases h)
  | panic => isTrue rfl

/-- A call that does not panic. -/
def ofExcept : Except ε α → Call ε α
  | .ok a => ok a
  | .error e => err e

@[simp] theorem ofExcept_ok (a : α) : ofExcept (.ok a : Except ε α) = ok a := rfl

@[simp] theorem ofExcept_pure (a : α) : ofExcept (pure a : Except ε α) = pure a := rfl

theorem ofExcept_ne_panic (r : Except ε α) : ofExcept r ≠ panic := by
  intro h
  cases r <;> cases h

/-- A call that follows one without a panic step by step does not panic. -/
theorem ofExcept_bind {r : Except ε α} {f : α → Call ε β} {g : α → Except ε β}
    (h : ∀ a, r = .ok a → f a = ofExcept (g a)) : (ofExcept r >>= f) = ofExcept (r >>= g) := by
  cases r with
  | ok a => exact h a rfl
  | error e => rfl

theorem ofExcept_bind_eq (r : Except ε α) (g : α → Except ε β) :
    ofExcept (r >>= g) = ofExcept r >>= fun a => ofExcept (g a) :=
  (ofExcept_bind fun _ _ => rfl).symm

end Call

open Call

/-! ## `usize` -/

/-- `a + b` on `usize`. -/
def usizeAdd (a b : Nat) : Call ε Nat := if a + b < 2 ^ 64 then ok (a + b) else panic

theorem usizeAdd_of_lt {a b : Nat} (h : a + b < 2 ^ 64) : (usizeAdd a b : Call ε Nat) = ok (a + b) :=
  if_pos h

theorem usizeAdd_of_le {a b : Nat} (h : 2 ^ 64 ≤ a + b) : (usizeAdd a b : Call ε Nat) = panic :=
  if_neg (Nat.not_lt.mpr h)

/-- `a - b` on `usize`. -/
def usizeSub (a b : Nat) : Call ε Nat := if b ≤ a then ok (a - b) else panic

/-! ## `i64` -/

/-- The integers an `i64` can hold. -/
def InI64 (n : Int) : Prop := -2 ^ 63 ≤ n ∧ n < 2 ^ 63

instance (n : Int) : Decidable (InI64 n) := instDecidableAnd

/-- `a + b` on `i64`. -/
def i64Add (a b : Int64) : Call ε Int64 := if InI64 (a.toInt + b.toInt) then ok (a + b) else panic

/-- `a - b` on `i64`. -/
def i64Sub (a b : Int64) : Call ε Int64 := if InI64 (a.toInt - b.toInt) then ok (a - b) else panic

theorem inI64_toInt (a : Int64) : InI64 a.toInt := ⟨a.le_toInt, a.toInt_lt⟩

theorem bmod_of_inI64 {n : Int} (h : InI64 n) : n.bmod (2 ^ 64) = n := by
  obtain ⟨hlo, hhi⟩ := h
  exact Int.bmod_eq_of_le (by omega) (by omega)

theorem toInt_add_of_inI64 {a b : Int64} (h : InI64 (a.toInt + b.toInt)) :
    (a + b).toInt = a.toInt + b.toInt := by
  rw [Int64.toInt_add, bmod_of_inI64 h]

theorem toInt_sub_of_inI64 {a b : Int64} (h : InI64 (a.toInt - b.toInt)) :
    (a - b).toInt = a.toInt - b.toInt := by
  rw [Int64.toInt_sub, bmod_of_inI64 h]

/-! ## Ranges of a slice -/

/-- `&l[lo..hi]`. -/
def index (l : List α) (lo hi : Nat) : Call ε (List α) :=
  if lo ≤ hi ∧ hi ≤ l.length then ok ((l.drop lo).take (hi - lo)) else panic

/-- `l.get(lo..hi)`. -/
def get? (l : List α) (lo hi : Nat) : Option (List α) :=
  if lo ≤ hi ∧ hi ≤ l.length then some ((l.drop lo).take (hi - lo)) else none

/-- `l.split_at(mid)`. -/
def splitAt (l : List α) (mid : Nat) : Call ε (List α × List α) :=
  if mid ≤ l.length then ok (l.take mid, l.drop mid) else panic

theorem index_of_le {l : List α} {lo len : Nat} (h : lo + len ≤ l.length) :
    (index l lo (lo + len) : Call ε (List α)) = ok ((l.drop lo).take len) := by
  rw [index, if_pos ⟨Nat.le_add_right lo len, h⟩, Nat.add_sub_cancel_left]

end Machine

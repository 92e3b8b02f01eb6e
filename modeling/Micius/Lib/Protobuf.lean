import Mathlib.Data.List.Basic
import Micius.Lib.LittleEndian

/-!
# Protobuf wire primitives

Base-128 varints, zigzag and length-delimited fields over `List UInt8`,
each with a reader that gives back what the writer wrote and the bytes
after it.
-/

namespace Protobuf

/-- Seven payload bits a byte, the continuation bit on all but the last.
`fuel` bounds the number of bytes; `n` itself always suffices. -/
def varintAux : Nat → Nat → List UInt8
  | 0, n => [UInt8.ofNat n]
  | fuel + 1, n =>
    if n < 128 then [UInt8.ofNat n]
    else UInt8.ofNat (n % 128 + 128) :: varintAux fuel (n / 128)

/-- The varint of `n`. -/
def varint (n : Nat) : List UInt8 := varintAux n n

/-- Read a varint and return the rest of the input. -/
def readVarint : List UInt8 → Option (Nat × List UInt8)
  | [] => none
  | b :: bs =>
    if b.toNat < 128 then some (b.toNat, bs)
    else (readVarint bs).map fun p => (b.toNat - 128 + 128 * p.1, p.2)

theorem readVarint_varintAux {fuel n : Nat} (h : n ≤ fuel) (rest : List UInt8) :
    readVarint (varintAux fuel n ++ rest) = some (n, rest) := by
  induction fuel generalizing n with
  | zero =>
    obtain rfl : n = 0 := by omega
    simp [varintAux, readVarint]
  | succ fuel ih =>
    by_cases hn : n < 128
    · have hb : (UInt8.ofNat n).toNat = n := by
        rw [UInt8.toNat_ofNat']
        omega
      simp [varintAux, hn, readVarint, hb]
    · have hb : (UInt8.ofNat (n % 128 + 128)).toNat = n % 128 + 128 := by
        rw [UInt8.toNat_ofNat']
        omega
      have ih' := ih (n := n / 128) (by omega)
      rw [varintAux, if_neg hn, List.cons_append, readVarint, hb, if_neg (by omega), ih']
      simp only [Option.map_some, Option.some.injEq, Prod.mk.injEq, and_true]
      omega

theorem readVarint_varint (n : Nat) (rest : List UInt8) :
    readVarint (varint n ++ rest) = some (n, rest) :=
  readVarint_varintAux (Nat.le_refl n) rest

/-! ## Length-delimited fields -/

/-- A length prefix and the bytes. -/
def delimited (bs : List UInt8) : List UInt8 := varint bs.length ++ bs

/-- Read a length-delimited field and return the rest of the input. -/
def readDelimited (bs : List UInt8) : Option (List UInt8 × List UInt8) :=
  match readVarint bs with
  | none => none
  | some (len, rest) =>
    if len ≤ rest.length then some (rest.take len, rest.drop len) else none

theorem readDelimited_delimited (bs rest : List UInt8) :
    readDelimited (delimited bs ++ rest) = some (bs, rest) := by
  rw [delimited, List.append_assoc, readDelimited, readVarint_varint]
  simp

/-- A repeated length-delimited field with a one-byte tag. -/
def repeated (tag : UInt8) (items : List (List UInt8)) : List UInt8 :=
  items.flatMap fun item => tag :: delimited item

/-- Read a repeated field until another tag or the end of the input. -/
def readRepeated (tag : UInt8) : Nat → List UInt8 → Option (List (List UInt8) × List UInt8)
  | 0, bs => some ([], bs)
  | fuel + 1, bs =>
    match bs with
    | [] => some ([], [])
    | b :: rest =>
      if b = tag then
        match readDelimited rest with
        | none => none
        | some (item, rest') =>
          (readRepeated tag fuel rest').map fun p => (item :: p.1, p.2)
      else some ([], b :: rest)

theorem readRepeated_repeated (tag : UInt8) (items : List (List UInt8)) (rest : List UInt8)
    (hrest : ∀ b ∈ rest.head?, b ≠ tag) {fuel : Nat} (hfuel : items.length ≤ fuel) :
    readRepeated tag fuel (repeated tag items ++ rest) = some (items, rest) := by
  induction items generalizing fuel with
  | nil =>
    cases fuel with
    | zero => rfl
    | succ fuel =>
      cases rest with
      | nil => rfl
      | cons b rest =>
        have hb : b ≠ tag := hrest b (by simp)
        simp [repeated, readRepeated, hb]
  | cons item items ih =>
    cases fuel with
    | zero => simp at hfuel
    | succ fuel =>
      have hle : items.length ≤ fuel := by simpa using hfuel
      rw [repeated, List.flatMap_cons, List.cons_append, List.cons_append, readRepeated]
      simp only [if_true, List.append_assoc, readDelimited_delimited]
      rw [← repeated, ih hle]
      rfl

/-- A length-delimited field that is left out when it is empty. -/
def optionalField (tag : UInt8) (bs : List UInt8) : List UInt8 :=
  if bs = [] then [] else tag :: delimited bs

/-- Read an optional field; it is empty when the next tag is another one. -/
def readOptional (tag : UInt8) (bs : List UInt8) : Option (List UInt8 × List UInt8) :=
  match bs with
  | [] => some ([], [])
  | b :: rest => if b = tag then readDelimited rest else some ([], b :: rest)

theorem readOptional_optionalField (tag : UInt8) (bs rest : List UInt8)
    (hrest : ∀ b ∈ rest.head?, b ≠ tag) :
    readOptional tag (optionalField tag bs ++ rest) = some (bs, rest) := by
  by_cases h : bs = []
  · subst h
    cases rest with
    | nil => rfl
    | cons b rest =>
      have hb : b ≠ tag := hrest b (by simp)
      simp [optionalField, readOptional, hb]
  · simp [optionalField, h, readOptional, readDelimited_delimited]

/-! ## Scalars -/

/-- A scalar field that is left out when its value is the default. -/
def scalar (tag : UInt8) (isDefault : Bool) (bs : List UInt8) : List UInt8 :=
  if isDefault then [] else tag :: bs

/-- Zigzag: the sign moves to the lowest bit. -/
def zigzag (x : Int) : Nat := if 0 ≤ x then (2 * x).toNat else (-2 * x - 1).toNat

def unzigzag (n : Nat) : Int := if n % 2 = 0 then n / 2 else -((n + 1) / 2)

theorem unzigzag_zigzag (x : Int) : unzigzag (zigzag x) = x := by
  unfold unzigzag zigzag
  by_cases h : 0 ≤ x
  · rw [if_pos h]
    split <;> omega
  · rw [if_neg h]
    split <;> omega

end Protobuf

import Micius.Lib.LittleEndian

/-!
# Formats without framing

A format pairs an encoder with a reader that takes a value off the front of a
byte string. Two laws hold of every format: the reader takes back what the
encoder wrote, whatever follows it; and what the reader makes of a byte string
depends only on the bytes it takes. So a file cut short anywhere is rejected,
and bytes behind a whole encoding are ignored.

The combinators are those of bincode's fixed-width configuration: little-endian
integers, the fields of a record one after the other, and sequences with their
length in eight bytes before them.
-/

namespace Bincode

open LittleEndian

variable {α β : Type}

/-! ## Readers -/

/-- A reader takes a value off the front of a byte string, or fails. -/
abbrev Reader (α : Type) := StateT (List UInt8) Option α

namespace Reader

/-- The reader looks at no byte behind those it takes. -/
def Local (r : Reader α) : Prop :=
  ∀ ⦃bs a rest⦄, r.run bs = some (a, rest) →
    ∃ taken, bs = taken ++ rest ∧ ∀ rest', r.run (taken ++ rest') = some (a, rest')

theorem local_lift (o : Option α) : Local (StateT.lift o : Reader α) := by
  intro bs a rest h
  cases o with
  | none => cases h
  | some b =>
    obtain ⟨rfl, rfl⟩ := Prod.mk.inj (Option.some.inj h)
    exact ⟨[], rfl, fun _ => rfl⟩

theorem local_pure (a : α) : Local (pure a : Reader α) := local_lift (some a)

theorem run_bind_of_run {r : Reader α} {bs rest : List UInt8} {a : α}
    (h : r.run bs = some (a, rest)) (k : α → Reader β) : (r >>= k).run bs = (k a).run rest := by
  rw [StateT.run_bind, h]
  rfl

theorem Local.bind {r : Reader α} (hr : r.Local) {k : α → Reader β} (hk : ∀ a, (k a).Local) :
    (r >>= k).Local := by
  intro bs b rest h
  cases hread : r.run bs with
  | none =>
    rw [StateT.run_bind, hread] at h
    cases h
  | some p =>
    obtain ⟨a, mid⟩ := p
    rw [run_bind_of_run hread] at h
    obtain ⟨first, rfl, hfirst⟩ := hr hread
    obtain ⟨second, rfl, hsecond⟩ := hk a h
    refine ⟨first ++ second, (List.append_assoc ..).symm, fun rest' => ?_⟩
    rw [List.append_assoc, run_bind_of_run (hfirst _), hsecond]

/-- Read `n` values in turn. -/
def times (r : Reader α) : Nat → Reader (List α)
  | 0 => pure []
  | n + 1 => do
    let a ← r
    let as ← times r n
    pure (a :: as)

theorem Local.times {r : Reader α} (hr : r.Local) (n : Nat) : (r.times n).Local := by
  induction n with
  | zero => exact local_pure []
  | succ n ih => exact hr.bind fun a => ih.bind fun as => local_pure (a :: as)

end Reader

/-! ## Formats -/

/-- A way to write values as bytes and to read them back. Values that do not
fit (a length or a number of more than eight bytes) have no encoding. -/
structure Format (α : Type) where
  encode : α → List UInt8
  decode : Reader α
  fits : α → Bool
  decode_encode : ∀ {a}, fits a = true → ∀ rest, decode.run (encode a ++ rest) = some (a, rest)
  decode_local : decode.Local

namespace Format

/-- An encoding that is cut short is rejected. -/
theorem decode_cut (f : Format α) {a : α} (hfits : f.fits a = true) {bs tail : List UInt8}
    (hcut : bs ++ tail = f.encode a) (hne : tail ≠ []) : f.decode.run bs = none := by
  cases hread : f.decode.run bs with
  | none => rfl
  | some p =>
    obtain ⟨b, rest⟩ := p
    obtain ⟨taken, rfl, hlocal⟩ := f.decode_local hread
    -- the whole encoding leaves nothing over, so its cut leaves less
    have hwhole := f.decode_encode hfits []
    rw [List.append_nil, ← hcut, List.append_assoc, hlocal] at hwhole
    have hnil := (Prod.mk.inj (Option.some.inj hwhole)).2
    exact absurd (List.append_eq_nil_iff.mp hnil).2 hne

/-- A number in `w` bytes, least significant first. -/
def uint (w : Nat) : Format Nat where
  encode n := toLe w n
  decode := fun bs => if w ≤ bs.length then some (fromLe (bs.take w), bs.drop w) else none
  fits n := decide (n < 256 ^ w)
  decode_encode := by
    intro n hfits rest
    have hlen : (toLe w n).length = w := length_toLe w n
    change (if _ then _ else _) = _
    rw [if_pos (by rw [List.length_append]; omega), List.take_left' hlen, List.drop_left' hlen,
      fromLe_toLe_of_lt (of_decide_eq_true hfits)]
  decode_local := by
    intro bs n rest h
    change (if _ then _ else _) = _ at h
    split at h
    · next hle =>
      obtain ⟨rfl, rfl⟩ := Prod.mk.inj (Option.some.inj h)
      refine ⟨bs.take w, (List.take_append_drop w bs).symm, fun rest' => ?_⟩
      have hlen : (bs.take w).length = w := List.length_take_of_le hle
      change (if _ then _ else _) = _
      rw [if_pos (by rw [List.length_append]; omega), List.take_left' hlen, List.drop_left' hlen]
    · cases h

/-- Values that stand for values of another format. The reader rejects what
stands for nothing. -/
def map (f : Format α) (toRepr : β → α) (ofRepr : α → Option β)
    (h : ∀ b, ofRepr (toRepr b) = some b) : Format β where
  encode b := f.encode (toRepr b)
  decode := do
    let a ← f.decode
    StateT.lift (ofRepr a)
  fits b := f.fits (toRepr b)
  decode_encode := by
    intro b hfits rest
    rw [Reader.run_bind_of_run (f.decode_encode hfits rest), h]
    rfl
  decode_local := f.decode_local.bind fun a => Reader.local_lift (ofRepr a)

/-- One value after the other. -/
def pair (f : Format α) (g : Format β) : Format (α × β) where
  encode p := f.encode p.1 ++ g.encode p.2
  decode := do
    let a ← f.decode
    let b ← g.decode
    pure (a, b)
  fits p := f.fits p.1 && g.fits p.2
  decode_encode := by
    rintro ⟨a, b⟩ hfits rest
    obtain ⟨ha, hb⟩ := Bool.and_eq_true_iff.mp hfits
    rw [List.append_assoc, Reader.run_bind_of_run (f.decode_encode ha _),
      Reader.run_bind_of_run (g.decode_encode hb _)]
    rfl
  decode_local := f.decode_local.bind fun a =>
    g.decode_local.bind fun b => Reader.local_pure (a, b)

theorem times_flatMap (f : Format α) {as : List α} (hfits : as.all f.fits = true)
    (rest : List UInt8) :
    (f.decode.times as.length).run (as.flatMap f.encode ++ rest) = some (as, rest) := by
  induction as with
  | nil => rfl
  | cons a as ih =>
    obtain ⟨ha, has⟩ := Bool.and_eq_true_iff.mp (List.all_cons.symm.trans hfits)
    rw [List.length_cons, Reader.times, List.flatMap_cons, List.append_assoc,
      Reader.run_bind_of_run (f.decode_encode ha _), Reader.run_bind_of_run (ih has)]
    rfl

/-- A sequence: its length in eight bytes, then its elements. -/
def vec (f : Format α) : Format (List α) where
  encode as := (uint 8).encode as.length ++ as.flatMap f.encode
  decode := do
    let n ← (uint 8).decode
    f.decode.times n
  fits as := (uint 8).fits as.length && as.all f.fits
  decode_encode := by
    intro as hfits rest
    obtain ⟨hlen, has⟩ := Bool.and_eq_true_iff.mp hfits
    rw [List.append_assoc, Reader.run_bind_of_run ((uint 8).decode_encode hlen _),
      f.times_flatMap has]
  decode_local := (uint 8).decode_local.bind fun n => f.decode_local.times n

end Format

/-! ## Machine integers -/

def u8 : Format UInt8 :=
  (Format.uint 1).map UInt8.toNat (fun n => some (UInt8.ofNat n)) fun x => by
    rw [UInt8.ofNat_toNat]

def u64 : Format UInt64 :=
  (Format.uint 8).map UInt64.toNat (fun n => some (UInt64.ofNat n)) fun x => by
    rw [UInt64.ofNat_toNat]

/-- Two's complement. -/
def i64 : Format Int64 := u64.map Int64.toUInt64 (fun x => some x.toInt64) fun _ => rfl

end Bincode

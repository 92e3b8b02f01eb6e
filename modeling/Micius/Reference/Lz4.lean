import Micius.Lib.LittleEndian
import Micius.Types

/-!
# lz4 blocks of literals

`compress_prepend_size` on input too short to hold a match: a four-byte
length, one token and the literals. lz4 finds no match in fewer than
thirteen bytes, so this is the crate's own output on such input; on longer
input it is a valid block that the crate would make shorter.
-/

namespace Micius.Lz4

open LittleEndian

/-- The length bytes after a token whose literal nibble is 15. -/
def extraLength (n : Nat) : Bytes := List.replicate (n / 255) 255 ++ [UInt8.ofNat (n % 255)]

/-- The block: token, extra length, literals. -/
def block (bs : Bytes) : Bytes :=
  if bs.length < 15 then UInt8.ofNat (bs.length * 16) :: bs
  else 0xf0 :: (extraLength (bs.length - 15) ++ bs)

/-- `compress_prepend_size`. -/
def compress (bs : Bytes) : Bytes := toLe 4 bs.length ++ block bs

/-- Read the extra length bytes. -/
def readExtra : Bytes → Option (Nat × Bytes)
  | [] => none
  | b :: bs =>
    if b = 255 then (readExtra bs).map fun p => (255 + p.1, p.2) else some (b.toNat, bs)

/-- The literals of a block that holds nothing else. -/
def unblock : Bytes → Option Bytes
  | [] => none
  | token :: bs =>
    if token = 0xf0 then
      match readExtra bs with
      | none => none
      | some (n, lits) => if lits.length = 15 + n then some lits else none
    else if bs.length * 16 = token.toNat then some bs else none

/-- `decompress_size_prepended`. -/
def decompress (bs : Bytes) : Option Bytes :=
  if bs.length < 4 then none
  else match unblock (bs.drop 4) with
    | none => none
    | some out => if out.length = fromLe (bs.take 4) then some out else none

theorem readExtra_extraLength (n : Nat) (rest : Bytes) :
    readExtra (extraLength n ++ rest) = some (n, rest) := by
  have hlast : (UInt8.ofNat (n % 255)).toNat = n % 255 := by
    rw [UInt8.toNat_ofNat']
    omega
  have hne : UInt8.ofNat (n % 255) ≠ 255 := by
    intro h
    have := congrArg UInt8.toNat h
    rw [hlast] at this
    have h255 : (255 : UInt8).toNat = 255 := rfl
    omega
  have key : ∀ k, readExtra (List.replicate k 255 ++ (UInt8.ofNat (n % 255) :: rest)) =
      some (255 * k + n % 255, rest) := by
    intro k
    induction k with
    | zero => simp [readExtra, hne, hlast]
    | succ k ih =>
      rw [List.replicate_succ, List.cons_append, readExtra, if_pos rfl, ih]
      simp only [Option.map_some, Option.some.injEq, Prod.mk.injEq, and_true]
      omega
  have h := key (n / 255)
  rw [Nat.div_add_mod] at h
  simpa [extraLength] using h

theorem unblock_block (bs : Bytes) : unblock (block bs) = some bs := by
  unfold block
  split
  · next h =>
    have htok : (UInt8.ofNat (bs.length * 16)).toNat = bs.length * 16 := by
      rw [UInt8.toNat_ofNat']
      omega
    have hne : UInt8.ofNat (bs.length * 16) ≠ 0xf0 := by
      intro hc
      have := congrArg UInt8.toNat hc
      rw [htok] at this
      have h240 : (0xf0 : UInt8).toNat = 240 := rfl
      omega
    simp only [unblock, if_neg hne, htok, if_true]
  · next h =>
    rw [unblock, if_pos rfl, readExtra_extraLength]
    have hlen : bs.length = 15 + (bs.length - 15) := by omega
    simp only [if_pos hlen]

theorem decompress_compress {bs : Bytes} (h : bs.length < 2 ^ 32) :
    decompress (compress bs) = some bs := by
  have hlen : fromLe (toLe 4 bs.length) = bs.length := fromLe_toLe_of_lt h
  have hdrop : (compress bs).drop 4 = block bs := by
    rw [compress, List.drop_append_of_le_length (by simp), List.drop_of_length_le (by simp),
      List.nil_append]
  have htake : (compress bs).take 4 = toLe 4 bs.length := by
    rw [compress, List.take_append_of_le_length (by simp), List.take_of_length_le (by simp)]
  have hge : ¬ (compress bs).length < 4 := by simp [compress]
  rw [decompress, if_neg hge, hdrop, unblock_block, htake, hlen]
  simp

end Micius.Lz4

import Mathlib.Algebra.Group.Nat.Defs
import Micius.Lib.Crc
import Micius.Wal.Proto

/-!
# The external crates

Code the engine calls and the repository does not hold: `crc32fast`,
`xxhash_rust`, `prost`, `lz4_flex` and `bloomfilter`. Each is a function
parameter. What the log relies on is stated in `Crates.LawfulProst`, what the
chunk files rely on in `Crates.LawfulLz4`, and what the detection of damaged
bytes relies on in `Crates.ComputesCrc32`, and only there.
-/

namespace Micius

/-- The parts of a `Bloom` that the chunk footer stores. -/
structure BloomParts where
  bitmapBits : UInt64
  kNum : UInt32
  sipKeys : (UInt64 × UInt64) × (UInt64 × UInt64)
  bitmap : Bytes

/-- The functions of the external crates. -/
class Crates where
  /-- `crc32fast::Hasher`: `update` over the bytes, then `finalize`. -/
  crc32 : Bytes → UInt32
  /-- `xxhash_rust::xxh64::xxh64(_, 0)`. -/
  xxh64 : Bytes → UInt64
  /-- prost's `WalEntry::encode_to_vec`. -/
  walEncode : WalEntry → Bytes
  /-- prost's `WalEntry::decode`. -/
  walDecode : Bytes → Option WalEntry
  /-- `lz4_flex::block::compress_prepend_size`. -/
  lz4Compress : Bytes → Bytes
  /-- `lz4_flex::block::decompress_size_prepended`. -/
  lz4Decompress : Bytes → Option Bytes
  /-- `Bloom::new_for_fp_rate(items, 0.01)` after `set` of each of the keys. -/
  bloom : Nat → List Bytes → BloomParts

/-- prost decodes the entries it encoded. -/
def Crates.LawfulProst [Crates] : Prop :=
  ∀ e : WalEntry, e.Plain → Crates.walDecode (Crates.walEncode e) = some e

/-- lz4 decodes what it encoded. It stores the input length in a `u32`. -/
def Crates.LawfulLz4 [Crates] : Prop :=
  ∀ bs : Bytes, bs.length < 2 ^ 32 → Crates.lz4Decompress (Crates.lz4Compress bs) = some bs

/-- What the engine as a whole relies on. -/
structure Crates.Lawful [Crates] : Prop where
  prost : Crates.LawfulProst
  lz4 : Crates.LawfulLz4

/-- `crc32fast` computes the CRC-32 of its documentation. -/
def Crates.ComputesCrc32 [Crates] : Prop :=
  ∀ bs : Bytes, (Crates.crc32 bs).toNat = Crc.ieee.checksum bs

/-- A checksum tells apart payloads that differ in a burst of at most four bytes. -/
theorem Crates.ComputesCrc32.burst [Crates] (hcrc : Crates.ComputesCrc32) {bs bs' : Bytes}
    (h : Crc.Burst 4 bs bs') : Crates.crc32 bs ≠ Crates.crc32 bs' := by
  intro heq
  have hsum := congrArg UInt32.toNat heq
  rw [hcrc, hcrc] at hsum
  exact Crc.ieee.checksum_burst (by decide) (by decide) h hsum

variable [Crates]

/-- `From<&SeriesKey> for SeriesId`. -/
def SeriesKey.id (k : SeriesKey) : SeriesId := Crates.xxh64 k.toBytes

/-- `series_id_from_parts`: the streaming hasher is fed the metric name and
then `,`, key, `=`, value for each tag; its digest is the hash of the bytes
it was fed. -/
def seriesIdFromParts (metricName : String) (tags : BTreeMap String String) : SeriesId :=
  Crates.xxh64 (SeriesKey.strBytes metricName ++ tags.toList.flatMap fun kv =>
    [44] ++ SeriesKey.strBytes kv.1 ++ [61] ++ SeriesKey.strBytes kv.2)

end Micius

import Micius.Crates
import Micius.Reference.Hashes
import Micius.Reference.Lz4
import Micius.Reference.Prost

/-!
# A concrete instance of the external crates

The functions that witnesses and counterexamples run on, and the proof that
they meet `Crates.Lawful` and `Crates.ComputesCrc32`.
-/

namespace Micius.Reference

/-- The bits of a filter for `items` keys; every bit is set, as in a full
filter. No read of the engine's query path looks at them. -/
def bloomParts (items : Nat) (_keys : List Bytes) : BloomParts :=
  { bitmapBits := UInt64.ofNat (16 * items)
    kNum := 7
    sipKeys := ((0, 0), (0, 0))
    bitmap := List.replicate (2 * items) 255 }

/-- The reference crates. -/
@[reducible] def crates : Crates where
  crc32 := Hashes.crc32
  xxh64 := Hashes.xxh64
  walEncode := Prost.encodeEntry
  walDecode := Prost.decodeEntry
  lz4Compress := Lz4.compress
  lz4Decompress := Lz4.decompress
  bloom := bloomParts

theorem lawful : @Crates.Lawful crates :=
  @Crates.Lawful.mk crates (fun _ h => Prost.decodeEntry_encodeEntry h)
    fun _ h => Lz4.decompress_compress h

theorem computesCrc32 : @Crates.ComputesCrc32 crates := by
  intro bs
  have hlt : Crc.ieee.checksum bs < 2 ^ 32 :=
    Nat.xor_lt_two_pow (Crc.ieee.feed_lt (by decide) Crc.ieee.init_lt bs) Crc.ieee.xorOut_lt
  exact (UInt32.toNat_ofNat_of_lt' hlt)

end Reference

/-- A point of the untagged series `cpu`. -/
def cpuPoint (ts : Int64) (bits : UInt64) : DataPoint := ⟨"cpu", ∅, ts, ⟨bits⟩⟩

/-- A point of the untagged series `disk`. -/
def diskPoint (ts : Int64) (bits : UInt64) : DataPoint := ⟨"disk", ∅, ts, ⟨bits⟩⟩

end Micius

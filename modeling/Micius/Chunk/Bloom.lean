import Micius.Chunk.RoundTrip

/-!
# The bloom footer (`chunk/reader.rs`)

`check_bloom` finds the footer of a chunk file through the last twelve bytes
and parses it on its own, without the header or the directory. On a written file
it recovers the parts of the filter as they were written.
-/

namespace Micius

open LittleEndian

/-- `FOOTER_TAIL_SIZE`: the footer offset and the checksum. -/
def footerTailSize : Nat := 12

/-- `BLOOM_SIP_KEYS_SIZE`. -/
def bloomSipKeysSize : Nat := 32

/-- `BLOOM_HEADER_SIZE`: the fixed part of the footer. -/
def bloomHeaderSize : Nat := 48

/-- The errors of `check_bloom`. -/
inductive BloomError
  /-- `chunk file too small to contain footer: {} bytes`. -/
  | tooSmallForFooter (size : Nat)
  /-- `bloom footer offset points outside file bounds`. -/
  | offsetOutside
  /-- `bloom footer offset 0x{:x} points outside file bounds (file size: {})`. -/
  | headerOutside (cursor size : Nat)
  /-- `bloom bitmap extends beyond file bounds`. -/
  | bitmapOutside
  /-- An error of `slice`. -/
  | slice (e : ChunkError)

/-- The part of the `bloomfilter` crate that reads a filter. -/
class BloomFilter where
  /-- `Bloom::from_existing` on the parts of a filter, then `check`. -/
  check : BloomParts → Bytes → Bool

/-- What the footer relies on: a filter rebuilt from its parts contains every
key that was set. -/
structure BloomFilter.Lawful [Crates] [BloomFilter] : Prop where
  check_set : ∀ (items : Nat) (keys : List Bytes) (key : Bytes), key ∈ keys →
    BloomFilter.check (Crates.bloom items keys) key = true

/-- `parse_bloom_from_buf`, up to `from_existing`. -/
def parseBloomFromBuf (buf : Bytes) : Except BloomError BloomParts := do
  if bloomHeaderSize > buf.length then throw (.headerOutside 0 buf.length)
  let bitmapBits ← (readU64 buf 0).mapError .slice
  let cursor := u64Size
  let kNum ← (readU32 buf cursor).mapError .slice
  let cursor := cursor + u32Size
  let k00 ← (readU64 buf cursor).mapError .slice
  let k01 ← (readU64 buf (cursor + u64Size)).mapError .slice
  let k10 ← (readU64 buf (cursor + 2 * u64Size)).mapError .slice
  let k11 ← (readU64 buf (cursor + 3 * u64Size)).mapError .slice
  let cursor := cursor + bloomSipKeysSize
  let bloomLen ← (readU32 buf cursor).mapError .slice
  let cursor := cursor + u32Size
  if cursor + bloomLen > buf.length then throw .bitmapOutside
  let bitmap ← (readSlice buf cursor bloomLen).mapError .slice
  return {
    bitmapBits := UInt64.ofNat bitmapBits
    kNum := UInt32.ofNat kNum
    sipKeys := ((UInt64.ofNat k00, UInt64.ofNat k01), (UInt64.ofNat k10, UInt64.ofNat k11))
    bitmap := bitmap }

/-- The footer of a file, as `check_bloom` locates and parses it. -/
def bloomOfFile (bytes : Bytes) : Except BloomError BloomParts := do
  if bytes.length < footerTailSize then throw (.tooSmallForFooter bytes.length)
  -- the last 12 bytes: footer offset and checksum
  let footerOffset := fromLe (slice bytes (bytes.length - footerTailSize) u64Size)
  if checksumSize + footerOffset > bytes.length then throw .offsetOutside
  -- the section ends at the checksum, so it contains the offset field as well
  parseBloomFromBuf (slice bytes footerOffset (bytes.length - checksumSize - footerOffset))

/-- `ChunkReader::check_bloom`. -/
def checkBloom [BloomFilter] (bytes : Bytes) (seriesKey : SeriesKey) : Except BloomError Bool := do
  return BloomFilter.check (← bloomOfFile bytes) seriesKey.toBytes

/-! ## Reading fields in a row -/

section Fields

variable {fields : List Bytes} {i offset : Nat}

theorem readSlice_field {field : Bytes} (hfield : fields[i]? = some field)
    (hoff : offset = (fields.take i).flatten.length) (tail : Bytes) :
    readSlice (fields.flatten ++ tail) offset field.length = .ok field := by
  obtain ⟨hi, rfl⟩ := List.getElem?_eq_some_iff.mp hfield
  have hflat : fields.flatten = (fields.take i).flatten ++
      (fields[i] ++ (fields.drop (i + 1)).flatten) := by
    rw [← List.flatten_cons, ← List.flatten_append, ← List.drop_eq_getElem_cons hi,
      List.take_append_drop]
  rw [hflat, List.append_assoc, List.append_assoc]
  exact readSlice_append hoff rfl

theorem readU32_field {n : Nat} (hfield : fields[i]? = some (toLe 4 n)) (hn : n < 2 ^ 32)
    (hoff : offset = (fields.take i).flatten.length) (tail : Bytes) :
    readU32 (fields.flatten ++ tail) offset = .ok n := by
  have hslice := readSlice_field hfield hoff tail
  have hval : fromLe (toLe 4 n) = n := fromLe_toLe_of_lt hn
  rw [length_toLe] at hslice
  simp [readU32, u32Size, hslice, hval, bind, Except.bind, pure, Except.pure]

theorem readU64_field {n : Nat} (hfield : fields[i]? = some (toLe 8 n)) (hn : n < 2 ^ 64)
    (hoff : offset = (fields.take i).flatten.length) (tail : Bytes) :
    readU64 (fields.flatten ++ tail) offset = .ok n := by
  have hslice := readSlice_field hfield hoff tail
  have hval : fromLe (toLe 8 n) = n := fromLe_toLe_of_lt hn
  rw [length_toLe] at hslice
  simp [readU64, u64Size, hslice, hval, bind, Except.bind, pure, Except.pure]

end Fields

/-- The fields of the footer, in their order. -/
def bloomFields (b : BloomParts) : List Bytes :=
  [toLe 8 b.bitmapBits.toNat, toLe 4 b.kNum.toNat, toLe 8 b.sipKeys.1.1.toNat,
    toLe 8 b.sipKeys.1.2.toNat, toLe 8 b.sipKeys.2.1.toNat, toLe 8 b.sipKeys.2.2.toNat,
    toLe 4 b.bitmap.length, b.bitmap]

theorem bloomFooter_eq (b : BloomParts) : bloomFooter b = (bloomFields b).flatten := by
  simp [bloomFooter, bloomFields]

/-- A footer is parsed to the parts it was written from, whatever follows it. -/
theorem parseBloomFromBuf_footer {b : BloomParts} (h : b.bitmap.length < 2 ^ 32) (tail : Bytes) :
    parseBloomFromBuf (bloomFooter b ++ tail) = .ok b := by
  have hlen : (bloomFooter b ++ tail).length = 48 + b.bitmap.length + tail.length := by
    simp [bloomFooter]
    omega
  rw [bloomFooter_eq] at hlen ⊢
  have hbits : readU64 ((bloomFields b).flatten ++ tail) 0 = .ok b.bitmapBits.toNat :=
    readU64_field (i := 0) rfl b.bitmapBits.toNat_lt rfl tail
  have hk : readU32 ((bloomFields b).flatten ++ tail) 8 = .ok b.kNum.toNat :=
    readU32_field (i := 1) rfl b.kNum.toNat_lt (by simp [bloomFields]) tail
  have h00 : readU64 ((bloomFields b).flatten ++ tail) 12 = .ok b.sipKeys.1.1.toNat :=
    readU64_field (i := 2) rfl b.sipKeys.1.1.toNat_lt (by simp [bloomFields]) tail
  have h01 : readU64 ((bloomFields b).flatten ++ tail) 20 = .ok b.sipKeys.1.2.toNat :=
    readU64_field (i := 3) rfl b.sipKeys.1.2.toNat_lt (by simp [bloomFields]) tail
  have h10 : readU64 ((bloomFields b).flatten ++ tail) 28 = .ok b.sipKeys.2.1.toNat :=
    readU64_field (i := 4) rfl b.sipKeys.2.1.toNat_lt (by simp [bloomFields]) tail
  have h11 : readU64 ((bloomFields b).flatten ++ tail) 36 = .ok b.sipKeys.2.2.toNat :=
    readU64_field (i := 5) rfl b.sipKeys.2.2.toNat_lt (by simp [bloomFields]) tail
  have hcount : readU32 ((bloomFields b).flatten ++ tail) 44 = .ok b.bitmap.length :=
    readU32_field (i := 6) rfl h (by simp [bloomFields]) tail
  have hbitmap : readSlice ((bloomFields b).flatten ++ tail) 48 b.bitmap.length = .ok b.bitmap :=
    readSlice_field (i := 7) rfl (by simp [bloomFields]) tail
  have hin : ¬ bloomHeaderSize > ((bloomFields b).flatten ++ tail).length := by
    rw [hlen, bloomHeaderSize]
    omega
  have hin' : ¬ 48 + b.bitmap.length > ((bloomFields b).flatten ++ tail).length := by
    rw [hlen]
    omega
  rw [parseBloomFromBuf, if_neg hin]
  simp only [u64Size, u32Size, bloomSipKeysSize, Nat.reduceAdd, Nat.reduceMul, hbits, hk, h00, h01,
    h10, h11, hcount, hbitmap, hin', if_false, Except.mapError, bind, Except.bind, pure,
    Except.pure, UInt64.ofNat_toNat, UInt32.ofNat_toNat]

section

variable [Crates]

/-- The filter `ChunkWriter::write` makes for a map. -/
def writtenBloom (data : SeriesData) : BloomParts :=
  Crates.bloom (max data.size 1) ((nonEmptySeries data.toList).map fun kp => kp.1.toBytes)

omit [Crates] in
/-- The footer of a file, located from its end. -/
theorem bloomOfFile_append {body footer crc : Bytes} (hbody : body.length < 2 ^ 64)
    (hcrc : crc.length = 4) :
    bloomOfFile (body ++ (footer ++ toLe 8 body.length) ++ crc) =
      parseBloomFromBuf (footer ++ toLe 8 body.length) := by
  have hlen : (body ++ (footer ++ toLe 8 body.length) ++ crc).length =
      body.length + footer.length + 12 := by
    simp [hcrc]
    omega
  have hoffset : slice (body ++ (footer ++ toLe 8 body.length) ++ crc)
      (body.length + footer.length) 8 = toLe 8 body.length := by
    rw [← List.append_assoc, List.append_assoc]
    exact slice_append List.length_append.symm (length_toLe ..).symm
  have hsection : slice (body ++ (footer ++ toLe 8 body.length) ++ crc) body.length
      (footer.length + 8) = footer ++ toLe 8 body.length := by
    rw [List.append_assoc]
    exact slice_append rfl (by simp)
  have hvalue : fromLe (toLe 8 body.length) = body.length := fromLe_toLe_of_lt hbody
  have htail : body.length + footer.length + 12 - 12 = body.length + footer.length := by omega
  have hrest : body.length + footer.length + 12 - 4 - body.length = footer.length + 8 := by omega
  rw [bloomOfFile, hlen, if_neg (by rw [footerTailSize]; omega)]
  simp only [footerTailSize, u64Size, checksumSize, htail, hoffset, hvalue, hrest, hsection]
  rw [if_neg (by omega)]

/-- **The bloom footer gives no false negatives.** From the file of a non-empty
map `check_bloom` recovers the filter that was written, and it finds every key
with a point. -/
theorem bloom_footer_recovered [BloomFilter] (lawful : BloomFilter.Lawful) {data : SeriesData}
    (hne : data.isEmpty = false) (hfit : FieldsFit (nonEmptySeries data.toList))
    (hbitmap : (writtenBloom data).bitmap.length < 2 ^ 32) (chunkId : ChunkId) :
    ∃ bytes result, ChunkWriter.write chunkId data = .ok (bytes, result) ∧
      bloomOfFile bytes = .ok (writtenBloom data) ∧
      ∀ kp ∈ data.toList, kp.2 ≠ [] → checkBloom bytes kp.1 = .ok true := by
  obtain ⟨encoded, henc, hw⟩ := write_eq chunkId hne
  have hkeys : encoded.map EncodedSeries.keyBytes =
      (nonEmptySeries data.toList).map fun kp => kp.1.toBytes := by
    rw [← List.forall₂_eq_eq_eq, List.forall₂_map_left_iff, List.forall₂_map_right_iff]
    exact henc.imp fun s kp hs => hs.keyBytes_eq
  have hbloom : bloomOfFile (chunkBytes chunkId data.size encoded) = .ok (writtenBloom data) := by
    have hbody : (chunkBody chunkId encoded).length < 2 ^ 64 := by
      rw [length_chunkBody henc]
      exact hfit.total
    rw [chunkBytes, hkeys]
    exact (bloomOfFile_append hbody (length_toLe ..)).trans (parseBloomFromBuf_footer hbitmap _)
  refine ⟨_, _, hw, hbloom, fun kp hkp hpoints => ?_⟩
  have hset : kp.1.toBytes ∈ (nonEmptySeries data.toList).map fun kp => kp.1.toBytes :=
    List.mem_map_of_mem (List.mem_filter.mpr ⟨hkp, by simpa using hpoints⟩)
  rw [checkBloom, hbloom]
  exact congrArg Except.ok (lawful.check_set _ _ _ hset)

end

section Example

attribute [local instance] Reference.crates

/-- A full filter contains every key. -/
@[reducible] def fullFilter : BloomFilter where
  check parts _ := parts.bitmap.all (· = 255)

attribute [local instance] fullFilter

theorem bloom_footer_recovered_twoSeries : ∃ bytes result,
    ChunkWriter.write 1 twoSeries = .ok (bytes, result) ∧
      bloomOfFile bytes = .ok (writtenBloom twoSeries) ∧
      checkBloom bytes ⟨"cpu", ∅⟩ = .ok true := by
  have hlaw : BloomFilter.Lawful := by
    refine ⟨fun items keys key _ => ?_⟩
    simp [BloomFilter.check, Crates.bloom, Reference.bloomParts]
  have hcpu : (⟨"cpu", ∅⟩, [(5, ⟨7⟩), (6, ⟨8⟩)]) ∈ twoSeries.toList := by
    rw [Std.ExtTreeMap.mem_toList_iff_getElem?_eq_some]
    decide +kernel
  obtain ⟨bytes, result, hw, hbloom, hcheck⟩ := bloom_footer_recovered hlaw
    (show twoSeries.isEmpty = false by decide +kernel)
    ⟨by decide +kernel, by decide +kernel, by decide +kernel⟩ (by decide +kernel) 1
  exact ⟨bytes, result, hw, hbloom, hcheck _ hcpu (by simp)⟩

end Example

end Micius

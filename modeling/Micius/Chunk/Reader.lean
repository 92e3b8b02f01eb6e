import Micius.Chunk.Writer

/-!
# Chunk reader (`chunk/reader.rs`)

`readSeries` and `readChunk` on the bytes of a file. Every field is read
through a bounds-checked slice.
-/

namespace Micius

open LittleEndian

/-- The errors of the reader. -/
inductive ChunkError
  /-- `chunk file truncated: need {} bytes at offset {}, file is {} bytes`. -/
  | truncated (need offset size : Nat)
  /-- `Invalid chunk magic: expected 0x{:08X}, got 0x{:08X}`. -/
  | invalidMagic (expected got : Nat)
  /-- `chunk file too small to contain checksum: {} bytes`. -/
  | tooSmallForChecksum (size : Nat)
  /-- `CRC32 mismatch: computed 0x{:08X}, stored 0x{:08X}`. -/
  | crcMismatch (computed stored : Nat)
  /-- `file too small to contain header`. -/
  | tooSmallForHeader
  /-- An error of `SeriesKey::from_bytes`. -/
  | key (e : SeriesKey.KeyError)
  /-- An error of `decompress_size_prepended`. -/
  | decompress
  /-- `length mismatch between timestamp and value columns`. -/
  | lengthMismatch

/-- `slice`: `bytes[offset..offset+len]`, or an error past the end. -/
def readSlice (bytes : Bytes) (offset len : Nat) : Except ChunkError Bytes :=
  if offset + len ≤ bytes.length then .ok (slice bytes offset len)
  else .error (.truncated len offset bytes.length)

/-- A `u32` field. -/
def readU32 (bytes : Bytes) (offset : Nat) : Except ChunkError Nat := do
  return fromLe (← readSlice bytes offset u32Size)

/-- A `u64` field. -/
def readU64 (bytes : Bytes) (offset : Nat) : Except ChunkError Nat := do
  return fromLe (← readSlice bytes offset u64Size)

/-- An `i64` field. -/
def readI64 (bytes : Bytes) (offset : Nat) : Except ChunkError Int64 := do
  return i64FromLe (← readSlice bytes offset u64Size)

/-- `is_magic_valid`. -/
def isMagicValid (bytes : Bytes) : Except ChunkError Unit := do
  let got ← readU32 bytes 0
  if got = magic then return () else throw (.invalidMagic magic got)

/-- `parse_header`; the three padding bytes are not kept. -/
def parseHeader (bytes : Bytes) : Except ChunkError ChunkHeader := do
  if bytes.length < headerSize then throw .tooSmallForHeader
  return {
    magic := ← readU32 bytes 0
    version := ((← readSlice bytes 4 1).head?).getD 0
    chunkId := UInt64.ofNat (← readU64 bytes 8)
    timeStartNs := ← readI64 bytes 16
    timeEndNs := ← readI64 bytes 24
    seriesCount := ← readU32 bytes 32
    totalEntries := ← readU32 bytes 36
    colDataOffset := ← readU64 bytes 40 }

/-- `is_within_global_range`. -/
def isWithinGlobalRange (timeStartNs timeEndNs : Int64) (header : ChunkHeader) : Bool :=
  !(decide (timeStartNs > header.timeEndNs) || decide (timeEndNs < header.timeStartNs))

/-- Whether the directory entry at the cursor has the key; the bytes are
compared only when the lengths agree. -/
def entryHasKey (bytes keyBytes : Bytes) (cursor keyLen : Nat) : Except ChunkError Bool := do
  if keyBytes.length = keyLen then
    return decide (keyBytes = (← readSlice bytes (cursor + u32Size) keyLen))
  else return false

/-- The loop of `find_series` over the directory. -/
def findSeriesFrom (bytes keyBytes : Bytes) :
    Nat → Nat → Except ChunkError (Option (Nat × Nat))
  | 0, _ => return none
  | count + 1, cursor => do
    let keyLen ← readU32 bytes cursor
    if ← entryHasKey bytes keyBytes cursor keyLen then
      let tsCursor := cursor + u32Size + keyLen + u32Size
      let tsColOffset ← readU64 bytes tsCursor
      let valColOffset ← readU64 bytes (tsCursor + u64Size)
      return some (tsColOffset, valColOffset)
    else findSeriesFrom bytes keyBytes count (cursor + (keyLen + dirEntryFixedSize))

/-- `find_series`: the column offsets of a series. -/
def findSeries (bytes : Bytes) (seriesCount : Nat) (seriesKey : SeriesKey) :
    Except ChunkError (Option (Nat × Nat)) :=
  findSeriesFrom bytes seriesKey.toBytes seriesCount headerSize

variable [Crates]

/-- `is_checksum_valid`. -/
def isChecksumValid (bytes : Bytes) : Except ChunkError Unit := do
  if bytes.length < checksumSize then throw (.tooSmallForChecksum bytes.length)
  let data := bytes.take (bytes.length - checksumSize)
  let computed := (Crates.crc32 data).toNat
  let stored := fromLe (bytes.drop (bytes.length - checksumSize))
  if computed = stored then return () else throw (.crcMismatch computed stored)

/-- One compressed column: its length field, then the block. -/
def readColumn (bytes : Bytes) (offset : Nat) : Except ChunkError Bytes := do
  let len ← readU32 bytes offset
  match Crates.lz4Decompress (← readSlice bytes (offset + u32Size) len) with
  | some column => return column
  | none => throw .decompress

/-- `retrieve_data`: decode the two columns of a series and filter by time. -/
def retrieveData (bytes : Bytes) (seriesKey : SeriesKey) (tsOffset valOffset : Nat)
    (timeStartNs timeEndNs : Option Int64) : Except ChunkError (List DataPoint) := do
  let tsDecompressed ← readColumn bytes tsOffset
  let valDecompressed ← readColumn bytes valOffset
  if valDecompressed.length ≠ tsDecompressed.length then throw .lengthMismatch
  let tsDecoded := deltaDecode (bytesToI64Slice tsDecompressed)
  let valDecoded := bytesToF64Slice valDecompressed
  let inRange := (tsDecoded.zip valDecoded).filter fun p =>
    timeStartNs.getD Int64.minValue ≤ p.1 && p.1 ≤ timeEndNs.getD Int64.maxValue
  return inRange.map fun p => ⟨seriesKey.metricName, seriesKey.tags, p.1, p.2⟩

/-- `ChunkReader::read_series`. -/
def readSeries (bytes : Bytes) (seriesKey : SeriesKey) (timeStartNs timeEndNs : Int64) :
    Except ChunkError (Option (List DataPoint)) := do
  isMagicValid bytes
  isChecksumValid bytes
  let header ← parseHeader bytes
  if isWithinGlobalRange timeStartNs timeEndNs header then
    match ← findSeries bytes header.seriesCount seriesKey with
    | none => return none
    | some (tsOffset, valOffset) =>
      return some (← retrieveData bytes seriesKey tsOffset valOffset timeStartNs timeEndNs)
  else return none

/-- The loop of `read_chunk` over the directory. -/
def readChunkFrom (bytes : Bytes) : Nat → Nat → Except ChunkError (List DataPoint)
  | 0, _ => return []
  | count + 1, cursor => do
    let keyLen ← readU32 bytes cursor
    let keyBytes ← readSlice bytes (cursor + u32Size) keyLen
    let seriesKey ← (SeriesKey.fromBytes keyBytes).mapError .key
    let tsCursor := cursor + u32Size + keyLen + u32Size
    let tsColOffset ← readU64 bytes tsCursor
    let valColOffset ← readU64 bytes (tsCursor + u64Size)
    let series ← retrieveData bytes seriesKey tsColOffset valColOffset none none
    let rest ← readChunkFrom bytes count (cursor + (keyLen + dirEntryFixedSize))
    return series ++ rest

/-- `ChunkReader::read_chunk`. -/
def readChunk (bytes : Bytes) : Except ChunkError (List DataPoint) := do
  isMagicValid bytes
  isChecksumValid bytes
  let header ← parseHeader bytes
  readChunkFrom bytes header.seriesCount headerSize

end Micius

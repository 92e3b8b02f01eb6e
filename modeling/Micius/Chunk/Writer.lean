import Micius.Chunk.Format

/-!
# Chunk writer (`chunk/writer.rs`)

A drained memtable becomes one file: header, series directory, the columns
of each series, bloom footer, footer offset and checksum. `write` returns
the file's bytes next to the index metadata; the caller's file system
creates the file (`create_new`), which fails if the path exists.
-/

namespace Micius

open LittleEndian

/-- The drained contents of a memtable. -/
abbrev SeriesData := BTreeMap SeriesKey (List (Int64 × F64))

/-- `SeriesWriteResult`. -/
structure SeriesWriteResult where
  seriesKey : SeriesKey
  entry : SeriesChunkEntry
  stats : SeriesChunkStats

/-- `ChunkWriteResult`. -/
structure ChunkWriteResult where
  chunkId : ChunkId
  chunkMeta : ChunkMeta
  seriesResults : List SeriesWriteResult

/-- The errors of `ChunkWriter::write` apart from those of the file system. -/
inductive ChunkWriteError
  /-- `cannot write empty chunk`. -/
  | emptyChunk
  /-- `no chunk stats found`. -/
  | noStats
  deriving DecidableEq, Repr

/-- `EncodedSeries`. -/
structure EncodedSeries where
  key : SeriesKey
  keyBytes : Bytes
  entryCount : Nat
  timeStartNs : Int64
  timeEndNs : Int64
  tsCompressed : Bytes
  valCompressed : Bytes
  stats : SeriesChunkStats

/-- `build_directory_entry`. -/
def buildDirectoryEntry (s : EncodedSeries) (tsOffset valOffset : Nat) : Bytes :=
  toLe 4 s.keyBytes.length ++ (s.keyBytes ++ (toLe 4 s.entryCount ++ (toLe 8 tsOffset ++
    (toLe 8 valOffset ++ (f64ToLe s.stats.minValue ++ f64ToLe s.stats.maxValue)))))

/-- The two columns of a series: `[ts_len][ts_data][val_len][val_data]`. -/
def EncodedSeries.columns (s : EncodedSeries) : Bytes :=
  toLe 4 s.tsCompressed.length ++ (s.tsCompressed ++
    (toLe 4 s.valCompressed.length ++ s.valCompressed))

/-- The bloom part of the footer. -/
def bloomFooter (b : BloomParts) : Bytes :=
  toLe 8 b.bitmapBits.toNat ++ toLe 4 b.kNum.toNat ++ toLe 8 b.sipKeys.1.1.toNat ++
    toLe 8 b.sipKeys.1.2.toNat ++ toLe 8 b.sipKeys.2.1.toNat ++ toLe 8 b.sipKeys.2.2.toNat ++
    toLe 4 b.bitmap.length ++ b.bitmap

/-- The absolute offsets of the columns, from the first one on. -/
def columnOffsets (currentOffset : Nat) : List EncodedSeries → List (Nat × Nat)
  | [] => []
  | s :: encoded =>
    let valOffset := currentOffset + (u32Size + s.tsCompressed.length)
    (currentOffset, valOffset) ::
      columnOffsets (valOffset + (u32Size + s.valCompressed.length)) encoded

/-- The size of the series directory. -/
def dirSize (encoded : List EncodedSeries) : Nat :=
  (encoded.map fun s => dirEntryFixedSize + s.keyBytes.length).sum

/-- The series directory. -/
def directory (encoded : List EncodedSeries) (offsets : List (Nat × Nat)) : Bytes :=
  (encoded.zip offsets).flatMap fun p => buildDirectoryEntry p.1 p.2.1 p.2.2

/-- The header of a chunk of the given series. -/
def chunkHeader (chunkId : ChunkId) (encoded : List EncodedSeries) : ChunkHeader where
  magic := magic
  version := version
  chunkId := chunkId
  timeStartNs := encoded.foldl (fun m s => min m s.timeStartNs) Int64.maxValue
  timeEndNs := encoded.foldl (fun m s => max m s.timeEndNs) Int64.minValue
  seriesCount := encoded.length
  totalEntries := (encoded.map EncodedSeries.entryCount).sum
  colDataOffset := headerSize + dirSize encoded

/-- The index metadata of a series. -/
def seriesResult [Crates] (chunkId : ChunkId) (s : EncodedSeries) : SeriesWriteResult where
  seriesKey := s.key
  entry :=
    { chunkId := chunkId
      seriesId := Crates.xxh64 s.keyBytes
      timeStartNs := s.timeStartNs
      timeEndNs := s.timeEndNs
      sizeBytes := s.tsCompressed.length + s.valCompressed.length + u32Size * 2 }
  stats := s.stats

variable [Crates]

/-- One turn of the encoding loop; a series without points is skipped. -/
def encodeSeries (key : SeriesKey) (points : List (Int64 × F64)) :
    Except ChunkWriteError (Option EncodedSeries) :=
  match points with
  | [] => .ok none
  | first :: _ =>
    let timestamps := points.map Prod.fst
    let values := points.map Prod.snd
    match SeriesChunkStats.fromValues values with
    | none => .error .noStats
    | some stats => .ok (some
      { key := key
        keyBytes := key.toBytes
        entryCount := timestamps.length
        timeStartNs := first.1
        timeEndNs := timestamps.getLastD first.1
        tsCompressed := Crates.lz4Compress (i64SliceToBytes (deltaEncode timestamps))
        valCompressed := Crates.lz4Compress (f64SliceToBytes values)
        stats := stats })

/-- Pass 1: encode and compress every series. -/
def encodeAll : List (SeriesKey × List (Int64 × F64)) →
    Except ChunkWriteError (List EncodedSeries)
  | [] => .ok []
  | (key, points) :: rest =>
    match encodeSeries key points with
    | .error e => .error e
    | .ok s =>
      match encodeAll rest with
      | .error e => .error e
      | .ok encoded => .ok (s.toList ++ encoded)

/-- The file without footer offset and checksum: header, directory, columns. -/
def chunkBody (chunkId : ChunkId) (encoded : List EncodedSeries) : Bytes :=
  (chunkHeader chunkId encoded).toBytes ++
    (directory encoded (columnOffsets (headerSize + dirSize encoded) encoded) ++
      encoded.flatMap EncodedSeries.columns)

/-- The complete file buffer. `items` is the number of series the bloom
filter is sized for. -/
def chunkBytes (chunkId : ChunkId) (items : Nat) (encoded : List EncodedSeries) : Bytes :=
  let body := chunkBody chunkId encoded
  let bloom := Crates.bloom (max items 1) (encoded.map EncodedSeries.keyBytes)
  let buf := body ++ (bloomFooter bloom ++ toLe 8 body.length)
  buf ++ toLe 4 (Crates.crc32 buf).toNat

/-- `ChunkWriter::write` up to the creation of the file. -/
def ChunkWriter.write (chunkId : ChunkId) (seriesData : SeriesData) :
    Except ChunkWriteError (Bytes × ChunkWriteResult) :=
  if seriesData.isEmpty then .error .emptyChunk
  else
    match encodeAll seriesData.toList with
    | .error e => .error e
    | .ok encoded =>
      let buf := chunkBytes chunkId seriesData.size encoded
      .ok (buf,
        { chunkId := chunkId
          chunkMeta := ⟨chunkId, buf.length⟩
          seriesResults := encoded.map (seriesResult chunkId) })

end Micius

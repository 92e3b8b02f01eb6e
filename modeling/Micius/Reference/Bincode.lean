import Micius.Index.Persistence
import Micius.KeyCodec
import Micius.Lib.Bincode
import Micius.Lib.Numerals

/-!
# bincode on the index snapshot

A concrete encoder and decoder of `IndexSnapshot`, which the witnesses about
the snapshot file run on. The encoder writes the bytes bincode writes: the
fields one after the other, integers little-endian at their width, strings,
vectors and maps with their length in eight bytes before them, a path as its
text. The decoder ignores what follows.

The paths of the model are those of the chunk files of one directory; a snapshot
that names another file is not read.
-/

namespace Micius.Reference

open Bincode Numerals

/-! ## Chunk file paths -/

/-- What `chunk_dir.join` puts before a file name. -/
def joinStem (dir : String) : List Char :=
  match dir.toList.getLast? with
  | none => []
  | some c => if c = '/' then dir.toList else dir.toList ++ ['/']

/-- The path of a chunk file: `chunk_dir.join(format!("chunk-{:016x}.mcs", chunk_id))`. -/
def chunkPathText (dir : String) (path : ChunkPath) : String :=
  String.ofList (joinStem dir ++ ("chunk-".toList ++ (padded 16 16 path.toNat ++ ".mcs".toList)))

/-- The chunk whose file has the path. -/
def chunkOfPathText (dir : String) (text : String) : Option ChunkPath :=
  (value 16 ((text.toList.drop ((joinStem dir).length + 6)).take 16)).bind fun n =>
    if chunkPathText dir (UInt64.ofNat n) = text then some (UInt64.ofNat n) else none

/-- The text of a path determines the chunk. -/
theorem chunkOfPathText_chunkPathText (dir : String) (path : ChunkPath) :
    chunkOfPathText dir (chunkPathText dir path) = some path := by
  have hwidth : path.toNat < 16 ^ 16 := path.toNat_lt
  have hdigits : ((chunkPathText dir path).toList.drop ((joinStem dir).length + 6)).take 16 =
      fixed 16 16 path.toNat := by
    rw [chunkPathText, String.toList_ofList, padded_eq_fixed (by decide) (by decide) hwidth,
      ← List.append_assoc, List.drop_left' (by rw [List.length_append]; rfl),
      List.take_left' (length_fixed 16 16 path.toNat)]
  rw [chunkOfPathText, hdigits, value_fixed (by decide) (by decide), Nat.mod_eq_of_lt hwidth,
    Option.bind_some, UInt64.ofNat_toNat, if_pos rfl]

/-! ## The formats of the fields -/

/-- A `String`: UTF-8, which the reader checks. -/
def stringFormat : Format String :=
  u8.vec.map SeriesKey.strBytes (fun bytes => String.fromUTF8? ⟨bytes.toArray⟩)
    SeriesKey.fromUTF8_strBytes

/-- The entries of a map, in key order. The reader inserts them in turn. -/
def tagsFormat : Format (BTreeMap String String) :=
  (stringFormat.pair stringFormat).vec.map Std.ExtTreeMap.toList
    (fun tags => some (Std.ExtTreeMap.ofList tags)) fun tags => by rw [TreeMap.ofList_toList]

def seriesKeyFormat : Format SeriesKey :=
  (stringFormat.pair tagsFormat).map (fun key => (key.metricName, key.tags))
    (fun r => some ⟨r.1, r.2⟩) fun _ => rfl

def seriesChunkEntryFormat : Format SeriesChunkEntry :=
  (u64.pair (u64.pair (i64.pair (i64.pair (.uint 8))))).map
    (fun e => (e.chunkId, e.seriesId, e.timeStartNs, e.timeEndNs, e.sizeBytes))
    (fun r => some ⟨r.1, r.2.1, r.2.2.1, r.2.2.2.1, r.2.2.2.2⟩) fun _ => rfl

def f64Format : Format F64 := u64.map F64.bits (fun bits => some ⟨bits⟩) fun _ => rfl

def seriesChunkStatsFormat : Format SeriesChunkStats :=
  (f64Format.pair (f64Format.pair (.uint 8))).map
    (fun s => (s.minValue, s.maxValue, s.nullCount))
    (fun r => some ⟨r.1, r.2.1, r.2.2⟩) fun _ => rfl

def chunkMetaFormat (dir : String) : Format ChunkMeta :=
  ((stringFormat.map (chunkPathText dir) (chunkOfPathText dir)
    (chunkOfPathText_chunkPathText dir)).pair (.uint 8)).map
    (fun m => (m.filePath, m.fileSize)) (fun r => some ⟨r.1, r.2⟩) fun _ => rfl

/-- The fields of `IndexSnapshot`, in the order of its declaration. -/
def snapshotFormat (dir : String) : Format IndexSnapshot :=
  (u8.pair ((Format.uint 8).vec.pair ((u64.pair seriesKeyFormat).vec.pair
    ((u64.pair (i64.pair seriesChunkEntryFormat).vec).vec.pair
      ((u64.pair (u64.pair seriesChunkStatsFormat)).vec.pair
        (u64.pair (chunkMetaFormat dir)).vec))))).map
    (fun s => (s.version, s.shardWatermarks, s.seriesRegistry, s.timeIndex, s.chunkStats,
      s.chunkFiles))
    (fun r => some ⟨r.1, r.2.1, r.2.2.1, r.2.2.2.1, r.2.2.2.2.1, r.2.2.2.2.2⟩) fun _ => rfl

/-- `bincode::serialize(&snapshot)`. -/
def serialize (dir : String) (snapshot : IndexSnapshot) : Bytes :=
  (snapshotFormat dir).encode snapshot

/-- `bincode::deserialize(&bytes)`. -/
def deserialize (dir : String) (bytes : Bytes) : Option IndexSnapshot :=
  ((snapshotFormat dir).decode.run bytes).map Prod.fst

/-- The lengths and the counters of a snapshot have 64 bits. -/
def SnapshotFits (dir : String) (snapshot : IndexSnapshot) : Prop :=
  (snapshotFormat dir).fits snapshot = true

instance decidableSnapshotFits (dir : String) (snapshot : IndexSnapshot) :
    Decidable (SnapshotFits dir snapshot) :=
  inferInstanceAs (Decidable ((snapshotFormat dir).fits snapshot = true))

/-! ## The laws -/

theorem readsBack_snapshot {dir : String} {snapshot : IndexSnapshot}
    (hfits : SnapshotFits dir snapshot) : ReadsBack (serialize dir) (deserialize dir) snapshot where
  append tail := by
    rw [deserialize, serialize, (snapshotFormat dir).decode_encode hfits]
    rfl
  cut hcut hne := by
    rw [deserialize, (snapshotFormat dir).decode_cut hfits hcut hne]
    rfl

end Micius.Reference

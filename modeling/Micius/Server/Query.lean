import Micius.Compaction
import Micius.Index.Select

/-!
# Query (`StorageServer::query`)

The three stages of a query: scan of the memtables, lookup in the index,
reads of the chunk files. A chunk whose path, key or file is missing, or
whose read fails, is skipped with a warning.
-/

namespace Micius

/-- The query, with the defaults for an open time range filled in. The tag
filters are listed in the iteration order of their hash map. -/
structure Query where
  metricName : String
  tags : List (String × String)
  timeStartNs : Int64
  timeEndNs : Int64

/-- A query for all points of a metric. -/
def Query.all (metricName : String) : Query := ⟨metricName, [], Int64.minValue, Int64.maxValue⟩

/-- `QueryResponse`. -/
@[ext] structure QueryResponse where
  seriesId : SeriesId
  timestampNs : Int64
  value : F64
  deriving DecidableEq, Repr

/-- What stage 2 takes from the index while it holds the lock. -/
structure IndexScan where
  chunks : List SeriesChunkEntry
  paths : BTreeMap ChunkId ChunkPath
  keys : BTreeMap SeriesId SeriesKey

/-- Stage 2: the chunk entries of the matching series, with the paths and
keys needed to read them. -/
def scanIndex (q : Query) (idx : ChunkIndex) : IndexScan :=
  let chunks := (idx.resolveSeries q.metricName q.tags).flatMap fun id =>
    idx.pruneChunks id q.timeStartNs q.timeEndNs none
  { chunks := chunks
    paths := TreeMap.collect (chunks.map SeriesChunkEntry.chunkId)
      (fun c => (idx.chunkFiles[c]?).map ChunkMeta.filePath) compare
    keys := TreeMap.collect (chunks.map SeriesChunkEntry.seriesId)
      (fun sid => idx.seriesRegistry[sid]?) compare }

variable [Crates]

/-- Stage 1 on one shard: the matching series, then their points in range. -/
def scanMemtable (q : Query) (mem : Memtable) : List QueryResponse :=
  (mem.resolveSeries q.metricName q.tags).flatMap fun key =>
    (mem.readSeries key q.timeStartNs q.timeEndNs none).map fun p =>
      ⟨key.id, p.timestampNs, p.value⟩

/-- Stage 3 on one chunk entry. -/
def readEntry (q : Query) (dir : ChunkDir) (scan : IndexScan) (chunk : SeriesChunkEntry) :
    List QueryResponse :=
  match scan.paths[chunk.chunkId]?, scan.keys[chunk.seriesId]? with
  | some path, some key =>
    match dir[path]? with
    | none => []
    | some bytes =>
      match readSeries bytes key q.timeStartNs q.timeEndNs with
      | .ok (some points) => points.map fun p => ⟨chunk.seriesId, p.timestampNs, p.value⟩
      | .ok none => []
      | .error _ => []
  | _, _ => []

/-- Stages 2 and 3. -/
def queryChunks (q : Query) (idx : ChunkIndex) (dir : ChunkDir) : List QueryResponse :=
  (scanIndex q idx).chunks.flatMap (readEntry q dir (scanIndex q idx))

/-- The stream of a query that meets no other task's step. -/
def query (q : Query) (memtables : List Memtable) (idx : ChunkIndex) (dir : ChunkDir) :
    List QueryResponse :=
  memtables.flatMap (scanMemtable q) ++ queryChunks q idx dir

/-! ## What a query returns -/

omit [Crates] in
/-- The points a query asks for. -/
def Query.selects (q : Query) (p : DataPoint) : Bool :=
  Memtable.matchesSeries q.metricName q.tags p.key &&
    (q.timeStartNs ≤ p.timestampNs && p.timestampNs ≤ q.timeEndNs)

omit [Crates] in
/-- A query of the metric over all time asks for the point. -/
theorem Query.selects_all (p : DataPoint) : (Query.all p.metricName).selects p = true := by
  simp [Query.selects, Query.all, Memtable.matchesSeries, DataPoint.key, Int64.minValue_le,
    Int64.le_maxValue]

/-- The response for a point. -/
def DataPoint.response (p : DataPoint) : QueryResponse := ⟨p.key.id, p.timestampNs, p.value⟩

/-- Points of keys in use are told apart by their responses. -/
theorem eq_of_response {U : SeriesKey → Prop} (hU : KeysOk U) {p q : DataPoint} (hp : U p.key)
    (hq : U q.key) (heq : p.response = q.response) : p = q := by
  obtain ⟨hid, htime, hvalue⟩ := QueryResponse.mk.inj heq
  obtain ⟨hname, htags⟩ := SeriesKey.mk.inj (hU.inj _ _ hp hq hid)
  cases p
  cases q
  exact DataPoint.mk.injEq .. ▸ ⟨hname, htags, htime, hvalue⟩

omit [Crates] in
theorem Query.selects_eq (q : Query) : q.selects =
    inSeries (Memtable.matchesSeries q.metricName q.tags) q.timeStartNs q.timeEndNs := rfl

omit [Crates] in
/-- The selected points of one series. -/
theorem filter_selects_pointsOf (q : Query) (key : SeriesKey) (vec : List (Int64 × F64)) :
    (pointsOf key vec).filter q.selects =
      if Memtable.matchesSeries q.metricName q.tags key then
        pointsBetween key q.timeStartNs q.timeEndNs vec
      else [] :=
  filter_inSeries_pointsOf _ _ _ key vec

theorem map_response_pointsBetween (key : SeriesKey) (lo hi : Int64) (vec : List (Int64 × F64)) :
    (pointsBetween key lo hi vec).map (fun p => (⟨key.id, p.timestampNs, p.value⟩ : QueryResponse)) =
      (pointsBetween key lo hi vec).map DataPoint.response := by
  refine List.map_congr_left fun p hp => ?_
  rw [DataPoint.response, (key_of_mem_pointsOf hp).1]

/-- **Stage 1** streams the selected points of a memtable. -/
theorem scanMemtable_eq (q : Query) (mem : Memtable) :
    scanMemtable q mem = (mem.entries.points.filter q.selects).map DataPoint.response := by
  rw [scanMemtable, Memtable.resolveSeries_eq, List.flatMap_map, q.selects_eq,
    filter_inSeries_points, List.map_flatMap]
  refine List.flatMap_congr fun kp hkp => ?_
  rw [Memtable.readSeries_of_mem (List.mem_of_mem_filter hkp), map_response_pointsBetween]

/-! ## Reading the live chunks -/

section Chunks

variable {U : SeriesKey → Prop} (hlaw : Crates.LawfulLz4) (hU : KeysOk U) {idx : ChunkIndex}
  {live : List Chunk} (hidx : IndexOk U idx live) {dir : ChunkDir} (q : Query)

/-- An index entry of a series that matches a query and overlaps its range. -/
def Query.wants (q : Query) (kp : SeriesKey × List (Int64 × F64)) : Bool :=
  Memtable.matchesSeries q.metricName q.tags kp.1 &&
    (firstTimestamp kp.2 ≤ q.timeEndNs && q.timeStartNs ≤ lastTimestamp kp.2)

omit [Crates] in
theorem Query.wants_eq (q : Query) : q.wants =
    seriesWanted (Memtable.matchesSeries q.metricName q.tags) q.timeStartNs q.timeEndNs := rfl

include hidx in
/-- The entries that stage 2 selects. -/
theorem mem_scanIndex {e : SeriesChunkEntry} : e ∈ (scanIndex q idx).chunks ↔
    ∃ c ∈ live, ∃ kp ∈ c.data.toList, q.wants kp = true ∧ e = entryOf c.id kp.1 kp.2 := by
  simp only [scanIndex, List.mem_flatMap, ChunkIndex.mem_resolveSeries hidx.tags,
    ChunkIndex.mem_pruneChunks, hidx.entries, Query.wants, Bool.and_eq_true, decide_eq_true_eq]
  constructor
  · rintro ⟨sid, ⟨key, hkey, hmatch⟩, t, ⟨c, hc, kp, hkp, rfl, rfl, rfl⟩, hhi, hlo⟩
    have hreg := hidx.registered c hc kp hkp
    obtain rfl : kp.1 = key := Option.some.inj (hreg.symm.trans hkey)
    exact ⟨c, hc, kp, hkp, ⟨hmatch, hhi, hlo⟩, rfl⟩
  · rintro ⟨c, hc, kp, hkp, ⟨hmatch, hhi, hlo⟩, rfl⟩
    exact ⟨kp.1.id, ⟨kp.1, hidx.registered c hc kp hkp, hmatch⟩, _, ⟨c, hc, kp, hkp, rfl, rfl, rfl⟩,
      hhi, hlo⟩

include hidx in
theorem nodup_scanIndex : (scanIndex q idx).chunks.Nodup := by
  refine List.nodup_flatMap.mpr ⟨fun sid _ => hidx.nodup_pruneChunks sid _ _, ?_⟩
  refine (ChunkIndex.nodup_resolveSeries idx q.metricName q.tags).imp ?_
  intro sid sid' hne e he he'
  -- an entry names its series
  have hsid : ∀ s, e ∈ idx.pruneChunks s q.timeStartNs q.timeEndNs none → e.seriesId = s := by
    intro s hs
    obtain ⟨t, hget, -, -⟩ := ChunkIndex.mem_pruneChunks.mp hs
    obtain ⟨c, -, kp, -, hid, -, rfl⟩ := (hidx.entries _ _ _).mp hget
    exact hid
  exact hne ((hsid sid he).symm.trans (hsid sid' he'))

include hU hidx in
/-- **Stage 2** selects each entry of the live chunks once. -/
theorem scanIndex_perm (hids : (live.map Chunk.id).Nodup) :
    (scanIndex q idx).chunks.Perm (live.flatMap fun c =>
      (c.data.toList.filter q.wants).map fun kp => entryOf c.id kp.1 kp.2) :=
  hidx.entries_perm hU.inj hids (nodup_scanIndex hidx q) fun _ => mem_scanIndex hidx q

omit [Crates] in
theorem paths_scanIndex {q : Query} {e : SeriesChunkEntry} (he : e ∈ (scanIndex q idx).chunks) :
    (scanIndex q idx).paths[e.chunkId]? = (idx.chunkFiles[e.chunkId]?).map ChunkMeta.filePath := by
  have hmem : e.chunkId ∈ (scanIndex q idx).chunks.map SeriesChunkEntry.chunkId :=
    List.mem_map_of_mem he
  exact (TreeMap.getElem?_collect _ _ _).trans (if_pos hmem)

omit [Crates] in
theorem keys_scanIndex {q : Query} {e : SeriesChunkEntry} (he : e ∈ (scanIndex q idx).chunks) :
    (scanIndex q idx).keys[e.seriesId]? = idx.seriesRegistry[e.seriesId]? := by
  have hmem : e.seriesId ∈ (scanIndex q idx).chunks.map SeriesChunkEntry.seriesId :=
    List.mem_map_of_mem he
  exact (TreeMap.getElem?_collect _ _ _).trans (if_pos hmem)

include hlaw hU in
/-- **Stage 3** on an entry of a chunk streams the series' points in range. -/
theorem readEntry_of_scan {c : Chunk} (hdisk : OnDisk dir c) (huse : ∀ kp ∈ c.data.toList, U kp.1)
    {kp : SeriesKey × List (Int64 × F64)} (hkp : kp ∈ c.data.toList) {scan : IndexScan}
    (hpath : scan.paths[c.id]? = some c.id) (hkey : scan.keys[kp.1.id]? = some kp.1) :
    readEntry q dir scan (entryOf c.id kp.1 kp.2) =
      (pointsBetween kp.1 q.timeStartNs q.timeEndNs kp.2).map DataPoint.response := by
  obtain ⟨bytes, points, hfile, hread, hpoints⟩ := readSeries_chunk hlaw hU hdisk huse hkp
    q.timeStartNs q.timeEndNs
  have hentry : readEntry q dir scan (entryOf c.id kp.1 kp.2) =
      (points.getD []).map fun p => ⟨kp.1.id, p.timestampNs, p.value⟩ := by
    simp only [readEntry, entryOf, hpath, hkey, hfile, hread]
    cases points <;> rfl
  rw [hentry, hpoints, map_response_pointsBetween]

include hidx in
/-- Stage 2 has the path of a live chunk and the keys of its series. -/
theorem scan_of_live {c : Chunk} (hc : c ∈ live) {kp : SeriesKey × List (Int64 × F64)}
    (hkp : kp ∈ c.data.toList) (hscan : entryOf c.id kp.1 kp.2 ∈ (scanIndex q idx).chunks) :
    (scanIndex q idx).paths[c.id]? = some c.id ∧
      (scanIndex q idx).keys[kp.1.id]? = some kp.1 := by
  have hfiles : c.id ∈ idx.chunkFiles := (hidx.files _).mpr ⟨c, hc, rfl⟩
  obtain ⟨m, hget⟩ := Option.isSome_iff_exists.mp
    (Std.ExtTreeMap.mem_iff_isSome_getElem?.mp hfiles)
  refine ⟨(paths_scanIndex hscan).trans ?_,
    (keys_scanIndex hscan).trans (hidx.registered c hc kp hkp)⟩
  show (idx.chunkFiles[c.id]?).map ChunkMeta.filePath = some c.id
  rw [hget, Option.map_some, hidx.filePath _ _ hget]

include hlaw hU hidx in
/-- **Stages 2 and 3** stream the selected points of the live chunks, each once. -/
theorem queryChunks_perm (hids : (live.map Chunk.id).Nodup) (hdisk : ∀ c ∈ live, OnDisk dir c) :
    (queryChunks q idx dir).Perm
      (((livePoints live).filter q.selects).map DataPoint.response) := by
  rw [q.selects_eq, filter_livePoints, queryChunks, List.map_flatMap]
  refine ((scanIndex_perm hU hidx q hids).flatMap_right _).trans (.of_eq ?_)
  rw [List.flatMap_assoc]
  refine List.flatMap_congr fun c hc => ?_
  rw [List.flatMap_map, List.map_flatMap, ← q.wants_eq]
  refine List.flatMap_congr fun kp hkp => ?_
  obtain ⟨hmem, hwants⟩ := List.mem_filter.mp hkp
  obtain ⟨hpath, hkey⟩ := scan_of_live hidx q hc hmem
    ((mem_scanIndex hidx q).mpr ⟨c, hc, kp, hmem, hwants, rfl⟩)
  exact readEntry_of_scan hlaw hU q (hdisk c hc) (fun kp hkp => hidx.key_in_use hc hkp) hmem hpath
    hkey

end Chunks

end Micius

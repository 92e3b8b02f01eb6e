import Micius.Index.Select

/-!
# The chunk index and its files

A store holds given chunks if its index describes them and nothing else and
their files are in the directory. Reading a series from the files that the
index names then gives the points of these chunks.
-/

namespace Micius

variable [Crates]

/-! ## Chunk files -/

theorem OnDisk.insert {dir : ChunkDir} {c : Chunk} (h : OnDisk dir c) {path : ChunkPath}
    (hne : c.id ≠ path) (bytes : Bytes) : OnDisk (dir.insert path bytes) c := by
  obtain ⟨hfit, file, result, hw, hget⟩ := h
  refine ⟨hfit, file, result, hw, ?_⟩
  rw [TreeMap.getElem?_insert_eq, if_neg hne, hget]

theorem OnDisk.erase {dir : ChunkDir} {c : Chunk} (h : OnDisk dir c) {path : ChunkPath}
    (hne : c.id ≠ path) : OnDisk (dir.erase path) c := by
  obtain ⟨hfit, file, result, hw, hget⟩ := h
  refine ⟨hfit, file, result, hw, ?_⟩
  rw [TreeMap.getElem?_erase_eq, if_neg hne, hget]

/-- A path without a file belongs to none of the chunks. -/
theorem id_ne_of_onDisk {chunks : ChunkDir} {cs : List Chunk} (h : ∀ c ∈ cs, OnDisk chunks c)
    {chunkId : ChunkId} (hnew : chunkId ∉ chunks) : ∀ c ∈ cs, c.id ≠ chunkId := by
  rintro c hc rfl
  obtain ⟨-, file, -, -, hget⟩ := h c hc
  exact hnew (Std.ExtTreeMap.mem_iff_isSome_getElem?.mpr (by rw [hget]; rfl))

/-- The files of the chunks, with the file of a new one. -/
theorem onDisk_cons {chunks : ChunkDir} {cs : List Chunk} (h : ∀ c ∈ cs, OnDisk chunks c)
    {c : Chunk} (hnew : c.id ∉ chunks) (hfit : c.data.Fits) {bytes : Bytes}
    {result : ChunkWriteResult} (hw : ChunkWriter.write c.id c.data = .ok (bytes, result)) :
    ∀ c' ∈ c :: cs, OnDisk (chunks.insert c.id bytes) c' := by
  intro c' hc'
  rcases List.mem_cons.mp hc' with rfl | hc'
  · exact ⟨hfit, bytes, result, hw, (TreeMap.getElem?_insert_eq ..).trans (if_pos rfl)⟩
  · exact (h c' hc').insert (id_ne_of_onDisk h hnew c' hc') bytes

/-! ## The store -/

/-- The chunk index and the chunk directory. -/
structure ChunkStore where
  index : ChunkIndex
  dir : ChunkDir

/-- Writing a chunk and registering it. -/
def ChunkStore.addChunk (s : ChunkStore) (c : Chunk) : ChunkStore :=
  match ChunkWriter.write c.id c.data with
  | .ok (bytes, result) =>
    ⟨s.index.registerAll result.chunkMeta result.seriesResults, s.dir.insert c.id bytes⟩
  | .error _ => s

namespace ChunkStore

/-- The points of an index entry, read from the file named in `chunk_files`. -/
def readEntry (s : ChunkStore) (lo hi : Int64) (e : SeriesChunkEntry) : Option (List DataPoint) :=
  match s.index.chunkFiles[e.chunkId]?, s.index.seriesRegistry[e.seriesId]? with
  | some file, some key =>
    match s.dir[file.filePath]? with
    | none => none
    | some bytes => (readSeries bytes key lo hi).toOption.map fun points => points.getD []
  | _, _ => none

def readEntries (s : ChunkStore) (lo hi : Int64) :
    List SeriesChunkEntry → Option (List DataPoint)
  | [] => some []
  | e :: es => do
    let points ← s.readEntry lo hi e
    let rest ← s.readEntries lo hi es
    return points ++ rest

/-- The points of a series in a time range: all chunks that `prune_chunks`
returns. Nothing if one of them cannot be read. -/
def readPruned (s : ChunkStore) (sid : SeriesId) (lo hi : Int64) : Option (List DataPoint) :=
  s.readEntries lo hi (s.index.pruneChunks sid lo hi none)

end ChunkStore

/-! ## Stores that hold given chunks -/

/-- The index describes exactly the live chunks, and their files are there. -/
structure ChunkStore.Holds (U : SeriesKey → Prop) (s : ChunkStore) (live : List Chunk) : Prop where
  index : IndexOk U s.index live
  ids : (live.map Chunk.id).Nodup
  onDisk : ∀ c ∈ live, OnDisk s.dir c

namespace ChunkStore.Holds

variable {U : SeriesKey → Prop} {s : ChunkStore} {live : List Chunk}

theorem empty : ChunkStore.Holds U ⟨.new, ∅⟩ [] := ⟨.new U, List.nodup_nil, by simp⟩

/-- The file of a registered chunk. -/
theorem exists_file (h : s.Holds U live) {id : ChunkId} {file : ChunkMeta}
    (hfile : s.index.chunkFiles[id]? = some file) :
    ∃ c ∈ live, c.id = id ∧ file.filePath = c.id := by
  have hmem : id ∈ s.index.chunkFiles := by
    rw [Std.ExtTreeMap.mem_iff_isSome_getElem?, hfile]
    rfl
  obtain ⟨c, hc, rfl⟩ := (h.index.files id).mp hmem
  exact ⟨c, hc, rfl, h.index.filePath _ _ hfile⟩

theorem mem_dir (h : s.Holds U live) {c : Chunk} (hc : c ∈ live) : c.id ∈ s.dir := by
  obtain ⟨-, bytes, -, -, hfile⟩ := h.onDisk c hc
  rw [Std.ExtTreeMap.mem_iff_isSome_getElem?, hfile]
  rfl

/-- The entries of a series in a range. -/
theorem mem_pruneChunks (h : s.Holds U live) {sid : SeriesId} {lo hi : Int64}
    {e : SeriesChunkEntry} : e ∈ s.index.pruneChunks sid lo hi none ↔
      ∃ c ∈ live, ∃ kp ∈ c.data.toList,
        seriesWanted (fun key => key.id == sid) lo hi kp = true ∧ e = entryOf c.id kp.1 kp.2 := by
  simp only [ChunkIndex.mem_pruneChunks, h.index.entries, seriesWanted, Bool.and_eq_true,
    beq_iff_eq, decide_eq_true_eq]
  constructor
  · rintro ⟨t, ⟨c, hc, kp, hkp, rfl, rfl, rfl⟩, hhi, hlo⟩
    exact ⟨c, hc, kp, hkp, ⟨rfl, hhi, hlo⟩, rfl⟩
  · rintro ⟨c, hc, kp, hkp, ⟨rfl, hhi, hlo⟩, rfl⟩
    exact ⟨_, ⟨c, hc, kp, hkp, rfl, rfl, rfl⟩, hhi, hlo⟩

/-- Reading an entry of a live chunk. -/
theorem readEntry (hlaw : Crates.LawfulLz4) (hU : KeysOk U) (h : s.Holds U live) {c : Chunk}
    (hc : c ∈ live) {kp : SeriesKey × List (Int64 × F64)} (hkp : kp ∈ c.data.toList)
    (lo hi : Int64) :
    s.readEntry lo hi (entryOf c.id kp.1 kp.2) = some (pointsBetween kp.1 lo hi kp.2) := by
  have hmem : c.id ∈ s.index.chunkFiles := (h.index.files c.id).mpr ⟨c, hc, rfl⟩
  obtain ⟨file, hfile⟩ := Option.isSome_iff_exists.mp
    (Std.ExtTreeMap.mem_iff_isSome_getElem?.mp hmem)
  obtain ⟨bytes, points, hbytes, hread, hpoints⟩ := readSeries_chunk hlaw hU (h.onDisk c hc)
    (fun kp hkp => h.index.key_in_use hc hkp) hkp lo hi
  have hpath := h.index.filePath _ _ hfile
  have hkey := h.index.registered c hc kp hkp
  simp only [ChunkStore.readEntry, entryOf, hfile, hkey, hpath, hbytes, hread, Except.toOption,
    Option.map_some, hpoints]

theorem readEntries_eq {lo hi : Int64} {es : List SeriesChunkEntry}
    {f : SeriesChunkEntry → List DataPoint} (h : ∀ e ∈ es, s.readEntry lo hi e = some (f e)) :
    s.readEntries lo hi es = some (es.flatMap f) := by
  induction es with
  | nil => rfl
  | cons e es ih =>
    rw [ChunkStore.readEntries, h e (by simp), ih fun e' he' => h e' (by simp [he'])]
    rfl

/-- **Reading a series** in a range gives its points of the live chunks. -/
theorem readPruned (hlaw : Crates.LawfulLz4) (hU : KeysOk U) (h : s.Holds U live) (sid : SeriesId)
    (lo hi : Int64) : ∃ points, s.readPruned sid lo hi = some points ∧
      points.Perm ((livePoints live).filter (inSeries (fun key => key.id == sid) lo hi)) := by
  refine ⟨_, readEntries_eq (f := fun e => (s.readEntry lo hi e).getD []) ?_, ?_⟩
  · intro e he
    obtain ⟨c, hc, kp, hkp, -, rfl⟩ := h.mem_pruneChunks.mp he
    rw [h.readEntry hlaw hU hc hkp]
    rfl
  · have hperm := h.index.entries_perm hU.inj h.ids (h.index.nodup_pruneChunks sid lo hi)
      fun e => h.mem_pruneChunks
    rw [filter_livePoints]
    refine (hperm.flatMap_right _).trans (.of_eq ?_)
    rw [List.flatMap_assoc]
    refine List.flatMap_congr fun c hc => ?_
    rw [List.flatMap_map]
    refine List.flatMap_congr fun kp hkp => ?_
    rw [h.readEntry hlaw hU hc (List.mem_of_mem_filter hkp)]
    rfl

section

variable (hU : IdInjective U) (h : s.Holds U live) {c : Chunk}
  (hkeys : ∀ kp ∈ c.data.toList, U kp.1)
  (hdist : ∀ p ∈ c.points, ∀ q ∈ livePoints live, p.slot ≠ q.slot) (hfit : c.data.Fits)
  (hnew : c.id ∉ s.dir)
include hU h hkeys hdist hfit hnew

/-- **Writing and registering** a chunk with new points. -/
theorem register {bytes : Bytes} {result : ChunkWriteResult}
    (hw : ChunkWriter.write c.id c.data = .ok (bytes, result)) :
    ChunkStore.Holds U ⟨s.index.registerAll result.chunkMeta result.seriesResults,
      s.dir.insert c.id bytes⟩ (c :: live) where
  index := h.index.register hU hw hkeys hdist
  ids := by
    rw [List.map_cons, List.nodup_cons]
    refine ⟨fun hmem => ?_, h.ids⟩
    obtain ⟨c', hc', heq⟩ := List.mem_map.mp hmem
    exact id_ne_of_onDisk h.onDisk hnew c' hc' heq
  onDisk := onDisk_cons h.onDisk hnew hfit hw

theorem addChunk : (s.addChunk c).Holds U (c :: live) := by
  obtain ⟨encoded, -, hw⟩ := write_eq c.id c.nonempty
  rw [ChunkStore.addChunk, hw]
  exact h.register hU hkeys hdist hfit hnew hw

end

end ChunkStore.Holds

end Micius

import Micius.Index.Exact

/-!
# Compaction (`compaction/mod.rs`)

Size-tiered compaction: `find_candidates` groups chunk files of similar
size, `merge_group` reads the files of a group, writes the merged chunk,
updates the index and deletes the old files.

The floating-point test `size / group_min_size <= size_ratio` is the
parameter `withinRatio`.
-/

namespace Micius

/-- The parameters of `CompactionWorker`. -/
structure CompactionConfig where
  minThreshold : Nat
  /-- `size as f64 / group_min_size as f64 <= size_ratio`. -/
  withinRatio : Nat → Nat → Bool

/-- `MergeGroup`. -/
structure MergeGroup where
  chunks : List (ChunkId × ChunkPath)
  deregister : List (SeriesId × ChunkId × Int64)

/-- The grouping loop over the files sorted by size. -/
def groupFiles (cfg : CompactionConfig) :
    List (ChunkId × ChunkMeta) → List (ChunkId × ChunkPath) → Nat →
      List (List (ChunkId × ChunkPath))
  | [], current, _ => if current.length ≥ cfg.minThreshold then [current] else []
  | (id, file) :: files, current, groupMinSize =>
    if current.isEmpty then groupFiles cfg files [(id, file.filePath)] file.fileSize
    else if cfg.withinRatio file.fileSize groupMinSize then
      groupFiles cfg files (current ++ [(id, file.filePath)]) groupMinSize
    else
      (if current.length ≥ cfg.minThreshold then [current] else []) ++
        groupFiles cfg files [(id, file.filePath)] file.fileSize

/-- The `(series, chunk, start)` of the index entries of the given chunks. -/
def deregisterList (idx : ChunkIndex) (chunkIds : List ChunkId) :
    List (SeriesId × ChunkId × Int64) :=
  idx.timeIndex.toList.flatMap fun s =>
    (s.2.toList.filter fun e => e.2.chunkId ∈ chunkIds).map fun e => (s.1, e.2.chunkId, e.1)

/-- `find_candidates`; `files` lists `chunk_files` in its iteration order. -/
def findCandidates (cfg : CompactionConfig) (idx : ChunkIndex)
    (files : List (ChunkId × ChunkMeta)) : List MergeGroup :=
  let files := (files.filter fun f => f.2.fileSize > 0).insertionSort
    fun f g => f.2.fileSize ≤ g.2.fileSize
  (groupFiles cfg files [] 0).map fun chunks =>
    { chunks := chunks
      deregister := deregisterList idx (chunks.map Prod.fst) }

/-- The errors of `merge_group`. -/
inductive CompactError
  | notFound (path : ChunkPath)
  | read (e : ChunkError)
  | write (e : ChunkWriteError)

/-- The index update of a merge: register the merged chunk, then deregister
what was found when the group was formed. -/
def MergeGroup.commit [Crates] (group : MergeGroup) (idx : ChunkIndex)
    (result : ChunkWriteResult) : ChunkIndex :=
  (idx.registerAll result.chunkMeta result.seriesResults).deregisterAll group.deregister

section Merge

variable [Crates]

/-- The points of the files of a group, file by file. -/
def readGroup (dir : ChunkDir) : List (ChunkId × ChunkPath) → Except CompactError (List DataPoint)
  | [] => .ok []
  | (_, path) :: chunks => do
    let bytes ← (dir[path]?).elim (.error (.notFound path)) .ok
    let points ← (readChunk bytes).mapError .read
    let rest ← readGroup dir chunks
    return points ++ rest

/-- The part of `merge_group` up to the creation of the merged file. -/
def mergeGroup (dir : ChunkDir) (chunkId : ChunkId) (group : MergeGroup) :
    Except CompactError (Bytes × ChunkWriteResult) := do
  let points ← readGroup dir group.chunks
  (ChunkWriter.write chunkId (SeriesData.insertPoints ∅ points)).mapError .write

end Merge

/-! ## Candidates -/

/-- The non-empty files, smallest first: the list that `find_candidates` goes
through. -/
def filesBySize (files : List (ChunkId × ChunkMeta)) : List (ChunkId × ChunkMeta) :=
  (files.filter fun f => f.2.fileSize > 0).insertionSort fun f g => f.2.fileSize ≤ g.2.fileSize

theorem filesBySize_perm (files : List (ChunkId × ChunkMeta)) :
    (filesBySize files).Perm (files.filter fun f => f.2.fileSize > 0) :=
  List.perm_insertionSort ..

theorem filesBySize_pairwise (files : List (ChunkId × ChunkMeta)) :
    (filesBySize files).Pairwise fun f g => f.2.fileSize ≤ g.2.fileSize := by
  have htotal : Std.Total fun f g : ChunkId × ChunkMeta => f.2.fileSize ≤ g.2.fileSize :=
    ⟨fun f g => Nat.le_total f.2.fileSize g.2.fileSize⟩
  have htrans : IsTrans (ChunkId × ChunkMeta) fun f g => f.2.fileSize ≤ g.2.fileSize :=
    ⟨fun _ _ _ => Nat.le_trans⟩
  exact List.pairwise_insertionSort ..

/-- The files of the index that the candidates are taken from. -/
theorem mem_filesBySize {idx : ChunkIndex} {files : List (ChunkId × ChunkMeta)}
    (hfiles : files.Perm idx.chunkFiles.toList) {f : ChunkId × ChunkMeta} :
    f ∈ filesBySize files ↔ idx.chunkFiles[f.1]? = some f.2 ∧ 0 < f.2.fileSize := by
  rw [(filesBySize_perm files).mem_iff, List.mem_filter, hfiles.mem_iff, decide_eq_true_eq,
    Std.ExtTreeMap.mem_toList_iff_getElem?_eq_some]

theorem flatten_groupFiles_sublist (cfg : CompactionConfig) (files : List (ChunkId × ChunkMeta))
    (current : List (ChunkId × ChunkPath)) (groupMinSize : Nat) :
    (groupFiles cfg files current groupMinSize).flatten.Sublist
      (current ++ files.map fun f => (f.1, f.2.filePath)) := by
  have hkeep : ∀ current : List (ChunkId × ChunkPath),
      (if current.length ≥ cfg.minThreshold then [current] else []).flatten.Sublist current := by
    intro current
    split
    · simp
    · exact List.nil_sublist _
  induction files generalizing current groupMinSize with
  | nil =>
    rw [groupFiles, List.map_nil, List.append_nil]
    exact hkeep current
  | cons f files ih =>
    rw [groupFiles, List.map_cons]
    split
    · next hempty =>
      rw [List.isEmpty_iff.mp hempty]
      exact ih [(f.1, f.2.filePath)] f.2.fileSize
    · split
      · simpa using ih (current ++ [(f.1, f.2.filePath)]) groupMinSize
      · rw [List.flatten_append]
        exact (hkeep current).append (ih [(f.1, f.2.filePath)] f.2.fileSize)

/-- The chunks of all candidate groups are files of the index, each once. -/
theorem candidates_sublist (cfg : CompactionConfig) {idx : ChunkIndex}
    {files : List (ChunkId × ChunkMeta)} (hfiles : files.Perm idx.chunkFiles.toList) :
    ∃ kept : List (ChunkId × ChunkMeta), kept.Subperm idx.chunkFiles.toList ∧
      (findCandidates cfg idx files).flatMap MergeGroup.chunks =
        kept.map fun f => (f.1, f.2.filePath) := by
  obtain ⟨kept, hsub, hmap⟩ := List.sublist_map_iff.mp
    (flatten_groupFiles_sublist cfg (filesBySize files) [] 0)
  refine ⟨kept, ?_, ?_⟩
  · exact hsub.subperm.trans ((filesBySize_perm files).subperm.trans
      (List.filter_sublist.subperm.trans hfiles.subperm))
  · rw [← hmap, findCandidates, List.flatMap_map]
    simp [List.flatMap_def, filesBySize]

/-- No chunk is in two groups, or twice in one. -/
theorem nodup_candidates (cfg : CompactionConfig) {idx : ChunkIndex}
    {files : List (ChunkId × ChunkMeta)} (hfiles : files.Perm idx.chunkFiles.toList) :
    ((findCandidates cfg idx files).flatMap fun g => g.chunks.map Prod.fst).Nodup := by
  obtain ⟨kept, ⟨l, hl, hsub⟩, hchunks⟩ := candidates_sublist cfg hfiles
  have hflat : (findCandidates cfg idx files).flatMap
      (fun g => g.chunks.map Prod.fst) = kept.map Prod.fst := by
    rw [← List.map_flatMap, hchunks, List.map_map]
    rfl
  rw [hflat]
  exact (hl.map Prod.fst).nodup_iff.mp
    ((TreeMap.nodup_keys idx.chunkFiles).sublist (hsub.map Prod.fst))

theorem deregister_of_mem {cfg : CompactionConfig} {idx : ChunkIndex}
    {files : List (ChunkId × ChunkMeta)} {group : MergeGroup}
    (h : group ∈ findCandidates cfg idx files) :
    group.deregister = deregisterList idx (group.chunks.map Prod.fst) := by
  obtain ⟨chunks, -, rfl⟩ := List.mem_map.mp h
  rfl

/-- The triples of a group are the index entries of its chunks. -/
theorem mem_deregisterList {idx : ChunkIndex} {ids : List ChunkId} {sid : SeriesId}
    {c : ChunkId} {t : Int64} : (sid, c, t) ∈ deregisterList idx ids ↔
      c ∈ ids ∧ ∃ e, idx.entryAt sid t = some e ∧ e.chunkId = c := by
  simp only [deregisterList, List.mem_flatMap, List.mem_map, List.mem_filter, Prod.exists,
    Std.ExtTreeMap.mem_toList_iff_getElem?_eq_some, decide_eq_true_eq, Prod.mk.injEq]
  constructor
  · rintro ⟨sid, timeMap, hmap, t, e, ⟨hget, hmem⟩, rfl, rfl, rfl⟩
    exact ⟨hmem, e, by rw [ChunkIndex.entryAt, hmap, Option.bind_some, hget], rfl⟩
  · rintro ⟨hmem, e, hentry, rfl⟩
    rw [ChunkIndex.entryAt, Option.bind_eq_some_iff] at hentry
    obtain ⟨timeMap, hmap, hget⟩ := hentry
    exact ⟨sid, timeMap, hmap, t, e, ⟨hget, hmem⟩, rfl, rfl, rfl⟩

/-! ## Missing files -/

section

variable [Crates] {dir : ChunkDir}

theorem missing_of_readGroup {chunks : List (ChunkId × ChunkPath)} {path : ChunkPath}
    (h : readGroup dir chunks = .error (.notFound path)) : ∃ x ∈ chunks, x.2 ∉ dir := by
  induction chunks with
  | nil => cases h
  | cons x chunks ih =>
    cases hfile : dir[x.2]? with
    | none =>
      refine ⟨x, by simp, fun hmem => ?_⟩
      rw [Std.ExtTreeMap.mem_iff_isSome_getElem?, hfile] at hmem
      cases hmem
    | some bytes =>
      simp only [readGroup, hfile, Option.elim_some, bind, Except.bind] at h
      cases hread : readChunk bytes with
      | error e =>
        rw [hread] at h
        cases h
      | ok points =>
        rw [hread] at h
        cases hrest : readGroup dir chunks with
        | error e =>
          rw [hrest] at h
          obtain rfl := Except.error.inj h
          obtain ⟨y, hy, hmiss⟩ := ih hrest
          exact ⟨y, by simp [hy], hmiss⟩
        | ok rest =>
          rw [hrest] at h
          cases h

/-- What a group reads comes from its files. -/
theorem mem_readGroup {chunks : List (ChunkId × ChunkPath)} {points : List DataPoint}
    (h : readGroup dir chunks = .ok points) {p : DataPoint} (hp : p ∈ points) :
    ∃ x ∈ chunks, ∃ bytes ps, dir[x.2]? = some bytes ∧ readChunk bytes = .ok ps ∧ p ∈ ps := by
  induction chunks generalizing points with
  | nil =>
    obtain rfl := Except.ok.inj h
    cases hp
  | cons x chunks ih =>
    cases hfile : dir[x.2]? with
    | none =>
      simp only [readGroup, hfile] at h
      cases h
    | some bytes =>
      simp only [readGroup, hfile, Option.elim_some, bind, Except.bind] at h
      cases hread : readChunk bytes with
      | error e =>
        rw [hread] at h
        cases h
      | ok ps =>
        rw [hread] at h
        cases hrest : readGroup dir chunks with
        | error e =>
          rw [hrest] at h
          cases h
        | ok rest =>
          rw [hrest] at h
          obtain rfl := Except.ok.inj h
          rcases List.mem_append.mp hp with hp | hp
          · exact ⟨x, by simp, bytes, ps, hfile, hread, hp⟩
          · obtain ⟨y, hy, hfound⟩ := ih hrest hp
            exact ⟨y, by simp [hy], hfound⟩

/-- A merge writes what its group reads. -/
theorem write_of_mergeGroup {chunkId : ChunkId} {group : MergeGroup} {bytes : Bytes}
    {result : ChunkWriteResult} (h : mergeGroup dir chunkId group = .ok (bytes, result)) :
    ∃ points, readGroup dir group.chunks = .ok points ∧
      ChunkWriter.write chunkId (SeriesData.insertPoints ∅ points) = .ok (bytes, result) := by
  rw [mergeGroup] at h
  cases hread : readGroup dir group.chunks with
  | error e =>
    rw [hread] at h
    cases h
  | ok points =>
    rw [hread] at h
    change Except.mapError _ (ChunkWriter.write chunkId (SeriesData.insertPoints ∅ points)) = _ at h
    cases hwrite : ChunkWriter.write chunkId (SeriesData.insertPoints ∅ points) with
    | error e =>
      rw [hwrite] at h
      cases h
    | ok r =>
      rw [hwrite] at h
      obtain rfl := Except.ok.inj h
      exact ⟨points, rfl, hwrite⟩

/-- A merge fails with a missing file only when a file of its group is missing. -/
theorem missing_of_mergeGroup {chunkId : ChunkId} {group : MergeGroup} {path : ChunkPath}
    (h : mergeGroup dir chunkId group = .error (.notFound path)) :
    ∃ x ∈ group.chunks, x.2 ∉ dir := by
  rw [mergeGroup] at h
  cases hread : readGroup dir group.chunks with
  | error e =>
    rw [hread] at h
    obtain rfl := Except.error.inj h
    exact missing_of_readGroup hread
  | ok points =>
    rw [hread] at h
    change Except.mapError CompactError.write (ChunkWriter.write chunkId _) = _ at h
    cases hwrite : ChunkWriter.write chunkId (SeriesData.insertPoints ∅ points) <;>
      rw [hwrite] at h <;> cases h

end

/-! ## Merging live chunks -/

section

variable [Crates] {U : SeriesKey → Prop} (hlaw : Crates.LawfulLz4) (hU : KeysOk U) {dir : ChunkDir}
  {cs : List Chunk} (hdisk : ∀ c ∈ cs, OnDisk dir c)
  (hkeys : ∀ c ∈ cs, ∀ kp ∈ c.data.toList, U kp.1)
include hlaw hU hdisk hkeys

/-- The files of a group of chunks hold the points of the chunks. -/
theorem readGroup_chunks :
    readGroup dir (cs.map fun c => (c.id, c.id)) = .ok (livePoints cs) := by
  induction cs with
  | nil => rfl
  | cons c cs ih =>
    obtain ⟨hfit, bytes, result, hw, hfile⟩ := hdisk c (by simp)
    have hread := readChunk_written hlaw hfit.written hw fun kp hkp =>
      hU.codec kp.1 (hkeys c (by simp) kp hkp)
    have ih := ih (fun c' hc' => hdisk c' (by simp [hc'])) fun c' hc' => hkeys c' (by simp [hc'])
    simp only [List.map_cons, readGroup, hfile, Option.elim_some, hread, ih, bind, Except.bind,
      Except.mapError, pure, Except.pure]
    rfl

/-- Merging a non-empty group of chunks writes the last point of every slot. -/
theorem mergeGroup_data {group : MergeGroup}
    (hgroup : group.chunks = cs.map fun c => (c.id, c.id)) (hne : cs ≠ []) (chunkId : ChunkId) :
    ∃ (m : Chunk) (bytes : Bytes) (result : ChunkWriteResult), m.id = chunkId ∧
      m.data = SeriesData.insertPoints ∅ (livePoints cs) ∧
      ChunkWriter.write m.id m.data = .ok (bytes, result) ∧
      mergeGroup dir chunkId group = .ok (bytes, result) := by
  let data := SeriesData.insertPoints ∅ (livePoints cs)
  have hnonempty : data.isEmpty = false := by
    obtain ⟨c, rest, rfl⟩ := List.exists_cons_of_ne_nil hne
    obtain ⟨kp, hkp⟩ := c.exists_series
    obtain ⟨p, hp, -⟩ := exists_point_at_start c.wf hkp
    exact nonempty_insertPoints (List.ne_nil_of_mem (List.mem_flatMap.mpr ⟨c, by simp, hp⟩))
  obtain ⟨encoded, -, hwrite⟩ := write_eq chunkId hnonempty
  refine ⟨⟨chunkId, data, hnonempty, SeriesData.wf_empty.insertPoints _⟩, _, _, rfl, rfl, hwrite, ?_⟩
  simp only [mergeGroup, hgroup, readGroup_chunks hlaw hU hdisk hkeys, bind, Except.bind]
  exact congrArg (Except.mapError CompactError.write) hwrite

/-- **Merging** a non-empty group of chunks without common points gives a
chunk with the points of all of them. -/
theorem mergeGroup_chunks {group : MergeGroup}
    (hgroup : group.chunks = cs.map fun c => (c.id, c.id)) (hne : cs ≠ [])
    (hdist : Distinct (livePoints cs)) (chunkId : ChunkId) :
    ∃ (m : Chunk) (bytes : Bytes) (result : ChunkWriteResult), m.id = chunkId ∧
      m.data = SeriesData.insertPoints ∅ (livePoints cs) ∧ m.points.Perm (livePoints cs) ∧
      ChunkWriter.write m.id m.data = .ok (bytes, result) ∧
      mergeGroup dir chunkId group = .ok (bytes, result) := by
  obtain ⟨m, bytes, result, hid, hdata, hwrite, hmerge⟩ :=
    mergeGroup_data hlaw hU hdisk hkeys hgroup hne chunkId
  refine ⟨m, bytes, result, hid, hdata, ?_, hwrite, hmerge⟩
  have hinsert : (SeriesData.insertPoints ∅ (livePoints cs)).points.Perm
      (livePoints cs ++ SeriesData.points ∅) :=
    SeriesData.insertPoints_perm (by rwa [SeriesData.points_empty, List.append_nil])
  rwa [SeriesData.points_empty, List.append_nil, ← hdata] at hinsert

end

end Micius

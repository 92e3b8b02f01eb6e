import Micius.Chunk.Corruption
import Micius.Compaction.Cycle

/-!
# What a compaction cycle leaves alone

A merge that fails leaves the index as it was and deletes nothing; a merge that
succeeds has read every file of its group. A chunk file that cannot be read is
therefore never compacted away: whatever the cycles and flushes after the
damage, the file and its entry in `chunk_files` stay as they are.
-/

namespace Micius

section

variable [Crates] {io : MergeIo} {group : MergeGroup} {s : ChunkStore}

/-! ## The two outcomes of a merge -/

/-- `merge_group` with the given outcomes and the result it returns. -/
def MergeIo.mergeGroupResult (io : MergeIo) (group : MergeGroup) (s : ChunkStore) :
    Except CycleError ChunkWriteResult × ChunkStore :=
  match group.chunks.find? fun x => !io.readable x.2 with
  | some x => (.error (.unreadable x.2), s)
  | none =>
    match Micius.mergeGroup s.dir io.chunkId group with
    | .error e => (.error (.merge e), s)
    | .ok (bytes, result) =>
      match createFile io.chunkId bytes s.dir io.file with
      | (.error e, dir) => (.error e, { s with dir := dir })
      | (.ok _, dir) =>
        (.ok result, ⟨group.commit s.index result,
          deleteFiles io.deletable (group.chunks.map Prod.snd) dir⟩)

/-- The merge of a cycle that keeps no count, and its result. -/
theorem mergeGroup_eq (io : MergeIo) (group : MergeGroup) (s : ChunkStore) :
    io.mergeGroup group s =
      ((io.mergeGroupResult group s).1.map fun _ => (), (io.mergeGroupResult group s).2) := by
  unfold MergeIo.mergeGroup MergeIo.mergeGroupResult
  cases group.chunks.find? fun x => !io.readable x.2 with
  | some x => rfl
  | none =>
    cases Micius.mergeGroup s.dir io.chunkId group with
    | error e => rfl
    | ok r =>
      dsimp only
      cases createFile io.chunkId r.1 s.dir io.file with
      | mk outcome dir => cases outcome <;> rfl

/-- The effect of a merge that succeeds; its file may be cut short. -/
structure MergedBy (io : MergeIo) (group : MergeGroup) (s s' : ChunkStore) (bytes : Bytes)
    (result : ChunkWriteResult) : Prop where
  merge : mergeGroup s.dir io.chunkId group = .ok (bytes, result)
  fresh : io.chunkId ∉ s.dir
  returnsOk : io.file.write.returnsOk bytes = true
  index : s'.index = group.commit s.index result
  dir : s'.dir = deleteFiles io.deletable (group.chunks.map Prod.snd)
    (s.dir.insert io.chunkId (io.file.write.written bytes))

/-- The effect of a merge that fails: at most a file under a new name. -/
structure FailedBy (io : MergeIo) (s s' : ChunkStore) : Prop where
  index : s'.index = s.index
  dir : s'.dir = s.dir ∨ io.chunkId ∉ s.dir ∧ ∃ bytes, s'.dir = s.dir.insert io.chunkId bytes

theorem merge_outcome (io : MergeIo) (group : MergeGroup) (s : ChunkStore) :
    (∃ e s', io.mergeGroupResult group s = (.error e, s') ∧ FailedBy io s s') ∨
      ∃ s' bytes result, io.mergeGroupResult group s = (.ok result, s') ∧
        MergedBy io group s s' bytes result := by
  unfold MergeIo.mergeGroupResult
  cases group.chunks.find? fun x => !io.readable x.2 with
  | some x => exact .inl ⟨_, s, rfl, rfl, .inl rfl⟩
  | none =>
    cases hmerge : mergeGroup s.dir io.chunkId group with
    | error e => exact .inl ⟨_, s, rfl, rfl, .inl rfl⟩
    | ok r =>
      have hdir := createFile_dir io.chunkId r.1 s.dir io.file
      dsimp only
      cases hcreate : createFile io.chunkId r.1 s.dir io.file with
      | mk outcome dir =>
        rw [hcreate] at hdir
        cases outcome with
        | error e => exact .inl ⟨e, _, rfl, rfl, hdir⟩
        | ok _ =>
          obtain ⟨hnew, hok, rfl⟩ := createFile_ok hcreate
          exact .inr ⟨_, r.1, r.2, rfl, hmerge, hnew, hok, rfl, rfl⟩

/-- A group that was read has files that can be read. -/
theorem file_of_readGroup {dir : ChunkDir} {chunks : List (ChunkId × ChunkPath)}
    {points : List DataPoint} (h : readGroup dir chunks = .ok points)
    {x : ChunkId × ChunkPath} (hx : x ∈ chunks) :
    ∃ bytes ps, dir[x.2]? = some bytes ∧ readChunk bytes = .ok ps := by
  induction chunks generalizing points with
  | nil => cases hx
  | cons y chunks ih =>
    rw [readGroup] at h
    obtain ⟨bytes, hbytes, h⟩ := bind_eq_ok.mp h
    obtain ⟨ps, hps, h⟩ := bind_eq_ok.mp h
    obtain ⟨rest, hrest, -⟩ := bind_eq_ok.mp h
    rcases List.mem_cons.mp hx with rfl | hx
    · refine ⟨bytes, ps, ?_, ?_⟩
      · cases hfile : dir[x.2]? with
        | none =>
          rw [hfile] at hbytes
          cases hbytes
        | some file =>
          rw [hfile] at hbytes
          rw [Except.ok.inj hbytes]
      · cases hread : readChunk bytes with
        | error e =>
          rw [hread] at hps
          cases hps
        | ok points =>
          rw [hread] at hps
          rw [Except.ok.inj hps]
    · exact ih hrest hx

/-! ## Flushes -/

/-- A flush of the sweep: write the chunk file, and register the chunk unless
that returns an error. -/
def ChunkStore.flush (s : ChunkStore) (c : Chunk) (io : FileIo) : ChunkStore :=
  match ChunkWriter.write c.id c.data with
  | .error _ => s
  | .ok (bytes, result) =>
    match createFile c.id bytes s.dir io with
    | (.error _, dir) => { s with dir := dir }
    | (.ok _, dir) => ⟨s.index.registerAll result.chunkMeta result.seriesResults, dir⟩

/-! ## Chunk files that stay -/

/-- Every chunk file is named after its chunk, as `ChunkWriter` does. -/
def ChunkStore.PathsOk (s : ChunkStore) : Prop :=
  ∀ (id : ChunkId) (file : ChunkMeta), s.index.chunkFiles[id]? = some file → file.filePath = id

/-- The group names its files after their chunks and takes index entries of
these chunks only. -/
structure MergeGroup.Named (group : MergeGroup) : Prop where
  paths : ∀ x ∈ group.chunks, x.2 = x.1
  deregister : ∀ t ∈ group.deregister, t.2.1 ∈ group.chunks.map Prod.fst

omit [Crates] in
theorem named_of_candidates (hs : s.PathsOk) (cfg : CompactionConfig)
    {files : List (ChunkId × ChunkMeta)} (hfiles : files.Perm s.index.chunkFiles.toList)
    (hgroup : group ∈ findCandidates cfg s.index files) : group.Named where
  paths := by
    intro x hx
    obtain ⟨kept, hkept, hchunks⟩ := candidates_sublist cfg hfiles
    have hmem : x ∈ kept.map fun f => (f.1, f.2.filePath) :=
      hchunks ▸ List.mem_flatMap.mpr ⟨group, hgroup, hx⟩
    obtain ⟨f, hf, rfl⟩ := List.mem_map.mp hmem
    exact hs f.1 f.2 (Std.ExtTreeMap.mem_toList_iff_getElem?_eq_some.mp (hkept.subset hf))
  deregister := by
    intro t ht
    rw [deregister_of_mem hgroup] at ht
    exact (mem_deregisterList.mp ht).1

omit [Crates] in
theorem getElem?_deleteFiles (deletable : ChunkPath → Bool) {paths : List ChunkPath} {path : ChunkPath}
    (h : path ∉ paths) (dir : ChunkDir) : (deleteFiles deletable paths dir)[path]? = dir[path]? := by
  induction paths generalizing dir with
  | nil => rfl
  | cons p paths ih =>
    rw [deleteFiles, List.foldl_cons, ← deleteFiles, ih fun hmem => h (by simp [hmem])]
    split
    · rw [TreeMap.getElem?_erase_eq, if_neg fun heq => h (by simp [heq])]
    · rfl

/-- The chunk that a merge writes. -/
theorem exists_merged_chunk {dir : ChunkDir} {chunkId : ChunkId} {bytes : Bytes}
    {result : ChunkWriteResult} (h : mergeGroup dir chunkId group = .ok (bytes, result)) :
    ∃ m : Chunk, m.id = chunkId ∧ ChunkWriter.write m.id m.data = .ok (bytes, result) ∧
      ∃ points, readGroup dir group.chunks = .ok points := by
  obtain ⟨points, hread, hw⟩ := write_of_mergeGroup h
  exact ⟨⟨chunkId, _, nonempty_of_write hw, SeriesData.wf_empty.insertPoints points⟩, rfl, hw,
    points, hread⟩

/-- A chunk whose file cannot be read, with its entry in `chunk_files`. -/
structure ChunkStore.Unreadable (s : ChunkStore) (id : ChunkId) (bytes : Bytes)
    (file : ChunkMeta) : Prop where
  paths : s.PathsOk
  onDisk : s.dir[id]? = some bytes
  registered : s.index.chunkFiles[id]? = some file
  fails : ∀ points, readChunk bytes ≠ .ok points

namespace ChunkStore.Unreadable

variable {id : ChunkId} {bytes : Bytes} {file : ChunkMeta}

theorem mem_dir (h : s.Unreadable id bytes file) : id ∈ s.dir := by
  rw [Std.ExtTreeMap.mem_iff_isSome_getElem?, h.onDisk]
  rfl

theorem failed {s' : ChunkStore} (h : s.Unreadable id bytes file) (hfail : FailedBy io s s') :
    s'.Unreadable id bytes file := by
  refine ⟨by rw [PathsOk, hfail.index]; exact h.paths, ?_, by rw [hfail.index]; exact h.registered,
    h.fails⟩
  rcases hfail.dir with hdir | ⟨hnew, bytes', hdir⟩
  · rw [hdir, h.onDisk]
  · rw [hdir, TreeMap.getElem?_insert_eq, if_neg, h.onDisk]
    rintro rfl
    exact hnew h.mem_dir

theorem merged {s' : ChunkStore} {merged : Bytes} {result : ChunkWriteResult}
    (h : s.Unreadable id bytes file) (hnamed : group.Named)
    (hmerge : MergedBy io group s s' merged result) : s'.Unreadable id bytes file := by
  obtain ⟨m, hid, hw, points, hread⟩ := exists_merged_chunk hmerge.merge
  have hnew : id ≠ io.chunkId := fun heq => hmerge.fresh (heq ▸ h.mem_dir)
  -- a group that was read does not have the chunk
  have hout : id ∉ group.chunks.map Prod.fst := by
    intro hmem
    obtain ⟨x, hx, rfl⟩ := List.mem_map.mp hmem
    obtain ⟨file, ps, hfile, hps⟩ := file_of_readGroup hread hx
    rw [hnamed.paths x hx, h.onDisk] at hfile
    exact h.fails ps (Option.some.inj hfile ▸ hps)
  have hfiles : ∀ c, (s.index.registerAll result.chunkMeta result.seriesResults).chunkFiles[c]? =
      if c = io.chunkId then some ⟨io.chunkId, merged.length⟩ else s.index.chunkFiles[c]? := by
    intro c
    rw [IndexOk.chunkFiles_chunk hw, hid]
  refine ⟨fun c f hf => ?_, ?_, ?_, h.fails⟩
  · rw [hmerge.index] at hf
    have hf := ChunkIndex.chunkFiles_of_deregisterAll _ _ hf
    rw [hfiles] at hf
    split at hf
    · next heq =>
      obtain rfl := Option.some.inj hf
      exact heq.symm
    · exact h.paths c f hf
  · rw [hmerge.dir, getElem?_deleteFiles, TreeMap.getElem?_insert_eq, if_neg hnew, h.onDisk]
    intro hmem
    obtain ⟨x, hx, heq⟩ := List.mem_map.mp hmem
    exact hout (List.mem_map.mpr ⟨x, hx, (hnamed.paths x hx).symm.trans heq⟩)
  · rw [hmerge.index, MergeGroup.commit, ChunkIndex.chunkFiles_deregisterAll_of_not_mem, hfiles,
      if_neg hnew, h.registered]
    intro t ht heq
    exact hout (heq ▸ hnamed.deregister t ht)

theorem mergeGroups {groups : List MergeGroup} (h : s.Unreadable id bytes file)
    (hnamed : ∀ g ∈ groups, g.Named) (io : Nat → MergeIo) :
    (mergeGroups io groups s).2.Unreadable id bytes file := by
  induction groups generalizing s io with
  | nil => exact h
  | cons group groups ih =>
    rw [Micius.mergeGroups, mergeGroup_eq]
    obtain ⟨e, s', hout, hfail⟩ | ⟨s', merged, result, hout, hmerge⟩ :=
      merge_outcome (io 0) group s
    · rw [hout]
      exact h.failed hfail
    · rw [hout]
      exact ih (h.merged (hnamed group (by simp)) hmerge) (fun g hg => hnamed g (by simp [hg])) _

theorem createFile (h : s.Unreadable id bytes file) (chunkId : ChunkId) (new : Bytes)
    (io : FileIo) : (createFile chunkId new s.dir io).2[id]? = some bytes := by
  obtain hsame | ⟨hnew, written, hfile⟩ := createFile_dir chunkId new s.dir io
  · rw [hsame, h.onDisk]
  · rw [hfile, TreeMap.getElem?_insert_eq, if_neg, h.onDisk]
    rintro rfl
    exact hnew h.mem_dir

theorem flush (h : s.Unreadable id bytes file) (c : Chunk) (io : FileIo) :
    (s.flush c io).Unreadable id bytes file := by
  unfold ChunkStore.flush
  cases hw : ChunkWriter.write c.id c.data with
  | error e => exact h
  | ok r =>
    have hfile := h.createFile c.id r.1 io
    dsimp only
    cases hcreate : Micius.createFile c.id r.1 s.dir io with
    | mk outcome dir =>
      rw [hcreate] at hfile
      cases outcome with
      | error e => exact ⟨h.paths, hfile, h.registered, h.fails⟩
      | ok _ =>
        have hne : id ≠ c.id := fun heq => (createFile_ok hcreate).1 (heq ▸ h.mem_dir)
        refine ⟨fun c' f hf => ?_, hfile, ?_, h.fails⟩
        · rw [IndexOk.chunkFiles_chunk hw] at hf
          split at hf
          · next heq =>
            obtain rfl := Option.some.inj hf
            exact heq.symm
          · exact h.paths c' f hf
        · rw [IndexOk.chunkFiles_chunk hw, if_neg hne, h.registered]

end ChunkStore.Unreadable

/-! ## Runs of flushes and cycles -/

/-- A flush or a compaction cycle, with any outcome of its file operations. -/
inductive StoreStep : ChunkStore → ChunkStore → Prop
  | flush (s : ChunkStore) (c : Chunk) (io : FileIo) : StoreStep s (s.flush c io)
  | cycle (s : ChunkStore) (cfg : CompactionConfig) (io : Nat → MergeIo)
      (files : List (ChunkId × ChunkMeta)) (hfiles : files.Perm s.index.chunkFiles.toList) :
      StoreStep s (compactOnce cfg io files s).2

/-- **A damaged chunk is never compacted away.** After any flushes and
compaction cycles, whatever their file operations do, the file of a chunk that
was damaged in one burst of at most four bytes has the bytes it had, and
`chunk_files` still names it. -/
theorem damaged_chunk_kept (hcrc : Crates.ComputesCrc32) {s s' : ChunkStore} (hpaths : s.PathsOk)
    {id : ChunkId} {bytes damaged : Bytes} {file : ChunkMeta}
    (hvalid : isChecksumValid bytes = .ok ()) (hburst : Crc.Burst 4 bytes damaged)
    (hfile : s.dir[id]? = some damaged) (hreg : s.index.chunkFiles[id]? = some file)
    (hrun : Relation.ReflTransGen StoreStep s s') :
    s'.dir[id]? = some damaged ∧ s'.index.chunkFiles[id]? = some file := by
  obtain ⟨e, -, hread, -⟩ := rejected_of_burst hcrc hvalid hburst
  have hstart : s.Unreadable id damaged file := ⟨hpaths, hfile, hreg, fun points hok => by
    rw [hread] at hok
    cases hok⟩
  have hend : s'.Unreadable id damaged file := by
    induction hrun with
    | refl => exact hstart
    | tail _ hstep ih =>
      cases hstep with
      | flush c io => exact ih.flush c io
      | cycle cfg io files hfiles =>
        exact ih.mergeGroups (fun g hg => named_of_candidates ih.paths cfg hfiles hg) io
  exact ⟨hend.onDisk, hend.registered⟩

end

/-! ## One of two files damaged -/

section Example

attribute [local instance] Reference.crates

/-- The file of the first of two chunks. -/
def firstFile : Bytes := (apartChunks.dir[(100 : ChunkId)]?).getD []

/-- The file with four bytes of its series directory altered. -/
def firstFileDamaged : Bytes := firstFile.take 55 ++ ([9, 9, 9, 9] ++ firstFile.drop 59)

/-- The two chunks, the file of the first one damaged. -/
def damagedChunks : ChunkStore :=
  { apartChunks with dir := apartChunks.dir.insert 100 firstFileDamaged }

/-- A third chunk, flushed to a file that is cut short. -/
def damagedAndCut : ChunkStore := damagedChunks.flush (cpuChunk 103 7 1) ⟨true, ⟨some 0, true⟩⟩

/-- A cycle that wants to merge the two files leaves them alone; so does the
flush of another chunk, and a cycle after it. -/
theorem damaged_chunk_kept_afterCycle :
    (compactOnce oneShard.compaction halfDeleted damagedAndCut.index.chunkFiles.toList
      damagedAndCut).2.dir[(100 : ChunkId)]? = some firstFileDamaged ∧
    ((findCandidates oneShard.compaction damagedChunks.index
      damagedChunks.index.chunkFiles.toList).flatMap MergeGroup.chunks).map Prod.fst =
        [100, 101] := by
  have hvalid : isChecksumValid firstFile = .ok () := by
    have hok : (isChecksumValid firstFile).isOk = true := by decide +kernel
    cases h : isChecksumValid firstFile with
    | error e => simp [h, Except.isOk, Except.toBool] at hok
    | ok u => rfl
  have hburst : Crc.Burst 4 firstFile firstFileDamaged :=
    ⟨firstFile.take 55, (firstFile.drop 55).take 4, [9, 9, 9, 9], firstFile.drop 59,
      by decide +kernel, rfl, by decide +kernel, by decide +kernel, by decide +kernel⟩
  have hreg : damagedChunks.index.chunkFiles[(100 : ChunkId)]? =
      some ⟨100, firstFile.length⟩ := by decide +kernel
  refine ⟨(damaged_chunk_kept Reference.computesCrc32 (s := damagedChunks)
    holds_apartChunks.index.filePath hvalid hburst (by decide +kernel) hreg
    (.tail (.single (.flush _ (cpuChunk 103 7 1) ⟨true, ⟨some 0, true⟩⟩))
      (.cycle damagedAndCut oneShard.compaction halfDeleted _ (.refl _)))).1, by decide +kernel⟩

end Example

end Micius

import Micius.Compaction.Groups
import Micius.Server.Exactness

/-!
# A compaction cycle and its failures

`compact_once` merges the candidate groups one after the other and stops at
the first error. Each read, the creation, the write and the sync of a merged
file may fail; a delete that fails is only logged. A merge that returns an
error leaves the index alone, and at most a file that the index does not name.
A merged file whose write fails while its fsync succeeds is no error: the
group is committed to a file that is cut short, and its old files are deleted.
-/

namespace Micius

/-- What the operating system does with a new chunk file. -/
structure FileIo where
  created : Bool
  write : WriteIo
  deriving DecidableEq

/-- No failure. -/
def FileIo.ok : FileIo := ⟨true, .ok⟩

/-- The outcomes of the fallible steps of one `merge_group`, and the id that
`new_chunk_id` gives. -/
structure MergeIo where
  chunkId : ChunkId
  readable : ChunkPath → Bool
  file : FileIo
  deletable : ChunkPath → Bool

inductive CycleError
  | unreadable (path : ChunkPath)
  | merge (e : CompactError)
  /-- The error of the operating system for a new file. -/
  | file
  /-- `create_new` on an existing file. -/
  | exists (path : ChunkPath)

section Model

variable [Crates]

/-- Creating, writing and syncing a chunk file. -/
def createFile (chunkId : ChunkId) (bytes : Bytes) (dir : ChunkDir) (io : FileIo) :
    Except CycleError Unit × ChunkDir :=
  if !io.created then (.error .file, dir)
  else if chunkId ∈ dir then (.error (.exists chunkId), dir)
  else
    (if io.write.returnsOk bytes then .ok () else .error .file,
      dir.insert chunkId (io.write.written bytes))

/-- The loop that deletes the old files. -/
def deleteFiles (deletable : ChunkPath → Bool) (paths : List ChunkPath) (dir : ChunkDir) :
    ChunkDir :=
  paths.foldl (fun dir path => if deletable path then dir.erase path else dir) dir

/-- `merge_group` with the given outcomes. -/
def MergeIo.mergeGroup (io : MergeIo) (group : MergeGroup) (s : ChunkStore) :
    Except CycleError Unit × ChunkStore :=
  match group.chunks.find? fun x => !io.readable x.2 with
  | some x => (.error (.unreadable x.2), s)
  | none =>
    match Micius.mergeGroup s.dir io.chunkId group with
    | .error e => (.error (.merge e), s)
    | .ok (bytes, result) =>
      match createFile io.chunkId bytes s.dir io.file with
      | (.error e, dir) => (.error e, { s with dir := dir })
      | (.ok _, dir) =>
        (.ok (), ⟨group.commit s.index result,
          deleteFiles io.deletable (group.chunks.map Prod.snd) dir⟩)

/-- The loop of `compact_once`; `io` gives the outcomes of the merge of each group. -/
def mergeGroups (io : Nat → MergeIo) : List MergeGroup → ChunkStore →
    Except CycleError Unit × ChunkStore
  | [], s => (.ok (), s)
  | group :: groups, s =>
    match (io 0).mergeGroup group s with
    | (.error e, s') => (.error e, s')
    | (.ok _, s') => mergeGroups (fun k => io (k + 1)) groups s'

/-- The merged file of the group is not cut short without an error. -/
def MergeIo.Noticed (io : MergeIo) (group : MergeGroup) (s : ChunkStore) : Prop :=
  ∀ bytes result, Micius.mergeGroup s.dir io.chunkId group = .ok (bytes, result) →
    io.file.write.silent bytes = false

/-- No merged file is, in the whole loop. -/
inductive MergesNoticed : (Nat → MergeIo) → List MergeGroup → ChunkStore → Prop
  | nil (io : Nat → MergeIo) (s : ChunkStore) : MergesNoticed io [] s
  | cons {io : Nat → MergeIo} {group : MergeGroup} {groups : List MergeGroup} {s : ChunkStore}
      (hfirst : (io 0).Noticed group s)
      (hrest : ((io 0).mergeGroup group s).1.isOk = true →
        MergesNoticed (fun k => io (k + 1)) groups ((io 0).mergeGroup group s).2) :
      MergesNoticed io (group :: groups) s

/-- `compact_once`; `files` lists `chunk_files` in its iteration order. -/
def compactOnce (cfg : CompactionConfig) (io : Nat → MergeIo) (files : List (ChunkId × ChunkMeta))
    (s : ChunkStore) : Except CycleError Unit × ChunkStore :=
  mergeGroups io (findCandidates cfg s.index files) s

end Model

theorem MergesNoticed.of_cons [Crates] {io : Nat → MergeIo} {group : MergeGroup}
    {groups : List MergeGroup} {s : ChunkStore} (h : MergesNoticed io (group :: groups) s) :
    (io 0).Noticed group s ∧ (((io 0).mergeGroup group s).1.isOk = true →
      MergesNoticed (fun k => io (k + 1)) groups ((io 0).mergeGroup group s).2) := by
  cases h with
  | cons hfirst hrest => exact ⟨hfirst, hrest⟩

/-- Writes that do not fail are not cut short. -/
theorem mergesNoticed_of_ok [Crates] {io : Nat → MergeIo} (h : ∀ k, (io k).file.write = .ok)
    (groups : List MergeGroup) (s : ChunkStore) : MergesNoticed io groups s := by
  induction groups generalizing io s with
  | nil => exact .nil io s
  | cons group groups ih =>
    exact .cons (fun bytes result _ => by rw [h 0, WriteIo.silent_ok])
      fun _ => ih (fun k => h (k + 1)) _

/-! ## Merging the groups -/

section

variable [Crates]

omit [Crates] in
/-- What a chunk file gives for a series is strictly increasing in time. -/
theorem pairwise_seriesIn {data : SeriesData} (hsort : ∀ kp ∈ data.toList, Sorted kp.2)
    {key : SeriesKey} {lo hi : Int64} {points : List DataPoint}
    (h : seriesIn (nonEmptySeries data.toList) key lo hi = some points) :
    points.Pairwise fun p q => p.timestampNs < q.timestampNs := by
  unfold seriesIn at h
  split at h
  · obtain ⟨kp, hfind, rfl⟩ := Option.map_eq_some_iff.mp h
    have hkp : kp ∈ data.toList := List.mem_of_mem_filter (List.mem_of_find?_eq_some hfind)
    exact List.pairwise_map.mpr ((hsort kp hkp).sublist List.filter_sublist)
  · cases h

omit [Crates] in
/-- An outcome without an error writes a new file, perhaps cut short. -/
theorem createFile_ok {chunkId : ChunkId} {bytes : Bytes} {dir dir' : ChunkDir} {io : FileIo}
    {done : Unit} (h : createFile chunkId bytes dir io = (.ok done, dir')) :
    chunkId ∉ dir ∧ io.write.returnsOk bytes = true ∧
      dir' = dir.insert chunkId (io.write.written bytes) := by
  unfold createFile at h
  split at h
  · cases h
  · split at h
    · cases h
    · next hnew =>
      obtain ⟨hresult, rfl⟩ := Prod.mk.inj h
      split at hresult
      · next hok => exact ⟨hnew, hok, rfl⟩
      · cases hresult

omit [Crates] in
/-- Any outcome leaves the directory as it was, or with a new file. -/
theorem createFile_dir (chunkId : ChunkId) (bytes : Bytes) (dir : ChunkDir) (io : FileIo) :
    (createFile chunkId bytes dir io).2 = dir ∨ chunkId ∉ dir ∧
      ∃ written, (createFile chunkId bytes dir io).2 = dir.insert chunkId written := by
  unfold createFile
  split
  · exact .inl rfl
  · split
    · exact .inl rfl
    · next hnew => exact .inr ⟨hnew, _, rfl⟩

/-- The file that a write leaves behind is of no other chunk. -/
theorem OnDisk.createFile {dir : ChunkDir} {c : Chunk} (h : OnDisk dir c) (chunkId : ChunkId)
    (bytes : Bytes) (io : FileIo) : OnDisk (createFile chunkId bytes dir io).2 c := by
  obtain hsame | ⟨hnew, written, hfile⟩ := createFile_dir chunkId bytes dir io
  · rwa [hsame]
  · rw [hfile]
    exact h.insert (id_ne_of_onDisk (by simpa using h) hnew c (List.mem_singleton_self c)) written

theorem OnDisk.deleteFiles {dir : ChunkDir} {c : Chunk} (h : OnDisk dir c)
    (deletable : ChunkPath → Bool) {paths : List ChunkPath} (hne : c.id ∉ paths) :
    OnDisk (deleteFiles deletable paths dir) c := by
  induction paths generalizing dir with
  | nil => exact h
  | cons path paths ih =>
    rw [Micius.deleteFiles, List.foldl_cons]
    refine ih ?_ fun hmem => hne (by simp [hmem])
    split
    · exact h.erase fun heq => hne (by simp [heq])
    · exact h

/-- A store in the middle of a cycle: it holds chunks with the given points,
and the groups to come fit the file format when merged. -/
structure CycleOk (U : SeriesKey → Prop) (points : List DataPoint) (s : ChunkStore)
    (live : List Chunk) (groups : List MergeGroup) : Prop where
  holds : s.Holds U live
  points : (livePoints live).Perm points
  pending : GroupsOk live groups
  fits : ∀ g ∈ groups, ∃ cs, GroupOk live g cs ∧ (SeriesData.insertPoints ∅ (livePoints cs)).Fits

namespace CycleOk

variable {U : SeriesKey → Prop} {points : List DataPoint} {s : ChunkStore} {live : List Chunk}
  {group : MergeGroup} {groups : List MergeGroup}

theorem tail (h : CycleOk U points s live (group :: groups)) : CycleOk U points s live groups :=
  { h with
    pending := h.pending.tail
    fits := fun g hg => h.fits g (List.mem_cons_of_mem group hg) }

theorem createFile (h : CycleOk U points s live groups) (chunkId : ChunkId) (bytes : Bytes)
    (io : FileIo) :
    CycleOk U points { s with dir := (createFile chunkId bytes s.dir io).2 } live groups :=
  { h with holds := { h.holds with
      onDisk := fun c hc => (h.holds.onDisk c hc).createFile chunkId bytes io } }

/-- Committing a merge and deleting what can be deleted of its group. -/
theorem commit (hU : IdInjective U) (hdist : Distinct points)
    (h : CycleOk U points s live (group :: groups)) {cs : List Chunk}
    (hgroup : GroupOk live group cs) {m : Chunk} {bytes : Bytes} {result : ChunkWriteResult}
    (hw : ChunkWriter.write m.id m.data = .ok (bytes, result))
    (hpoints : m.points.Perm (livePoints cs)) (hfit : m.data.Fits) (hnew : m.id ∉ s.dir)
    (deletable : ChunkPath → Bool) :
    CycleOk U points ⟨group.commit s.index result,
        deleteFiles deletable (group.chunks.map Prod.snd) (s.dir.insert m.id bytes)⟩
      (m :: live.filter fun c => c.id ∉ group.chunks.map Prod.fst) groups := by
  have hids := h.holds.ids
  have hfresh : ∀ c ∈ live, c.id ≠ m.id := fun c hc heq => hnew (heq ▸ h.holds.mem_dir hc)
  have hpaths : group.chunks.map Prod.snd = group.chunks.map Prod.fst := by
    rw [hgroup.chunks, List.map_map, List.map_map]
    rfl
  -- the old files are those of live chunks, the merged file is a new one
  have hmerged : m.id ∉ group.chunks.map Prod.fst := by
    rw [hgroup.chunks, List.map_map]
    intro hmem
    obtain ⟨c, hc, heq⟩ := List.mem_map.mp hmem
    exact hfresh c (hgroup.live c hc) heq
  refine ⟨⟨?_, ?_, ?_⟩, ?_, h.pending.committed m, ?_⟩
  · exact h.holds.index.commit hU (hdist.of_perm h.points.symm)
      (h.pending.plan hids hgroup hpoints hfresh) hw
  · rw [List.map_cons, List.nodup_cons]
    refine ⟨fun hmem => ?_, hids.sublist (List.filter_sublist.map _)⟩
    obtain ⟨c, hc, heq⟩ := List.mem_map.mp hmem
    exact hfresh c (List.mem_of_mem_filter hc) heq
  · intro c hc
    rw [hpaths]
    rcases List.mem_cons.mp hc with rfl | hc
    · refine OnDisk.deleteFiles ⟨hfit, bytes, result, hw, ?_⟩ deletable hmerged
      exact Std.ExtTreeMap.getElem?_insert_self
    · obtain ⟨hlive, hkept⟩ := List.mem_filter.mp hc
      exact ((h.holds.onDisk c hlive).insert (hfresh c hlive) bytes).deleteFiles deletable
        (of_decide_eq_true hkept)
  · rw [livePoints, List.flatMap_cons]
    exact (hpoints.append_right _).trans
      ((h.pending.split hids hgroup).symm.trans h.points)
  · intro g hg
    obtain ⟨cs', hcs', hfits⟩ := h.fits g (List.mem_cons_of_mem group hg)
    exact ⟨cs', h.pending.group_committed m hg hcs', hfits⟩

section

variable (hlaw : Crates.LawfulLz4) (hU : KeysOk U) (hdist : Distinct points)
include hlaw hU hdist

/-- **Merging one group** keeps the points, whatever its outcome. -/
theorem mergeGroup (h : CycleOk U points s live (group :: groups)) {io : MergeIo}
    (hnoticed : io.Noticed group s) :
    ∃ live', CycleOk U points (io.mergeGroup group s).2 live' groups := by
  unfold MergeIo.mergeGroup
  cases group.chunks.find? fun x => !io.readable x.2 with
  | some x => exact ⟨live, h.tail⟩
  | none =>
    cases hmerge : Micius.mergeGroup s.dir io.chunkId group with
    | error e => exact ⟨live, h.tail⟩
    | ok r =>
      obtain ⟨cs, hgroup, hfit⟩ := h.fits group (by simp)
      have hdisk : ∀ c ∈ cs, OnDisk s.dir c := fun c hc => h.holds.onDisk c (hgroup.live c hc)
      have hkeys : ∀ c ∈ cs, ∀ kp ∈ c.data.toList, U kp.1 :=
        fun c hc kp hkp => h.holds.index.key_in_use (hgroup.live c hc) hkp
      have hne : cs ≠ [] := by
        rintro rfl
        simp only [Micius.mergeGroup, hgroup.chunks, List.map_nil, readGroup, bind, Except.bind]
          at hmerge
        cases hmerge
      have hdistinct : Distinct (livePoints cs) :=
        ((hdist.of_perm h.points.symm).of_perm (h.pending.split h.holds.ids hgroup)).sublist
          (List.sublist_append_left ..)
      obtain ⟨m, bytes, result, hid, hdata, hpoints, hw, hmerge'⟩ :=
        mergeGroup_chunks hlaw hU hdisk hkeys hgroup.chunks hne hdistinct io.chunkId
      obtain rfl := Except.ok.inj (hmerge.symm.trans hmerge')
      have hfile := h.tail.createFile io.chunkId bytes io.file
      dsimp only
      cases hcreate : Micius.createFile io.chunkId bytes s.dir io.file with
      | mk outcome dir =>
        rw [hcreate] at hfile
        cases outcome with
        | error e => exact ⟨live, hfile⟩
        | ok _ =>
          obtain ⟨hnew, hreturns, rfl⟩ := createFile_ok hcreate
          rw [(WriteIo.written_of_returnsOk hreturns (hnoticed _ _ hmerge)).2]
          have hok := h.commit hU.inj hdist hgroup hw hpoints (hdata ▸ hfit) (hid ▸ hnew)
            io.deletable
          rw [hid] at hok
          exact ⟨_, hok⟩

/-- Merging the groups one after the other, up to the first error. -/
theorem mergeGroups (h : CycleOk U points s live groups) {io : Nat → MergeIo}
    (hnoticed : MergesNoticed io groups s) :
    ∃ live' rest, CycleOk U points (mergeGroups io groups s).2 live' rest := by
  induction groups generalizing s live io with
  | nil => exact ⟨live, [], h⟩
  | cons group groups ih =>
    obtain ⟨hfirst, hrest⟩ := hnoticed.of_cons
    obtain ⟨live', hok⟩ := h.mergeGroup hlaw hU hdist hfirst
    rw [Micius.mergeGroups]
    cases hmerge : (io 0).mergeGroup group s with
    | mk outcome s' =>
      rw [hmerge] at hok hrest
      cases outcome with
      | error e => exact ⟨live', groups, hok⟩
      | ok _ => exact ih hok (hrest rfl)

end

end CycleOk

/-! ## A cycle keeps what is stored -/

section

variable {U : SeriesKey → Prop} (hlaw : Crates.LawfulLz4) (hU : KeysOk U) {s : ChunkStore}
  {live : List Chunk} (hstore : s.Holds U live) (cfg : CompactionConfig)
  {files : List (ChunkId × ChunkMeta)} (hfiles : files.Perm s.index.chunkFiles.toList)
  (hfit : ∀ group ∈ findCandidates cfg s.index files, ∀ points,
    readGroup s.dir group.chunks = .ok points → (SeriesData.insertPoints ∅ points).Fits)
include hlaw hU hstore hfiles hfit

/-- The start of a cycle. -/
theorem cycleOk_candidates :
    CycleOk U (livePoints live) s live (findCandidates cfg s.index files) := by
  have hgroups := hstore.index.candidates hstore.ids cfg hfiles
  refine ⟨hstore, .refl _, hgroups, fun g hg => ?_⟩
  obtain ⟨cs, hgroup⟩ := hgroups.group g hg
  refine ⟨cs, hgroup, hfit g hg _ ?_⟩
  rw [hgroup.chunks]
  exact readGroup_chunks hlaw hU (fun c hc => hstore.onDisk c (hgroup.live c hc))
    fun c hc kp hkp => hstore.index.key_in_use (hgroup.live c hc) hkp

/-- **A compaction cycle keeps what is stored**, whichever of its steps return
an error, if no merged file is cut short without one: every series reads back
as before in every range, every file that the index names is there, and its
series are strictly increasing in time. -/
theorem compactOnce_keeps_points (hdist : Distinct (livePoints live)) (io : Nat → MergeIo)
    (hnoticed : MergesNoticed io (findCandidates cfg s.index files) s) :
    (∀ sid lo hi, ∃ before after, s.readPruned sid lo hi = some before ∧
      (compactOnce cfg io files s).2.readPruned sid lo hi = some after ∧ after.Perm before) ∧
    ∀ (id : ChunkId) (file : ChunkMeta),
      (compactOnce cfg io files s).2.index.chunkFiles[id]? = some file →
      ∃ bytes, (compactOnce cfg io files s).2.dir[file.filePath]? = some bytes ∧
        ∀ key lo hi points, readSeries bytes key lo hi = .ok (some points) →
          points.Pairwise fun p q => p.timestampNs < q.timestampNs := by
  have hstart := cycleOk_candidates hlaw hU hstore cfg hfiles hfit
  obtain ⟨live', rest, hend⟩ := hstart.mergeGroups hlaw hU hdist hnoticed
  constructor
  · intro sid lo hi
    obtain ⟨before, hbefore, hperm⟩ := hstart.holds.readPruned hlaw hU sid lo hi
    obtain ⟨after, hafter, hperm'⟩ := hend.holds.readPruned hlaw hU sid lo hi
    exact ⟨before, after, hbefore, hafter,
      hperm'.trans ((hend.points.filter _).trans hperm.symm)⟩
  · intro id file hfile
    obtain ⟨c, hc, -, hpath⟩ := hend.holds.exists_file hfile
    obtain ⟨hfits, bytes, result, hw, hbytes⟩ := hend.holds.onDisk c hc
    refine ⟨bytes, by rw [hpath]; exact hbytes, fun key lo hi points hread => ?_⟩
    rw [readSeries_written hlaw hfits.written hw] at hread
    exact pairwise_seriesIn (fun kp hkp => (c.wf kp hkp).2) (Except.ok.inj hread)

end

end

section Example

attribute [local instance] Reference.crates

/-- A chunk with one point. -/
def cpuChunk (id : ChunkId) (ts : Int64) (bits : UInt64) : Chunk where
  id := id
  data := SeriesData.insertPoints ∅ [cpuPoint ts bits]
  nonempty := by simp [SeriesData.insertPoints, SeriesData.insertPoint]
  wf := SeriesData.wf_empty.insertPoints _

/-- Two chunks with a point each. -/
def apartChunks : ChunkStore :=
  (ChunkStore.addChunk ⟨.new, ∅⟩ (cpuChunk 100 5 7)).addChunk (cpuChunk 101 6 9)

theorem holds_apartChunks :
    apartChunks.Holds (· = ⟨"cpu", ∅⟩) [cpuChunk 101 6 9, cpuChunk 100 5 7] := by
  refine (ChunkStore.Holds.empty.addChunk keysOk_cpu.inj ?_ ?_ ?_ ?_).addChunk keysOk_cpu.inj
    ?_ ?_ ?_ ?_ <;> decide +kernel

/-- A cycle that merges the two and cannot delete the first file. -/
def halfDeleted : Nat → MergeIo := fun _ => ⟨102, fun _ => true, .ok, fun path => path ≠ 100⟩

theorem compactOnce_keeps_points_merged : ∃ before after,
    apartChunks.readPruned (SeriesKey.id ⟨"cpu", ∅⟩) 0 10 = some before ∧
    (compactOnce oneShard.compaction halfDeleted apartChunks.index.chunkFiles.toList
      apartChunks).2.readPruned (SeriesKey.id ⟨"cpu", ∅⟩) 0 10 = some after ∧
    after.Perm before ∧ before = [cpuPoint 5 7, cpuPoint 6 9] ∧
    (compactOnce oneShard.compaction halfDeleted apartChunks.index.chunkFiles.toList
      apartChunks).2.index.chunkFiles.toList.map Prod.fst = [102] ∧
    (compactOnce oneShard.compaction halfDeleted apartChunks.index.chunkFiles.toList
      apartChunks).2.dir.toList.map Prod.fst = [100, 102] := by
  have hfits : ∀ group ∈ findCandidates oneShard.compaction apartChunks.index
      apartChunks.index.chunkFiles.toList, ((readGroup apartChunks.dir group.chunks).toOption.all
        fun points => (SeriesData.insertPoints ∅ points).Fits) = true := by decide +kernel
  have hwrites : ∀ k, (halfDeleted k).file.write = .ok := fun _ => rfl
  have hnoticed := mergesNoticed_of_ok hwrites (findCandidates oneShard.compaction
    apartChunks.index apartChunks.index.chunkFiles.toList) apartChunks
  obtain ⟨before, after, hbefore, hafter, hperm⟩ :=
    (compactOnce_keeps_points Reference.lawful.lz4 keysOk_cpu holds_apartChunks oneShard.compaction
      (.refl _) (fun group hgroup points hread => by
        simpa [hread, Except.toOption] using hfits group hgroup)
      (by decide +kernel) halfDeleted hnoticed).1 (SeriesKey.id ⟨"cpu", ∅⟩) 0 10
  refine ⟨before, after, hbefore, hafter, hperm, ?_, by decide +kernel, by decide +kernel⟩
  have hread : apartChunks.readPruned (SeriesKey.id ⟨"cpu", ∅⟩) 0 10 =
      some [cpuPoint 5 7, cpuPoint 6 9] := by decide +kernel
  exact Option.some.inj (hbefore.symm.trans hread)

/-- The same cycle; the write of the merged file fails at its first byte, and
its fsync succeeds. -/
def cutMerge : Nat → MergeIo :=
  fun _ => ⟨102, fun _ => true, ⟨true, ⟨some 0, true⟩⟩, fun _ => true⟩

/-- The cycle succeeds, its only file is empty, and both points are gone. -/
theorem compactOnce_loses_points :
    apartChunks.Holds (· = ⟨"cpu", ∅⟩) [cpuChunk 101 6 9, cpuChunk 100 5 7] ∧
    (compactOnce oneShard.compaction cutMerge apartChunks.index.chunkFiles.toList
      apartChunks).1.isOk = true ∧
    apartChunks.readPruned (SeriesKey.id ⟨"cpu", ∅⟩) 0 10 = some [cpuPoint 5 7, cpuPoint 6 9] ∧
    (compactOnce oneShard.compaction cutMerge apartChunks.index.chunkFiles.toList
      apartChunks).2.dir.toList = [(102, [])] ∧
    (compactOnce oneShard.compaction cutMerge apartChunks.index.chunkFiles.toList
      apartChunks).2.readPruned (SeriesKey.id ⟨"cpu", ∅⟩) 0 10 = none :=
  ⟨holds_apartChunks, by decide +kernel⟩

end Example

end Micius

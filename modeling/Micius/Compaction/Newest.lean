import Micius.Compaction.Groups
import Micius.Lib.Grouping
import Micius.Server.Exactness

/-!
# Values that a merge keeps

A merge reads the files of its group in the order in which `find_candidates`
lists them, smallest first, and a later file overwrites an earlier one. Of
several files with a point for one slot the largest wins, not the newest:
ties aside, the size decides which value a merged chunk keeps.
-/

namespace Micius

/-- The size of a chunk file as the index has it. -/
def ChunkIndex.fileSize (idx : ChunkIndex) (id : ChunkId) : Nat :=
  ((idx.chunkFiles[id]?).map ChunkMeta.fileSize).getD 0

/-- The chunk has a point for the slot. -/
def Chunk.Has (c : Chunk) (slot : SeriesKey × Int64) : Prop := slot ∈ c.points.map DataPoint.slot

/-- The point is from the newest of the chunks that have its slot. -/
def Newest (cs : List Chunk) (p : DataPoint) : Prop :=
  ∃ c ∈ cs, p ∈ c.points ∧ ∀ c' ∈ cs, c'.Has p.slot → c'.id ≤ c.id

/-- Of the chunks that have a slot, the largest ones have the newest value. -/
def LargestNewest (size : ChunkId → Nat) (cs : List Chunk) : Prop :=
  ∀ p ∈ livePoints cs, Newest cs p → ∀ c ∈ cs, ∀ q ∈ c.points, q.slot = p.slot →
    (∀ c' ∈ cs, c'.Has p.slot → size c'.id ≤ size c.id) → q = p

instance (c : Chunk) (slot : SeriesKey × Int64) : Decidable (c.Has slot) :=
  inferInstanceAs (Decidable (slot ∈ _))

instance (cs : List Chunk) (p : DataPoint) : Decidable (Newest cs p) :=
  inferInstanceAs (Decidable (∃ c ∈ cs, _))

instance (size : ChunkId → Nat) (cs : List Chunk) : Decidable (LargestNewest size cs) :=
  inferInstanceAs (Decidable (∀ p ∈ livePoints cs, _))

theorem Newest.mem {cs : List Chunk} {p : DataPoint} (h : Newest cs p) : p ∈ livePoints cs := by
  obtain ⟨c, hc, hp, -⟩ := h
  exact List.mem_flatMap.mpr ⟨c, hc, hp⟩

/-- The files of a group are files of the index, smallest first. -/
theorem candidates_sorted {cfg : CompactionConfig} {idx : ChunkIndex}
    {files : List (ChunkId × ChunkMeta)} (hfiles : files.Perm idx.chunkFiles.toList)
    {group : MergeGroup} (hgroup : group ∈ findCandidates cfg idx files) :
    (∀ x ∈ group.chunks, ∃ m : ChunkMeta, idx.chunkFiles[x.1]? = some m ∧ x.2 = m.filePath) ∧
      group.chunks.Pairwise fun x y => idx.fileSize x.1 ≤ idx.fileSize y.1 := by
  obtain ⟨chunks, hchunks, rfl⟩ := List.mem_map.mp hgroup
  obtain ⟨kept, hsub, rfl⟩ := List.sublist_map_iff.mp ((List.sublist_flatten_of_mem hchunks).trans
    (flatten_groupFiles_sublist cfg (filesBySize files) [] 0))
  have hmem : ∀ f ∈ filesBySize files, idx.chunkFiles[f.1]? = some f.2 := fun f hf =>
    ((mem_filesBySize hfiles).mp hf).1
  have hsorted := filesBySize_pairwise files
  refine ⟨fun x hx => ?_, List.pairwise_map.mpr ((hsorted.sublist hsub).imp_of_mem ?_)⟩
  · obtain ⟨f, hf, rfl⟩ := List.mem_map.mp hx
    exact ⟨f.2, hmem f (hsub.subset hf), rfl⟩
  · intro f g hf hg hle
    simpa [ChunkIndex.fileSize, hmem f (hsub.subset hf), hmem g (hsub.subset hg)] using hle

section

variable {cs : List Chunk} {size : ChunkId → Nat}

theorem isLast_livePoints {p : DataPoint} : LastWrites.IsLast DataPoint.slot (livePoints cs) p ↔
    ∃ before c after, cs = before ++ c :: after ∧ p ∈ c.points ∧ ∀ c' ∈ after, ¬ c'.Has p.slot :=
  LastWrites.isLast_flatMap fun c _ => c.wf.distinct

/-- The last chunk of a sorted list with a slot is the largest one with it. -/
theorem LargestNewest.isLast (h : LargestNewest size cs)
    (hsorted : cs.Pairwise fun c c' => size c.id ≤ size c'.id) {p : DataPoint}
    (hp : Newest cs p) : LastWrites.IsLast DataPoint.slot (livePoints cs) p := by
  obtain ⟨q, hlast, hslot⟩ :=
    LastWrites.exists_isLast (List.mem_map_of_mem (f := DataPoint.slot) hp.mem)
  obtain ⟨before, c, after, rfl, hq, hafter⟩ := isLast_livePoints.mp hlast
  have hlargest : ∀ c' ∈ before ++ c :: after, c'.Has p.slot → size c'.id ≤ size c.id := by
    intro c' hc' hhas
    rcases List.mem_append.mp hc' with hc' | hc'
    · exact (List.pairwise_append.mp hsorted).2.2 c' hc' c (List.mem_cons_self ..)
    · rcases List.mem_cons.mp hc' with rfl | hc'
      · exact Nat.le_refl _
      · exact absurd (hslot ▸ hhas) (hafter c' hc')
  exact h p hp.mem hp c (by simp) q hq hslot hlargest ▸ hlast

/-- **Exactly then**: the newest value of every slot is kept in every order of
the chunks by size if and only if the largest chunks have it. -/
theorem largestNewest_iff : (∀ cs', cs'.Perm cs →
      cs'.Pairwise (fun c c' => size c.id ≤ size c'.id) → ∀ p, Newest cs p →
        p ∈ (SeriesData.insertPoints ∅ (livePoints cs')).points) ↔ LargestNewest size cs := by
  have hnewest : ∀ {cs cs' p}, cs'.Perm cs → Newest cs' p → Newest cs p := by
    rintro cs cs' p hperm ⟨c, hc, hp, hmax⟩
    exact ⟨c, hperm.mem_iff.mp hc, hp, fun c' hc' => hmax c' (hperm.mem_iff.mpr hc')⟩
  constructor
  · intro h p _ hp c hc q hq hslot hlargest
    -- list the chunk last among those of its size
    obtain ⟨before, after, hperm, hsorted, hgt⟩ :=
      Grouping.exists_sorted_split (fun c : Chunk => size c.id) hc
    have hqlast : LastWrites.IsLast DataPoint.slot (livePoints (before ++ c :: after)) q := by
      refine isLast_livePoints.mpr ⟨before, c, after, rfl, hq, fun c' hc' hhas => ?_⟩
      have hle := hlargest c' (hperm.mem_iff.mp (by simp [hc'])) (hslot ▸ hhas)
      exact absurd (hgt c' hc') (Nat.not_lt.mpr hle)
    exact hqlast.unique (SeriesData.mem_insertPoints_empty.mp (h _ hperm hsorted p hp)) hslot
  · intro h cs' hperm hsorted p hp
    have h' : LargestNewest size cs' := by
      intro p' _ hp' c' hc' q hq hslot hlargest
      have hp' := hnewest hperm hp'
      exact h p' hp'.mem hp' c' (hperm.mem_iff.mp hc') q hq hslot
        fun d hd => hlargest d (hperm.mem_iff.mpr hd)
    exact SeriesData.mem_insertPoints_empty.mpr (h'.isLast hsorted (hnewest hperm.symm hp))

end

section

variable [Crates]

/-- **What a merge keeps.** Every candidate group lists chunks by size, and
its merge writes one chunk, which has the newest value of every slot if the
largest chunks with the slot have it. Over all orders by size this is exact. -/
theorem merge_keeps_newest (hlaw : Crates.LawfulLz4) {U : SeriesKey → Prop} (hU : KeysOk U)
    (cfg : CompactionConfig) {idx : ChunkIndex} {dir : ChunkDir} {live : List Chunk}
    (hindexed : ∀ id (m : ChunkMeta), idx.chunkFiles[id]? = some m →
      m.filePath = id ∧ ∃ c ∈ live, c.id = id)
    (hdisk : ∀ c ∈ live, OnDisk dir c) (hkeys : ∀ c ∈ live, ∀ kp ∈ c.data.toList, U kp.1)
    {files : List (ChunkId × ChunkMeta)} (hfiles : files.Perm idx.chunkFiles.toList)
    {group : MergeGroup} (hgroup : group ∈ findCandidates cfg idx files) (hne : group.chunks ≠ [])
    (chunkId : ChunkId) :
    ∃ cs : List Chunk, (∀ c ∈ cs, c ∈ live) ∧ group.chunks = cs.map (fun c => (c.id, c.id)) ∧
      (∃ (m : Chunk) (bytes : Bytes) (result : ChunkWriteResult), m.id = chunkId ∧
        ChunkWriter.write m.id m.data = .ok (bytes, result) ∧
        mergeGroup dir chunkId group = .ok (bytes, result) ∧
        (LargestNewest idx.fileSize cs → ∀ p, Newest cs p → p ∈ m.points)) ∧
      ((∀ cs', cs'.Perm cs →
          cs'.Pairwise (fun c c' => idx.fileSize c.id ≤ idx.fileSize c'.id) → ∀ p, Newest cs p →
            p ∈ (SeriesData.insertPoints ∅ (livePoints cs')).points) ↔
        LargestNewest idx.fileSize cs) := by
  obtain ⟨hmem, hsorted⟩ := candidates_sorted hfiles hgroup
  have hmine : ∀ x ∈ group.chunks, x.2 = x.1 ∧ ∃ c ∈ live, c.id = x.1 := by
    intro x hx
    obtain ⟨m, hm, hpath⟩ := hmem x hx
    obtain ⟨hfile, hc⟩ := hindexed x.1 m hm
    exact ⟨hpath.trans hfile, hc⟩
  obtain ⟨cs, hlive, hchunks⟩ := exists_chunks hmine
  rw [hchunks, List.pairwise_map] at hsorted
  have hcs : cs ≠ [] := by
    rintro rfl
    exact hne hchunks
  refine ⟨cs, hlive, hchunks, ?_, largestNewest_iff⟩
  obtain ⟨m, bytes, result, hid, hdata, hwrite, hmerge⟩ := mergeGroup_data hlaw hU
    (fun c hc => hdisk c (hlive c hc)) (fun c hc => hkeys c (hlive c hc)) hchunks hcs chunkId
  refine ⟨m, bytes, result, hid, hwrite, hmerge, fun h p hp => ?_⟩
  rw [Chunk.points, hdata]
  exact SeriesData.mem_insertPoints_empty.mpr (h.isLast hsorted hp)

end

/-! ## Two chunks with one slot -/

section Example

attribute [local instance] Reference.crates

/-- The chunk that a sweep writes of one slot. -/
def firstChunk : Chunk where
  id := 100
  data := SeriesData.insertPoints ∅ [cpuPoint 5 7]
  nonempty := by decide +kernel
  wf := SeriesData.wf_empty.insertPoints _

/-- A newer chunk with the slot and another one. -/
def secondChunk : Chunk where
  id := 101
  data := SeriesData.insertPoints ∅ [cpuPoint 5 8, cpuPoint 6 9]
  nonempty := by decide +kernel
  wf := SeriesData.wf_empty.insertPoints _

def sharedSlot : ChunkStore := [firstChunk, secondChunk].foldl ChunkStore.addChunk ⟨.new, ∅⟩

theorem onDisk_of_isOk {dir : ChunkDir} {c : Chunk} (hfit : c.data.Fits)
    (h : (ChunkWriter.write c.id c.data).toOption.any (fun r => dir[c.id]? = some r.1) = true) :
    OnDisk dir c := by
  obtain ⟨r, hw, hfile⟩ := Runs.exists_ok_of_any h
  exact ⟨hfit, r.1, r.2, hw, of_decide_eq_true hfile⟩

/-- The newer chunk is larger, and its value is kept. -/
theorem merge_keeps_newest_larger : ∃ group ∈ findCandidates oneShard.compaction sharedSlot.index
      sharedSlot.index.chunkFiles.toList, ∃ (m : Chunk) (bytes : Bytes) (result : ChunkWriteResult),
    mergeGroup sharedSlot.dir 102 group = .ok (bytes, result) ∧
    ChunkWriter.write m.id m.data = .ok (bytes, result) ∧ cpuPoint 5 8 ∈ m.points := by
  have hgroup : (findCandidates oneShard.compaction sharedSlot.index
      sharedSlot.index.chunkFiles.toList).any (fun g => g.chunks = [(100, 100), (101, 101)]) = true := by
    decide +kernel
  obtain ⟨group, hgroup, hchunks⟩ := List.any_eq_true.mp hgroup
  have hchunks : group.chunks = [(100, 100), (101, 101)] := of_decide_eq_true hchunks
  have hindexed : ∀ id (m : ChunkMeta), sharedSlot.index.chunkFiles[id]? = some m →
      m.filePath = id ∧ ∃ c ∈ [firstChunk, secondChunk], c.id = id := by
    have hall : ∀ f ∈ sharedSlot.index.chunkFiles.toList, f.2.filePath = f.1 ∧
        ∃ c ∈ [firstChunk, secondChunk], c.id = f.1 := by decide +kernel
    exact fun id m hm => hall (id, m) (Std.ExtTreeMap.mem_toList_iff_getElem?_eq_some.mpr hm)
  have hdisk : ∀ c ∈ [firstChunk, secondChunk], OnDisk sharedSlot.dir c := by
    have hfits : ∀ c ∈ [firstChunk, secondChunk], c.data.Fits ∧
        (ChunkWriter.write c.id c.data).toOption.any (fun r => sharedSlot.dir[c.id]? = some r.1) =
          true := by decide +kernel
    exact fun c hc => onDisk_of_isOk (hfits c hc).1 (hfits c hc).2
  obtain ⟨cs, hlive, hcs, ⟨m, bytes, result, -, hw, hmerge, hkeeps⟩, -⟩ :=
    merge_keeps_newest Reference.lawful.lz4 keysOk_cpu oneShard.compaction hindexed hdisk
      (by decide +kernel) (.refl _) hgroup (by rw [hchunks]; decide) 102
  -- the listed chunks are these two
  obtain ⟨c, c', rfl⟩ : ∃ c c', cs = [c, c'] := by
    refine List.length_eq_two.mp ?_
    have hlen := congrArg List.length (hcs.symm.trans hchunks)
    rwa [List.length_map] at hlen
  have hids : c.id = 100 ∧ c'.id = 101 := by simpa [hchunks] using hcs.symm
  have hboth : ∀ d ∈ [firstChunk, secondChunk],
      (d.id = 100 → d = firstChunk) ∧ (d.id = 101 → d = secondChunk) := by
    simp [firstChunk, secondChunk]
  obtain rfl := (hboth c (hlive c (by simp))).1 hids.1
  obtain rfl := (hboth c' (hlive c' (by simp))).2 hids.2
  exact ⟨group, hgroup, m, bytes, result, hmerge, hw, hkeeps (by decide +kernel) _
    (by decide +kernel)⟩

/-- A chunk with two points, a newer one that overwrites one of them, and a
compaction cycle. -/
def overwrittenRun : List Action :=
  [.append [cpuPoint 4 1, cpuPoint 5 7] [(0, 0), (0, 1)], .walCommit 0 [(0, 0)] none, .walFinish 0,
      .memInsert 0, .ack 0] ++
    sweepSteps 100 0 ++ appendSteps 1 (cpuPoint 5 8) ++ sweepSteps 101 0 ++
    [.compactFind [(100, ⟨100, 205⟩), (101, ⟨101, 187⟩)], .compactMerge 102, .compactCommit,
      .compactDelete, .compactDelete, .compactDelete, .compactEnd]

/-- The older chunk is larger: the merged chunk has its value, and the newer
one is gone. -/
theorem merge_revives_old_value : ∃ s tr,
    Runs.run (step oneShard) (.fresh oneShard) overwrittenRun = some (s, tr) ∧
    s.index.chunkFiles.toList.map Prod.fst = [102] ∧
    s.query oneShard (.all "cpu") = [(cpuPoint 4 1).response, (cpuPoint 5 7).response] := by
  have hrun : ((Runs.run (step oneShard) (.fresh oneShard) overwrittenRun).any fun r =>
      r.1.index.chunkFiles.toList.map Prod.fst = [102] ∧
      r.1.query oneShard (.all "cpu") = [(cpuPoint 4 1).response, (cpuPoint 5 7).response]) =
        true := by decide +kernel
  obtain ⟨s, tr, hrun, hstate⟩ := Runs.exists_of_any hrun
  exact ⟨s, tr, hrun, of_decide_eq_true hstate⟩

end Example

end Micius

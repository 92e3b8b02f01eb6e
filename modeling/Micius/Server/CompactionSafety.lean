import Micius.Server.IndexFiles
import Micius.Server.SnapshotGating

/-!
# Compaction and the snapshot on disk

A merge deletes the files of its group as soon as the index in memory no
longer needs them; the snapshot on disk may still name them. What a run has
to respect for the snapshot's files to stay: an old file is deleted only
when the snapshot on disk is from after the index update of the merge, or
from before the file was written; and a chunk enters the index in free
slots, since a chunk whose entry is overwritten keeps its file in the index
and is found by no later merge.
-/

namespace Micius

/-! ## What a run has to respect -/

/-- A snapshot was saved after the last index update of a merge. -/
def savedSinceCompaction (tr : List Event) : Bool :=
  Runs.occursSince (fun e => e matches .compacted _) (fun e => e matches .saved _ _) tr

/-- The chunk file was written after the last snapshot. -/
def writtenSinceSave (c : ChunkId) (tr : List Event) : Bool :=
  Runs.occursSince (fun e => e matches .saved _ _)
    (fun | .chunkWritten c' _ => c' = c | _ => false) tr

/-- The old chunk file an action deletes. -/
def Server.deletes (s : Server) : Action → Option ChunkPath
  | .compactDelete =>
    match s.compactor with
    | .deleting (path :: _) _ => some path
    | _ => none
  | _ => none

/-- An old file is deleted only when there is no snapshot on disk, or it was
saved after the index update of the merge, or before the file was written. -/
def DeletesGated (s : Server) (tr : List Event) (a : Action) : Prop :=
  ∀ path ∈ s.deletes a,
    s.disk.snapshot.isNone ∨ savedSinceCompaction tr ∨ writtenSinceSave path tr

/-- Both. -/
def CompactsSafely [Crates] (s : Server) (tr : List Event) (a : Action) : Prop :=
  RegistersApart s a ∧ DeletesGated s tr a

instance decidableDeletesGated (s : Server) (tr : List Event) (a : Action) :
    Decidable (DeletesGated s tr a) :=
  (s.deletes a).decidableForallMem

instance decidableCompactsSafely [Crates] (s : Server) (tr : List Event) (a : Action) :
    Decidable (CompactsSafely s tr a) :=
  inferInstanceAs (Decidable (_ ∧ _))

/-! ## The invariant -/

/-- The files of the snapshot on disk. -/
structure SnapshotKept (s : Server) (tr : List Event) : Prop where
  /-- A snapshot saved since the index update of a merge names none of the
  files about to be deleted. -/
  removing : ∀ path ∈ s.compactor.removing, savedSinceCompaction tr = true →
    ∀ snap, s.disk.snapshot = some snap → path ∉ snap.chunkIds
  files : ∀ snap, s.disk.snapshot = some snap → ∀ f ∈ snap.chunkFiles,
    f.2.filePath = f.1 ∧ Stored s.disk.chunks tr f.1 ∧ writtenSinceSave f.1 tr = false

/-- The events that matter to the files. -/
def Event.ofFiles : Event → Bool
  | chunkWritten _ _ => true
  | saved _ _ => true
  | compacted _ => true
  | _ => false

theorem savedSinceCompaction_quiet {es : List Event} (hes : ∀ e ∈ es, e.ofFiles = false)
    (tr : List Event) : savedSinceCompaction (tr ++ es) = savedSinceCompaction tr := by
  refine Runs.occursSince_append (fun e he => ?_) tr
  have hquiet := hes e he
  cases e <;> first | exact ⟨rfl, rfl⟩ | cases hquiet

theorem writtenSinceSave_quiet {es : List Event} (hes : ∀ e ∈ es, e.ofFiles = false)
    (c : ChunkId) (tr : List Event) : writtenSinceSave c (tr ++ es) = writtenSinceSave c tr := by
  refine Runs.occursSince_append (fun e he => ?_) tr
  have hquiet := hes e he
  cases e <;> first | exact ⟨rfl, rfl⟩ | cases hquiet

namespace SnapshotKept

variable {cfg : StorageConfig} {s s' : Server} {tr es : List Event}

theorem fresh (cfg : StorageConfig) : SnapshotKept (.fresh cfg) [] where
  removing := by simp [Server.fresh, Server.start, Compactor.removing]
  files := by simp

/-- Events of other tasks. -/
theorem quiet (h : SnapshotKept s tr) (hes : ∀ e ∈ es, e.ofFiles = false) :
    SnapshotKept s (tr ++ es) where
  removing path hp := by
    rw [savedSinceCompaction_quiet hes]
    exact h.removing path hp
  files snap hsnap f hf := by
    obtain ⟨hpath, hstored, hnot⟩ := h.files snap hsnap f hf
    rw [writtenSinceSave_quiet hes]
    exact ⟨hpath, hstored.later es, hnot⟩

/-- Writing a new chunk file. -/
theorem writeChunk (h : SnapshotKept s tr) {c : ChunkId} (hnew : c ∉ s.disk.chunks)
    (bytes : Bytes) :
    SnapshotKept { s with disk := s.disk.apply (.writeChunk c bytes) }
      (tr ++ [.chunkWritten c bytes]) where
  removing path hp hsaved := by
    refine h.removing path hp ?_
    simpa [savedSinceCompaction, Runs.occursSince_concat] using hsaved
  files snap hsnap f hf := by
    obtain ⟨hpath, hstored, hnot⟩ := h.files snap hsnap f hf
    refine ⟨hpath, (hstored.insert hnew bytes).later _, ?_⟩
    have hne : c ≠ f.1 := by
      rintro rfl
      exact hnew hstored.mem_chunks
    rw [writtenSinceSave, Runs.occursSince_concat, ← writtenSinceSave, hnot]
    simp [hne]

/-- The index update of a merge: no snapshot has been saved since. -/
theorem compactCommit (h : SnapshotKept s tr) (group : MergeGroup) (index : ChunkIndex)
    (rest : List MergeGroup) :
    SnapshotKept
      { s with
        index := index
        compactor := .deleting (group.chunks.map Prod.snd) rest }
      (tr ++ [.compacted (group.chunks.map Prod.fst)]) where
  removing path hp hsaved := by
    rw [savedSinceCompaction, Runs.occursSince_concat] at hsaved
    cases hsaved
  files snap hsnap f hf := by
    obtain ⟨hpath, hstored, hnot⟩ := h.files snap hsnap f hf
    refine ⟨hpath, hstored.later _, ?_⟩
    rw [writtenSinceSave, Runs.occursSince_concat, ← writtenSinceSave, hnot]
    rfl

/-- Deleting an old file that the snapshot on disk does not name. -/
theorem compactDelete (h : SnapshotKept s tr) {path : ChunkPath} {paths : List ChunkPath}
    {rest : List MergeGroup} (hc : s.compactor = .deleting (path :: paths) rest)
    (hgate : s.disk.snapshot.isNone ∨ savedSinceCompaction tr ∨ writtenSinceSave path tr) :
    SnapshotKept
      { s with
        disk := s.disk.apply (.removeChunk path)
        compactor := .deleting paths rest } tr := by
  have hremoving : s.compactor.removing = path :: paths := by
    rw [hc]
    rfl
  have hnamed : ∀ snap, s.disk.snapshot = some snap → ∀ f ∈ snap.chunkFiles, f.1 ≠ path := by
    rintro snap hsnap f hf rfl
    rcases hgate with hnone | hsaved | hwritten
    · rw [hsnap] at hnone
      cases hnone
    · refine h.removing f.1 ?_ hsaved snap hsnap (List.mem_map.mpr ⟨f, hf, rfl⟩)
      rw [hremoving]
      exact List.mem_cons_self ..
    · rw [(h.files snap hsnap f hf).2.2] at hwritten
      cases hwritten
  constructor
  · intro p hp
    refine h.removing p ?_
    rw [hremoving]
    exact List.mem_cons_of_mem _ hp
  · intro snap hsnap f hf
    obtain ⟨hfile, hstored, hnot⟩ := h.files snap hsnap f hf
    exact ⟨hfile, hstored.erase (hnamed snap hsnap f hf), hnot⟩

variable [Crates]

/-- A snapshot of the index. -/
theorem snapshotSave (hindex : IndexKept s tr) (k : Nat) (ws : List Nat) :
    SnapshotKept { s with disk := s.disk.apply (.saveSnapshot (saveIndex s.index ws)) }
      (tr ++ [.saved k (saveIndex s.index ws)]) where
  removing path hp _ snap hsnap := by
    obtain rfl := Option.some.inj hsnap
    rw [mem_chunkIds_saveIndex]
    exact (hindex.removing path hp).2
  files snap hsnap f hf := by
    obtain rfl := Option.some.inj hsnap
    obtain ⟨hpath, hstored⟩ :=
      hindex.index f.1 f.2 (Std.ExtTreeMap.mem_toList_iff_getElem?_eq_some.mp hf)
    refine ⟨hpath, hstored.later _, ?_⟩
    rw [writtenSinceSave, Runs.occursSince_concat]
    rfl

/-- **Every step** that meets the conditions keeps the files. -/
theorem step (h : SnapshotKept s tr) (hindex : IndexKept s tr) {a : Action}
    (hstep : Step cfg s a s' es) (hgate : DeletesGated s tr a) :
    SnapshotKept s' (tr ++ es) := by
  cases hstep with
  | walCommit _ _ _ _ _ =>
    refine { h.quiet ?_ with }
    intro e he
    obtain ⟨r, -, rfl⟩ := List.mem_map.mp he
    rfl
  | sweepWrite hs hw hnew => exact { h.writeChunk hnew _ with }
  | @snapshotSave k ws hk => exact { snapshotSave hindex k ws with }
  | compactMerge hc hm hnew =>
    exact { h.writeChunk hnew _ with removing := by simp [Compactor.removing] }
  | @compactCommit group result rest hc hlock => exact h.compactCommit group _ rest
  | @compactDelete path paths rest hc =>
    refine .quiet (h.compactDelete hc (hgate path ?_)) (by simp)
    simp [Server.deletes, hc]
  | compactFind hc hfiles =>
    exact { h.quiet (by simp) with removing := by simp [Compactor.removing] }
  | compactFail hc hm =>
    exact { h.quiet (by simp) with removing := by simp [Compactor.removing] }
  | compactNext hc => exact { h.quiet (by simp) with removing := by simp [Compactor.removing] }
  | compactEnd hc => exact { h.quiet (by simp) with removing := by simp [Compactor.removing] }
  | _ => exact { h.quiet (by simp [Event.ofFiles]) with }

end SnapshotKept

/-- **Compaction and the snapshot on disk.** Open empty directories and run
any interleaving of the server's steps in which chunks are registered apart
and old files are deleted only as `DeletesGated` allows. Then every file that
the snapshot on disk names exists, with the bytes written for that chunk. -/
theorem snapshot_files_exist [Crates] (cfg : StorageConfig) (chunkIds : Nat → ChunkId)
    {s₀ s : Server} (actions : List Action) {tr : List Event}
    (hopen : (openStore cfg chunkIds .empty).1 = .ok s₀)
    (hsteps : Runs.Along (step cfg) CompactsSafely s₀ [] actions)
    (hrun : Runs.run (step cfg) s₀ actions = some (s, tr)) {snap : IndexSnapshot}
    (hsnap : s.disk.snapshot = some snap) :
    ∀ f ∈ snap.chunkFiles, ∃ bytes, s.disk.chunks[f.2.filePath]? = some bytes ∧
      .chunkWritten f.1 bytes ∈ tr := by
  obtain rfl := fresh_of_openStore hopen
  have hinv : SweepOk cfg s ∧ IndexKept s ([] ++ tr) ∧ SnapshotKept s ([] ++ tr) := by
    refine Runs.run_invariant (P := CompactsSafely)
      (I := fun s tr => SweepOk cfg s ∧ IndexKept s tr ∧ SnapshotKept s tr) ?_
      ⟨SweepOk.fresh cfg, IndexKept.fresh cfg, SnapshotKept.fresh cfg⟩ hsteps hrun
    rintro s s' tr a es ⟨hsweep, hindex, hsnap⟩ ⟨happart, hgate⟩ hstep
    have hstep := step_sound hstep
    exact ⟨hsweep.step hstep, hindex.step hsweep hstep happart,
      hsnap.step hindex hstep hgate⟩
  intro f hf
  obtain ⟨hpath, ⟨bytes, hget, hmem⟩, -⟩ := hinv.2.2.files snap hsnap f hf
  exact ⟨bytes, hpath ▸ hget, hmem⟩

/-! ## Runs with a merge -/

/-- The snapshot on disk names a file that does not exist. -/
def Server.missesFile (s : Server) : Bool :=
  s.disk.snapshot.any fun snap => snap.chunkFiles.any fun f => !s.disk.chunks.contains f.2.filePath

theorem Server.exists_of_missesFile {s : Server} (h : s.missesFile = true) :
    ∃ snap f, s.disk.snapshot = some snap ∧ f ∈ snap.chunkFiles ∧
      f.2.filePath ∉ s.disk.chunks := by
  unfold missesFile at h
  cases hsnap : s.disk.snapshot with
  | none =>
    rw [hsnap] at h
    cases h
  | some snap =>
    rw [hsnap] at h
    obtain ⟨f, hf, hmiss⟩ := List.any_eq_true.mp h
    refine ⟨snap, f, rfl, hf, fun hmem => ?_⟩
    rw [Std.ExtTreeMap.contains_iff_mem.mpr hmem] at hmiss
    cases hmiss

section Example

attribute [local instance] Reference.crates

/-- Merge, save a snapshot, then delete the old files. -/
def gatedMerge : List Action :=
  twoChunks (cpuPoint 5 7) (cpuPoint 6 8) ++ snapshotSteps 0 ++ mergeSteps ++ snapshotSteps 1 ++
    deleteSteps

theorem snapshot_files_exist_gated : ∃ s tr snap,
    Runs.run (step oneShard) (.fresh oneShard) gatedMerge = some (s, tr) ∧
    s.disk.snapshot = some snap ∧ snap.chunkFiles ≠ [] ∧
    ∀ f ∈ snap.chunkFiles, ∃ bytes, s.disk.chunks[f.2.filePath]? = some bytes ∧
      .chunkWritten f.1 bytes ∈ tr := by
  have hrun : ((Runs.run (step oneShard) (.fresh oneShard) gatedMerge).any fun r =>
      r.1.disk.snapshot.any fun snap => !snap.chunkFiles.isEmpty) = true := by decide +kernel
  obtain ⟨s, tr, hrun, hsome⟩ := Runs.exists_of_any hrun
  cases hsnap : s.disk.snapshot with
  | none =>
    rw [hsnap] at hsome
    cases hsome
  | some snap =>
    rw [hsnap] at hsome
    exact ⟨s, tr, snap, hrun, hsnap, by simpa using hsome,
      snapshot_files_exist oneShard (fun _ => 0) gatedMerge (openStore_empty oneShard _)
        (by decide +kernel) hrun hsnap⟩

/-- A snapshot, then a merge that deletes the first of its two old files: the
snapshot on disk names a file that is gone. -/
theorem compaction_breaks_snapshot : ∃ s tr snap f,
    (openStore oneShard (fun _ => 0) .empty).1 = .ok (.fresh oneShard) ∧
    Runs.run (step oneShard) (.fresh oneShard)
      (twoChunks (cpuPoint 5 7) (cpuPoint 6 8) ++ snapshotSteps 0 ++ mergeSteps ++
        [.compactDelete]) = some (s, tr) ∧
    s.disk.snapshot = some snap ∧ f ∈ snap.chunkFiles ∧ f.2.filePath ∉ s.disk.chunks := by
  have hrun : ((Runs.run (step oneShard) (.fresh oneShard)
      (twoChunks (cpuPoint 5 7) (cpuPoint 6 8) ++ snapshotSteps 0 ++ mergeSteps ++
        [.compactDelete])).any fun r => r.1.missesFile) = true := by decide +kernel
  obtain ⟨s, tr, hrun, hmiss⟩ := Runs.exists_of_any hrun
  obtain ⟨snap, f, hsnap, hf, hpath⟩ := Server.exists_of_missesFile hmiss
  exact ⟨s, tr, snap, f, openStore_empty oneShard _, hrun, hsnap, hf, hpath⟩

-- Two values for one series and timestamp: the entry of the second chunk
-- replaces that of the first, whose file the merge deletes without leaving
-- the index; the snapshot saved after the merge names it.
example : ((Runs.run (step oneShard) (.fresh oneShard)
    (twoChunks (cpuPoint 5 7) (cpuPoint 5 8) ++ mergeSteps ++ snapshotSteps 0 ++
      [.compactDelete])).any fun r => r.1.missesFile) = true := by decide +kernel

end Example

end Micius

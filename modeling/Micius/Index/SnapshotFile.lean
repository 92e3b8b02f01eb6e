import Micius.Index.Persistence
import Micius.Lib.ReplaceFile
import Micius.Reference.Bincode

/-!
# The snapshot file (`index/persistence.rs`)

`save_index` writes the encoded snapshot to `path.tmp` and renames that onto
`path`; `load_index` discards a file that does not decode. The Snapshot RPC
and the periodic task call `save_index` under a read lock, so calls overlap,
and all of them write to the same temporary name.

bincode is a parameter: `serialize` and `deserialize`. The examples run on the
encoder of `Reference.Bincode`.
-/

namespace Micius

/-- The steps of `save_index` calls on one path. -/
inductive SaveAction
  | call (idx : ChunkIndex) (shardWatermarks : List Nat)
  /-- `fs::write` creates `path.tmp`, or truncates it. -/
  | create (k : Nat)
  /-- It writes `n` more bytes. -/
  | write (k n : Nat)
  | rename (k : Nat)

section

variable (serialize : IndexSnapshot → Bytes)

/-- The step on the files. -/
def SaveAction.onFiles : SaveAction → ReplaceFile.Action UInt8
  | call idx shardWatermarks => .call (serialize (saveIndex idx shardWatermarks))
  | create k => .create k
  | write k n => .write k n
  | rename k => .rename k

/-- `save_index` calls, step by step. The trace holds the contents renamed
onto the path. -/
def saveStep (s : ReplaceFile.System UInt8) (a : SaveAction) :
    Option (ReplaceFile.System UInt8 × List Bytes) := ReplaceFile.step s (a.onFiles serialize)

/-- `load_index` on the bytes of the file. -/
def loadFile (deserialize : Bytes → Option IndexSnapshot) (file : Option Bytes) :
    Option ChunkIndex :=
  match file with
  | none => none
  | some bytes =>
    match deserialize bytes with
    | none => none
    | some snapshot => loadIndex (some snapshot)

/-- A save creates or truncates `path.tmp` only when no other save is
between its own create and its rename. -/
def SavesAlone (s : ReplaceFile.System UInt8) (a : SaveAction) : Prop :=
  ReplaceFile.CreatesAlone s (a.onFiles serialize)

instance decidableSavesAlone (s : ReplaceFile.System UInt8) (a : SaveAction) :
    Decidable (SavesAlone serialize s a) :=
  inferInstanceAs (Decidable (ReplaceFile.CreatesAlone s (a.onFiles serialize)))

end

/-- **The snapshot file is whole.** In every run of `save_index` calls in
which a save creates `path.tmp` only while no other save is in progress, the
file at the path is absent or the whole encoding of the index of one of the
calls, and `load_index` accepts it. -/
theorem snapshot_file_whole (serialize : IndexSnapshot → Bytes)
    (deserialize : Bytes → Option IndexSnapshot) (leftover : Option Bytes)
    {s : ReplaceFile.System UInt8} (actions : List SaveAction) {tr : List Bytes}
    (hlaw : ∀ idx ws, .call idx ws ∈ actions →
      deserialize (serialize (saveIndex idx ws)) = some (saveIndex idx ws))
    (hsteps : Runs.Along (saveStep serialize) (fun s _ a => SavesAlone serialize s a)
      (.start leftover) [] actions)
    (hrun : Runs.run (saveStep serialize) (.start leftover) actions = some (s, tr)) :
    s.file = none ∨ ∃ idx ws, .call idx ws ∈ actions ∧
      s.file = some (serialize (saveIndex idx ws)) ∧
      loadFile deserialize s.file = some (rebuildIndex (saveIndex idx ws)) := by
  have hrun := (Runs.run_map (SaveAction.onFiles serialize) _ actions).symm.trans hrun
  have hsteps := (Runs.along_map (SaveAction.onFiles serialize)
    (P := fun s _ a => ReplaceFile.CreatesAlone s a) _ [] actions).mp hsteps
  have hfile := ReplaceFile.file_of_run leftover hsteps hrun
  cases hlast : tr.getLast? with
  | none => exact .inl (hfile.trans hlast)
  | some contents =>
    -- the contents renamed last are those of a call
    have hcall := ReplaceFile.called_of_run leftover hrun contents (List.mem_of_getLast? hlast)
    obtain ⟨a, ha, heq⟩ := List.mem_map.mp hcall
    cases a with
    | call idx ws =>
      obtain rfl : serialize (saveIndex idx ws) = contents := ReplaceFile.Action.call.inj heq
      refine .inr ⟨idx, ws, ha, hfile.trans hlast, ?_⟩
      rw [hfile, hlast]
      simp only [loadFile, hlaw idx ws ha, loadIndex_saveIndex]
    | _ => cases heq

/-! ## Two saves -/

section Example

open Reference

/-- Two saves in turn, the second one in two pieces. -/
def savesInTurn : List SaveAction :=
  [.call .new [], .call .new [5], .create 0, .write 0 41, .rename 0, .create 1, .write 1 9,
    .write 1 40, .rename 1]

theorem snapshotFits_savesInTurn : ∀ idx ws, .call idx ws ∈ savesInTurn →
    SnapshotFits "data" (saveIndex idx ws) := by
  intro idx ws hcall
  simp only [savesInTurn, List.mem_cons, SaveAction.call.injEq, reduceCtorEq, List.not_mem_nil,
    or_false] at hcall
  rcases hcall with ⟨rfl, rfl⟩ | ⟨rfl, rfl⟩ <;> decide +kernel

theorem snapshot_file_whole_in_turn : ∃ s tr,
    Runs.run (saveStep (serialize "data")) (.start (some [7])) savesInTurn = some (s, tr) ∧
    s.file = some (serialize "data" (saveIndex .new [5])) ∧
    (s.file = none ∨ ∃ idx ws, .call idx ws ∈ savesInTurn ∧
      s.file = some (serialize "data" (saveIndex idx ws)) ∧
      loadFile (deserialize "data") s.file = some (rebuildIndex (saveIndex idx ws))) := by
  have hrun : ((Runs.run (saveStep (serialize "data")) (.start (some [7])) savesInTurn).any
      fun r => r.1.file = some (serialize "data" (saveIndex .new [5]))) = true := by decide +kernel
  obtain ⟨s, tr, hrun, hfile⟩ := Runs.exists_of_any hrun
  exact ⟨s, tr, hrun, of_decide_eq_true hfile,
    snapshot_file_whole (serialize "data") (deserialize "data") (some [7]) savesInTurn
      (fun idx ws hcall => (readsBack_snapshot (snapshotFits_savesInTurn idx ws hcall)).read)
      (by decide +kernel) hrun⟩

/-- The second save truncates `path.tmp` before the first one renames it:
the file at the path is empty, the encoding of no index, and `load_index`
discards it. -/
theorem snapshot_file_truncated : ∃ s tr,
    Runs.run (saveStep (serialize "data")) (.start none)
      [.call .new [], .call .new [5], .create 0, .write 0 41, .create 1, .rename 0] =
        some (s, tr) ∧
    s.file = some [] ∧ (∀ idx ws, serialize "data" (saveIndex idx ws) ≠ []) ∧
    loadFile (deserialize "data") s.file = none := by
  have hrun : ((Runs.run (saveStep (serialize "data")) (.start none)
      [.call .new [], .call .new [5], .create 0, .write 0 41, .create 1, .rename 0]).any
        fun r => r.1.file = some []) = true := by decide +kernel
  obtain ⟨s, tr, hrun, hfile⟩ := Runs.exists_of_any hrun
  have hfile := of_decide_eq_true hfile
  refine ⟨s, tr, hrun, hfile, fun idx ws => List.cons_ne_nil _ _, ?_⟩
  rw [hfile]
  rfl

end Example

/-! ## What `load_index` makes of the file -/

section

variable {serialize : IndexSnapshot → Bytes} {deserialize : Bytes → Option IndexSnapshot}
  {snapshot : IndexSnapshot}

theorem ReadsBack.loadFile_append (h : ReadsBack serialize deserialize snapshot) (tail : Bytes) :
    loadFile deserialize (some (serialize snapshot ++ tail)) = loadIndex (some snapshot) := by
  simp only [loadFile, h.append]

theorem ReadsBack.loadFile_cut (h : ReadsBack serialize deserialize snapshot) {bytes tail : Bytes}
    (hcut : bytes ++ tail = serialize snapshot) (hne : tail ≠ []) :
    loadFile deserialize (some bytes) = none := by
  simp only [loadFile, h.cut hcut hne]

/-- **Loading repairs the tag index.** The file that `save_index` writes of any
index, in whatever order it lists the maps, and whatever bytes follow it, loads
as an index with the maps of the saved one and the watermarks of the call. It
prunes chunks as the saved one does, and resolves series by the saved registry,
whatever the saved index's own tag index was. The file cut short anywhere is
discarded. -/
theorem snapshot_round_trip (hbincode : ReadsBack serialize deserialize snapshot)
    {idx : ChunkIndex} {ws : List Nat} (hsnapshot : Snapshots idx ws snapshot) :
    (∀ tail, ∃ loaded, loadFile deserialize (some (serialize snapshot ++ tail)) = some loaded ∧
      loaded.seriesRegistry = idx.seriesRegistry ∧ loaded.timeIndex = idx.timeIndex ∧
      loaded.chunkStats = idx.chunkStats ∧ loaded.chunkFiles = idx.chunkFiles ∧
      loaded.shardWatermarks = ws ∧
      (∀ sid lo hi predicate,
        loaded.pruneChunks sid lo hi predicate = idx.pruneChunks sid lo hi predicate) ∧
      ∀ metric filters sid, sid ∈ loaded.resolveSeries metric filters ↔
        ∃ key, idx.seriesRegistry[sid]? = some key ∧
          Memtable.matchesSeries metric filters key = true) ∧
    ∀ bytes tail, bytes ++ tail = serialize snapshot → tail ≠ [] →
      loadFile deserialize (some bytes) = none := by
  refine ⟨fun tail => ⟨rebuildIndex snapshot, ?_, hsnapshot.rebuild_seriesRegistry,
    hsnapshot.rebuild_timeIndex, hsnapshot.rebuild_chunkStats, hsnapshot.rebuild_chunkFiles,
    hsnapshot.shardWatermarks, fun sid lo hi predicate => ?_, fun metric filters sid => ?_⟩,
    fun bytes tail => hbincode.loadFile_cut⟩
  · rw [hbincode.loadFile_append, hsnapshot.loadIndex]
  · rw [ChunkIndex.pruneChunks, ChunkIndex.pruneChunks, hsnapshot.rebuild_timeIndex,
      hsnapshot.rebuild_chunkStats]
  · rw [ChunkIndex.mem_resolveSeries hsnapshot.tagIndexOk, hsnapshot.rebuild_seriesRegistry]

end

section Example

open Reference

/-- A snapshot of one series in one chunk. -/
def cpuSnapshot : IndexSnapshot where
  version := 2
  shardWatermarks := [3, 0]
  seriesRegistry := [(7, ⟨"cpu", (∅ : BTreeMap String String).insert "host" "é"⟩)]
  timeIndex := [(7, [(-5, ⟨100, 7, -5, 9, 64⟩)])]
  chunkStats := [(100, 7, ⟨⟨0⟩, ⟨1⟩, 0⟩)]
  chunkFiles := [(100, ⟨100, 512⟩)]

/-- The index it is of has lost its tag index. -/
def untaggedIndex : ChunkIndex := { rebuildIndex cpuSnapshot with tagIndex := ∅ }

theorem snapshots_untagged : Snapshots untaggedIndex [3, 0] cpuSnapshot :=
  ⟨rfl, rfl, .of_eq (by decide +kernel), .of_eq (by decide +kernel), .of_eq (by decide +kernel),
    .of_eq (by decide +kernel)⟩

/-- Its file is 265 bytes long; without the last byte it is discarded, with one
more byte it loads, and the series is found by its tag again. -/
theorem snapshot_round_trip_cpu : (serialize "data" cpuSnapshot).length = 265 ∧
    loadFile (deserialize "data") (some ((serialize "data" cpuSnapshot).take 264)) = none ∧
    untaggedIndex.resolveSeries "cpu" [("host", "é")] = [] ∧
    ∃ loaded, loadFile (deserialize "data") (some (serialize "data" cpuSnapshot ++ [0])) =
      some loaded ∧ loaded.shardWatermarks = [3, 0] ∧
      7 ∈ loaded.resolveSeries "cpu" [("host", "é")] := by
  obtain ⟨hload, hcut⟩ := snapshot_round_trip
    (readsBack_snapshot (show SnapshotFits "data" cpuSnapshot by decide +kernel)) snapshots_untagged
  have hlen : (serialize "data" cpuSnapshot).length = 265 := by decide +kernel
  obtain ⟨loaded, hloaded, -, -, -, -, hws, -, hresolve⟩ := hload [0]
  refine ⟨hlen, hcut _ _ (List.take_append_drop 264 _) ?_, by decide +kernel, loaded, hloaded, hws,
    (hresolve _ _ _).mpr ⟨_, rfl, by decide +kernel⟩⟩
  rw [← List.length_pos_iff, List.length_drop, hlen]
  decide

end Example

/-! ## Saves that overlap -/

/-- **Overlapping saves.** All saves write to one temporary name, so they may
truncate and overwrite each other's file. If each one writes its bytes in one
piece, then in every run, however the saves overlap, `load_index` discards the
file or loads the index of one of the saves. -/
theorem overlapping_saves_load {serialize : IndexSnapshot → Bytes}
    {deserialize : Bytes → Option IndexSnapshot} (leftover : Option Bytes)
    {s : ReplaceFile.System UInt8} {actions : List SaveAction} {tr : List Bytes}
    (hbincode : ∀ idx ws, .call idx ws ∈ actions →
      ReadsBack serialize deserialize (saveIndex idx ws))
    (hsteps : Runs.Along (saveStep serialize)
      (fun s _ a => ReplaceFile.WritesWhole s (a.onFiles serialize)) (.start leftover) [] actions)
    (hrun : Runs.run (saveStep serialize) (.start leftover) actions = some (s, tr)) :
    loadFile deserialize s.file = none ∨ ∃ idx ws, .call idx ws ∈ actions ∧
      loadFile deserialize s.file = some (rebuildIndex (saveIndex idx ws)) := by
  have hrun := (Runs.run_map (SaveAction.onFiles serialize) _ actions).symm.trans hrun
  have hsteps := (Runs.along_map (SaveAction.onFiles serialize)
    (P := fun s _ a => ReplaceFile.WritesWhole s a) _ [] actions).mp hsteps
  cases hfile : s.file with
  | none => exact .inl rfl
  | some file =>
    obtain ⟨contents, hcall, hbegins⟩ := ReplaceFile.begins_of_run leftover hsteps hrun hfile
    obtain ⟨a, ha, heq⟩ := List.mem_map.mp hcall
    cases a with
    | call idx ws =>
      obtain rfl : serialize (saveIndex idx ws) = contents := ReplaceFile.Action.call.inj heq
      have hreads := hbincode idx ws ha
      by_cases hhead : serialize (saveIndex idx ws) <+: file
      · obtain ⟨tail, rfl⟩ := hhead
        refine .inr ⟨idx, ws, ha, ?_⟩
        rw [hreads.loadFile_append, loadIndex_saveIndex]
      · -- an empty file is cut short before its first byte
        obtain rfl := hbegins.resolve_right hhead
        exact .inl (hreads.loadFile_cut rfl fun hnil => hhead (hnil ▸ List.nil_prefix))
    | _ => cases heq

/-! ## A shorter save over a longer one -/

section Example

open Reference

/-- Both saves open the temporary file before they write, the longer one
first. The file that is renamed has the shorter one's bytes and the end of the
longer one's. -/
def savesOver : List SaveAction :=
  [.call .new [], .call .new [5], .create 1, .create 0, .write 1 49, .write 0 41, .rename 0]

theorem snapshotFits_savesOver : ∀ idx ws, .call idx ws ∈ savesOver →
    SnapshotFits "data" (saveIndex idx ws) := by
  intro idx ws hcall
  refine snapshotFits_savesInTurn idx ws ?_
  simpa [savesOver, savesInTurn] using hcall

theorem overlapping_saves_load_over : ∃ s tr,
    Runs.run (saveStep (serialize "data")) (.start none) savesOver = some (s, tr) ∧
    s.file.map List.length = some 49 ∧
    (loadFile (deserialize "data") s.file = none ∨ ∃ idx ws, .call idx ws ∈ savesOver ∧
      loadFile (deserialize "data") s.file = some (rebuildIndex (saveIndex idx ws))) := by
  have hrun : ((Runs.run (saveStep (serialize "data")) (.start none) savesOver).any
      fun r => r.1.file.map List.length = some 49) = true := by decide +kernel
  obtain ⟨s, tr, hrun, hfile⟩ := Runs.exists_of_any hrun
  exact ⟨s, tr, hrun, of_decide_eq_true hfile, overlapping_saves_load none
    (fun idx ws hcall => readsBack_snapshot (snapshotFits_savesOver idx ws hcall))
    (by decide +kernel) hrun⟩

end Example

end Micius

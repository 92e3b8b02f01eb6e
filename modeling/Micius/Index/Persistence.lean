import Micius.Index.Exact

/-!
# Index snapshots (`index/persistence.rs`)

`save_index` writes the maps as lists, `load_index` collects them again and
rebuilds the tag index from the registry. The file's bytes are bincode's
encoding of the snapshot and are modelled by the snapshot itself; the write
to a temporary file and the rename onto the path are one step. `ReadsBack` is
what the results about the bytes ask of bincode.
-/

namespace Micius

/-- `IndexSnapshot`. -/
structure IndexSnapshot where
  version : UInt8
  shardWatermarks : List Nat
  seriesRegistry : List (SeriesId × SeriesKey)
  timeIndex : List (SeriesId × List (Int64 × SeriesChunkEntry))
  chunkStats : List (ChunkId × SeriesId × SeriesChunkStats)
  chunkFiles : List (ChunkId × ChunkMeta)

/-- bincode on one snapshot: the decoder reads it back, whatever follows it, and
rejects its bytes cut short. -/
structure ReadsBack (serialize : IndexSnapshot → Bytes)
    (deserialize : Bytes → Option IndexSnapshot) (snapshot : IndexSnapshot) : Prop where
  append : ∀ tail, deserialize (serialize snapshot ++ tail) = some snapshot
  cut : ∀ {bytes tail}, bytes ++ tail = serialize snapshot → tail ≠ [] → deserialize bytes = none

theorem ReadsBack.read {serialize : IndexSnapshot → Bytes}
    {deserialize : Bytes → Option IndexSnapshot} {snapshot : IndexSnapshot}
    (h : ReadsBack serialize deserialize snapshot) :
    deserialize (serialize snapshot) = some snapshot := by
  simpa using h.append []

/-- The snapshot that `save_index` writes. -/
def saveIndex (idx : ChunkIndex) (shardWatermarks : List Nat) : IndexSnapshot where
  version := 2
  shardWatermarks := shardWatermarks
  seriesRegistry := idx.seriesRegistry.toList
  timeIndex := idx.timeIndex.toList.map fun e => (e.1, e.2.toList)
  chunkStats := idx.chunkStats.toList.map fun e => (e.1.1, e.1.2, e.2)
  chunkFiles := idx.chunkFiles.toList

/-- `rebuild_index`. -/
def rebuildIndex (snapshot : IndexSnapshot) : ChunkIndex where
  seriesRegistry := Std.ExtTreeMap.ofList snapshot.seriesRegistry
  timeIndex := Std.ExtTreeMap.ofList
    (snapshot.timeIndex.map fun e => (e.1, Std.ExtTreeMap.ofList e.2))
  tagIndex := snapshot.seriesRegistry.foldl
    (fun index e => ChunkIndex.addTags index e.1 e.2.tags.toList) ∅
  chunkStats := Std.ExtTreeMap.ofList (snapshot.chunkStats.map fun e => ((e.1, e.2.1), e.2.2))
  chunkFiles := Std.ExtTreeMap.ofList snapshot.chunkFiles
  shardWatermarks := snapshot.shardWatermarks

/-- `load_index`: nothing for an absent file or another version. -/
def loadIndex (file : Option IndexSnapshot) : Option ChunkIndex :=
  match file with
  | none => none
  | some snapshot => if snapshot.version ≠ 2 then none else some (rebuildIndex snapshot)

/-! ## Round trip -/

/-- A snapshot of the index with the given watermarks. The source iterates
over hash maps, so the entries of each map are listed in any order. -/
structure Snapshots (idx : ChunkIndex) (ws : List Nat) (snapshot : IndexSnapshot) : Prop where
  version : snapshot.version = 2
  shardWatermarks : snapshot.shardWatermarks = ws
  seriesRegistry : snapshot.seriesRegistry.Perm idx.seriesRegistry.toList
  timeIndex : snapshot.timeIndex.Perm (idx.timeIndex.toList.map fun e => (e.1, e.2.toList))
  chunkStats : snapshot.chunkStats.Perm (idx.chunkStats.toList.map fun e => (e.1.1, e.1.2, e.2))
  chunkFiles : snapshot.chunkFiles.Perm idx.chunkFiles.toList

theorem snapshots_saveIndex (idx : ChunkIndex) (ws : List Nat) :
    Snapshots idx ws (saveIndex idx ws) := ⟨rfl, rfl, .refl _, .refl _, .refl _, .refl _⟩

namespace Snapshots

variable {idx : ChunkIndex} {ws : List Nat} {snapshot : IndexSnapshot}
  (h : Snapshots idx ws snapshot)
include h

theorem loadIndex : loadIndex (some snapshot) = some (rebuildIndex snapshot) :=
  if_neg (not_not_intro h.version)

theorem rebuild_seriesRegistry : (rebuildIndex snapshot).seriesRegistry = idx.seriesRegistry :=
  TreeMap.ofList_of_perm h.seriesRegistry

theorem rebuild_chunkFiles : (rebuildIndex snapshot).chunkFiles = idx.chunkFiles :=
  TreeMap.ofList_of_perm h.chunkFiles

theorem rebuild_timeIndex : (rebuildIndex snapshot).timeIndex = idx.timeIndex := by
  refine TreeMap.ofList_of_perm ((h.timeIndex.map _).trans ?_)
  rw [List.map_map]
  refine .of_eq (List.map_id'' (fun e => ?_) _)
  simp only [Function.comp_apply, TreeMap.ofList_toList]

theorem rebuild_chunkStats : (rebuildIndex snapshot).chunkStats = idx.chunkStats := by
  refine TreeMap.ofList_of_perm ((h.chunkStats.map _).trans ?_)
  rw [List.map_map]
  exact .of_eq (List.map_id'' (fun e => rfl) _)

end Snapshots

section

variable (idx : ChunkIndex) (ws : List Nat)

@[simp] theorem seriesRegistry_rebuild :
    (rebuildIndex (saveIndex idx ws)).seriesRegistry = idx.seriesRegistry :=
  (snapshots_saveIndex idx ws).rebuild_seriesRegistry

@[simp] theorem chunkFiles_rebuild :
    (rebuildIndex (saveIndex idx ws)).chunkFiles = idx.chunkFiles :=
  (snapshots_saveIndex idx ws).rebuild_chunkFiles

@[simp] theorem timeIndex_rebuild :
    (rebuildIndex (saveIndex idx ws)).timeIndex = idx.timeIndex :=
  (snapshots_saveIndex idx ws).rebuild_timeIndex

@[simp] theorem chunkStats_rebuild :
    (rebuildIndex (saveIndex idx ws)).chunkStats = idx.chunkStats :=
  (snapshots_saveIndex idx ws).rebuild_chunkStats

theorem loadIndex_saveIndex :
    loadIndex (some (saveIndex idx ws)) = some (rebuildIndex (saveIndex idx ws)) := rfl

end

theorem tagged_foldl_addTags (series : List (SeriesId × SeriesKey))
    (tagIndex : BTreeMap (String × String) (BTreeSet SeriesId)) (tag : String × String)
    (sid : SeriesId) :
    ChunkIndex.Tagged (series.foldl
        (fun index e => ChunkIndex.addTags index e.1 e.2.tags.toList) tagIndex) tag sid ↔
      ChunkIndex.Tagged tagIndex tag sid ∨
        ∃ key, (sid, key) ∈ series ∧ tag ∈ key.tags.toList := by
  induction series generalizing tagIndex with
  | nil => simp
  | cons e series ih =>
    rw [List.foldl_cons, ih, ChunkIndex.tagged_addTags, or_assoc]
    refine or_congr_right ?_
    constructor
    · rintro (⟨rfl, htag⟩ | ⟨key, hmem, htag⟩)
      · exact ⟨e.2, by simp, htag⟩
      · exact ⟨key, by simp [hmem], htag⟩
    · rintro ⟨key, hmem, htag⟩
      rcases List.mem_cons.mp hmem with heq | hmem
      · exact .inl (by rw [← heq]; exact ⟨rfl, htag⟩)
      · exact .inr ⟨key, hmem, htag⟩

/-- The rebuilt tag index is right, whatever the live one was. -/
theorem Snapshots.tagIndexOk {idx : ChunkIndex} {ws : List Nat} {snapshot : IndexSnapshot}
    (h : Snapshots idx ws snapshot) : (rebuildIndex snapshot).TagIndexOk := by
  intro tag sid
  have hnone : ¬ ChunkIndex.Tagged ∅ tag sid := by simp [ChunkIndex.Tagged]
  rw [h.rebuild_seriesRegistry]
  refine (tagged_foldl_addTags snapshot.seriesRegistry ∅ tag sid).trans ?_
  simp only [hnone, false_or, h.seriesRegistry.mem_iff,
    Std.ExtTreeMap.mem_toList_iff_getElem?_eq_some]
  refine exists_congr fun key => and_congr_right fun _ => ?_
  exact Std.ExtTreeMap.mem_toList_iff_getElem?_eq_some (k := tag.1) (v := tag.2)

theorem tagIndexOk_rebuild (idx : ChunkIndex) (ws : List Nat) :
    (rebuildIndex (saveIndex idx ws)).TagIndexOk := (snapshots_saveIndex idx ws).tagIndexOk

variable [Crates]

/-- A loaded snapshot describes the chunks that the saved index described. -/
theorem IndexOk.rebuild {U : SeriesKey → Prop} {idx : ChunkIndex} {live : List Chunk}
    (h : IndexOk U idx live) (ws : List Nat) : IndexOk U (rebuildIndex (saveIndex idx ws)) live where
  entries := by
    simp only [ChunkIndex.entryAt, timeIndex_rebuild]
    exact h.entries
  filePath := by
    rw [chunkFiles_rebuild]
    exact h.filePath
  files := by
    rw [chunkFiles_rebuild]
    exact h.files
  stats := by
    rw [chunkStats_rebuild]
    exact h.stats
  registry := by
    rw [seriesRegistry_rebuild]
    exact h.registry
  registered := by
    rw [seriesRegistry_rebuild]
    exact h.registered
  tags := tagIndexOk_rebuild idx ws

end Micius

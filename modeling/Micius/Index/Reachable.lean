import Micius.Index.SnapshotFile
import Micius.Reference.Instance

/-!
# Reachable indexes

An index is changed by `register` and `deregister` and replaced by a saved
and loaded copy. In every index reached this way, with ids that tell the
registered keys apart, the tag index is the inverse of the registry and an
entry stands under its own start. So `resolve_series` answers like a scan of
the registry, and saving and loading gives the same index back.
-/

namespace Micius

section

variable [Crates] (serialize : IndexSnapshot → Bytes) (deserialize : Bytes → Option IndexSnapshot)

/-- The index is reached by registering series with the given keys, by any
`deregister` calls and by saving and loading. -/
inductive Reaches : List SeriesKey → ChunkIndex → Prop
  | new : Reaches [] .new
  | register {keys : List SeriesKey} {idx : ChunkIndex} (h : Reaches keys idx) (key : SeriesKey)
      (entry : SeriesChunkEntry) (stats : SeriesChunkStats) (chunkMeta : ChunkMeta) :
      Reaches (key :: keys) (idx.register key entry stats chunkMeta)
  | deregister {keys : List SeriesKey} {idx : ChunkIndex} (h : Reaches keys idx) (sid : SeriesId)
      (chunkId : ChunkId) (timeStartNs : Int64) :
      Reaches keys (idx.deregister sid chunkId timeStartNs)
  | reload {keys : List SeriesKey} {idx idx' : ChunkIndex} {ws : List Nat}
      {snapshot : IndexSnapshot} (h : Reaches keys idx) (hsnapshot : Snapshots idx ws snapshot)
      (hbincode : deserialize (serialize snapshot) = some snapshot)
      (hload : loadFile deserialize (some (serialize snapshot)) = some idx') : Reaches keys idx'

end

namespace ChunkIndex

/-- No tag is listed without a series. -/
def TagsUsed (tagIndex : BTreeMap (String × String) (BTreeSet SeriesId)) : Prop :=
  ∀ (tag : String × String) (set : BTreeSet SeriesId), tagIndex[tag]? = some set → ∃ sid, sid ∈ set

theorem TagsUsed.empty : TagsUsed ∅ := by
  intro tag set hset
  simp at hset

theorem TagsUsed.addTags {tagIndex : BTreeMap (String × String) (BTreeSet SeriesId)}
    (h : TagsUsed tagIndex) (sid : SeriesId) (tags : List (String × String)) :
    TagsUsed (addTags tagIndex sid tags) := by
  induction tags generalizing tagIndex with
  | nil => exact h
  | cons tag tags ih =>
    apply ih
    intro tag' set hset
    rw [TreeMap.getElem?_insert_eq] at hset
    split at hset
    · obtain rfl := Option.some.inj hset
      exact ⟨sid, Std.ExtTreeSet.mem_insert_self⟩
    · exact h tag' set hset

/-- Tag indexes without idle tags are told apart by the series they list. -/
theorem TagsUsed.eq {a b : BTreeMap (String × String) (BTreeSet SeriesId)} (ha : TagsUsed a)
    (hb : TagsUsed b) (h : ∀ tag sid, Tagged a tag sid ↔ Tagged b tag sid) : a = b := by
  apply Std.ExtTreeMap.ext_getElem?
  intro tag
  cases hseta : a[tag]? with
  | none =>
    cases hsetb : b[tag]? with
    | none => rfl
    | some set =>
      obtain ⟨sid, hsid⟩ := hb tag set hsetb
      obtain ⟨set', hset', -⟩ := (h tag sid).mpr ⟨set, hsetb, hsid⟩
      rw [hseta] at hset'
      cases hset'
  | some set =>
    obtain ⟨sid, hsid⟩ := ha tag set hseta
    obtain ⟨set', hsetb, -⟩ := (h tag sid).mp ⟨set, hseta, hsid⟩
    rw [hsetb, Option.some.injEq]
    apply Std.ExtTreeSet.ext_mem
    intro sid'
    have hiff := h tag sid'
    simpa [Tagged, hseta, hsetb] using hiff

end ChunkIndex

theorem tagsUsed_foldl (series : List (SeriesId × SeriesKey))
    {tagIndex : BTreeMap (String × String) (BTreeSet SeriesId)}
    (h : ChunkIndex.TagsUsed tagIndex) : ChunkIndex.TagsUsed (series.foldl
      (fun index e => ChunkIndex.addTags index e.1 e.2.tags.toList) tagIndex) := by
  induction series generalizing tagIndex with
  | nil => exact h
  | cons e series ih => exact ih (h.addTags e.1 e.2.tags.toList)

theorem tagsUsed_rebuild (snapshot : IndexSnapshot) :
    ChunkIndex.TagsUsed (rebuildIndex snapshot).tagIndex :=
  tagsUsed_foldl snapshot.seriesRegistry .empty

section

variable [Crates]

/-- What holds in a reachable index with the given keys. -/
structure ReachOk (keys : List SeriesKey) (idx : ChunkIndex) : Prop where
  registry : ∀ sid key, idx.seriesRegistry[sid]? = some key ↔ key ∈ keys ∧ key.id = sid
  tags : idx.TagIndexOk
  used : ChunkIndex.TagsUsed idx.tagIndex

namespace ReachOk

variable {keys : List SeriesKey} {idx : ChunkIndex}

theorem new : ReachOk [] .new where
  registry := by simp [ChunkIndex.new]
  tags := by simp [ChunkIndex.TagIndexOk, ChunkIndex.Tagged, ChunkIndex.new]
  used := .empty

theorem register (h : ReachOk keys idx) {key : SeriesKey}
    (hinj : IdInjective (· ∈ key :: keys)) (entry : SeriesChunkEntry) (stats : SeriesChunkStats)
    (chunkMeta : ChunkMeta) : ReachOk (key :: keys) (idx.register key entry stats chunkMeta) where
  registry := by
    intro sid key'
    rw [ChunkIndex.seriesRegistry_register]
    split
    · next hsid =>
      rw [Option.some.injEq]
      constructor
      · rintro rfl
        exact ⟨List.mem_cons_self .., hsid.symm⟩
      · rintro ⟨hmem, hid⟩
        exact hinj key key' (List.mem_cons_self ..) hmem (hsid.symm.trans hid.symm)
    · next hsid =>
      rw [h.registry, List.mem_cons]
      constructor
      · rintro ⟨hmem, hid⟩
        exact ⟨.inr hmem, hid⟩
      · rintro ⟨rfl | hmem, hid⟩
        · exact absurd hid.symm hsid
        · exact ⟨hmem, hid⟩
  tags := by
    refine h.tags.register (fun key' hkey' => ?_) entry stats chunkMeta
    obtain ⟨hmem, hid⟩ := (h.registry _ _).mp hkey'
    exact hinj key' key (List.mem_cons_of_mem _ hmem) (List.mem_cons_self ..) hid
  used := by
    show ChunkIndex.TagsUsed (if key.id ∈ idx.seriesRegistry then idx.tagIndex else _)
    split
    · exact h.used
    · exact h.used.addTags _ _

theorem deregister (h : ReachOk keys idx) (sid : SeriesId) (c : ChunkId) (t : Int64) :
    ReachOk keys (idx.deregister sid c t) := ⟨h.registry, h.tags, h.used⟩

theorem reload (h : ReachOk keys idx) {ws : List Nat} {snapshot : IndexSnapshot}
    (hsnapshot : Snapshots idx ws snapshot) : ReachOk keys (rebuildIndex snapshot) where
  registry := by
    rw [hsnapshot.rebuild_seriesRegistry]
    exact h.registry
  tags := hsnapshot.tagIndexOk
  used := tagsUsed_rebuild snapshot

/-- The rebuilt tag index is the live one. -/
theorem rebuild_tagIndex (h : ReachOk keys idx) {ws : List Nat} {snapshot : IndexSnapshot}
    (hsnapshot : Snapshots idx ws snapshot) : (rebuildIndex snapshot).tagIndex = idx.tagIndex := by
  refine (tagsUsed_rebuild snapshot).eq h.used fun tag sid => ?_
  rw [hsnapshot.tagIndexOk tag sid, hsnapshot.rebuild_seriesRegistry]
  exact (h.tags tag sid).symm

end ReachOk

variable {serialize : IndexSnapshot → Bytes} {deserialize : Bytes → Option IndexSnapshot}

omit [Crates] in
theorem loadFile_snapshot {idx : ChunkIndex} {ws : List Nat} {snapshot : IndexSnapshot}
    (hsnapshot : Snapshots idx ws snapshot)
    (hbincode : deserialize (serialize snapshot) = some snapshot) :
    loadFile deserialize (some (serialize snapshot)) = some (rebuildIndex snapshot) := by
  rw [loadFile]
  simp only [hbincode]
  exact hsnapshot.loadIndex

theorem Reaches.ok {keys : List SeriesKey} {idx : ChunkIndex}
    (h : Reaches serialize deserialize keys idx) (hinj : IdInjective (· ∈ keys)) :
    ReachOk keys idx := by
  induction h with
  | new => exact .new
  | register h key entry stats chunkMeta ih =>
    have hinit : IdInjective (· ∈ _) := fun k k' hk hk' =>
      hinj k k' (List.mem_cons_of_mem _ hk) (List.mem_cons_of_mem _ hk')
    exact (ih hinit).register hinj entry stats chunkMeta
  | deregister h sid c t ih => exact (ih hinj).deregister sid c t
  | reload h hsnapshot hbincode hload ih =>
    rw [loadFile_snapshot hsnapshot hbincode] at hload
    obtain rfl := Option.some.inj hload
    exact (ih hinj).reload hsnapshot

/-! ## Saving and loading -/

/-- **The snapshot round trip.** `save_index` on a reachable index, whatever
order it lists the maps in, and `load_index` give the same index with the
saved watermarks, and with it the same answers. -/
theorem load_saved_index {keys : List SeriesKey} {idx : ChunkIndex}
    (h : Reaches serialize deserialize keys idx) (hinj : IdInjective (· ∈ keys)) (ws : List Nat)
    {snapshot : IndexSnapshot} (hsnapshot : Snapshots idx ws snapshot)
    (hbincode : deserialize (serialize snapshot) = some snapshot) :
    ∃ idx', loadFile deserialize (some (serialize snapshot)) = some idx' ∧
      idx'.seriesRegistry = idx.seriesRegistry ∧ idx'.timeIndex = idx.timeIndex ∧
      idx'.chunkStats = idx.chunkStats ∧ idx'.chunkFiles = idx.chunkFiles ∧
      idx'.tagIndex = idx.tagIndex ∧ idx'.shardWatermarks = ws ∧
      (∀ metric filters, idx'.resolveSeries metric filters = idx.resolveSeries metric filters) ∧
      ∀ sid lo hi predicate,
        idx'.pruneChunks sid lo hi predicate = idx.pruneChunks sid lo hi predicate := by
  have htags := (h.ok hinj).rebuild_tagIndex hsnapshot
  have hloaded : rebuildIndex snapshot = { idx with shardWatermarks := ws } := by
    rw [← hsnapshot.rebuild_seriesRegistry, ← hsnapshot.rebuild_timeIndex,
      ← hsnapshot.rebuild_chunkStats, ← hsnapshot.rebuild_chunkFiles, ← htags,
      ← hsnapshot.shardWatermarks]
    rfl
  refine ⟨_, loadFile_snapshot hsnapshot hbincode, ?_⟩
  rw [hloaded]
  exact ⟨rfl, rfl, rfl, rfl, rfl, rfl, ChunkIndex.resolveSeries_congr rfl rfl, fun _ _ _ _ => rfl⟩

end

section Example

attribute [local instance] Reference.crates

/-- A series of the metric `cpu`. -/
def cpuHost (host : String) : SeriesKey := ⟨"cpu", (∅ : BTreeMap String String).insert "host" host⟩

/-- Register a chunk of a series. -/
def ChunkIndex.registerHost (idx : ChunkIndex) (host : String) (c : ChunkId) : ChunkIndex :=
  idx.register (cpuHost host) ⟨c, (cpuHost host).id, 5, 7, 100⟩ ⟨⟨0⟩, ⟨1⟩, 0⟩ ⟨c, 187⟩

/-- A series is registered, the index saved and loaded, another series
registered and the first chunk deregistered. -/
def twoHosts : ChunkIndex :=
  ((rebuildIndex (saveIndex (ChunkIndex.new.registerHost "a" 1) [3])).registerHost "b" 2).deregister
    (cpuHost "a").id 1 5

open Reference in
theorem twoHosts_reached :
    Reaches (serialize "data") (deserialize "data") [cpuHost "b", cpuHost "a"] twoHosts := by
  have hfirst : Reaches (serialize "data") (deserialize "data") [cpuHost "a"]
      (ChunkIndex.new.registerHost "a" 1) := Reaches.new.register ..
  have hfits : SnapshotFits "data" (saveIndex (ChunkIndex.new.registerHost "a" 1) [3]) := by
    decide +kernel
  have hread := (readsBack_snapshot hfits).read
  have hloaded := hfirst.reload (snapshots_saveIndex _ [3]) hread
    (loadFile_snapshot (snapshots_saveIndex _ [3]) hread)
  exact (hloaded.register (cpuHost "b") _ _ _).deregister (cpuHost "a").id 1 5

theorem idInjective_hosts : IdInjective (· ∈ [cpuHost "b", cpuHost "a"]) := by
  have hall : ∀ k ∈ [cpuHost "b", cpuHost "a"], ∀ k' ∈ [cpuHost "b", cpuHost "a"],
      k.id = k'.id → k = k' := by decide +kernel
  exact fun k k' hk hk' => hall k hk k' hk'

open Reference in
theorem load_saved_index_twoHosts :
    ∃ idx', loadFile (deserialize "data") (some (serialize "data" (saveIndex twoHosts [7]))) =
        some idx' ∧
      idx'.tagIndex = twoHosts.tagIndex ∧ idx'.shardWatermarks = [7] := by
  have hfits : SnapshotFits "data" (saveIndex twoHosts [7]) := by decide +kernel
  obtain ⟨idx', hload, -, -, -, -, htags, hws, -, -⟩ := load_saved_index twoHosts_reached
    idInjective_hosts [7] (snapshots_saveIndex twoHosts [7]) (readsBack_snapshot hfits).read
  exact ⟨idx', hload, htags, hws⟩

end Example

/-! ## Resolving series -/

section

variable [Crates] {serialize : IndexSnapshot → Bytes} {deserialize : Bytes → Option IndexSnapshot}

/-- The series predicate of a query. -/
def Selects (metric : String) (tagFilters : BTreeMap String String) (key : SeriesKey) : Prop :=
  key.metricName = metric ∧ ∀ k v : String, tagFilters[k]? = some v → key.tags[k]? = some v

omit [Crates] in
/-- The predicate does not depend on the order of the filters. -/
theorem matchesSeries_of_perm {metric : String} {tagFilters : BTreeMap String String}
    {filters : List (String × String)} (horder : filters.Perm tagFilters.toList)
    (key : SeriesKey) :
    Memtable.matchesSeries metric filters key = true ↔ Selects metric tagFilters key := by
  rw [ChunkIndex.matchesSeries_iff, Selects]
  refine and_congr_right fun _ => ?_
  simp only [horder.mem_iff, Prod.forall, Std.ExtTreeMap.mem_toList_iff_getElem?_eq_some]

/-- **Resolution is a scan.** On a reachable index, whatever the iteration
orders, `resolve_series` returns the ids of the registered series that the
metric and the filters select, each once. The memtables select by the same
predicate. -/
theorem resolveSeries_scan {keys : List SeriesKey} {idx : ChunkIndex}
    (h : Reaches serialize deserialize keys idx) (hinj : IdInjective (· ∈ keys))
    (metric : String) (tagFilters : BTreeMap String String)
    {filters : List (String × String)} (horder : filters.Perm tagFilters.toList)
    {ids : List SeriesId} (hids : ids.Perm (idx.resolveSeries metric filters)) :
    ids.Nodup ∧
      (∀ sid, sid ∈ ids ↔ ∃ key ∈ keys, key.id = sid ∧ Selects metric tagFilters key) ∧
      ∀ (m : Memtable) key, key ∈ m.resolveSeries metric filters ↔
        key ∈ m.entries ∧ Selects metric tagFilters key := by
  have hok := h.ok hinj
  refine ⟨hids.nodup_iff.mpr (ChunkIndex.nodup_resolveSeries ..), fun sid => ?_, fun m key => ?_⟩
  · rw [hids.mem_iff, ChunkIndex.mem_resolveSeries hok.tags]
    simp only [hok.registry, matchesSeries_of_perm horder, and_assoc]
  · rw [Memtable.resolveSeries_eq, ← matchesSeries_of_perm horder key]
    constructor
    · intro hmem
      obtain ⟨kp, hkp, rfl⟩ := List.mem_map.mp hmem
      obtain ⟨hkp, hmatch⟩ := List.mem_filter.mp hkp
      have hget := Std.ExtTreeMap.mem_toList_iff_getElem?_eq_some.mp hkp
      exact ⟨Std.ExtTreeMap.mem_iff_isSome_getElem?.mpr (by rw [hget]; rfl), hmatch⟩
    · rintro ⟨hmem, hmatch⟩
      obtain ⟨vec, hvec⟩ := Option.isSome_iff_exists.mp
        (Std.ExtTreeMap.mem_iff_isSome_getElem?.mp hmem)
      refine List.mem_map.mpr ⟨(key, vec), List.mem_filter.mpr ⟨?_, hmatch⟩, rfl⟩
      exact Std.ExtTreeMap.mem_toList_iff_getElem?_eq_some.mpr hvec

end

section Example

attribute [local instance] Reference.crates

/-- Two series are registered and the chunk of one is deregistered. -/
def liveHosts : ChunkIndex :=
  ((ChunkIndex.new.registerHost "a" 1).registerHost "b" 2).deregister (cpuHost "a").id 1 5

/-- One of the two hosts, by its tag. -/
theorem resolveSeries_scan_liveHosts :
    [(cpuHost "b").id].Perm (liveHosts.resolveSeries "cpu" [("host", "b")]) ∧
      ∀ sid, sid ∈ [(cpuHost "b").id] ↔ ∃ key ∈ [cpuHost "b", cpuHost "a"],
        key.id = sid ∧ Selects "cpu" ((∅ : BTreeMap String String).insert "host" "b") key := by
  have hreach : Reaches (Reference.serialize "data") (Reference.deserialize "data")
      [cpuHost "b", cpuHost "a"] liveHosts :=
    ((Reaches.new.register ..).register ..).deregister (cpuHost "a").id 1 5
  have hperm : [(cpuHost "b").id].Perm (liveHosts.resolveSeries "cpu" [("host", "b")]) := by
    decide +kernel
  exact ⟨hperm, (resolveSeries_scan hreach idInjective_hosts "cpu" _
    (by decide +kernel) hperm).2.1⟩

end Example

end Micius

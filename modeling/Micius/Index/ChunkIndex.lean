import Micius.Chunk.Writer
import Micius.Memtable

/-!
# Chunk index (`index/chunk_index.rs`)

The in-memory index over the chunk files: series registry, per-series time
index, inverted tag index, chunk statistics and chunk files.
-/

namespace Micius

/-- `ChunkIndex`. -/
structure ChunkIndex where
  seriesRegistry : BTreeMap SeriesId SeriesKey
  timeIndex : BTreeMap SeriesId (BTreeMap Int64 SeriesChunkEntry)
  tagIndex : BTreeMap (String × String) (BTreeSet SeriesId)
  chunkStats : BTreeMap (ChunkId × SeriesId) SeriesChunkStats
  chunkFiles : BTreeMap ChunkId ChunkMeta
  shardWatermarks : List Nat

namespace ChunkIndex

/-- `ChunkIndex::new`. -/
def new : ChunkIndex := ⟨∅, ∅, ∅, ∅, ∅, []⟩

/-- Enter a series under each of its tags. -/
def addTags (tagIndex : BTreeMap (String × String) (BTreeSet SeriesId)) (seriesId : SeriesId)
    (tags : List (String × String)) : BTreeMap (String × String) (BTreeSet SeriesId) :=
  tags.foldl (fun index tag => index.insert tag (((index[tag]?).getD ∅).insert seriesId)) tagIndex

/-- `ChunkIndex::deregister`. -/
def deregister (idx : ChunkIndex) (seriesId : SeriesId) (chunkId : ChunkId)
    (timeStartNs : Int64) : ChunkIndex :=
  let chunkStats := idx.chunkStats.erase (chunkId, seriesId)
  let chunkStillReferenced := chunkStats.toList.any fun s => s.1.1 = chunkId
  { idx with
    timeIndex :=
      match idx.timeIndex[seriesId]? with
      | none => idx.timeIndex
      | some timeMap =>
        -- the entry of a merged chunk at the same start stays
        if (timeMap[timeStartNs]?).map SeriesChunkEntry.chunkId = some chunkId then
          idx.timeIndex.insert seriesId (timeMap.erase timeStartNs)
        else idx.timeIndex
    chunkStats := chunkStats
    chunkFiles := if chunkStillReferenced then idx.chunkFiles else idx.chunkFiles.erase chunkId }

/-- The loop of `resolve_series` over the filters after the first one. -/
def narrow (idx : ChunkIndex) : List SeriesId → List (String × String) → List SeriesId
  | candidates, [] => candidates
  | candidates, filter :: filters =>
    match idx.tagIndex[filter]? with
    | none => []
    | some set =>
      let candidates := candidates.filter fun id => decide (id ∈ set)
      if candidates.isEmpty then [] else narrow idx candidates filters

/-- Whether a registered series has the metric name. -/
def hasMetric (idx : ChunkIndex) (metric : String) (id : SeriesId) : Bool :=
  (idx.seriesRegistry[id]?).any fun key => key.metricName = metric

/-- `ChunkIndex::resolve_series`. The filters are listed in the iteration
order of their hash map. -/
def resolveSeries (idx : ChunkIndex) (metric : String) (tagFilters : List (String × String)) :
    List SeriesId :=
  match tagFilters with
  | [] => (idx.seriesRegistry.toList.filter fun e => e.2.metricName = metric).map Prod.fst
  | first :: filters =>
    match idx.tagIndex[first]? with
    | none => []
    | some firstSet =>
      let candidates := firstSet.toList.filter (idx.hasMetric metric)
      if candidates.isEmpty then []
      else (idx.narrow candidates filters).filter (idx.hasMetric metric)

/-- `ChunkIndex::prune_chunks`. -/
def pruneChunks (idx : ChunkIndex) (seriesId : SeriesId) (timeStartNs timeEndNs : Int64)
    (predicate : Option ValuePredicate) : List SeriesChunkEntry :=
  match idx.timeIndex[seriesId]? with
  | none => []
  | some timeMap =>
    (((timeMap.toList.filter fun e => e.1 ≤ timeEndNs).filter fun e =>
      timeStartNs ≤ e.2.timeEndNs).filter fun e =>
        predicate.all fun p =>
          match idx.chunkStats[(e.2.chunkId, e.2.seriesId)]? with
          | none => true
          | some stats => p.matchesRange stats.minValue stats.maxValue).map Prod.snd

variable [Crates]

/-- `ChunkIndex::register`. -/
def register (idx : ChunkIndex) (seriesKey : SeriesKey) (entry : SeriesChunkEntry)
    (stats : SeriesChunkStats) (chunkMeta : ChunkMeta) : ChunkIndex :=
  let seriesId := seriesKey.id
  { idx with
    seriesRegistry := idx.seriesRegistry.insert seriesId seriesKey
    tagIndex :=
      if seriesId ∈ idx.seriesRegistry then idx.tagIndex
      -- new series: register its tags
      else addTags idx.tagIndex seriesId seriesKey.tags.toList
    timeIndex := idx.timeIndex.insert seriesId
      (((idx.timeIndex[seriesId]?).getD ∅).insert entry.timeStartNs entry)
    chunkStats := idx.chunkStats.insert (entry.chunkId, seriesId) stats
    chunkFiles := idx.chunkFiles.insert entry.chunkId chunkMeta }

/-- Register series of a written chunk, as every caller of `register` does. -/
def registerAll (idx : ChunkIndex) (chunkMeta : ChunkMeta) (series : List SeriesWriteResult) :
    ChunkIndex :=
  series.foldl (fun idx s => idx.register s.seriesKey s.entry s.stats chunkMeta) idx

/-- Deregister a list of `(series, chunk, start)`, as a compaction does. -/
def deregisterAll (idx : ChunkIndex) (triples : List (SeriesId × ChunkId × Int64)) : ChunkIndex :=
  triples.foldl (fun idx t => idx.deregister t.1 t.2.1 t.2.2) idx

/-! ## Lookups -/

/-- The entry of a series at a start time. -/
def entryAt (idx : ChunkIndex) (seriesId : SeriesId) (timeStartNs : Int64) :
    Option SeriesChunkEntry :=
  (idx.timeIndex[seriesId]?).bind fun timeMap => timeMap[timeStartNs]?

section

variable (idx : ChunkIndex) (key : SeriesKey) (entry : SeriesChunkEntry)
  (stats : SeriesChunkStats) (chunkMeta : ChunkMeta)

/-- Registering puts the entry at its start and keeps the others. -/
theorem entryAt_register (sid : SeriesId) (t : Int64) :
    (idx.register key entry stats chunkMeta).entryAt sid t =
      if sid = key.id ∧ t = entry.timeStartNs then some entry else idx.entryAt sid t := by
  simp only [entryAt, register, TreeMap.getElem?_insert_eq]
  by_cases hsid : sid = key.id
  · subst hsid
    rw [if_pos rfl, Option.bind_some, TreeMap.getElem?_insert_eq]
    by_cases ht : t = entry.timeStartNs
    · simp [ht]
    · cases hm : idx.timeIndex[key.id]? <;> simp [ht]
  · simp [hsid]

theorem chunkStats_register (k : ChunkId × SeriesId) :
    (idx.register key entry stats chunkMeta).chunkStats[k]? =
      if k = (entry.chunkId, key.id) then some stats else idx.chunkStats[k]? :=
  TreeMap.getElem?_insert_eq ..

theorem chunkFiles_register (c : ChunkId) :
    (idx.register key entry stats chunkMeta).chunkFiles[c]? =
      if c = entry.chunkId then some chunkMeta else idx.chunkFiles[c]? :=
  TreeMap.getElem?_insert_eq ..

theorem seriesRegistry_register (sid : SeriesId) :
    (idx.register key entry stats chunkMeta).seriesRegistry[sid]? =
      if sid = key.id then some key else idx.seriesRegistry[sid]? :=
  TreeMap.getElem?_insert_eq ..

end

section

variable (idx : ChunkIndex) (sid' : SeriesId) (cid : ChunkId) (t' : Int64)

omit [Crates] in
/-- Deregistering removes the entry only if it is still the chunk's. -/
theorem entryAt_deregister (sid : SeriesId) (t : Int64) :
    (idx.deregister sid' cid t').entryAt sid t =
      if sid = sid' ∧ t = t' ∧
          (idx.entryAt sid' t').map SeriesChunkEntry.chunkId = some cid then none
      else idx.entryAt sid t := by
  have hself : ∀ timeMap, idx.timeIndex[sid']? = some timeMap →
      idx.entryAt sid' t' = timeMap[t']? := fun timeMap hm => by rw [entryAt, hm, Option.bind_some]
  rw [entryAt, deregister]
  simp only
  split
  · next hm =>
    have hnone : idx.entryAt sid' t' = none := by rw [entryAt, hm, Option.bind_none]
    rw [hnone, if_neg (by simp), entryAt]
  · next timeMap hm =>
    rw [hself timeMap hm]
    split
    · next hc =>
      rw [TreeMap.getElem?_insert_eq]
      by_cases hsid : sid = sid'
      · subst hsid
        rw [if_pos rfl, Option.bind_some, TreeMap.getElem?_erase_eq, entryAt, hm, Option.bind_some]
        simp [hc]
      · simp [hsid, entryAt]
    · next hc => simp [hc, entryAt]

omit [Crates] in
theorem chunkStats_deregister (k : ChunkId × SeriesId) :
    (idx.deregister sid' cid t').chunkStats[k]? =
      if k = (cid, sid') then none else idx.chunkStats[k]? :=
  TreeMap.getElem?_erase_eq ..

omit [Crates] in
theorem mem_chunkStats_deregister (k : ChunkId × SeriesId) :
    k ∈ (idx.deregister sid' cid t').chunkStats ↔ k ≠ (cid, sid') ∧ k ∈ idx.chunkStats := by
  rw [Std.ExtTreeMap.mem_iff_isSome_getElem?, chunkStats_deregister,
    Std.ExtTreeMap.mem_iff_isSome_getElem?]
  by_cases hk : k = (cid, sid')
  · simp [hk]
  · simp [hk]

omit [Crates] in
/-- A chunk's file is forgotten with the last of its statistics. -/
theorem chunkFiles_deregister (c : ChunkId) (chunkMeta : ChunkMeta) :
    (idx.deregister sid' cid t').chunkFiles[c]? = some chunkMeta ↔
      idx.chunkFiles[c]? = some chunkMeta ∧
        (c = cid → ∃ sid, sid ≠ sid' ∧ (cid, sid) ∈ idx.chunkStats) := by
  have hany : ((idx.chunkStats.erase (cid, sid')).toList.any fun s => s.1.1 = cid) = true ↔
      ∃ sid, sid ≠ sid' ∧ (cid, sid) ∈ idx.chunkStats := by
    simp only [List.any_eq_true, Prod.exists, Std.ExtTreeMap.mem_toList_iff_getElem?_eq_some,
      TreeMap.getElem?_erase_eq, decide_eq_true_eq]
    constructor
    · rintro ⟨c, sid, stats, hget, rfl⟩
      split at hget
      · cases hget
      · next hne =>
        refine ⟨sid, fun heq => hne (by rw [heq]), ?_⟩
        rw [Std.ExtTreeMap.mem_iff_isSome_getElem?, hget]
        rfl
    · rintro ⟨sid, hne, hmem⟩
      obtain ⟨stats, hget⟩ := Option.isSome_iff_exists.mp
        (Std.ExtTreeMap.mem_iff_isSome_getElem?.mp hmem)
      exact ⟨cid, sid, stats, by simp [hne, hget], rfl⟩
  simp only [deregister]
  split
  · next h => exact ⟨fun hget => ⟨hget, fun _ => hany.mp h⟩, fun hget => hget.1⟩
  · next h =>
    rw [hany] at h
    rw [TreeMap.getElem?_erase_eq]
    by_cases hc : c = cid
    · rw [if_pos hc]
      exact ⟨nofun, fun hget => absurd (hget.2 hc) h⟩
    · rw [if_neg hc]
      exact ⟨fun hget => ⟨hget, fun heq => absurd heq hc⟩, fun hget => hget.1⟩

end

omit [Crates] in
/-- Pruning selects by time range, and by the statistics if there are any. -/
theorem mem_pruneChunks_iff {idx : ChunkIndex} {sid : SeriesId} {lo hi : Int64}
    {predicate : Option ValuePredicate} {e : SeriesChunkEntry} :
    e ∈ idx.pruneChunks sid lo hi predicate ↔
      ∃ t, idx.entryAt sid t = some e ∧ t ≤ hi ∧ lo ≤ e.timeEndNs ∧
        ∀ p stats, predicate = some p → idx.chunkStats[(e.chunkId, e.seriesId)]? = some stats →
          p.matchesRange stats.minValue stats.maxValue = true := by
  have hkept : ∀ e : SeriesChunkEntry, (predicate.all fun p =>
      match idx.chunkStats[(e.chunkId, e.seriesId)]? with
      | none => true
      | some stats => p.matchesRange stats.minValue stats.maxValue) = true ↔
        ∀ p stats, predicate = some p → idx.chunkStats[(e.chunkId, e.seriesId)]? = some stats →
          p.matchesRange stats.minValue stats.maxValue = true := by
    intro e
    cases predicate with
    | none => simp
    | some p => cases idx.chunkStats[(e.chunkId, e.seriesId)]? <;> simp
  unfold pruneChunks entryAt
  cases idx.timeIndex[sid]? with
  | none => simp
  | some timeMap =>
    simp only [List.mem_map, List.mem_filter, Prod.exists, Std.ExtTreeMap.mem_toList_iff_getElem?_eq_some,
      Option.bind_some, decide_eq_true_eq, hkept]
    constructor
    · rintro ⟨t, e', ⟨⟨⟨hget, hhi⟩, hlo⟩, hstats⟩, rfl⟩
      exact ⟨t, hget, hhi, hlo, hstats⟩
    · rintro ⟨t, hget, hhi, hlo, hstats⟩
      exact ⟨t, e, ⟨⟨⟨hget, hhi⟩, hlo⟩, hstats⟩, rfl⟩

omit [Crates] in
/-- Without a predicate, pruning selects by time range. -/
theorem mem_pruneChunks {idx : ChunkIndex} {sid : SeriesId} {lo hi : Int64}
    {e : SeriesChunkEntry} : e ∈ idx.pruneChunks sid lo hi none ↔
      ∃ t, idx.entryAt sid t = some e ∧ t ≤ hi ∧ lo ≤ e.timeEndNs := by
  simp [mem_pruneChunks_iff]

/-! ## Whole chunks -/

section

variable (chunkMeta : ChunkMeta) (series : List SeriesWriteResult) (idx : ChunkIndex)

/-- After registering, a slot holds an entry of the new chunk or what it held. -/
theorem entryAt_registerAll (sid : SeriesId) (t : Int64) :
    (∃ s ∈ series, s.seriesKey.id = sid ∧ s.entry.timeStartNs = t ∧
      (idx.registerAll chunkMeta series).entryAt sid t = some s.entry) ∨
    ((∀ s ∈ series, ¬ (s.seriesKey.id = sid ∧ s.entry.timeStartNs = t)) ∧
      (idx.registerAll chunkMeta series).entryAt sid t = idx.entryAt sid t) := by
  induction series generalizing idx with
  | nil => exact .inr ⟨by simp, rfl⟩
  | cons s series ih =>
    rcases ih (idx.register s.seriesKey s.entry s.stats chunkMeta) with
      ⟨s', hs', hid, ht, hget⟩ | ⟨hnone, hget⟩
    · exact .inl ⟨s', by simp [hs'], hid, ht, hget⟩
    · rw [entryAt_register] at hget
      by_cases hs : s.seriesKey.id = sid ∧ s.entry.timeStartNs = t
      · rw [if_pos ⟨hs.1.symm, hs.2.symm⟩] at hget
        exact .inl ⟨s, by simp, hs.1, hs.2, hget⟩
      · rw [if_neg fun h => hs ⟨h.1.symm, h.2.symm⟩] at hget
        refine .inr ⟨?_, hget⟩
        rintro s' (_ | ⟨_, hs'⟩)
        · exact hs
        · exact hnone s' hs'

theorem mem_chunkStats_registerAll (k : ChunkId × SeriesId) :
    k ∈ (idx.registerAll chunkMeta series).chunkStats ↔
      k ∈ idx.chunkStats ∨ ∃ s ∈ series, k = (s.entry.chunkId, s.seriesKey.id) := by
  induction series generalizing idx with
  | nil => simp [registerAll]
  | cons s series ih =>
    rw [registerAll, List.foldl_cons, ← registerAll, ih, Std.ExtTreeMap.mem_iff_isSome_getElem?,
      chunkStats_register, Std.ExtTreeMap.mem_iff_isSome_getElem?]
    by_cases hk : k = (s.entry.chunkId, s.seriesKey.id)
    · simp [hk]
    · simp [hk]

theorem chunkFiles_registerAll {chunkId : ChunkId}
    (hid : ∀ s ∈ series, s.entry.chunkId = chunkId) (c : ChunkId) :
    (idx.registerAll chunkMeta series).chunkFiles[c]? =
      if c = chunkId ∧ series ≠ [] then some chunkMeta else idx.chunkFiles[c]? := by
  induction series generalizing idx with
  | nil => simp [registerAll]
  | cons s series ih =>
    have hs : s.entry.chunkId = chunkId := hid s (by simp)
    rw [registerAll, List.foldl_cons, ← registerAll, ih _ fun s' hs' => hid s' (by simp [hs']),
      chunkFiles_register, hs]
    by_cases hc : c = chunkId
    · simp [hc]
    · simp [hc]

/-- After registering, a series id is bound to a key of the new chunk or to
what it was bound to. -/
theorem seriesRegistry_registerAll (sid : SeriesId) :
    (∃ s ∈ series, s.seriesKey.id = sid ∧
      (idx.registerAll chunkMeta series).seriesRegistry[sid]? = some s.seriesKey) ∨
    ((∀ s ∈ series, s.seriesKey.id ≠ sid) ∧
      (idx.registerAll chunkMeta series).seriesRegistry[sid]? = idx.seriesRegistry[sid]?) := by
  induction series generalizing idx with
  | nil => exact .inr ⟨by simp, rfl⟩
  | cons s series ih =>
    rcases ih (idx.register s.seriesKey s.entry s.stats chunkMeta) with
      ⟨s', hs', hid, hget⟩ | ⟨hnone, hget⟩
    · exact .inl ⟨s', by simp [hs'], hid, hget⟩
    · rw [seriesRegistry_register] at hget
      by_cases hs : s.seriesKey.id = sid
      · rw [if_pos hs.symm] at hget
        exact .inl ⟨s, by simp, hs, hget⟩
      · rw [if_neg fun h => hs h.symm] at hget
        refine .inr ⟨?_, hget⟩
        rintro s' (_ | ⟨_, hs'⟩)
        · exact hs
        · exact hnone s' hs'

end

section

variable (idx : ChunkIndex) (triples : List (SeriesId × ChunkId × Int64))

omit [Crates] in
/-- Deregistering removes the listed entries that still are the listed chunk's. -/
theorem entryAt_deregisterAll (sid : SeriesId) (t : Int64) :
    (idx.deregisterAll triples).entryAt sid t =
      (idx.entryAt sid t).filter fun e => (sid, e.chunkId, t) ∉ triples := by
  induction triples generalizing idx with
  | nil => cases h : idx.entryAt sid t <;> simp [deregisterAll, h, Option.filter]
  | cons x triples ih =>
    obtain ⟨sid', cid, t'⟩ := x
    rw [deregisterAll, List.foldl_cons, ← deregisterAll, ih, entryAt_deregister]
    by_cases hslot : sid = sid' ∧ t = t'
    · obtain ⟨rfl, rfl⟩ := hslot
      cases he : idx.entryAt sid t with
      | none => simp
      | some e =>
        by_cases hc : e.chunkId = cid
        · simp [hc, Option.filter]
        · simp [hc, Option.filter]
    · rw [if_neg fun h => hslot ⟨h.1, h.2.1⟩]
      congr 1
      funext e
      have : (sid, e.chunkId, t) ≠ (sid', cid, t') := by
        rintro heq
        simp only [Prod.mk.injEq] at heq
        exact hslot ⟨heq.1, heq.2.2⟩
      simp [this]

omit [Crates] in
theorem mem_chunkStats_deregisterAll (k : ChunkId × SeriesId) :
    k ∈ (idx.deregisterAll triples).chunkStats ↔
      k ∈ idx.chunkStats ∧ ∀ x ∈ triples, k ≠ (x.2.1, x.1) := by
  induction triples generalizing idx with
  | nil => simp [deregisterAll]
  | cons x triples ih =>
    rw [deregisterAll, List.foldl_cons, ← deregisterAll, ih, mem_chunkStats_deregister,
      List.forall_mem_cons]
    constructor
    · rintro ⟨⟨hne, hmem⟩, hall⟩
      exact ⟨hmem, hne, hall⟩
    · rintro ⟨hmem, hne, hall⟩
      exact ⟨⟨hne, hmem⟩, hall⟩

omit [Crates] in
@[simp] theorem seriesRegistry_deregisterAll :
    (idx.deregisterAll triples).seriesRegistry = idx.seriesRegistry := by
  induction triples generalizing idx with
  | nil => rfl
  | cons x triples ih =>
    rw [deregisterAll, List.foldl_cons, ← deregisterAll, ih]
    rfl

omit [Crates] in
@[simp] theorem tagIndex_deregisterAll :
    (idx.deregisterAll triples).tagIndex = idx.tagIndex := by
  induction triples generalizing idx with
  | nil => rfl
  | cons x triples ih =>
    rw [deregisterAll, List.foldl_cons, ← deregisterAll, ih]
    rfl

omit [Crates] in
/-- Deregistering forgets files and enters none. -/
theorem chunkFiles_of_deregisterAll {c : ChunkId} {m : ChunkMeta}
    (h : (idx.deregisterAll triples).chunkFiles[c]? = some m) :
    idx.chunkFiles[c]? = some m := by
  induction triples generalizing idx with
  | nil => exact h
  | cons x triples ih => exact ((chunkFiles_deregister idx x.1 x.2.1 x.2.2 c m).mp (ih _ h)).1

omit [Crates] in
/-- The file of a chunk that is not listed stays. -/
theorem chunkFiles_deregisterAll_of_not_mem {c : ChunkId} (hc : ∀ x ∈ triples, x.2.1 ≠ c) :
    (idx.deregisterAll triples).chunkFiles[c]? = idx.chunkFiles[c]? := by
  induction triples generalizing idx with
  | nil => rfl
  | cons x triples ih =>
    rw [deregisterAll, List.foldl_cons, ← deregisterAll, ih _ fun x' hx' => hc x' (by simp [hx'])]
    ext m
    rw [chunkFiles_deregister]
    exact ⟨fun h => h.1, fun h => ⟨h, fun heq => absurd heq.symm (hc x (by simp))⟩⟩

/-- Every chunk with a file has statistics. -/
def FilesReferenced (idx : ChunkIndex) : Prop :=
  ∀ c m, idx.chunkFiles[c]? = some m → ∃ sid, (c, sid) ∈ idx.chunkStats

omit [Crates] in
theorem FilesReferenced.deregisterAll {idx : ChunkIndex} (h : idx.FilesReferenced)
    (triples : List (SeriesId × ChunkId × Int64)) : (idx.deregisterAll triples).FilesReferenced := by
  induction triples generalizing idx with
  | nil => exact h
  | cons x triples ih =>
    apply ih
    intro c m hget
    obtain ⟨hfile, hother⟩ := (chunkFiles_deregister idx x.1 x.2.1 x.2.2 c m).mp hget
    by_cases hc : c = x.2.1
    · obtain ⟨sid, hne, hmem⟩ := hother hc
      refine ⟨sid, (mem_chunkStats_deregister ..).mpr ⟨?_, hc ▸ hmem⟩⟩
      simp [hne]
    · obtain ⟨sid, hmem⟩ := h c m hfile
      refine ⟨sid, (mem_chunkStats_deregister ..).mpr ⟨?_, hmem⟩⟩
      simp [hc]

end

theorem FilesReferenced.registerAll {idx : ChunkIndex} (h : idx.FilesReferenced)
    (chunkMeta : ChunkMeta) (series : List SeriesWriteResult) :
    (idx.registerAll chunkMeta series).FilesReferenced := by
  induction series generalizing idx with
  | nil => exact h
  | cons s series ih =>
    apply ih
    intro c m hget
    rw [chunkFiles_register] at hget
    have hmem : ∀ k, k ∈ (idx.register s.seriesKey s.entry s.stats chunkMeta).chunkStats ↔
        k ∈ idx.chunkStats ∨ k = (s.entry.chunkId, s.seriesKey.id) := by
      intro k
      have hone := mem_chunkStats_registerAll chunkMeta [s] idx k
      simp only [List.mem_singleton, exists_eq_left] at hone
      exact hone
    by_cases hc : c = s.entry.chunkId
    · exact ⟨s.seriesKey.id, (hmem _).mpr (.inr (by rw [hc]))⟩
    · rw [if_neg hc] at hget
      obtain ⟨sid, hsid⟩ := h c m hget
      exact ⟨sid, (hmem _).mpr (.inl hsid)⟩

end ChunkIndex

end Micius

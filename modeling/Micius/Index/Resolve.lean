import Micius.Index.ChunkIndex

/-!
# Series resolution

`resolve_series` answers from the inverted tag index. While that index lists
the registered series under exactly their tags, the answer is what a scan of
the registry gives: the series whose metric and tags match.
-/

namespace Micius

namespace ChunkIndex

/-- The tag index lists the series under the tag. -/
def Tagged (tagIndex : BTreeMap (String × String) (BTreeSet SeriesId)) (tag : String × String)
    (sid : SeriesId) : Prop := ∃ set, tagIndex[tag]? = some set ∧ sid ∈ set

/-- The tag index lists the registered series under exactly their tags. -/
def TagIndexOk (idx : ChunkIndex) : Prop :=
  ∀ tag sid, Tagged idx.tagIndex tag sid ↔
    ∃ key, idx.seriesRegistry[sid]? = some key ∧ key.tags[tag.1]? = some tag.2

theorem tagged_addTags (tagIndex : BTreeMap (String × String) (BTreeSet SeriesId))
    (seriesId : SeriesId) (tags : List (String × String)) (tag : String × String)
    (sid : SeriesId) : Tagged (addTags tagIndex seriesId tags) tag sid ↔
      Tagged tagIndex tag sid ∨ sid = seriesId ∧ tag ∈ tags := by
  induction tags generalizing tagIndex with
  | nil => simp [addTags]
  | cons tag' tags ih =>
    have hone : Tagged (tagIndex.insert tag' (((tagIndex[tag']?).getD ∅).insert seriesId)) tag sid ↔
        Tagged tagIndex tag sid ∨ sid = seriesId ∧ tag = tag' := by
      unfold Tagged
      rw [TreeMap.getElem?_insert_eq]
      by_cases htag : tag = tag'
      · subst htag
        simp only [if_true, Option.some.injEq, exists_eq_left', Std.ExtTreeSet.mem_insert,
          Std.LawfulEqOrd.compare_eq_iff_eq, and_true]
        cases tagIndex[tag]? with
        | none => simp [eq_comm]
        | some set => simp [eq_comm, or_comm]
      · simp [htag]
    rw [addTags, List.foldl_cons, ← addTags, ih, hone, List.mem_cons, or_assoc, and_or_left]

variable [Crates]

/-- Registering a series whose id is free, or already its own, keeps the tag index. -/
theorem TagIndexOk.register {idx : ChunkIndex} (h : idx.TagIndexOk) {key : SeriesKey}
    (hkey : ∀ key', idx.seriesRegistry[key.id]? = some key' → key' = key)
    (entry : SeriesChunkEntry) (stats : SeriesChunkStats) (chunkMeta : ChunkMeta) :
    (idx.register key entry stats chunkMeta).TagIndexOk := by
  intro tag sid
  rw [seriesRegistry_register]
  cases hreg : idx.seriesRegistry[key.id]? with
  | some key' =>
    obtain rfl := hkey key' hreg
    have hmem : key'.id ∈ idx.seriesRegistry := by
      rw [Std.ExtTreeMap.mem_iff_isSome_getElem?, hreg]
      rfl
    simp only [ChunkIndex.register, if_pos hmem]
    rw [h tag sid]
    by_cases hsid : sid = key'.id
    · rw [if_pos hsid, hsid, hreg]
    · rw [if_neg hsid]
  | none =>
    have hmem : key.id ∉ idx.seriesRegistry := by
      rw [Std.ExtTreeMap.mem_iff_isSome_getElem?, hreg]
      simp
    simp only [ChunkIndex.register, if_neg hmem]
    rw [tagged_addTags, h tag sid]
    by_cases hsid : sid = key.id
    · subst hsid
      rw [hreg, if_pos rfl]
      simpa using Std.ExtTreeMap.mem_toList_iff_getElem?_eq_some
    · simp [hsid]

omit [Crates] in
theorem TagIndexOk.deregisterAll {idx : ChunkIndex} (h : idx.TagIndexOk)
    (triples : List (SeriesId × ChunkId × Int64)) : (idx.deregisterAll triples).TagIndexOk := by
  intro tag sid
  rw [tagIndex_deregisterAll, seriesRegistry_deregisterAll]
  exact h tag sid

/-! ## The answer of `resolve_series` -/

omit [Crates] in
/-- A candidate survives the remaining filters if each of them lists it. -/
theorem mem_narrow {idx : ChunkIndex} {candidates : List SeriesId}
    {filters : List (String × String)} {sid : SeriesId} :
    sid ∈ idx.narrow candidates filters ↔
      sid ∈ candidates ∧ ∀ f ∈ filters, Tagged idx.tagIndex f sid := by
  induction filters generalizing candidates with
  | nil => simp [narrow]
  | cons f filters ih =>
    rw [narrow, List.forall_mem_cons]
    cases hset : idx.tagIndex[f]? with
    | none => simp [Tagged, hset]
    | some set =>
      have htag : Tagged idx.tagIndex f sid ↔ sid ∈ set := by simp [Tagged, hset]
      simp only
      split
      · next hempty =>
        have hnone : ∀ a ∈ candidates, a ∉ set := by simpa using hempty
        rw [htag]
        simp only [List.not_mem_nil, false_iff, not_and]
        exact fun hmem hset => absurd hset (hnone sid hmem)
      · rw [ih, List.mem_filter, htag]
        simp [and_assoc]

omit [Crates] in
theorem narrow_sublist (idx : ChunkIndex) (candidates : List SeriesId)
    (filters : List (String × String)) : (idx.narrow candidates filters).Sublist candidates := by
  induction filters generalizing candidates with
  | nil => exact .refl _
  | cons f filters ih =>
    rw [narrow]
    split
    · exact List.nil_sublist _
    · simp only
      split
      · exact List.nil_sublist _
      · exact (ih _).trans List.filter_sublist

omit [Crates] in
theorem hasMetric_iff {idx : ChunkIndex} {metric : String} {sid : SeriesId} :
    idx.hasMetric metric sid = true ↔
      ∃ key, idx.seriesRegistry[sid]? = some key ∧ key.metricName = metric := by
  unfold hasMetric
  cases idx.seriesRegistry[sid]? <;> simp

omit [Crates] in
theorem matchesSeries_iff {metric : String} {filters : List (String × String)} {key : SeriesKey} :
    Memtable.matchesSeries metric filters key = true ↔
      key.metricName = metric ∧ ∀ f ∈ filters, key.tags[f.1]? = some f.2 := by
  have htag : ∀ f, Memtable.hasTag key f = true ↔ key.tags[f.1]? = some f.2 := by
    intro f
    unfold Memtable.hasTag
    cases key.tags[f.1]? <;> simp
  simp only [Memtable.matchesSeries, Bool.and_eq_true, decide_eq_true_eq, List.all_eq_true, htag]

omit [Crates] in
/-- **Resolution is a scan.** With a right tag index, `resolve_series`
returns the registered series that the filters match. -/
theorem mem_resolveSeries {idx : ChunkIndex} (h : idx.TagIndexOk) {metric : String}
    {filters : List (String × String)} {sid : SeriesId} :
    sid ∈ idx.resolveSeries metric filters ↔
      ∃ key, idx.seriesRegistry[sid]? = some key ∧
        Memtable.matchesSeries metric filters key = true := by
  simp only [matchesSeries_iff]
  -- an unregistered id is listed under no tag
  have htagged : ∀ key, idx.seriesRegistry[sid]? = some key → ∀ f,
      Tagged idx.tagIndex f sid ↔ key.tags[f.1]? = some f.2 := by
    intro key hkey f
    rw [h f sid, hkey]
    simp
  cases filters with
  | nil =>
    simp [resolveSeries, Std.ExtTreeMap.mem_toList_iff_getElem?_eq_some]
  | cons first filters =>
    have hlisted : sid ∈ idx.resolveSeries metric (first :: filters) ↔
        Tagged idx.tagIndex first sid ∧ idx.hasMetric metric sid = true ∧
          ∀ f ∈ filters, Tagged idx.tagIndex f sid := by
      simp only [resolveSeries]
      cases hset : idx.tagIndex[first]? with
      | none => simp [Tagged, hset]
      | some set =>
        have htag : Tagged idx.tagIndex first sid ↔ sid ∈ set := by simp [Tagged, hset]
        simp only [htag]
        split
        · next hempty =>
          have hnone : ∀ a ∈ set, idx.hasMetric metric a = false := by simpa using hempty
          simp only [List.not_mem_nil, false_iff, not_and]
          intro hmem hmetric
          rw [hnone sid hmem] at hmetric
          cases hmetric
        · rw [List.mem_filter, mem_narrow, List.mem_filter, Std.ExtTreeSet.mem_toList]
          tauto
    rw [hlisted, hasMetric_iff]
    constructor
    · rintro ⟨hfirst, ⟨key, hkey, hmetric⟩, hall⟩
      refine ⟨key, hkey, hmetric, ?_⟩
      rintro f (_ | ⟨_, hf⟩)
      · exact (htagged key hkey first).mp hfirst
      · exact (htagged key hkey f).mp (hall f hf)
    · rintro ⟨key, hkey, hmetric, hall⟩
      exact ⟨(htagged key hkey first).mpr (hall first (by simp)), ⟨key, hkey, hmetric⟩,
        fun f hf => (htagged key hkey f).mpr (hall f (by simp [hf]))⟩

omit [Crates] in
theorem nodup_resolveSeries (idx : ChunkIndex) (metric : String)
    (filters : List (String × String)) : (idx.resolveSeries metric filters).Nodup := by
  cases filters with
  | nil =>
    have hkeys : (idx.seriesRegistry.toList.map Prod.fst).Nodup := by
      rw [List.nodup_iff_pairwise_ne, List.pairwise_map]
      refine Std.ExtTreeMap.ordered_keys_toList.imp ?_
      rintro a b hlt heq
      rw [heq] at hlt
      simp at hlt
    exact hkeys.sublist (List.filter_sublist.map Prod.fst)
  | cons first filters =>
    simp only [resolveSeries]
    split
    · exact List.nodup_nil
    · next set _ =>
      split
      · exact List.nodup_nil
      · have hset : set.toList.Nodup := by
          refine Std.ExtTreeSet.ordered_toList.imp ?_
          rintro a b hlt rfl
          simp at hlt
        exact ((hset.filter _).sublist (narrow_sublist idx _ filters)).filter _

section Congr

variable {idx idx' : ChunkIndex}

omit [Crates] in
theorem narrow_congr (htags : idx.tagIndex = idx'.tagIndex) (candidates : List SeriesId)
    (filters : List (String × String)) : idx.narrow candidates filters = idx'.narrow candidates filters := by
  induction filters generalizing candidates with
  | nil => rfl
  | cons filter filters ih => simp only [narrow, htags, ih]

omit [Crates] in
/-- Resolution reads the registry and the tag index only. -/
theorem resolveSeries_congr (hregistry : idx.seriesRegistry = idx'.seriesRegistry)
    (htags : idx.tagIndex = idx'.tagIndex) (metric : String) (filters : List (String × String)) :
    idx.resolveSeries metric filters = idx'.resolveSeries metric filters := by
  have hmetric : idx.hasMetric metric = idx'.hasMetric metric := by
    funext id
    rw [hasMetric, hregistry]
    rfl
  cases filters with
  | nil =>
    rw [resolveSeries, hregistry]
    rfl
  | cons first filters => simp only [resolveSeries, htags, hmetric, narrow_congr htags]

end Congr

end ChunkIndex

end Micius

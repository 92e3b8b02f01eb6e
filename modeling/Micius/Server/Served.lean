import Micius.Server.Query

/-!
# The points an index serves

`IndexOk` asks that the index describes a list of chunks exactly. After a
crash the index may describe a chunk and a recovery chunk that repeats some
of its points, and where both start a series at the same timestamp the later
one takes the slot. `IndexSound` only asks that every entry leads to a
chunk; a point is served if the entry of its series leads to a chunk that
holds it. A query returns the points served. A registered chunk is served
whole, and it hides an older one only in the slots it takes.
-/

namespace Micius

variable [Crates]

/-- Every entry of the index leads to one of the chunks. `U` is the set of
keys in use. -/
structure IndexSound (U : SeriesKey → Prop) (idx : ChunkIndex) (cs : List Chunk) : Prop where
  entries : ∀ sid t e, idx.entryAt sid t = some e → ∃ c ∈ cs, ∃ kp ∈ c.data.toList,
    kp.1.id = sid ∧ firstTimestamp kp.2 = t ∧ e = entryOf c.id kp.1 kp.2
  filePath : ∀ c (m : ChunkMeta), idx.chunkFiles[c]? = some m → m.filePath = c
  files : ∀ c ∈ cs, c.id ∈ idx.chunkFiles
  registry : ∀ sid key, idx.seriesRegistry[sid]? = some key → key.id = sid ∧ U key
  registered : ∀ c ∈ cs, ∀ kp ∈ c.data.toList, idx.seriesRegistry[kp.1.id]? = some kp.1
  tags : idx.TagIndexOk

/-- The index leads to the point in a series that starts at `t`. -/
def ServedAt (idx : ChunkIndex) (cs : List Chunk) (p : DataPoint) (t : Int64) : Prop :=
  ∃ c ∈ cs, ∃ vec, (p.key, vec) ∈ c.data.toList ∧ (p.timestampNs, p.value) ∈ vec ∧
    firstTimestamp vec = t ∧ idx.entryAt p.key.id t = some (entryOf c.id p.key vec)

/-- The index leads to the point. -/
def Served (idx : ChunkIndex) (cs : List Chunk) (p : DataPoint) : Prop := ∃ t, ServedAt idx cs p t

variable {U : SeriesKey → Prop} {idx : ChunkIndex} {cs : List Chunk}

theorem IndexOk.sound (h : IndexOk U idx cs) : IndexSound U idx cs where
  entries sid t e := (h.entries sid t e).mp
  filePath := h.filePath
  files c hc := (h.files c.id).mpr ⟨c, hc, rfl⟩
  registry := h.registry
  registered := h.registered
  tags := h.tags

/-- An exact index serves the points of its chunks. -/
theorem IndexOk.servedAt (h : IndexOk U idx cs) {c : Chunk} (hc : c ∈ cs) {p : DataPoint}
    (hp : p ∈ c.points) : ∃ t, ServedAt idx cs p t ∧ ∃ q ∈ c.points, q.slot = (p.key, t) := by
  obtain ⟨vec, hvec, hmem⟩ := exists_series_of_point hp
  exact ⟨_, ⟨c, hc, vec, hvec, hmem, rfl, (h.entries _ _ _).mpr ⟨c, hc, _, hvec, rfl, rfl, rfl⟩⟩,
    exists_point_at_start c.wf hvec⟩

theorem Served.mem_livePoints {p : DataPoint} (h : Served idx cs p) : p ∈ livePoints cs := by
  obtain ⟨t, c, hc, vec, hvec, hmem, -⟩ := h
  exact List.mem_flatMap.mpr ⟨c, hc, SeriesData.mem_points.mpr
    ⟨vec, Std.ExtTreeMap.mem_toList_iff_getElem?_eq_some.mp hvec, hmem⟩⟩

namespace IndexSound

/-- The keys of the chunks are in use. -/
theorem key_in_use (h : IndexSound U idx cs) {c : Chunk} (hc : c ∈ cs)
    {kp : SeriesKey × List (Int64 × F64)} (hkp : kp ∈ c.data.toList) : U kp.1 :=
  (h.registry _ _ (h.registered c hc kp hkp)).2

/-! ## Registering a chunk -/

section Register

variable (hU : IdInjective U) (h : IndexSound U idx cs) {c : Chunk} {bytes : Bytes}
  {result : ChunkWriteResult} (hw : ChunkWriter.write c.id c.data = .ok (bytes, result))
  (hkeys : ∀ kp ∈ c.data.toList, U kp.1)
include hU h hw hkeys

/-- The new chunk joins the others. -/
theorem register :
    IndexSound U (idx.registerAll result.chunkMeta result.seriesResults) (c :: cs) := by
  have hseries : ∀ s ∈ result.seriesResults, U s.seriesKey := by
    intro s hs
    obtain ⟨kp, hkp, hkey, -⟩ := IndexOk.seriesResult_of_mem hw hs
    exact hkey ▸ hkeys kp hkp
  obtain ⟨hreg, htags⟩ :=
    IndexOk.registerAll_tags hU hseries result.chunkMeta h.registry h.tags
  constructor
  case entries =>
    intro sid t e he
    rcases IndexOk.entryAt_chunk hw idx sid t with ⟨kp, hkp, hid, ht, hget⟩ | ⟨-, hget⟩
    · exact ⟨c, by simp, kp, hkp, hid, ht, (Option.some.inj (hget.symm.trans he)).symm⟩
    · obtain ⟨c', hc', rest⟩ := h.entries sid t e (hget.symm.trans he)
      exact ⟨c', List.mem_cons_of_mem c hc', rest⟩
  case filePath =>
    intro c' m hm
    rw [IndexOk.chunkFiles_chunk hw] at hm
    split at hm
    · next heq =>
      obtain rfl := Option.some.inj hm
      exact heq.symm
    · exact h.filePath c' m hm
  case files =>
    intro c' hc'
    refine (IndexOk.mem_chunkFiles_chunk hw idx c'.id).mpr ?_
    rcases List.mem_cons.mp hc' with rfl | hc'
    · exact .inl rfl
    · exact .inr (h.files c' hc')
  case registry => exact hreg
  case registered =>
    intro c' hc' kp hkp
    rcases List.mem_cons.mp hc' with rfl | hc'
    · exact IndexOk.registered_registerAll hU hw hkeys (hkeys kp hkp) (.inl ⟨kp.2, hkp⟩)
    · exact IndexOk.registered_registerAll hU hw hkeys (h.key_in_use hc' hkp)
        (.inr (h.registered c' hc' kp hkp))
  case tags => exact htags

omit h in
/-- The new chunk is served whole. -/
theorem served_new {p : DataPoint} (hp : p ∈ c.points) :
    Served (idx.registerAll result.chunkMeta result.seriesResults) (c :: cs) p := by
  obtain ⟨vec, hvec, hmem⟩ := exists_series_of_point hp
  refine ⟨_, c, by simp, vec, hvec, hmem, rfl, ?_⟩
  rcases IndexOk.entryAt_chunk hw idx p.key.id (firstTimestamp vec) with
    ⟨kp, hkp, hid, -, hget⟩ | ⟨hnone, -⟩
  · have hkey : kp.1 = p.key := hU _ _ (hkeys kp hkp) (hkeys _ hvec) hid
    rw [hget, hkey, points_eq_of_key_eq hkp hvec hkey]
  · exact absurd ⟨rfl, rfl⟩ (hnone _ hvec)

/-- An older point stays served if the new chunk has no point in the slot
where the series of the older one starts. -/
theorem servedAt_old {p : DataPoint} {t : Int64} (hp : ServedAt idx cs p t)
    (hfree : ∀ q ∈ c.points, q.slot ≠ (p.key, t)) :
    ServedAt (idx.registerAll result.chunkMeta result.seriesResults) (c :: cs) p t := by
  obtain ⟨c', hc', vec, hvec, hmem, ht, hget⟩ := hp
  refine ⟨c', List.mem_cons_of_mem c hc', vec, hvec, hmem, ht, ?_⟩
  rcases IndexOk.entryAt_chunk hw idx p.key.id t with ⟨kp, hkp, hid, ht', -⟩ | ⟨-, hsame⟩
  · -- the new chunk would have a point at the start
    obtain ⟨q, hq, hslot⟩ := exists_point_at_start c.wf hkp
    have hkey : kp.1 = p.key := hU _ _ (hkeys kp hkp) (h.key_in_use hc' hvec) hid
    exact absurd (by rw [hslot, hkey, ht']) (hfree q hq)
  · rw [hsame, hget]

omit hU h hkeys in
/-- Nothing else is served. -/
theorem served_register (hfresh : ∀ c' ∈ cs, c'.id ≠ c.id) {p : DataPoint} {t : Int64}
    (hp : ServedAt (idx.registerAll result.chunkMeta result.seriesResults) (c :: cs) p t) :
    p ∈ c.points ∨ ServedAt idx cs p t := by
  obtain ⟨c', hc', vec, hvec, hmem, ht, hget⟩ := hp
  rcases List.mem_cons.mp hc' with rfl | hc'
  · exact .inl (SeriesData.mem_points.mpr
      ⟨vec, Std.ExtTreeMap.mem_toList_iff_getElem?_eq_some.mp hvec, hmem⟩)
  · refine .inr ⟨c', hc', vec, hvec, hmem, ht, ?_⟩
    rcases IndexOk.entryAt_chunk hw idx p.key.id t with ⟨kp, -, -, -, hnew⟩ | ⟨-, hsame⟩
    · have hid := congrArg SeriesChunkEntry.chunkId (Option.some.inj (hnew.symm.trans hget))
      exact absurd hid.symm (hfresh c' hc')
    · rw [← hsame, hget]

end Register

/-! ## Queries -/

section Query

variable (hlaw : Crates.LawfulLz4) (hU : KeysOk U) (h : IndexSound U idx cs) {dir : ChunkDir}
  (q : Query)
include h

/-- The entries that stage 2 selects. -/
theorem mem_scanIndex {e : SeriesChunkEntry} : e ∈ (scanIndex q idx).chunks ↔
    ∃ c ∈ cs, ∃ kp ∈ c.data.toList, q.wants kp = true ∧ e = entryOf c.id kp.1 kp.2 ∧
      idx.entryAt kp.1.id (firstTimestamp kp.2) = some e := by
  simp only [scanIndex, List.mem_flatMap, ChunkIndex.mem_resolveSeries h.tags,
    ChunkIndex.mem_pruneChunks, Query.wants, Bool.and_eq_true, decide_eq_true_eq]
  constructor
  · rintro ⟨sid, ⟨key, hkey, hmatch⟩, t, hget, hhi, hlo⟩
    obtain ⟨c, hc, kp, hkp, rfl, rfl, rfl⟩ := h.entries sid t e hget
    obtain rfl : kp.1 = key := Option.some.inj ((h.registered c hc kp hkp).symm.trans hkey)
    exact ⟨c, hc, kp, hkp, ⟨hmatch, hhi, hlo⟩, rfl, hget⟩
  · rintro ⟨c, hc, kp, hkp, ⟨hmatch, hhi, hlo⟩, rfl, hget⟩
    exact ⟨kp.1.id, ⟨kp.1, h.registered c hc kp hkp, hmatch⟩, _, hget, hhi, hlo⟩

/-- Stage 2 has the path of a chunk and the keys of its series. -/
theorem scan_of_mem {c : Chunk} (hc : c ∈ cs) {kp : SeriesKey × List (Int64 × F64)}
    (hkp : kp ∈ c.data.toList) (hscan : entryOf c.id kp.1 kp.2 ∈ (scanIndex q idx).chunks) :
    (scanIndex q idx).paths[c.id]? = some c.id ∧
      (scanIndex q idx).keys[kp.1.id]? = some kp.1 := by
  obtain ⟨m, hget⟩ := Option.isSome_iff_exists.mp
    (Std.ExtTreeMap.mem_iff_isSome_getElem?.mp (h.files c hc))
  refine ⟨(paths_scanIndex hscan).trans ?_,
    (keys_scanIndex hscan).trans (h.registered c hc kp hkp)⟩
  show (idx.chunkFiles[c.id]?).map ChunkMeta.filePath = some c.id
  rw [hget, Option.map_some, h.filePath _ _ hget]

include hlaw hU in
/-- **A query of the chunks** returns the selected points that the index serves. -/
theorem mem_queryChunks (hdisk : ∀ c ∈ cs, OnDisk dir c) {r : QueryResponse} :
    r ∈ queryChunks q idx dir ↔ ∃ p, Served idx cs p ∧ q.selects p = true ∧ p.response = r := by
  have hread : ∀ c ∈ cs, ∀ kp ∈ c.data.toList,
      entryOf c.id kp.1 kp.2 ∈ (scanIndex q idx).chunks →
      readEntry q dir (scanIndex q idx) (entryOf c.id kp.1 kp.2) =
        (pointsBetween kp.1 q.timeStartNs q.timeEndNs kp.2).map DataPoint.response := by
    intro c hc kp hkp hscan
    obtain ⟨hpath, hkey⟩ := h.scan_of_mem q hc hkp hscan
    exact readEntry_of_scan hlaw hU q (hdisk c hc) (fun kp hkp => h.key_in_use hc hkp) hkp hpath
      hkey
  rw [queryChunks, List.mem_flatMap]
  constructor
  · rintro ⟨e, he, hr⟩
    obtain ⟨c, hc, kp, hkp, hwants, rfl, hget⟩ := (h.mem_scanIndex q).mp he
    rw [hread c hc kp hkp he] at hr
    obtain ⟨p, hp, rfl⟩ := List.mem_map.mp hr
    have hmatch : Memtable.matchesSeries q.metricName q.tags kp.1 = true :=
      (Bool.and_eq_true_iff.mp hwants).1
    have hfilter : p ∈ (pointsOf kp.1 kp.2).filter q.selects := by
      rw [filter_selects_pointsOf, if_pos hmatch]
      exact hp
    obtain ⟨hpoint, hsel⟩ := List.mem_filter.mp hfilter
    obtain ⟨hkey, hmem⟩ := mem_pointsOf.mp hpoint
    refine ⟨p, ⟨_, c, hc, kp.2, ?_, hmem, rfl, ?_⟩, hsel, rfl⟩
    · rw [hkey]
      exact hkp
    · rw [hkey]
      exact hget
  · rintro ⟨p, ⟨t, c, hc, vec, hvec, hmem, rfl, hget⟩, hsel, rfl⟩
    obtain ⟨hmatch, hrange⟩ := Bool.and_eq_true_iff.mp hsel
    obtain ⟨hlo, hhi⟩ := Bool.and_eq_true_iff.mp hrange
    obtain ⟨hge, hle⟩ := bounds_of_sorted (c.wf _ hvec).2 _ hmem
    have hwants : q.wants (p.key, vec) = true := by
      rw [Query.wants, hmatch, Bool.true_and, Bool.and_eq_true, decide_eq_true_eq,
        decide_eq_true_eq]
      exact ⟨Int64.le_trans hge (of_decide_eq_true hhi), Int64.le_trans (of_decide_eq_true hlo) hle⟩
    have hscan := (h.mem_scanIndex q).mpr ⟨c, hc, _, hvec, hwants, rfl, hget⟩
    refine ⟨_, hscan, ?_⟩
    rw [hread c hc _ hvec hscan]
    refine List.mem_map_of_mem ?_
    have hfilter : p ∈ (pointsOf p.key vec).filter q.selects :=
      List.mem_filter.mpr ⟨mem_pointsOf.mpr ⟨rfl, hmem⟩, hsel⟩
    rwa [filter_selects_pointsOf, if_pos hmatch] at hfilter

end Query

end IndexSound

end Micius

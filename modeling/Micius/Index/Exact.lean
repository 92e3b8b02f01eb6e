import Mathlib.Data.List.Pairwise
import Micius.Index.Resolve

/-!
# The index of a set of chunks

The abstract view of the index: a list of live chunks, each a non-empty map
of sorted series. `IndexOk` says that the index describes exactly these
chunks. Registering a chunk with new points adds it to the list; committing
a merge replaces the merged chunks by the new one, whatever other chunks
were registered since the merge was planned.
-/

namespace Micius

/-- The contents of a chunk file: at least one series, each with points in
timestamp order. -/
structure Chunk where
  id : ChunkId
  data : SeriesData
  nonempty : data.isEmpty = false
  wf : data.Wf

/-- The points of a chunk. -/
def Chunk.points (c : Chunk) : List DataPoint := c.data.points

theorem Chunk.exists_series (c : Chunk) : ∃ kp, kp ∈ c.data.toList := by
  cases hl : c.data.toList with
  | nil =>
    have hne := c.nonempty
    rw [← Std.ExtTreeMap.isEmpty_toList, hl] at hne
    cases hne
  | cons kp _ => exact ⟨kp, by simp⟩

/-- The points of a list of chunks. -/
def livePoints (live : List Chunk) : List DataPoint := live.flatMap Chunk.points

theorem nonEmptySeries_of_wf {data : SeriesData} (h : data.Wf) :
    nonEmptySeries data.toList = data.toList := by
  rw [nonEmptySeries, List.filter_eq_self]
  intro kp hkp
  simpa using (h kp hkp).1

/-- The start of a series is the timestamp of one of its points. -/
theorem exists_point_at_start {data : SeriesData} (h : data.Wf)
    {kp : SeriesKey × List (Int64 × F64)} (hkp : kp ∈ data.toList) :
    ∃ p ∈ data.points, p.slot = (kp.1, firstTimestamp kp.2) := by
  obtain ⟨e, rest, hvec⟩ := List.exists_cons_of_ne_nil (h kp hkp).1
  refine ⟨⟨kp.1.metricName, kp.1.tags, e.1, e.2⟩, List.mem_flatMap.mpr ⟨kp, hkp, ?_⟩, ?_⟩
  · rw [mem_pointsOf, hvec]
    exact ⟨rfl, by simp⟩
  · rw [hvec]
    rfl

/-- A point belongs to a series of the chunk, at or after its start. -/
theorem exists_series_of_point {data : SeriesData} {p : DataPoint} (hp : p ∈ data.points) :
    ∃ vec, (p.key, vec) ∈ data.toList ∧ (p.timestampNs, p.value) ∈ vec := by
  obtain ⟨vec, hget, hmem⟩ := SeriesData.mem_points.mp hp
  exact ⟨vec, Std.ExtTreeMap.mem_toList_iff_getElem?_eq_some.mpr hget, hmem⟩

/-- Points that are inserted leave a series. -/
theorem nonempty_insertPoints {ps : List DataPoint} (hne : ps ≠ []) :
    (SeriesData.insertPoints ∅ ps).isEmpty = false := by
  obtain ⟨p, rest, rfl⟩ := List.exists_cons_of_ne_nil hne
  obtain ⟨q, hlast, -⟩ := LastWrites.exists_isLast
    (List.mem_map_of_mem (f := DataPoint.slot) (List.mem_cons_self (a := p) (l := rest)))
  obtain ⟨vec, hvec, -⟩ := exists_series_of_point (SeriesData.mem_insertPoints_empty.mpr hlast)
  rw [← Std.ExtTreeMap.isEmpty_toList]
  exact List.isEmpty_eq_false_iff_exists_mem.mpr ⟨_, hvec⟩

theorem Distinct.eq_of_slot {ps : List DataPoint} (h : Distinct ps) {p q : DataPoint}
    (hp : p ∈ ps) (hq : q ∈ ps) (hslot : p.slot = q.slot) : p = q :=
  List.inj_on_of_nodup_map h hp hq hslot

theorem Distinct.of_perm {ps qs : List DataPoint} (h : Distinct ps) (hperm : ps.Perm qs) :
    Distinct qs := (hperm.map DataPoint.slot).nodup_iff.mp h

theorem Distinct.sublist {ps qs : List DataPoint} (h : Distinct qs) (hsub : ps.Sublist qs) :
    Distinct ps := List.Nodup.sublist (hsub.map DataPoint.slot) h

/-- Points of two parts of a distinct list have different slots. -/
theorem Distinct.append {ps qs : List DataPoint} (hps : Distinct ps) (hqs : Distinct qs)
    (hne : ∀ p ∈ ps, ∀ q ∈ qs, p.slot ≠ q.slot) : Distinct (ps ++ qs) := by
  rw [Distinct, List.map_append]
  refine List.nodup_append'.mpr ⟨hps, hqs, fun slot hs hs' => ?_⟩
  obtain ⟨p, hp, rfl⟩ := List.mem_map.mp hs
  obtain ⟨q, hq, heq⟩ := List.mem_map.mp hs'
  exact hne p hp q hq heq.symm

theorem Distinct.slot_ne {ps qs : List DataPoint} (h : Distinct (ps ++ qs)) {p q : DataPoint}
    (hp : p ∈ ps) (hq : q ∈ qs) : p.slot ≠ q.slot := by
  rw [Distinct, List.map_append] at h
  exact fun heq => List.disjoint_of_nodup_append h (List.mem_map_of_mem hp)
    (heq ▸ List.mem_map_of_mem hq)

/-- Different chunks of a distinct list have different slots. -/
theorem Distinct.slot_ne_of_ne {live : List Chunk} (h : Distinct (livePoints live)) {c c' : Chunk}
    (hc : c ∈ live) (hc' : c' ∈ live) (hne : c ≠ c') :
    ∀ p ∈ c.points, ∀ q ∈ c'.points, p.slot ≠ q.slot := by
  rw [Distinct, livePoints, List.map_flatMap, List.nodup_flatMap] at h
  have hsymm : Std.Symm (Function.onFun List.Disjoint fun c : Chunk => c.points.map DataPoint.slot) :=
    ⟨fun _ _ hd a ha hb => hd hb ha⟩
  have hdisj := h.2.forall hc hc' hne
  intro p hp q hq heq
  exact hdisj (List.mem_map_of_mem hp) (heq ▸ List.mem_map_of_mem hq)

variable [Crates]

/-- The index describes exactly the live chunks. `U` is the set of keys in use. -/
structure IndexOk (U : SeriesKey → Prop) (idx : ChunkIndex) (live : List Chunk) : Prop where
  entries : ∀ sid t e, idx.entryAt sid t = some e ↔
    ∃ c ∈ live, ∃ kp ∈ c.data.toList, kp.1.id = sid ∧ firstTimestamp kp.2 = t ∧
      e = entryOf c.id kp.1 kp.2
  filePath : ∀ c (m : ChunkMeta), idx.chunkFiles[c]? = some m → m.filePath = c
  files : ∀ c, c ∈ idx.chunkFiles ↔ ∃ ch ∈ live, ch.id = c
  stats : ∀ k, k ∈ idx.chunkStats ↔
    ∃ c ∈ live, ∃ kp ∈ c.data.toList, k = (c.id, kp.1.id)
  registry : ∀ sid key, idx.seriesRegistry[sid]? = some key → key.id = sid ∧ U key
  registered : ∀ c ∈ live, ∀ kp ∈ c.data.toList, idx.seriesRegistry[kp.1.id]? = some kp.1
  tags : idx.TagIndexOk

/-- Ids tell the keys in use apart. -/
def IdInjective (U : SeriesKey → Prop) : Prop := ∀ k k', U k → U k' → k.id = k'.id → k = k'

namespace IndexOk

variable {U : SeriesKey → Prop} {idx : ChunkIndex} {live : List Chunk}

theorem new (U : SeriesKey → Prop) : IndexOk U .new [] where
  entries := by simp [ChunkIndex.entryAt, ChunkIndex.new]
  filePath := by simp [ChunkIndex.new]
  files := by simp [ChunkIndex.new]
  stats := by simp [ChunkIndex.new]
  registry := by simp [ChunkIndex.new]
  registered := by simp
  tags := by simp [ChunkIndex.TagIndexOk, ChunkIndex.Tagged, ChunkIndex.new]

theorem filesReferenced (h : IndexOk U idx live) : idx.FilesReferenced := by
  intro c m hget
  have hmem : c ∈ idx.chunkFiles := by
    rw [Std.ExtTreeMap.mem_iff_isSome_getElem?, hget]
    rfl
  obtain ⟨ch, hch, rfl⟩ := (h.files c).mp hmem
  obtain ⟨kp, hkp⟩ := ch.exists_series
  exact ⟨kp.1.id, (h.stats _).mpr ⟨ch, hch, kp, hkp, rfl⟩⟩

section

variable {c : Chunk} {bytes : Bytes} {result : ChunkWriteResult}
  (hw : ChunkWriter.write c.id c.data = .ok (bytes, result))
include hw

/-- The series results of a chunk, one for each of its series. -/
theorem mem_seriesResults_iff {key : SeriesKey} {e : SeriesChunkEntry} :
    (∃ s ∈ result.seriesResults, s.seriesKey = key ∧ s.entry = e) ↔
      ∃ kp ∈ c.data.toList, kp.1 = key ∧ e = entryOf c.id kp.1 kp.2 := by
  have hall := (write_result hw).2
  rw [nonEmptySeries_of_wf c.wf] at hall
  constructor
  · rintro ⟨s, hs, rfl, rfl⟩
    obtain ⟨kp, hkp, hkey, hentry⟩ := exists_of_mem_left hall s hs
    exact ⟨kp, hkp, hkey.symm, hentry⟩
  · rintro ⟨kp, hkp, rfl, rfl⟩
    obtain ⟨s, hs, hkey, hentry⟩ := exists_of_mem_left hall.flip kp hkp
    exact ⟨s, hs, hkey, hentry⟩

theorem seriesResult_of_mem {s : SeriesWriteResult} (hs : s ∈ result.seriesResults) :
    ∃ kp ∈ c.data.toList, s.seriesKey = kp.1 ∧ s.entry = entryOf c.id kp.1 kp.2 := by
  obtain ⟨kp, hkp, hkey, hentry⟩ := (mem_seriesResults_iff hw).mp ⟨s, hs, rfl, rfl⟩
  exact ⟨kp, hkp, hkey.symm, hentry⟩

theorem seriesResults_ne_nil : result.seriesResults ≠ [] := by
  have hall := (write_result hw).2
  rw [nonEmptySeries_of_wf c.wf] at hall
  intro hnil
  have hlen := hall.length_eq
  rw [hnil] at hlen
  have hne := c.nonempty
  rw [← Std.ExtTreeMap.isEmpty_toList, List.eq_nil_of_length_eq_zero hlen.symm] at hne
  cases hne

/-- The slots of a registered chunk. -/
theorem entryAt_chunk (idx : ChunkIndex) (sid : SeriesId) (t : Int64) :
    (∃ kp ∈ c.data.toList, kp.1.id = sid ∧ firstTimestamp kp.2 = t ∧
      (idx.registerAll result.chunkMeta result.seriesResults).entryAt sid t =
        some (entryOf c.id kp.1 kp.2)) ∨
    ((∀ kp ∈ c.data.toList, ¬ (kp.1.id = sid ∧ firstTimestamp kp.2 = t)) ∧
      (idx.registerAll result.chunkMeta result.seriesResults).entryAt sid t =
        idx.entryAt sid t) := by
  rcases idx.entryAt_registerAll result.chunkMeta result.seriesResults sid t with
    ⟨s, hs, hid, ht, hget⟩ | ⟨hnone, hget⟩
  · obtain ⟨kp, hkp, hkey, hentry⟩ := seriesResult_of_mem hw hs
    rw [hkey] at hid
    rw [hentry] at ht hget
    exact .inl ⟨kp, hkp, hid, ht, hget⟩
  · refine .inr ⟨?_, hget⟩
    rintro kp hkp ⟨hid, ht⟩
    obtain ⟨s, hs, hkey, hentry⟩ := (mem_seriesResults_iff hw).mpr ⟨kp, hkp, rfl, rfl⟩
    exact hnone s hs ⟨by rw [hkey, hid], by rw [hentry]; exact ht⟩

end

/-- The registry and the tag index after registering series with keys in use. -/
theorem registerAll_tags (hU : IdInjective U) {series : List SeriesWriteResult}
    (hseries : ∀ s ∈ series, U s.seriesKey) (chunkMeta : ChunkMeta) {idx : ChunkIndex}
    (hreg : ∀ sid key, idx.seriesRegistry[sid]? = some key → key.id = sid ∧ U key)
    (htags : idx.TagIndexOk) :
    (∀ sid key, (idx.registerAll chunkMeta series).seriesRegistry[sid]? = some key →
      key.id = sid ∧ U key) ∧ (idx.registerAll chunkMeta series).TagIndexOk := by
  induction series generalizing idx with
  | nil => exact ⟨hreg, htags⟩
  | cons s series ih =>
    have hs := hseries s (by simp)
    apply ih fun s' hs' => hseries s' (by simp [hs'])
    · intro sid key hkey
      rw [ChunkIndex.seriesRegistry_register] at hkey
      split at hkey
      · next hsid =>
        obtain rfl : s.seriesKey = key := Option.some.inj hkey
        exact ⟨hsid.symm, hs⟩
      · exact hreg sid key hkey
    · refine htags.register ?_ _ _ _
      intro key' hkey'
      obtain ⟨hid, huse⟩ := hreg _ _ hkey'
      exact hU key' s.seriesKey huse hs hid

/-- The registry keeps its bindings and gets those of the new chunk. -/
theorem registered_registerAll (hU : IdInjective U) {c : Chunk} {bytes : Bytes}
    {result : ChunkWriteResult} (hw : ChunkWriter.write c.id c.data = .ok (bytes, result))
    (hkeys : ∀ kp ∈ c.data.toList, U kp.1) {key : SeriesKey} (huse : U key)
    (hmem : (∃ vec, (key, vec) ∈ c.data.toList) ∨ idx.seriesRegistry[key.id]? = some key) :
    (idx.registerAll result.chunkMeta result.seriesResults).seriesRegistry[key.id]? =
      some key := by
  rcases idx.seriesRegistry_registerAll result.chunkMeta result.seriesResults key.id with
    ⟨s, hs, hid, hget⟩ | ⟨hnone, hget⟩
  · obtain ⟨kp, hkp, hkey, -⟩ := seriesResult_of_mem hw hs
    rw [hget, hU s.seriesKey key (hkey ▸ hkeys kp hkp) huse hid]
  · rcases hmem with ⟨vec, hvec⟩ | hold
    · obtain ⟨s, hs, hkey, -⟩ := (mem_seriesResults_iff hw).mpr ⟨(key, vec), hvec, rfl, rfl⟩
      exact absurd (congrArg SeriesKey.id hkey) (hnone s hs)
    · rw [hget, hold]

theorem chunkFiles_chunk {c : Chunk} {bytes : Bytes} {result : ChunkWriteResult}
    (hw : ChunkWriter.write c.id c.data = .ok (bytes, result)) (idx : ChunkIndex) (c' : ChunkId) :
    (idx.registerAll result.chunkMeta result.seriesResults).chunkFiles[c']? =
      if c' = c.id then some ⟨c.id, bytes.length⟩ else idx.chunkFiles[c']? := by
  have hids : ∀ s ∈ result.seriesResults, s.entry.chunkId = c.id := by
    intro s hs
    obtain ⟨kp, -, -, hentry⟩ := seriesResult_of_mem hw hs
    rw [hentry]
    rfl
  rw [idx.chunkFiles_registerAll result.chunkMeta result.seriesResults hids, (write_result hw).1]
  simp [seriesResults_ne_nil hw]

theorem mem_chunkFiles_chunk {c : Chunk} {bytes : Bytes} {result : ChunkWriteResult}
    (hw : ChunkWriter.write c.id c.data = .ok (bytes, result)) (idx : ChunkIndex) (c' : ChunkId) :
    c' ∈ (idx.registerAll result.chunkMeta result.seriesResults).chunkFiles ↔
      c' = c.id ∨ c' ∈ idx.chunkFiles := by
  rw [Std.ExtTreeMap.mem_iff_isSome_getElem?, chunkFiles_chunk hw,
    Std.ExtTreeMap.mem_iff_isSome_getElem?]
  by_cases hc : c' = c.id <;> simp [hc]

theorem mem_chunkStats_chunk {c : Chunk} {bytes : Bytes} {result : ChunkWriteResult}
    (hw : ChunkWriter.write c.id c.data = .ok (bytes, result)) (idx : ChunkIndex)
    (k : ChunkId × SeriesId) :
    k ∈ (idx.registerAll result.chunkMeta result.seriesResults).chunkStats ↔
      k ∈ idx.chunkStats ∨ ∃ kp ∈ c.data.toList, k = (c.id, kp.1.id) := by
  rw [ChunkIndex.mem_chunkStats_registerAll]
  refine or_congr_right ?_
  constructor
  · rintro ⟨s, hs, rfl⟩
    obtain ⟨kp, hkp, hkey, hentry⟩ := seriesResult_of_mem hw hs
    exact ⟨kp, hkp, by rw [hkey, hentry]; rfl⟩
  · rintro ⟨kp, hkp, rfl⟩
    obtain ⟨s, hs, hkey, hentry⟩ := (mem_seriesResults_iff hw).mpr ⟨kp, hkp, rfl, rfl⟩
    exact ⟨s, hs, by rw [hkey, hentry]; rfl⟩

/-- The slots of two chunks without common points differ. -/
theorem slot_ne_of_distinct (hU : IdInjective U) {c c' : Chunk}
    (hdist : ∀ p ∈ c.points, ∀ q ∈ c'.points, p.slot ≠ q.slot)
    {kp kp' : SeriesKey × List (Int64 × F64)} (hkp : kp ∈ c.data.toList)
    (hkp' : kp' ∈ c'.data.toList) (hkey : U kp.1) (hkey' : U kp'.1)
    (hid : kp.1.id = kp'.1.id) : firstTimestamp kp.2 ≠ firstTimestamp kp'.2 := by
  intro ht
  obtain ⟨p, hp, hslot⟩ := exists_point_at_start c.wf hkp
  obtain ⟨q, hq, hslot'⟩ := exists_point_at_start c'.wf hkp'
  apply hdist p hp q hq
  rw [hslot, hslot', hU kp.1 kp'.1 hkey hkey' hid, ht]

/-- The keys of live chunks are in use. -/
theorem key_in_use (h : IndexOk U idx live) {c : Chunk} (hc : c ∈ live)
    {kp : SeriesKey × List (Int64 × F64)} (hkp : kp ∈ c.data.toList) : U kp.1 :=
  (h.registry _ _ (h.registered c hc kp hkp)).2

theorem series_in_use {c : Chunk} {bytes : Bytes} {result : ChunkWriteResult}
    (hw : ChunkWriter.write c.id c.data = .ok (bytes, result))
    (hkeys : ∀ kp ∈ c.data.toList, U kp.1) : ∀ s ∈ result.seriesResults, U s.seriesKey := by
  intro s hs
  obtain ⟨kp, hkp, hkey, -⟩ := seriesResult_of_mem hw hs
  exact hkey ▸ hkeys kp hkp

theorem filePath_registerAll (h : IndexOk U idx live) {c : Chunk} {bytes : Bytes}
    {result : ChunkWriteResult} (hw : ChunkWriter.write c.id c.data = .ok (bytes, result))
    (c' : ChunkId) (file : ChunkMeta)
    (hget : (idx.registerAll result.chunkMeta result.seriesResults).chunkFiles[c']? = some file) :
    file.filePath = c' := by
  rw [chunkFiles_chunk hw] at hget
  split at hget
  · next heq =>
    obtain rfl := Option.some.inj hget
    exact heq.symm
  · exact h.filePath c' file hget

/-- **Registering a chunk** whose points are in no live chunk adds it. -/
theorem register (hU : IdInjective U) (h : IndexOk U idx live) {c : Chunk} {bytes : Bytes}
    {result : ChunkWriteResult} (hw : ChunkWriter.write c.id c.data = .ok (bytes, result))
    (hkeys : ∀ kp ∈ c.data.toList, U kp.1)
    (hdist : ∀ p ∈ c.points, ∀ q ∈ livePoints live, p.slot ≠ q.slot) :
    IndexOk U (idx.registerAll result.chunkMeta result.seriesResults) (c :: live) := by
  have hdist' : ∀ c' ∈ live, ∀ p ∈ c.points, ∀ q ∈ c'.points, p.slot ≠ q.slot :=
    fun c' hc' p hp q hq => hdist p hp q (List.mem_flatMap.mpr ⟨c', hc', hq⟩)
  obtain ⟨hreg, htags⟩ := registerAll_tags hU (series_in_use hw hkeys) result.chunkMeta
    h.registry h.tags
  constructor
  case entries =>
    intro sid t e
    rcases entryAt_chunk hw idx sid t with ⟨kp, hkp, hid, ht, hget⟩ | ⟨hnone, hget⟩
    · rw [hget, Option.some.injEq]
      constructor
      · rintro rfl
        exact ⟨c, by simp, kp, hkp, hid, ht, rfl⟩
      · rintro ⟨c', hc', kp', hkp', hid', ht', rfl⟩
        rcases List.mem_cons.mp hc' with rfl | hc'
        · have hkey : kp.1 = kp'.1 := hU _ _ (hkeys kp hkp) (hkeys kp' hkp') (hid.trans hid'.symm)
          rw [hkey, points_eq_of_key_eq hkp hkp' hkey]
        · -- an old chunk has no entry in this slot
          exact absurd (ht.trans ht'.symm) (slot_ne_of_distinct hU (hdist' c' hc') hkp hkp'
            (hkeys kp hkp) (h.key_in_use hc' hkp') (hid.trans hid'.symm))
    · rw [hget, h.entries]
      constructor
      · rintro ⟨c', hc', rest⟩
        exact ⟨c', by simp [hc'], rest⟩
      · rintro ⟨c', hc', kp', hkp', hid', ht', he⟩
        rcases List.mem_cons.mp hc' with rfl | hc'
        · exact absurd ⟨hid', ht'⟩ (hnone kp' hkp')
        · exact ⟨c', hc', kp', hkp', hid', ht', he⟩
  case filePath => exact h.filePath_registerAll hw
  case files =>
    intro c'
    rw [Std.ExtTreeMap.mem_iff_isSome_getElem?, chunkFiles_chunk hw]
    by_cases hc' : c' = c.id
    · simp [hc']
    · rw [if_neg hc', ← Std.ExtTreeMap.mem_iff_isSome_getElem?, h.files]
      simp [Ne.symm hc']
  case stats =>
    intro k
    rw [mem_chunkStats_chunk hw, h.stats]
    simp [or_comm]
  case registry => exact hreg
  case registered =>
    intro c' hc' kp hkp
    rcases List.mem_cons.mp hc' with rfl | hc'
    · exact registered_registerAll hU hw hkeys (hkeys kp hkp) (.inl ⟨kp.2, hkp⟩)
    · exact registered_registerAll hU hw hkeys (h.key_in_use hc' hkp)
        (.inr (h.registered c' hc' kp hkp))
  case tags => exact htags

/-- What a merge of the chunks with the ids in `group` is about to commit. -/
structure MergePlan (live : List Chunk) (group : List ChunkId) (m : Chunk)
    (triples : List (SeriesId × ChunkId × Int64)) : Prop where
  fresh : ∀ c ∈ live, c.id ≠ m.id
  points : ∀ p, p ∈ m.points ↔ ∃ c ∈ live, c.id ∈ group ∧ p ∈ c.points
  triples : ∀ sid cid t, (sid, cid, t) ∈ triples ↔
    ∃ c ∈ live, c.id ∈ group ∧ c.id = cid ∧
      ∃ kp ∈ c.data.toList, kp.1.id = sid ∧ firstTimestamp kp.2 = t

namespace MergePlan

variable {group : List ChunkId} {m : Chunk} {triples : List (SeriesId × ChunkId × Int64)}
  (hplan : MergePlan live group m triples)
include hplan

/-- The keys of the merged chunk come from the chunks it replaces. -/
theorem keys (h : IndexOk U idx live) : ∀ kp ∈ m.data.toList, U kp.1 := by
  intro kp hkp
  obtain ⟨p, hp, hslot⟩ := exists_point_at_start m.wf hkp
  obtain ⟨c, hc, -, hpc⟩ := (hplan.points p).mp hp
  obtain ⟨vec, hvec, -⟩ := exists_series_of_point hpc
  have hkey : p.key = kp.1 := congrArg Prod.fst hslot
  exact hkey ▸ h.key_in_use hc hvec

/-- The merged chunk shares no slot with the chunks that stay. -/
theorem slot_ne (hdist : Distinct (livePoints live)) {c : Chunk} (hc : c ∈ live)
    (hstays : c.id ∉ group) : ∀ p ∈ m.points, ∀ q ∈ c.points, p.slot ≠ q.slot := by
  intro p hp q hq
  obtain ⟨c', hc', hg', hp'⟩ := (hplan.points p).mp hp
  have hne : c' ≠ c := by
    rintro rfl
    exact hstays hg'
  exact hdist.slot_ne_of_ne hc' hc hne p hp' q hq

/-- The entries of a replaced chunk are listed. -/
theorem mem_triples {c : Chunk} (hc : c ∈ live) (hg : c.id ∈ group)
    {kp : SeriesKey × List (Int64 × F64)} (hkp : kp ∈ c.data.toList) :
    (kp.1.id, c.id, firstTimestamp kp.2) ∈ triples :=
  (hplan.triples ..).mpr ⟨c, hc, hg, rfl, kp, hkp, rfl, rfl⟩

/-- Those of the merged chunk and of the chunks that stay are not. -/
theorem not_mem_triples {c : Chunk} (hc : c ∈ m :: live.filter fun c => c.id ∉ group)
    (sid : SeriesId) (t : Int64) : (sid, c.id, t) ∉ triples := by
  intro hmem
  obtain ⟨c', hc', hg', hid, -⟩ := (hplan.triples ..).mp hmem
  rcases List.mem_cons.mp hc with rfl | hc
  · exact hplan.fresh c' hc' hid
  · rw [hid] at hg'
    exact of_decide_eq_true (List.mem_filter.mp hc).2 hg'

end MergePlan

section Commit

variable {group : List ChunkId} {m : Chunk} {triples : List (SeriesId × ChunkId × Int64)}
  (hplan : MergePlan live group m triples) {bytes : Bytes} {result : ChunkWriteResult}
  (hw : ChunkWriter.write m.id m.data = .ok (bytes, result))
include hplan hw

theorem entries_commit (hU : IdInjective U) (h : IndexOk U idx live)
    (hdist : Distinct (livePoints live)) (sid : SeriesId) (t : Int64) (e : SeriesChunkEntry) :
    ((idx.registerAll result.chunkMeta result.seriesResults).deregisterAll triples).entryAt sid t =
        some e ↔
      ∃ c ∈ m :: live.filter (fun c => c.id ∉ group), ∃ kp ∈ c.data.toList,
        kp.1.id = sid ∧ firstTimestamp kp.2 = t ∧ e = entryOf c.id kp.1 kp.2 := by
  have hkeys := hplan.keys h
  rw [ChunkIndex.entryAt_deregisterAll, Option.filter_eq_some_iff, decide_eq_true_eq]
  rcases entryAt_chunk hw idx sid t with ⟨kp, hkp, hid, ht, hget⟩ | ⟨hnone, hget⟩
  · rw [hget, Option.some.injEq]
    constructor
    · rintro ⟨rfl, -⟩
      exact ⟨m, by simp, kp, hkp, hid, ht, rfl⟩
    · rintro ⟨c', hc', kp', hkp', hid', ht', rfl⟩
      refine ⟨?_, hplan.not_mem_triples hc' sid t⟩
      rcases List.mem_cons.mp hc' with rfl | hc'
      · have hkey : kp.1 = kp'.1 := hU _ _ (hkeys kp hkp) (hkeys kp' hkp') (hid.trans hid'.symm)
        rw [hkey, points_eq_of_key_eq hkp hkp' hkey]
      · obtain ⟨hlive, hstays⟩ := List.mem_filter.mp hc'
        exact absurd (ht.trans ht'.symm) (slot_ne_of_distinct hU
          (hplan.slot_ne hdist hlive (of_decide_eq_true hstays)) hkp hkp' (hkeys kp hkp)
          (h.key_in_use hlive hkp') (hid.trans hid'.symm))
  · rw [hget, h.entries]
    constructor
    · rintro ⟨⟨c', hc', kp', hkp', rfl, rfl, rfl⟩, hkeep⟩
      have hstays : c'.id ∉ group := fun hg => hkeep (hplan.mem_triples hc' hg hkp')
      exact ⟨c', by simp [hc', hstays], kp', hkp', rfl, rfl, rfl⟩
    · rintro ⟨c', hc', kp', hkp', hid', ht', rfl⟩
      refine ⟨?_, hplan.not_mem_triples hc' sid t⟩
      rcases List.mem_cons.mp hc' with rfl | hc'
      · exact absurd ⟨hid', ht'⟩ (hnone kp' hkp')
      · exact ⟨c', List.mem_of_mem_filter hc', kp', hkp', hid', ht', rfl⟩

theorem stats_commit (h : IndexOk U idx live) (k : ChunkId × SeriesId) :
    k ∈ ((idx.registerAll result.chunkMeta result.seriesResults).deregisterAll triples).chunkStats ↔
      ∃ c ∈ m :: live.filter (fun c => c.id ∉ group), ∃ kp ∈ c.data.toList,
        k = (c.id, kp.1.id) := by
  rw [ChunkIndex.mem_chunkStats_deregisterAll, mem_chunkStats_chunk hw, h.stats]
  constructor
  · rintro ⟨⟨c, hc, kp, hkp, rfl⟩ | ⟨kp, hkp, rfl⟩, hnot⟩
    · have hstays : c.id ∉ group := fun hg => hnot _ (hplan.mem_triples hc hg hkp) rfl
      exact ⟨c, by simp [hc, hstays], kp, hkp, rfl⟩
    · exact ⟨m, by simp, kp, hkp, rfl⟩
  · rintro ⟨c, hc, kp, hkp, rfl⟩
    refine ⟨?_, ?_⟩
    · rcases List.mem_cons.mp hc with rfl | hc
      · exact .inr ⟨kp, hkp, rfl⟩
      · exact .inl ⟨c, List.mem_of_mem_filter hc, kp, hkp, rfl⟩
    · rintro ⟨sid, cid, t⟩ hx heq
      obtain ⟨rfl, -⟩ := Prod.mk.inj heq
      exact hplan.not_mem_triples hc sid t hx

/-- A file stays in the index as long as the chunk has statistics. -/
theorem files_commit (h : IndexOk U idx live) (c' : ChunkId) :
    c' ∈ ((idx.registerAll result.chunkMeta result.seriesResults).deregisterAll triples).chunkFiles ↔
      ∃ c ∈ m :: live.filter (fun c => c.id ∉ group), c.id = c' := by
  constructor
  · intro hmem
    obtain ⟨file, hget⟩ := Option.isSome_iff_exists.mp
      (Std.ExtTreeMap.mem_iff_isSome_getElem?.mp hmem)
    obtain ⟨sid, hstat⟩ := (h.filesReferenced.registerAll result.chunkMeta
      result.seriesResults).deregisterAll triples _ _ hget
    obtain ⟨c, hc, kp, -, heq⟩ := (stats_commit hplan hw h _).mp hstat
    exact ⟨c, hc, (congrArg Prod.fst heq).symm⟩
  · rintro ⟨c, hc, rfl⟩
    have hkeep : ∀ x ∈ triples, x.2.1 ≠ c.id := by
      rintro ⟨sid, cid, t⟩ hx rfl
      exact hplan.not_mem_triples hc sid t hx
    rw [Std.ExtTreeMap.mem_iff_isSome_getElem?,
      ChunkIndex.chunkFiles_deregisterAll_of_not_mem _ _ hkeep,
      ← Std.ExtTreeMap.mem_iff_isSome_getElem?, mem_chunkFiles_chunk hw]
    rcases List.mem_cons.mp hc with rfl | hc
    · exact .inl rfl
    · exact .inr ((h.files _).mpr ⟨c, List.mem_of_mem_filter hc, rfl⟩)

end Commit

/-- **Committing a merge** replaces the merged chunks by the new one. -/
theorem commit (hU : IdInjective U) (h : IndexOk U idx live) (hdist : Distinct (livePoints live))
    {group : List ChunkId} {m : Chunk} {triples : List (SeriesId × ChunkId × Int64)}
    (hplan : MergePlan live group m triples) {bytes : Bytes} {result : ChunkWriteResult}
    (hw : ChunkWriter.write m.id m.data = .ok (bytes, result)) :
    IndexOk U ((idx.registerAll result.chunkMeta result.seriesResults).deregisterAll triples)
      (m :: live.filter fun c => c.id ∉ group) := by
  have hkeys := hplan.keys h
  obtain ⟨hreg, htags⟩ := registerAll_tags hU (series_in_use hw hkeys) result.chunkMeta
    h.registry h.tags
  constructor
  case entries => exact entries_commit hplan hw hU h hdist
  case filePath =>
    intro c' file hget
    exact h.filePath_registerAll hw c' file (ChunkIndex.chunkFiles_of_deregisterAll _ _ hget)
  case files => exact files_commit hplan hw h
  case stats => exact stats_commit hplan hw h
  case registry =>
    rw [ChunkIndex.seriesRegistry_deregisterAll]
    exact hreg
  case registered =>
    intro c' hc' kp hkp
    rw [ChunkIndex.seriesRegistry_deregisterAll]
    rcases List.mem_cons.mp hc' with rfl | hc'
    · exact registered_registerAll hU hw hkeys (hkeys kp hkp) (.inl ⟨kp.2, hkp⟩)
    · have hlive := List.mem_of_mem_filter hc'
      exact registered_registerAll hU hw hkeys (h.key_in_use hlive hkp)
        (.inr (h.registered c' hlive kp hkp))
  case tags => exact htags.deregisterAll triples

end IndexOk

/-! ## Files and keys -/

/-- The files of the chunk directory. -/
abbrev ChunkDir := BTreeMap ChunkPath Bytes

/-- The file of a chunk is on disk as it was written. -/
def OnDisk (dir : ChunkDir) (c : Chunk) : Prop :=
  c.data.Fits ∧ ∃ bytes result, ChunkWriter.write c.id c.data = .ok (bytes, result) ∧
    dir[c.id]? = some bytes

/-- The keys in use round-trip through their bytes and have different ids. -/
structure KeysOk (U : SeriesKey → Prop) : Prop where
  codec : ∀ k, U k → SeriesKey.fromBytes k.toBytes = .ok k
  inj : IdInjective U

theorem KeysOk.toBytes_inj {U : SeriesKey → Prop} (hU : KeysOk U) {k k' : SeriesKey} (hk : U k)
    (hk' : U k') (h : k.toBytes = k'.toBytes) : k = k' := by
  have hdec := hU.codec k hk
  rw [h, hU.codec k' hk'] at hdec
  exact (Except.ok.inj hdec).symm

end Micius

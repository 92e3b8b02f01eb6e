import Micius.Index.Exact

/-!
# Points of a selection

A selection is a test on series keys with a time range. The points it selects
from the live chunks, series by series, and the index entries of the series
it wants: a series that matches and whose bounds overlap the range.
-/

namespace Micius

/-- The points of the matching series between two times. -/
def inSeries (keys : SeriesKey → Bool) (lo hi : Int64) (p : DataPoint) : Bool :=
  keys p.key && (lo ≤ p.timestampNs && p.timestampNs ≤ hi)

/-- A matching series that overlaps the range. -/
def seriesWanted (keys : SeriesKey → Bool) (lo hi : Int64) (kp : SeriesKey × List (Int64 × F64)) :
    Bool := keys kp.1 && (firstTimestamp kp.2 ≤ hi && lo ≤ lastTimestamp kp.2)

section

variable (keys : SeriesKey → Bool) (lo hi : Int64)

/-- The selected points of one series. -/
theorem filter_inSeries_pointsOf (key : SeriesKey) (vec : List (Int64 × F64)) :
    (pointsOf key vec).filter (inSeries keys lo hi) =
      if keys key then pointsBetween key lo hi vec else [] := by
  rw [pointsOf, List.filter_map]
  split
  · next h =>
    rw [pointsBetween, pointsOf]
    congr 1
    refine List.filter_congr fun e _ => ?_
    show (keys key && _) = _
    rw [h, Bool.true_and]
  · next h =>
    rw [List.map_eq_nil_iff, List.filter_eq_nil_iff]
    intro e _
    show ¬ (keys key && _) = true
    rw [Bool.eq_false_iff.mpr h, Bool.false_and]
    exact Bool.false_ne_true

/-- The selected points of a map, series by series. -/
theorem filter_inSeries_points (data : SeriesData) :
    data.points.filter (inSeries keys lo hi) =
      (data.toList.filter fun kp => keys kp.1).flatMap fun kp => pointsBetween kp.1 lo hi kp.2 := by
  rw [SeriesData.points, List.filter_flatMap]
  induction data.toList with
  | nil => rfl
  | cons kp l ih =>
    rw [List.flatMap_cons, ih, filter_inSeries_pointsOf, List.filter_cons]
    split
    · rw [List.flatMap_cons]
    · rfl

/-- A series outside of the range has no point in the range. -/
theorem pointsBetween_eq_nil_of_bounds {key : SeriesKey} {lo hi : Int64}
    {vec : List (Int64 × F64)} (hsort : Sorted vec)
    (hout : firstTimestamp vec ≤ hi → ¬ lo ≤ lastTimestamp vec) :
    pointsBetween key lo hi vec = [] := by
  rw [pointsBetween, pointsOf, List.map_eq_nil_iff, List.filter_eq_nil_iff]
  intro p hp hin
  obtain ⟨hge, hle⟩ := bounds_of_sorted hsort p hp
  simp only [Bool.and_eq_true, decide_eq_true_eq] at hin
  exact hout (Int64.le_trans hge hin.2) (Int64.le_trans hin.1 hle)

/-- A matching series that is not wanted has no point in range. -/
theorem flatMap_seriesWanted {l : List (SeriesKey × List (Int64 × F64))}
    (hsort : ∀ kp ∈ l, Sorted kp.2) :
    ((l.filter fun kp => keys kp.1).flatMap fun kp => pointsBetween kp.1 lo hi kp.2) =
      (l.filter (seriesWanted keys lo hi)).flatMap fun kp => pointsBetween kp.1 lo hi kp.2 := by
  induction l with
  | nil => rfl
  | cons kp l ih =>
    have ih := ih fun kp' hkp' => hsort kp' (by simp [hkp'])
    rw [List.filter_cons, List.filter_cons]
    cases hm : keys kp.1 with
    | false => simpa [seriesWanted, hm] using ih
    | true =>
      rw [if_pos rfl, List.flatMap_cons, ih]
      split
      · rw [List.flatMap_cons]
      · next hw =>
        rw [pointsBetween_eq_nil_of_bounds (hsort kp (by simp))
          (by simpa [seriesWanted, hm] using hw)]
        rfl

/-- The selected points of the live chunks. -/
theorem filter_livePoints (live : List Chunk) :
    (livePoints live).filter (inSeries keys lo hi) = live.flatMap fun c =>
      (c.data.toList.filter (seriesWanted keys lo hi)).flatMap fun kp =>
        pointsBetween kp.1 lo hi kp.2 := by
  rw [livePoints, List.filter_flatMap]
  refine List.flatMap_congr fun c _ => ?_
  rw [Chunk.points, filter_inSeries_points,
    flatMap_seriesWanted keys lo hi fun kp hkp => (c.wf kp hkp).2]

end

section

variable [Crates] {U : SeriesKey → Prop} {idx : ChunkIndex} {live : List Chunk}

/-- A list without duplicates of the entries of some series of the live chunks. -/
theorem IndexOk.entries_perm (hU : IdInjective U) (hidx : IndexOk U idx live)
    (hids : (live.map Chunk.id).Nodup) {wanted : SeriesKey × List (Int64 × F64) → Bool}
    {entries : List SeriesChunkEntry} (hnodup : entries.Nodup)
    (hmem : ∀ e, e ∈ entries ↔
      ∃ c ∈ live, ∃ kp ∈ c.data.toList, wanted kp = true ∧ e = entryOf c.id kp.1 kp.2) :
    entries.Perm (live.flatMap fun c =>
      (c.data.toList.filter wanted).map fun kp => entryOf c.id kp.1 kp.2) := by
  refine (List.perm_ext_iff_of_nodup hnodup ?_).mpr fun e => ?_
  · refine List.nodup_flatMap.mpr ⟨?_, ?_⟩
    · intro c hc
      refine List.Nodup.map_on ?_ ((TreeMap.nodup_toList c.data).filter _)
      intro kp hkp kp' hkp' heq
      have hmem := List.mem_of_mem_filter hkp
      have hmem' := List.mem_of_mem_filter hkp'
      have hkey : kp.1 = kp'.1 := hU _ _ (hidx.key_in_use hc hmem) (hidx.key_in_use hc hmem')
        (congrArg SeriesChunkEntry.seriesId heq)
      exact Prod.ext hkey (points_eq_of_key_eq hmem hmem' hkey)
    · refine (List.pairwise_map.mp hids).imp ?_
      intro c c' hne e he he'
      obtain ⟨kp, -, rfl⟩ := List.mem_map.mp he
      obtain ⟨kp', -, heq⟩ := List.mem_map.mp he'
      exact hne (congrArg SeriesChunkEntry.chunkId heq).symm
  · rw [hmem]
    simp only [List.mem_flatMap, List.mem_map, List.mem_filter]
    constructor
    · rintro ⟨c, hc, kp, hkp, hwants, rfl⟩
      exact ⟨c, hc, kp, ⟨hkp, hwants⟩, rfl⟩
    · rintro ⟨c, hc, kp, ⟨hkp, hwants⟩, rfl⟩
      exact ⟨c, hc, kp, hkp, hwants, rfl⟩

theorem IndexOk.nodup_pruneChunks (hidx : IndexOk U idx live) (sid : SeriesId) (lo hi : Int64) :
    (idx.pruneChunks sid lo hi none).Nodup := by
  unfold ChunkIndex.pruneChunks
  split
  · exact List.nodup_nil
  · next timeMap hmap =>
    refine List.Nodup.map_on ?_ ((((TreeMap.nodup_toList timeMap).filter _).filter _).filter _)
    -- an entry stands at its own start
    have hstart : ∀ x ∈ timeMap.toList, x.2.timeStartNs = x.1 := by
      intro x hx
      have hget : idx.entryAt sid x.1 = some x.2 := by
        rw [ChunkIndex.entryAt, hmap, Option.bind_some]
        exact Std.ExtTreeMap.mem_toList_iff_getElem?_eq_some.mp hx
      obtain ⟨c, -, kp, -, -, ht, he⟩ := (hidx.entries _ _ _).mp hget
      rw [he]
      exact ht
    intro x hx y hy heq
    have hx' := hstart x (List.mem_of_mem_filter (List.mem_of_mem_filter (List.mem_of_mem_filter hx)))
    have hy' := hstart y (List.mem_of_mem_filter (List.mem_of_mem_filter (List.mem_of_mem_filter hy)))
    exact Prod.ext (by rw [← hx', ← hy', heq]) heq

/-- Reading a series from the file of a chunk. -/
theorem readSeries_chunk (hlaw : Crates.LawfulLz4) (hU : KeysOk U) {dir : ChunkDir} {c : Chunk}
    (hdisk : OnDisk dir c) (huse : ∀ kp ∈ c.data.toList, U kp.1)
    {kp : SeriesKey × List (Int64 × F64)} (hkp : kp ∈ c.data.toList) (lo hi : Int64) :
    ∃ bytes points, dir[c.id]? = some bytes ∧ readSeries bytes kp.1 lo hi = .ok points ∧
      points.getD [] = pointsBetween kp.1 lo hi kp.2 := by
  obtain ⟨hfit, bytes, result, hw, hfile⟩ := hdisk
  have hkeys : ∀ kp ∈ c.data.toList, ∀ kp' ∈ c.data.toList,
      kp.1.toBytes = kp'.1.toBytes → kp.1 = kp'.1 :=
    fun kp hkp kp' hkp' => hU.toBytes_inj (huse kp hkp) (huse kp' hkp')
  exact ⟨bytes, _, hfile, readSeries_written hlaw hfit.written hw kp.1 lo hi,
    seriesIn_getD (fun kp hkp => (c.wf kp hkp).2) hkeys hkp rfl lo hi⟩

end

end Micius

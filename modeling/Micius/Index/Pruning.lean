import Micius.Index.Reachable

/-!
# Pruning

`prune_chunks` reads the time range of an entry and, for a value predicate,
the minimum and maximum of its values. A range computed from sorted points
bounds their timestamps, and the statistics bound the values that are
numbers, so no chunk with a matching point is left out. Without a predicate
the selection by time range is exact.
-/

namespace Micius

/-! ## Statistics -/

/-- What one of the elements has, and each combination keeps, the fold has. -/
theorem foldl_of_mem {α : Type} {f : α → α → α} {P : α → Prop} (hleft : ∀ x y, P x → P (f x y))
    (hright : ∀ x y, P y → P (f x y)) {x v : α} {vs : List α} (hv : v ∈ x :: vs) (hP : P v) :
    P (vs.foldl f x) := by
  induction vs generalizing x v with
  | nil =>
    obtain rfl := List.mem_singleton.mp hv
    exact hP
  | cons y vs ih =>
    rw [List.foldl_cons]
    rcases List.mem_cons.mp hv with rfl | hv
    · exact ih (List.mem_cons_self ..) (hleft v y hP)
    · rcases List.mem_cons.mp hv with rfl | hv
      · exact ih (List.mem_cons_self ..) (hright x v hP)
      · exact ih (List.mem_cons_of_mem _ hv) hP

namespace F64

theorem lt_iff {x y : F64} :
    x.lt y = true ↔ x.isNaN = false ∧ y.isNaN = false ∧ x.rank < y.rank := by
  simp [lt, and_assoc]

theorem le_iff {x y : F64} :
    x.le y = true ↔ x.isNaN = false ∧ y.isNaN = false ∧ x.rank ≤ y.rank := by
  simp [le, and_assoc]

/-- `f64::min` is a number not above the rank if one of the arguments is. -/
theorem min_le {x y : F64} {r : Int}
    (h : x.isNaN = false ∧ x.rank ≤ r ∨ y.isNaN = false ∧ y.rank ≤ r) :
    (min x y).isNaN = false ∧ (min x y).rank ≤ r := by
  rw [min]
  cases hx : x.isNaN with
  | true => simpa [hx] using h
  | false =>
    cases hy : y.isNaN with
    | true => simpa [hx, hy] using h
    | false =>
      have hbound : x.rank ≤ r ∨ y.rank ≤ r := h.imp And.right And.right
      by_cases hle : x.rank ≤ y.rank
      · simp only [Bool.false_eq_true, if_false, le_iff.mpr ⟨hx, hy, hle⟩, if_true]
        exact ⟨hx, by omega⟩
      · simp only [Bool.false_eq_true, if_false, mt (fun h => (le_iff.mp h).2.2) hle]
        exact ⟨hy, by omega⟩

/-- `f64::max` is a number not below the rank if one of the arguments is. -/
theorem le_max {x y : F64} {r : Int}
    (h : x.isNaN = false ∧ r ≤ x.rank ∨ y.isNaN = false ∧ r ≤ y.rank) :
    (max x y).isNaN = false ∧ r ≤ (max x y).rank := by
  rw [max]
  cases hx : x.isNaN with
  | true => simpa [hx] using h
  | false =>
    cases hy : y.isNaN with
    | true => simpa [hx, hy] using h
    | false =>
      have hbound : r ≤ x.rank ∨ r ≤ y.rank := h.imp And.right And.right
      by_cases hle : y.rank ≤ x.rank
      · simp only [Bool.false_eq_true, if_false, le_iff.mpr ⟨hy, hx, hle⟩, if_true]
        exact ⟨hx, by omega⟩
      · simp only [Bool.false_eq_true, if_false, mt (fun h => (le_iff.mp h).2.2) hle]
        exact ⟨hy, by omega⟩

end F64

/-- The statistics bound every value that is a number. -/
theorem SeriesChunkStats.bounds {values : List F64} {stats : SeriesChunkStats}
    (h : fromValues values = some stats) {v : F64} (hv : v ∈ values) (hnum : v.isNaN = false) :
    (stats.minValue.isNaN = false ∧ stats.minValue.rank ≤ v.rank) ∧
      (stats.maxValue.isNaN = false ∧ v.rank ≤ stats.maxValue.rank) := by
  cases values with
  | nil => cases hv
  | cons x vs =>
    obtain rfl := Option.some.inj h
    constructor
    · exact foldl_of_mem (P := fun w => w.isNaN = false ∧ w.rank ≤ v.rank)
        (fun x y hx => F64.min_le (.inl hx)) (fun x y hy => F64.min_le (.inr hy)) hv
        ⟨hnum, Int.le_refl _⟩
    · exact foldl_of_mem (P := fun w => w.isNaN = false ∧ v.rank ≤ w.rank)
        (fun x y hx => F64.le_max (.inl hx)) (fun x y hy => F64.le_max (.inr hy)) hv
        ⟨hnum, Int.le_refl _⟩

/-- A predicate that a value satisfies matches the range of the statistics. -/
theorem ValuePredicate.matchesRange_of_satisfies {values : List F64} {stats : SeriesChunkStats}
    (h : SeriesChunkStats.fromValues values = some stats) {v : F64} (hv : v ∈ values)
    {p : ValuePredicate} (hp : p.satisfies v = true) :
    p.matchesRange stats.minValue stats.maxValue = true := by
  cases p with
  | greaterThan t =>
    obtain ⟨ht, hnum, hlt⟩ := F64.lt_iff.mp hp
    obtain ⟨-, hmax, hle⟩ := SeriesChunkStats.bounds h hv hnum
    exact F64.lt_iff.mpr ⟨ht, hmax, by omega⟩
  | lessThan t =>
    obtain ⟨hnum, ht, hlt⟩ := F64.lt_iff.mp hp
    obtain ⟨⟨hmin, hle⟩, -⟩ := SeriesChunkStats.bounds h hv hnum
    exact F64.lt_iff.mpr ⟨hmin, ht, by omega⟩
  | between lo hi =>
    obtain ⟨hlo, hhi⟩ := Bool.and_eq_true_iff.mp hp
    obtain ⟨hlo, hnum, hge⟩ := F64.le_iff.mp hlo
    obtain ⟨-, hhi, hle⟩ := F64.le_iff.mp hhi
    obtain ⟨⟨hmin, hminle⟩, hmax, hmaxge⟩ := SeriesChunkStats.bounds h hv hnum
    exact Bool.and_eq_true_iff.mpr
      ⟨F64.le_iff.mpr ⟨hmin, hhi, by omega⟩, F64.le_iff.mpr ⟨hlo, hmax, by omega⟩⟩

section

variable [Crates]

/-! ## Written entries -/

theorem mem_encodeAll {l : List (SeriesKey × List (Int64 × F64))} {encoded : List EncodedSeries}
    (h : encodeAll l = .ok encoded) {s : EncodedSeries} (hs : s ∈ encoded) :
    ∃ kp ∈ l, encodeSeries kp.1 kp.2 = .ok (some s) := by
  induction l generalizing encoded with
  | nil =>
    cases h
    cases hs
  | cons kp rest ih =>
    rw [encodeAll] at h
    split at h
    · cases h
    · next first hfirst =>
      split at h
      · cases h
      · next encoded' hrest =>
        cases h
        rcases List.mem_append.mp hs with hs | hs
        · rw [Option.mem_toList] at hs
          exact ⟨kp, List.mem_cons_self .., hs ▸ hfirst⟩
        · obtain ⟨kp', hkp', henc⟩ := ih hrest hs
          exact ⟨kp', List.mem_cons_of_mem _ hkp', henc⟩

/-- The encoding of a series has its time range and the statistics of its values. -/
theorem encodeSeries_range {key : SeriesKey} {points : List (Int64 × F64)} {s : EncodedSeries}
    (h : encodeSeries key points = .ok (some s)) :
    s.key = key ∧ s.timeStartNs = firstTimestamp points ∧ s.timeEndNs = lastTimestamp points ∧
      SeriesChunkStats.fromValues (points.map Prod.snd) = some s.stats := by
  have hne : points ≠ [] := by
    rintro rfl
    cases h
  obtain ⟨s', hs', hencodes⟩ := encodeSeries_encodes key hne
  rw [hs', Except.ok.injEq, Option.some.injEq] at h
  subst h
  refine ⟨hencodes.key_eq, ?_, ?_, ?_⟩
  · rw [firstTimestamp, hencodes.head]
    rfl
  · rw [lastTimestamp, hencodes.last]
    rfl
  · obtain ⟨first, rest, rfl⟩ := List.exists_cons_of_ne_nil hne
    rw [encodeSeries] at hs'
    split at hs'
    · cases hs'
    · next stats hstats =>
      cases hs'
      exact hstats

/-- `ChunkWriter::write` produced the range and the statistics of the entry
from the points. -/
def WrittenFrom (idx : ChunkIndex) (e : SeriesChunkEntry) (points : List (Int64 × F64)) : Prop :=
  ∃ chunkId data bytes result, ChunkWriter.write chunkId data = .ok (bytes, result) ∧
    ∃ s ∈ result.seriesResults, (s.seriesKey, points) ∈ data.toList ∧
      e.timeStartNs = s.entry.timeStartNs ∧ e.timeEndNs = s.entry.timeEndNs ∧
      ∀ stats, idx.chunkStats[(e.chunkId, e.seriesId)]? = some stats → stats = s.stats

theorem WrittenFrom.range {idx : ChunkIndex} {e : SeriesChunkEntry} {points : List (Int64 × F64)}
    (h : WrittenFrom idx e points) :
    e.timeStartNs = firstTimestamp points ∧ e.timeEndNs = lastTimestamp points ∧
      ∀ stats, idx.chunkStats[(e.chunkId, e.seriesId)]? = some stats →
        SeriesChunkStats.fromValues (points.map Prod.snd) = some stats := by
  obtain ⟨chunkId, data, bytes, result, hw, s, hs, hmem, hstart, hend, hstats⟩ := h
  rw [ChunkWriter.write] at hw
  split at hw
  · cases hw
  · split at hw
    · cases hw
    · next encoded henc =>
      cases hw
      obtain ⟨enc, hencoded, rfl⟩ := List.mem_map.mp hs
      obtain ⟨kp, hkp, hseries⟩ := mem_encodeAll henc hencoded
      obtain ⟨hkey, hfirst, hlast, hvalues⟩ := encodeSeries_range hseries
      obtain rfl : kp.2 = points := points_eq_of_key_eq hkp hmem hkey.symm
      refine ⟨hstart.trans hfirst, hend.trans hlast, fun stats hget => ?_⟩
      rw [hstats stats hget]
      exact hvalues

/-! ## Entries of a reachable index -/

variable {serialize : IndexSnapshot → Bytes} {deserialize : Bytes → Option IndexSnapshot}

/-- An entry stands under its own start. -/
theorem Reaches.start_eq {keys : List SeriesKey} {idx : ChunkIndex}
    (h : Reaches serialize deserialize keys idx) {sid : SeriesId} {t : Int64}
    {e : SeriesChunkEntry} (he : idx.entryAt sid t = some e) : e.timeStartNs = t := by
  induction h with
  | new => simp [ChunkIndex.entryAt, ChunkIndex.new] at he
  | register h key entry stats chunkMeta ih =>
    rw [ChunkIndex.entryAt_register] at he
    split at he
    · next hslot =>
      cases he
      exact hslot.2.symm
    · exact ih he
  | deregister h sid' c t' ih =>
    rw [ChunkIndex.entryAt_deregister] at he
    split at he
    · cases he
    · exact ih he
  | reload h hsnapshot hbincode hload ih =>
    rw [loadFile_snapshot hsnapshot hbincode] at hload
    obtain rfl := Option.some.inj hload
    rw [ChunkIndex.entryAt, hsnapshot.rebuild_timeIndex] at he
    exact ih he

omit [Crates] in
/-- The result is in key order. -/
theorem ChunkIndex.pruneChunks_sorted {idx : ChunkIndex} {sid : SeriesId}
    (hstart : ∀ t e, idx.entryAt sid t = some e → e.timeStartNs = t) (lo hi : Int64)
    (predicate : Option ValuePredicate) : (idx.pruneChunks sid lo hi predicate).Pairwise
      fun e e' => e.timeStartNs < e'.timeStartNs := by
  unfold pruneChunks
  cases hm : idx.timeIndex[sid]? with
  | none => exact .nil
  | some timeMap =>
    have hkey : ∀ kv ∈ timeMap.toList, kv.2.timeStartNs = kv.1 := by
      intro kv hkv
      refine hstart kv.1 kv.2 ?_
      rw [entryAt, hm]
      exact Std.ExtTreeMap.mem_toList_iff_getElem?_eq_some.mp hkv
    have hsorted : timeMap.toList.Pairwise fun a b => a.2.timeStartNs < b.2.timeStartNs := by
      refine Std.ExtTreeMap.ordered_keys_toList.imp_of_mem fun {a b} ha hb hlt => ?_
      rw [hkey a ha, hkey b hb]
      exact Std.compare_eq_lt.mp hlt
    exact List.pairwise_map.mpr (((hsorted.filter _).filter _).filter _)

/-- **Pruning is sound and its time part exact.** On a reachable index, an
entry with a range and statistics written from sorted points is returned
whenever one of the points lies in the queried range and satisfies the
predicate. Without a predicate the result is, in start order, exactly the
entries whose range meets the queried one. -/
theorem pruneChunks_sound {keys : List SeriesKey} {idx : ChunkIndex}
    (h : Reaches serialize deserialize keys idx) (sid : SeriesId) :
    (∀ t e points, idx.entryAt sid t = some e → WrittenFrom idx e points →
      points.Pairwise (fun p q => p.1 < q.1) → ∀ lo hi predicate, ∀ p ∈ points,
        lo ≤ p.1 → p.1 ≤ hi → (predicate.all fun q => q.satisfies p.2) = true →
          e ∈ idx.pruneChunks sid lo hi predicate) ∧
    ∀ lo hi, (idx.pruneChunks sid lo hi none).Pairwise
        (fun e e' => e.timeStartNs < e'.timeStartNs) ∧
      ∀ e, e ∈ idx.pruneChunks sid lo hi none ↔
        (∃ t, idx.entryAt sid t = some e) ∧ e.timeStartNs ≤ hi ∧ lo ≤ e.timeEndNs := by
  refine ⟨fun t e points he hwritten hsorted lo hi predicate p hp hlo hhi hall => ?_,
    fun lo hi => ⟨ChunkIndex.pruneChunks_sorted (fun _ _ he => h.start_eq he) lo hi none,
      fun e => ?_⟩⟩
  · obtain ⟨hfirst, hlast, hstats⟩ := hwritten.range
    obtain ⟨hge, hle⟩ := bounds_of_sorted hsorted p hp
    refine ChunkIndex.mem_pruneChunks_iff.mpr ⟨t, he, ?_, ?_, fun q stats hq hget => ?_⟩
    · rw [← h.start_eq he, hfirst]
      exact Int64.le_trans hge hhi
    · rw [hlast]
      exact Int64.le_trans hlo hle
    · subst hq
      exact ValuePredicate.matchesRange_of_satisfies (hstats stats hget)
        (List.mem_map_of_mem hp) hall
  · rw [ChunkIndex.mem_pruneChunks]
    constructor
    · rintro ⟨t, he, hhi, hlo⟩
      exact ⟨⟨t, he⟩, (h.start_eq he).symm ▸ hhi, hlo⟩
    · rintro ⟨⟨t, he⟩, hhi, hlo⟩
      exact ⟨t, he, h.start_eq he ▸ hhi, hlo⟩

end

section Example

attribute [local instance] Reference.crates

/-- A NaN between two numbers. -/
def nanPoints : List (Int64 × F64) := [(5, ⟨1⟩), (6, ⟨0x7ff8000000000000⟩), (7, ⟨9⟩)]

def nanData : SeriesData := (∅ : SeriesData).insert ⟨"cpu", ∅⟩ nanPoints

theorem pruneChunks_sound_nan : ∃ (idx : ChunkIndex) (e : SeriesChunkEntry),
    idx.entryAt (SeriesKey.id ⟨"cpu", ∅⟩) 5 = some e ∧
      e ∈ idx.pruneChunks (SeriesKey.id ⟨"cpu", ∅⟩) 6 9 (some (.greaterThan ⟨3⟩)) := by
  have hmem : (⟨"cpu", ∅⟩, nanPoints) ∈ nanData.toList := by decide +kernel
  obtain ⟨encoded, -, hw⟩ := write_eq 100 (by decide +kernel : nanData.isEmpty = false)
  obtain ⟨s, hs, hkey, hentry⟩ := exists_of_mem_left (write_result hw).2.flip _
    (List.mem_filter.mpr ⟨hmem, rfl⟩)
  obtain ⟨key, entry, stats⟩ := s
  obtain rfl : key = ⟨"cpu", ∅⟩ := hkey
  obtain rfl : entry = entryOf 100 ⟨"cpu", ∅⟩ nanPoints := hentry
  have hreached : Reaches (fun _ => []) (fun _ => none) [⟨"cpu", ∅⟩] (ChunkIndex.new.register
      ⟨"cpu", ∅⟩ (entryOf 100 ⟨"cpu", ∅⟩ nanPoints) stats ⟨100, 187⟩) := Reaches.new.register ..
  have hget := ChunkIndex.entryAt_register .new ⟨"cpu", ∅⟩ (entryOf 100 ⟨"cpu", ∅⟩ nanPoints) stats
    ⟨100, 187⟩ (SeriesKey.id ⟨"cpu", ∅⟩) 5
  rw [if_pos ⟨rfl, rfl⟩] at hget
  refine ⟨_, _, hget, (pruneChunks_sound hreached (SeriesKey.id ⟨"cpu", ∅⟩)).1 5 _ nanPoints hget
    ⟨100, nanData, _, _, hw, _, hs, hmem, rfl, rfl, fun stats' hstats => ?_⟩ (by decide) 6 9 _
    (7, ⟨9⟩) (by decide) (by decide) (by decide) (by decide)⟩
  rw [ChunkIndex.chunkStats_register, entryOf, if_pos rfl] at hstats
  exact (Option.some.inj hstats).symm

end Example

end Micius

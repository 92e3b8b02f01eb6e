import Micius.Chunk.RoundTrip
import Micius.Lib.LastWrites
import Micius.Lib.TreeMap

/-!
# Memtable (`memtable/mod.rs`)

A shard's write buffer: a map from series key to a vector of points sorted
by timestamp. A second point at a timestamp overwrites the first. The same
insertion builds the merged chunk of a compaction.
-/

namespace Micius

/-! ## Sorted vectors of points -/

/-- `binary_search_by_key` on a vector sorted by timestamp: the position of
the timestamp (`ok`), or the position it can be inserted at (`error`). -/
def binarySearchByKey (vec : List (Int64 × F64)) (ts : Int64) : Except Nat Nat :=
  let pos := (vec.takeWhile fun e => e.1 < ts).length
  match vec[pos]? with
  | some e => if e.1 = ts then .ok pos else .error pos
  | none => .error pos

/-- Strictly increasing timestamps. -/
def Sorted (vec : List (Int64 × F64)) : Prop := vec.Pairwise fun p q => p.1 < q.1

/-- Insert a point in timestamp order; an equal timestamp is overwritten. -/
def upsert (vec : List (Int64 × F64)) (ts : Int64) (value : F64) : List (Int64 × F64) :=
  match binarySearchByKey vec ts with
  | .ok pos => vec.modify pos fun e => (e.1, value)
  | .error pos => vec.insertIdx pos (ts, value)

theorem upsert_nil (ts : Int64) (value : F64) : upsert [] ts value = [(ts, value)] := rfl

/-- The insertion, element by element. -/
theorem upsert_cons (e : Int64 × F64) (vec : List (Int64 × F64)) (ts : Int64) (value : F64) :
    upsert (e :: vec) ts value =
      if e.1 < ts then e :: upsert vec ts value
      else if e.1 = ts then (e.1, value) :: vec
      else (ts, value) :: e :: vec := by
  by_cases hlt : e.1 < ts
  · have hsearch : binarySearchByKey (e :: vec) ts =
        ((binarySearchByKey vec ts).map (· + 1)).mapError (· + 1) := by
      simp only [binarySearchByKey, List.takeWhile_cons, hlt, decide_true, if_true,
        List.length_cons, List.getElem?_cons_succ]
      split
      · split <;> rfl
      · rfl
    rw [if_pos hlt, upsert, hsearch, upsert]
    cases binarySearchByKey vec ts with
    | ok pos => rfl
    | error pos => rfl
  · rw [if_neg hlt, upsert, binarySearchByKey]
    simp only [List.takeWhile_cons, hlt, decide_false, Bool.false_eq_true, if_false,
      List.length_nil, List.getElem?_cons_zero]
    by_cases heq : e.1 = ts
    · rw [if_pos heq, if_pos heq]
      rfl
    · rw [if_neg heq, if_neg heq]
      rfl

/-- Inserting at a timestamp that is not there adds one point. -/
theorem upsert_perm {vec : List (Int64 × F64)} {ts : Int64} (h : ∀ e ∈ vec, e.1 ≠ ts)
    (value : F64) : (upsert vec ts value).Perm ((ts, value) :: vec) := by
  induction vec with
  | nil => exact .refl _
  | cons e vec ih =>
    have ih := ih fun e' he' => h e' (by simp [he'])
    rw [upsert_cons]
    split
    · exact (ih.cons e).trans (.swap ..)
    · rw [if_neg (h e (by simp))]

/-- Inserting replaces the point at the timestamp, if there is one. -/
theorem upsert_perm_filter {vec : List (Int64 × F64)} (h : Sorted vec) (ts : Int64)
    (value : F64) : (upsert vec ts value).Perm ((ts, value) :: vec.filter fun e => e.1 ≠ ts) := by
  induction vec with
  | nil => exact .refl _
  | cons e vec ih =>
    obtain ⟨hhead, htail⟩ := List.pairwise_cons.mp h
    -- what lies behind a timestamp from `ts` on is not at `ts`
    have hrest : ts ≤ e.1 → vec.filter (fun e => e.1 ≠ ts) = vec := by
      intro hle
      refine List.filter_eq_self.mpr fun e' he' => decide_eq_true fun heq => ?_
      exact Int64.not_lt.mpr hle (heq ▸ hhead e' he')
    rw [upsert_cons, List.filter_cons]
    split
    · next hlt =>
      rw [if_pos (decide_eq_true (Int64.ne_of_lt hlt))]
      exact ((ih htail).cons e).trans (.swap ..)
    · next hnlt =>
      have hle := Int64.not_lt.mp hnlt
      rw [hrest hle]
      split
      · next heq =>
        rw [if_neg (by simp [heq]), heq]
      · next hne => rw [if_pos (decide_eq_true hne)]

theorem mem_upsert {vec : List (Int64 × F64)} {ts : Int64} {value : F64} {e : Int64 × F64}
    (h : e ∈ upsert vec ts value) : e = (ts, value) ∨ e ∈ vec := by
  induction vec with
  | nil => exact .inl (List.mem_singleton.mp h)
  | cons e' vec ih =>
    rw [upsert_cons] at h
    split at h
    · rcases List.mem_cons.mp h with rfl | h
      · simp
      · rcases ih h with rfl | h
        · simp
        · simp [h]
    · split at h
      · next heq =>
        rcases List.mem_cons.mp h with rfl | h
        · simp [heq]
        · simp [h]
      · exact List.mem_cons.mp h

theorem upsert_sorted {vec : List (Int64 × F64)} (h : Sorted vec) (ts : Int64) (value : F64) :
    Sorted (upsert vec ts value) := by
  induction vec with
  | nil => exact List.pairwise_singleton _ _
  | cons e vec ih =>
    obtain ⟨hhead, htail⟩ := List.pairwise_cons.mp h
    rw [upsert_cons]
    split
    · next hlt =>
      refine List.pairwise_cons.mpr ⟨?_, ih htail⟩
      intro e' he'
      rcases mem_upsert he' with rfl | he'
      · exact hlt
      · exact hhead e' he'
    · next hnlt =>
      split
      · exact List.pairwise_cons.mpr ⟨hhead, htail⟩
      · next hne =>
        -- the new timestamp is below the head, and so below everything after it
        have hlt : ts < e.1 := by
          rcases Int64.lt_or_eq_of_le (Int64.not_lt.mp hnlt) with hlt | heq
          · exact hlt
          · exact absurd heq.symm hne
        refine List.pairwise_cons.mpr ⟨?_, h⟩
        intro e' he'
        rcases List.mem_cons.mp he' with rfl | he'
        · exact hlt
        · exact Int64.lt_trans hlt (hhead e' he')

theorem upsert_ne_nil (vec : List (Int64 × F64)) (ts : Int64) (value : F64) :
    upsert vec ts value ≠ [] := by
  cases vec with
  | nil => exact List.cons_ne_nil _ _
  | cons e vec =>
    rw [upsert_cons]
    split
    · exact List.cons_ne_nil _ _
    · split <;> exact List.cons_ne_nil _ _

/-- Insertions at different timestamps may be swapped. -/
theorem upsert_comm (vec : List (Int64 × F64)) {ts ts' : Int64} (hne : ts ≠ ts')
    (value value' : F64) :
    upsert (upsert vec ts value) ts' value' = upsert (upsert vec ts' value') ts value := by
  -- with the smaller timestamp first
  have hlt : ∀ {ts ts' : Int64}, ts < ts' → ∀ value value' : F64,
      upsert (upsert vec ts value) ts' value' = upsert (upsert vec ts' value') ts value := by
    intro ts ts' hlt value value'
    have hnot : ¬ ts' < ts := Int64.lt_asymm hlt
    induction vec with
    | nil => simp [upsert_nil, upsert_cons, hlt, hnot, (Int64.ne_of_lt hlt).symm]
    | cons e vec ih =>
      by_cases he : e.1 < ts
      · rw [upsert_cons, if_pos he, upsert_cons, if_pos (Int64.lt_trans he hlt), ih,
          upsert_cons e vec ts', if_pos (Int64.lt_trans he hlt), upsert_cons, if_pos he]
      · -- the head is not below `ts`: it stays behind the new point
        by_cases heq : e.1 = ts
        · rw [upsert_cons, if_neg he, if_pos heq, upsert_cons, if_pos (heq ▸ hlt),
            upsert_cons e vec ts', if_pos (heq ▸ hlt), upsert_cons, if_neg he, if_pos heq]
        · rw [upsert_cons, if_neg he, if_neg heq, upsert_cons, if_pos hlt]
          rw [upsert_cons e vec ts']
          split
          · rw [upsert_cons, if_neg he, if_neg heq]
          · split
            · rw [upsert_cons, if_neg he, if_neg heq]
            · rw [upsert_cons, if_neg hnot, if_neg (Int64.ne_of_lt hlt).symm]
  rcases Int64.lt_or_lt_of_ne hne with h | h
  · exact hlt h value value'
  · exact (hlt h value' value).symm

/-! ## Maps from series to points -/

namespace SeriesData

/-- All points, in key order. -/
def points (data : SeriesData) : List DataPoint :=
  data.toList.flatMap fun kp => pointsOf kp.1 kp.2

/-- Every series has points, in timestamp order. -/
def Wf (data : SeriesData) : Prop := ∀ kp ∈ data.toList, kp.2 ≠ [] ∧ Sorted kp.2

/-- Insert a point into the vector of its series. -/
def insertPoint (data : SeriesData) (p : DataPoint) : SeriesData :=
  data.insert p.key (upsert ((data[p.key]?).getD []) p.timestampNs p.value)

/-- Insert points one after another. -/
def insertPoints (data : SeriesData) (ps : List DataPoint) : SeriesData :=
  ps.foldl insertPoint data

end SeriesData

/-- What identifies a point: its series and its timestamp. -/
def DataPoint.slot (p : DataPoint) : SeriesKey × Int64 := (p.key, p.timestampNs)

/-- Pairwise distinct series and timestamp. -/
def Distinct (ps : List DataPoint) : Prop := (ps.map DataPoint.slot).Nodup

instance (ps : List DataPoint) : Decidable (Distinct ps) :=
  inferInstanceAs (Decidable (List.Nodup _))

theorem key_of_mem_pointsOf {key : SeriesKey} {vec : List (Int64 × F64)} {p : DataPoint}
    (h : p ∈ pointsOf key vec) : p.key = key ∧ (p.timestampNs, p.value) ∈ vec := by
  obtain ⟨e, he, rfl⟩ := List.mem_map.mp h
  exact ⟨rfl, he⟩

theorem mem_pointsOf {key : SeriesKey} {vec : List (Int64 × F64)} {p : DataPoint} :
    p ∈ pointsOf key vec ↔ p.key = key ∧ (p.timestampNs, p.value) ∈ vec := by
  refine ⟨key_of_mem_pointsOf, ?_⟩
  rintro ⟨rfl, hp⟩
  exact List.mem_map.mpr ⟨_, hp, rfl⟩

namespace SeriesData

variable {data : SeriesData}

theorem mem_points {p : DataPoint} : p ∈ data.points ↔
    ∃ vec, data[p.key]? = some vec ∧ (p.timestampNs, p.value) ∈ vec := by
  rw [points, List.mem_flatMap]
  constructor
  · rintro ⟨⟨key, vec⟩, hkp, hp⟩
    obtain ⟨rfl, hp⟩ := mem_pointsOf.mp hp
    exact ⟨vec, Std.ExtTreeMap.mem_toList_iff_getElem?_eq_some.mp hkp, hp⟩
  · rintro ⟨vec, hget, hp⟩
    exact ⟨(p.key, vec), Std.ExtTreeMap.mem_toList_iff_getElem?_eq_some.mpr hget,
      mem_pointsOf.mpr ⟨rfl, hp⟩⟩

theorem points_empty : points (∅ : SeriesData) = [] := by
  simp [points]

/-- The points of one series, then those of the others. -/
theorem points_perm (data : SeriesData) (key : SeriesKey) :
    data.points.Perm (pointsOf key ((data[key]?).getD []) ++
      (data.toList.filter fun kp => kp.1 ≠ key).flatMap fun kp => pointsOf kp.1 kp.2) := by
  cases h : data[key]? with
  | none =>
    rw [TreeMap.filter_eq_of_getElem?_none h]
    exact .refl _
  | some vec => exact (TreeMap.toList_perm_of_getElem? h).flatMap_right _

theorem points_insert_perm (data : SeriesData) (key : SeriesKey) (vec : List (Int64 × F64)) :
    (points (data.insert key vec)).Perm (pointsOf key vec ++
      (data.toList.filter fun kp => kp.1 ≠ key).flatMap fun kp => pointsOf kp.1 kp.2) :=
  (TreeMap.toList_insert_perm data key vec).flatMap_right _

/-- A point at a new slot is added to the others. -/
theorem insertPoint_perm {p : DataPoint} (h : ∀ q ∈ data.points, q.slot ≠ p.slot) :
    (data.insertPoint p).points.Perm (p :: data.points) := by
  have hvec : ∀ e ∈ (data[p.key]?).getD [], e.1 ≠ p.timestampNs := by
    intro e he hts
    cases hget : data[p.key]? with
    | none => simp [hget] at he
    | some vec =>
      rw [hget, Option.getD_some] at he
      exact h ⟨p.metricName, p.tags, e.1, e.2⟩ (mem_points.mpr ⟨vec, hget, he⟩)
        (Prod.ext rfl hts)
  have hupsert : (pointsOf p.key (upsert ((data[p.key]?).getD []) p.timestampNs p.value)).Perm
      (p :: pointsOf p.key ((data[p.key]?).getD [])) :=
    (upsert_perm hvec p.value).map _
  refine (points_insert_perm data p.key _).trans ?_
  refine (hupsert.append_right _).trans ?_
  exact ((points_perm data p.key).symm).cons p

theorem insertPoints_perm {ps : List DataPoint} (h : Distinct (ps ++ data.points)) :
    (data.insertPoints ps).points.Perm (ps ++ data.points) := by
  induction ps generalizing data with
  | nil => exact .refl _
  | cons p ps ih =>
    rw [Distinct, List.cons_append, List.map_cons, List.nodup_cons] at h
    have hp : (data.insertPoint p).points.Perm (p :: data.points) := by
      apply insertPoint_perm
      intro q hq heq
      exact h.1 (List.mem_map.mpr ⟨q, by simp [hq], heq⟩)
    have hnext : Distinct (ps ++ (data.insertPoint p).points) := by
      have hperm := (hp.append_left ps).map DataPoint.slot
      rw [Distinct, hperm.nodup_iff, (List.perm_middle.map DataPoint.slot).nodup_iff, List.map_cons,
        List.nodup_cons]
      exact h
    exact (ih hnext).trans ((hp.append_left ps).trans List.perm_middle)

/-- A series has one point at a time. -/
theorem Wf.distinct (h : data.Wf) : Distinct data.points := by
  have hslots : ∀ kp : SeriesKey × List (Int64 × F64),
      (pointsOf kp.1 kp.2).map DataPoint.slot = kp.2.map fun e => (kp.1, e.1) := by
    intro kp
    rw [pointsOf, List.map_map]
    rfl
  rw [Distinct, points, List.map_flatMap, List.nodup_flatMap]
  constructor
  · intro kp hkp
    rw [hslots, List.Nodup, List.pairwise_map]
    refine (h kp hkp).2.imp fun hlt heq => ?_
    rw [(Prod.mk.inj heq).2] at hlt
    exact Int64.lt_irrefl hlt
  · refine (List.pairwise_map.mp (TreeMap.nodup_keys data)).imp fun hne slot hs hs' => ?_
    simp only [hslots] at hs hs'
    obtain ⟨e, -, rfl⟩ := List.mem_map.mp hs
    obtain ⟨e', -, heq⟩ := List.mem_map.mp hs'
    exact hne (Prod.mk.inj heq).1.symm

theorem Wf.sorted (h : data.Wf) (key : SeriesKey) : Sorted ((data[key]?).getD []) := by
  cases hget : data[key]? with
  | none => exact List.Pairwise.nil
  | some vec => exact (h (key, vec) (Std.ExtTreeMap.mem_toList_iff_getElem?_eq_some.mpr hget)).2

/-- A point replaces the one at its slot, if there is one. -/
theorem insertPoint_over (h : data.Wf) (p : DataPoint) :
    (data.insertPoint p).points.Perm (p :: data.points.filter fun q => q.slot ≠ p.slot) := by
  have hupsert : (pointsOf p.key (upsert ((data[p.key]?).getD []) p.timestampNs p.value)).Perm
      (p :: (pointsOf p.key ((data[p.key]?).getD [])).filter fun q => q.slot ≠ p.slot) := by
    rw [pointsOf, pointsOf, List.filter_map]
    refine ((upsert_perm_filter (h.sorted p.key) _ _).map _).trans (.of_eq ?_)
    rw [List.map_cons]
    refine congrArg _ (congrArg _ (List.filter_congr fun e _ => ?_))
    simp [DataPoint.slot, DataPoint.key]
  have hothers : ((data.toList.filter fun kp => kp.1 ≠ p.key).flatMap
      fun kp => pointsOf kp.1 kp.2).filter (fun q => q.slot ≠ p.slot) =
      (data.toList.filter fun kp => kp.1 ≠ p.key).flatMap fun kp => pointsOf kp.1 kp.2 := by
    refine List.filter_eq_self.mpr fun q hq => decide_eq_true fun hslot => ?_
    obtain ⟨kp, hkp, hq⟩ := List.mem_flatMap.mp hq
    refine of_decide_eq_true (List.mem_filter.mp hkp).2 ?_
    rw [← (key_of_mem_pointsOf hq).1]
    exact congrArg Prod.fst hslot
  refine (points_insert_perm data p.key _).trans ((hupsert.append_right _).trans ?_)
  refine List.Perm.cons p ?_
  refine .trans (.of_eq ?_) ((points_perm data p.key).filter _).symm
  rw [List.filter_append, hothers]
  rfl

theorem mem_insertPoint {p q : DataPoint} (h : q ∈ (data.insertPoint p).points) :
    q = p ∨ q ∈ data.points := by
  obtain ⟨vec, hget, hq⟩ := mem_points.mp h
  rw [SeriesData.insertPoint, TreeMap.getElem?_insert_eq] at hget
  split at hget
  · next hkey =>
    obtain rfl := Option.some.inj hget
    rcases mem_upsert hq with hq | hq
    · obtain ⟨hts, hv⟩ := Prod.mk.inj hq
      obtain ⟨hname, htags⟩ := SeriesKey.mk.inj hkey
      obtain ⟨_, _, _, _⟩ := q
      exact .inl (by subst hts hv hname htags; rfl)
    · refine .inr (mem_points.mpr ?_)
      rw [hkey]
      cases hold : data[p.key]? with
      | none => simp [hold] at hq
      | some vec => exact ⟨vec, rfl, by simpa [hold] using hq⟩
  · exact .inr (mem_points.mpr ⟨vec, hget, hq⟩)

theorem mem_insertPoints {ps : List DataPoint} {q : DataPoint}
    (h : q ∈ (data.insertPoints ps).points) : q ∈ ps ∨ q ∈ data.points := by
  induction ps generalizing data with
  | nil => exact .inr h
  | cons p ps ih =>
    rcases ih h with hq | hq
    · exact .inl (List.mem_cons_of_mem p hq)
    · rcases mem_insertPoint hq with rfl | hq
      · exact .inl (List.mem_cons_self ..)
      · exact .inr hq

theorem wf_empty : Wf (∅ : SeriesData) := by
  simp [Wf]

theorem Wf.insertPoint (h : data.Wf) (p : DataPoint) : (data.insertPoint p).Wf := by
  intro kp hkp
  have hmem := (TreeMap.toList_insert_perm data p.key _).mem_iff.mp hkp
  rcases List.mem_cons.mp hmem with rfl | hmem
  · exact ⟨upsert_ne_nil _ _ _, upsert_sorted (h.sorted p.key) _ _⟩
  · exact h kp (List.mem_of_mem_filter hmem)

theorem Wf.insertPoints (h : data.Wf) (ps : List DataPoint) : (data.insertPoints ps).Wf := by
  induction ps generalizing data with
  | nil => exact h
  | cons p ps ih => exact ih (h.insertPoint p)

/-- Insertions at different slots may be swapped. -/
theorem insertPoint_comm (data : SeriesData) {p q : DataPoint} (h : p.slot ≠ q.slot) :
    (data.insertPoint p).insertPoint q = (data.insertPoint q).insertPoint p := by
  ext1 key
  simp only [insertPoint, TreeMap.getElem?_insert_eq]
  by_cases hkey : p.key = q.key
  · have hts : p.timestampNs ≠ q.timestampNs := fun hts => h (Prod.ext hkey hts)
    rw [hkey, if_pos rfl, if_pos rfl, Option.getD_some, Option.getD_some, upsert_comm _ hts]
    split <;> rfl
  · rw [if_neg hkey, if_neg (Ne.symm hkey)]
    by_cases hq : key = q.key
    · rw [if_pos hq, if_pos hq, if_neg (fun hp => hkey (hp.symm.trans hq))]
    · rw [if_neg hq, if_neg hq]

theorem insertPoints_append (data : SeriesData) (ps qs : List DataPoint) :
    data.insertPoints (ps ++ qs) = (data.insertPoints ps).insertPoints qs :=
  List.foldl_append

/-- Batches without a common slot may be swapped. -/
theorem insertPoints_comm (data : SeriesData) {ps qs : List DataPoint}
    (h : ∀ p ∈ ps, ∀ q ∈ qs, p.slot ≠ q.slot) :
    (data.insertPoints ps).insertPoints qs = (data.insertPoints qs).insertPoints ps := by
  -- one point past a batch
  have hone : ∀ (data : SeriesData) (p : DataPoint) (qs : List DataPoint),
      (∀ q ∈ qs, p.slot ≠ q.slot) →
        (data.insertPoint p).insertPoints qs = (data.insertPoints qs).insertPoint p := by
    intro data p qs hp
    induction qs generalizing data with
    | nil => rfl
    | cons q qs ih =>
      show ((data.insertPoint p).insertPoint q).insertPoints qs = _
      rw [insertPoint_comm data (hp q (by simp)), ih _ fun q' hq' => hp q' (by simp [hq'])]
      rfl
  induction ps generalizing data with
  | nil => rfl
  | cons p ps ih =>
    show ((data.insertPoint p).insertPoints ps).insertPoints qs = _
    rw [ih _ fun p' hp' => h p' (by simp [hp']), hone data p qs (h p (by simp))]
    rfl

/-- Points that write no slot twice, inserted over the others. -/
theorem insertPoints_overlay (h : data.Wf) {ps : List DataPoint} (hps : Distinct ps) :
    (data.insertPoints ps).points.Perm (LastWrites.overlay DataPoint.slot data.points ps) := by
  induction ps generalizing data with
  | nil =>
    refine .of_eq ?_
    simp [LastWrites.overlay, insertPoints]
  | cons p ps ih =>
    rw [Distinct, List.map_cons, List.nodup_cons] at hps
    refine (ih (h.insertPoint p) hps.2).trans ?_
    refine (LastWrites.overlay_perm (insertPoint_over h p) ps).trans ?_
    rw [LastWrites.overlay, LastWrites.overlay, List.filter_cons_of_pos (by simpa using hps.1),
      List.filter_filter]
    refine List.perm_middle.trans (.of_eq ?_)
    rw [List.cons_append]
    refine congrArg _ (congrArg _ (List.filter_congr fun q _ => ?_))
    simp [not_or, Bool.and_comm]

/-- **Inserting** leaves the last point of every slot that is written, and
the old points of the others. -/
theorem mem_insertPoints_iff (h : data.Wf) {ps : List DataPoint} {q : DataPoint} :
    q ∈ (data.insertPoints ps).points ↔
      LastWrites.IsLast DataPoint.slot ps q ∨ q ∈ data.points ∧ q.slot ∉ ps.map DataPoint.slot := by
  induction ps generalizing data with
  | nil =>
    have hnone : ¬ LastWrites.IsLast DataPoint.slot [] q := fun hlast => List.not_mem_nil hlast.mem
    simp [insertPoints, hnone]
  | cons p ps ih =>
    have hmem : q ∈ (data.insertPoint p).points ↔ q = p ∨ q ∈ data.points ∧ q.slot ≠ p.slot := by
      rw [(insertPoint_over h p).mem_iff]
      simp
    rw [LastWrites.isLast_cons, List.map_cons, List.mem_cons, not_or]
    refine (ih (h.insertPoint p)).trans ?_
    rw [hmem, or_assoc, or_and_right, and_assoc]
    refine or_congr_right (or_congr_left (and_congr_right fun hqp => ?_))
    rw [hqp]

/-- A slot that was written holds a point. -/
theorem exists_slot_insertPoints (h : data.Wf) {ps : List DataPoint} {p : DataPoint}
    (hp : p ∈ ps ∨ p ∈ data.points) : ∃ q ∈ (data.insertPoints ps).points, q.slot = p.slot := by
  by_cases hslot : p.slot ∈ ps.map DataPoint.slot
  · obtain ⟨q, hlast, hq⟩ := LastWrites.exists_isLast hslot
    exact ⟨q, (mem_insertPoints_iff h).mpr (.inl hlast), hq⟩
  · rcases hp with hp | hp
    · exact absurd (List.mem_map_of_mem hp) hslot
    · exact ⟨p, (mem_insertPoints_iff h).mpr (.inr ⟨hp, hslot⟩), rfl⟩

/-- Inserting into an empty map leaves the last point of every slot. -/
theorem mem_insertPoints_empty {ps : List DataPoint} {q : DataPoint} :
    q ∈ (insertPoints ∅ ps).points ↔ LastWrites.IsLast DataPoint.slot ps q := by
  rw [mem_insertPoints_iff wf_empty, points_empty]
  simp

end SeriesData

/-! ## The memtable -/

/-- `Memtable`. -/
structure Memtable where
  entries : SeriesData
  sizeBytes : Nat
  flushThreshold : Nat
  entryCount : Nat

namespace Memtable

/-- `Memtable::new`. -/
def new (threshold : Nat) : Memtable := ⟨∅, 0, threshold, 0⟩

/-- The bytes a new series is charged: its strings and a map node. -/
def keyBytes (key : SeriesKey) : Nat :=
  (SeriesKey.strBytes key.metricName).length +
    (key.tags.toList.map fun kv =>
      (SeriesKey.strBytes kv.1).length + (SeriesKey.strBytes kv.2).length).sum + u64Size

/-- `Memtable::insert`. -/
def insert (m : Memtable) (point : DataPoint) : Memtable :=
  let isNew := !decide (point.key ∈ m.entries)
  let vec := (m.entries[point.key]?).getD []
  match binarySearchByKey vec point.timestampNs with
  -- duplicate timestamp found, overwrite it
  | .ok pos =>
    { m with entries := m.entries.insert point.key (vec.modify pos fun e => (e.1, point.value)) }
  | .error pos =>
    { m with
      entries := m.entries.insert point.key (vec.insertIdx pos (point.timestampNs, point.value))
      sizeBytes := m.sizeBytes + 16 * 2 + if isNew then keyBytes point.key else 0
      entryCount := m.entryCount + 1 }

/-- Insert the points of a list in order. -/
def insertAll (m : Memtable) (points : List DataPoint) : Memtable := points.foldl insert m

/-- `Memtable::should_flush`. -/
def shouldFlush (m : Memtable) : Bool := m.sizeBytes ≥ m.flushThreshold

/-- `Memtable::drain`. -/
def drain (m : Memtable) : SeriesData × Memtable :=
  (m.entries, { m with entries := ∅, sizeBytes := 0, entryCount := 0 })

/-- Whether a series has the tag of a filter. -/
def hasTag (key : SeriesKey) (filter : String × String) : Bool :=
  match key.tags[filter.1]? with
  | none => false
  | some val => val = filter.2

/-- The filter of a query: metric name equal and every tag filter met. -/
def matchesSeries (metric : String) (tagFilters : List (String × String)) (key : SeriesKey) :
    Bool := key.metricName = metric && tagFilters.all (hasTag key)

/-- `Memtable::resolve_series`. The filters are listed in the iteration
order of their hash map. -/
def resolveSeries (m : Memtable) (metric : String) (tagFilters : List (String × String)) :
    List SeriesKey :=
  if tagFilters.isEmpty then
    (m.entries.toList.filter fun kp => kp.1.metricName = metric).map Prod.fst
  else
    ((m.entries.toList.filter fun kp => kp.1.metricName = metric).filter fun kp =>
      tagFilters.all (hasTag kp.1)).map Prod.fst

/-- `Memtable::read_series`. -/
def readSeries (m : Memtable) (key : SeriesKey) (timeStartNs timeEndNs : Int64)
    (predicate : Option ValuePredicate) : List DataPoint :=
  match m.entries[key]? with
  | none => []
  | some vec =>
    ((vec.filter fun e => timeStartNs ≤ e.1 && timeEndNs ≥ e.1).filter fun e =>
      predicate.all fun p => p.satisfies e.2).map fun e => ⟨key.metricName, key.tags, e.1, e.2⟩

theorem entries_insert (m : Memtable) (p : DataPoint) :
    (m.insert p).entries = m.entries.insertPoint p := by
  rw [SeriesData.insertPoint, upsert]
  simp only [insert]
  split <;> rfl

theorem entries_insertAll (m : Memtable) (ps : List DataPoint) :
    (m.insertAll ps).entries = m.entries.insertPoints ps := by
  induction ps generalizing m with
  | nil => rfl
  | cons p ps ih =>
    rw [insertAll, List.foldl_cons, ← insertAll, ih, entries_insert]
    rfl

/-- Both branches of `resolve_series` select the series the filters match. -/
theorem resolveSeries_eq (m : Memtable) (metric : String) (tagFilters : List (String × String)) :
    m.resolveSeries metric tagFilters =
      (m.entries.toList.filter fun kp => matchesSeries metric tagFilters kp.1).map Prod.fst := by
  unfold resolveSeries matchesSeries
  split
  · next h => simp [List.isEmpty_iff.mp h]
  · rw [List.filter_filter]
    simp only [Bool.and_comm]

theorem readSeries_of_mem {m : Memtable} {kp : SeriesKey × List (Int64 × F64)}
    (h : kp ∈ m.entries.toList) (lo hi : Int64) :
    m.readSeries kp.1 lo hi none = pointsBetween kp.1 lo hi kp.2 := by
  have hall : ∀ e : Int64 × F64,
      (none : Option ValuePredicate).all (fun p => p.satisfies e.2) = true := fun _ => rfl
  simp only [readSeries, Std.ExtTreeMap.mem_toList_iff_getElem?_eq_some.mp h, hall,
    List.filter_true]
  rfl

end Memtable

end Micius

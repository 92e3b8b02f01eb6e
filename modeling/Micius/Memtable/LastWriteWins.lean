import Mathlib.Data.List.Dedup
import Mathlib.Data.List.TakeWhile
import Micius.Lib.Bisect
import Micius.Memtable

/-!
# The memtable as a map

A memtable after any insertions and drains. It holds the value inserted last at
every series and timestamp since the latest drain, and its two counters follow
from what it holds. The vectors stay sorted, so that the bisection of an
insertion finds what `binarySearchByKey` returns.
-/

namespace Micius

/-! ## The search of an insertion -/

theorem Sorted.cut {vec : List (Int64 × F64)} (h : Sorted vec) (ts : Int64) :
    Bisect.Cut (fun e : Int64 × F64 => compare e.1 ts) vec := by
  refine h.imp fun {a b} hlt hle => ?_
  rw [ne_eq, Std.compare_eq_gt, Int64.not_lt] at hle
  exact Std.compare_eq_lt.mpr (Int64.lt_of_lt_of_le hlt hle)

/-- The linear search meets the contract of a binary search. -/
theorem binarySearchByKey_finds {vec : List (Int64 × F64)} (h : Sorted vec) (ts : Int64) :
    Bisect.Finds (fun e : Int64 × F64 => compare e.1 ts) vec (binarySearchByKey vec ts) := by
  -- the points below the timestamp, then the others
  obtain ⟨below, rest, hbelow, hrest, hvec, hpos⟩ : ∃ below rest : List (Int64 × F64),
      (∀ e ∈ below, e.1 < ts) ∧ (∀ e ∈ rest.head?, ts ≤ e.1) ∧ vec = below ++ rest ∧
        (vec.takeWhile fun e => e.1 < ts).length = below.length := by
    refine ⟨vec.takeWhile fun e => e.1 < ts, vec.dropWhile fun e => e.1 < ts, ?_, ?_,
      List.takeWhile_append_dropWhile.symm, rfl⟩
    · intro e he
      have hlt := List.mem_takeWhile_imp he
      exact of_decide_eq_true hlt
    · intro e he
      have hnot := List.head?_dropWhile_not (fun e : Int64 × F64 => decide (e.1 < ts)) vec
      rw [Option.mem_def.mp he] at hnot
      exact Int64.not_lt.mp (of_decide_eq_false hnot)
  have hlt : ∀ i e, i < below.length → vec[i]? = some e → compare e.1 ts = .lt := by
    intro i e hi he
    rw [hvec, List.getElem?_append_left hi] at he
    exact Std.compare_eq_lt.mpr (hbelow e (List.mem_of_getElem? he))
  simp only [binarySearchByKey, hpos]
  cases rest with
  | nil =>
    rw [List.append_nil] at hvec
    subst hvec
    rw [List.getElem?_eq_none (Nat.le_refl _)]
    refine ⟨Nat.le_refl _, hlt, fun i e hi he => ?_⟩
    rw [List.getElem?_eq_none hi] at he
    cases he
  | cons e rest =>
    have hget : vec[below.length]? = some e := by simp [hvec]
    have hge : ts ≤ e.1 := hrest e rfl
    rw [hget]
    dsimp only
    split
    · next heq => exact ⟨e, hget, Std.compare_eq_iff_eq.mpr heq⟩
    · next hne =>
      have hgt : ts < e.1 := Int64.lt_of_le_of_ne hge (Ne.symm hne)
      refine ⟨by simp [hvec], hlt, fun i e' hi he' => ?_⟩
      -- the vector is sorted: what comes after `e` is above it
      rw [hvec, List.getElem?_append_right hi] at he'
      rw [hvec] at h
      have hsorted := (List.pairwise_append.mp h).2.1
      rcases List.mem_cons.mp (List.mem_of_getElem? he') with rfl | hmem
      · exact Std.compare_eq_gt.mpr hgt
      · exact Std.compare_eq_gt.mpr
          (Int64.lt_trans hgt ((List.pairwise_cons.mp hsorted).1 e' hmem))

/-- On a sorted vector the bisection of the standard library returns the
position the linear search returns. -/
theorem bisect_eq_binarySearchByKey {vec : List (Int64 × F64)} (h : Sorted vec) (ts : Int64) :
    Bisect.bisect (fun e : Int64 × F64 => compare e.1 ts) vec = binarySearchByKey vec ts :=
  (Bisect.bisect_finds (h.cut ts)).unique (h.cut ts) (binarySearchByKey_finds h ts)

theorem length_upsert_of_ok {vec : List (Int64 × F64)} {ts : Int64} {pos : Nat}
    (h : binarySearchByKey vec ts = .ok pos) (value : F64) :
    (upsert vec ts value).length = vec.length := by
  simp only [upsert, h, List.length_modify]

theorem length_upsert_of_error {vec : List (Int64 × F64)} {ts : Int64} {pos : Nat}
    (h : binarySearchByKey vec ts = .error pos) (value : F64) :
    (upsert vec ts value).length = vec.length + 1 := by
  have hpos : pos ≤ vec.length := by
    have hle : (vec.takeWhile fun e => e.1 < ts).length ≤ vec.length :=
      (List.takeWhile_sublist _).length_le
    simp only [binarySearchByKey] at h
    split at h
    · split at h
      · cases h
      · exact Except.error.inj h ▸ hle
    · exact Except.error.inj h ▸ hle
  simp only [upsert, h, List.length_insertIdx_of_le_length hpos]

/-! ## What a map of points holds -/

namespace SeriesData

theorem length_points_insert (data : SeriesData) (key : SeriesKey) (vec : List (Int64 × F64)) :
    (points (data.insert key vec)).length + ((data[key]?).getD []).length =
      data.points.length + vec.length := by
  rw [(points_insert_perm data key vec).length_eq, (points_perm data key).length_eq]
  simp only [List.length_append, pointsOf, List.length_map]
  omega

/-- A sum over the series of a map. -/
def sumKeys (data : SeriesData) (f : SeriesKey → Nat) : Nat :=
  (data.toList.map fun kp => f kp.1).sum

theorem sumKeys_empty (f : SeriesKey → Nat) : sumKeys (∅ : SeriesData) f = 0 := by
  have hnil : (∅ : SeriesData).toList = [] := Std.ExtTreeMap.toList_eq_nil_iff.mpr rfl
  rw [sumKeys, hnil]
  rfl

theorem sumKeys_insert (data : SeriesData) (key : SeriesKey) (vec : List (Int64 × F64))
    (f : SeriesKey → Nat) : sumKeys (data.insert key vec) f =
      data.sumKeys f + if key ∈ data then 0 else f key := by
  rw [sumKeys, ((TreeMap.toList_insert_perm data key vec).map _).sum_nat, List.map_cons,
    List.sum_cons]
  cases hget : data[key]? with
  | none =>
    have hmem : key ∉ data := fun hmem => by simp [Std.ExtTreeMap.getElem?_eq_some_getElem hmem] at hget
    rw [if_neg hmem, TreeMap.filter_eq_of_getElem?_none hget, sumKeys,
      Nat.add_comm]
  | some old =>
    have hmem : key ∈ data := Std.ExtTreeMap.mem_iff_isSome_getElem?.mpr (by simp [hget])
    rw [if_pos hmem, sumKeys, ((TreeMap.toList_perm_of_getElem? hget).map _).sum_nat, List.map_cons,
      List.sum_cons]
    rfl

end SeriesData

/-! ## Insertions and drains -/

namespace Memtable

/-- The operations that change a memtable. -/
inductive Op where
  | insert (point : DataPoint)
  | drain

/-- One operation. -/
def apply (m : Memtable) : Op → Memtable
  | .insert point => m.insert point
  | .drain => m.drain.2

/-- A sequence of operations. -/
def run (m : Memtable) (ops : List Op) : Memtable := ops.foldl apply m

/-- The points inserted since the latest drain, oldest first. -/
def sinceDrain (ops : List Op) : List DataPoint :=
  ops.foldl (fun points op => match op with
    | .insert point => points ++ [point]
    | .drain => []) []

/-- The map from series and timestamp to the value written last. -/
def lastValue (points : List DataPoint) (key : SeriesKey) (ts : Int64) : Option F64 :=
  (points.reverse.find? fun p => p.slot = (key, ts)).map DataPoint.value

/-- What a memtable holds and counts when the points of a list were inserted
into it since it was empty. -/
structure Accounts (threshold : Nat) (points : List DataPoint) (m : Memtable) : Prop where
  entries : m.entries = SeriesData.insertPoints ∅ points
  entryCount : m.entryCount = m.entries.points.length
  sizeBytes : m.sizeBytes = 32 * m.entryCount + m.entries.sumKeys keyBytes
  flushThreshold : m.flushThreshold = threshold

variable {threshold : Nat} {points : List DataPoint} {m : Memtable}

theorem accounts_new (threshold : Nat) : Accounts threshold [] (new threshold) := by
  refine ⟨rfl, ?_, ?_, rfl⟩
  · exact congrArg List.length SeriesData.points_empty.symm
  · exact (SeriesData.sumKeys_empty keyBytes).symm

theorem Accounts.drain (h : Accounts threshold points m) : m.drain.2 = new threshold := by
  rw [Memtable.drain, h.flushThreshold]
  rfl

/-- An insertion over a point moves neither counter. -/
theorem insert_of_ok {p : DataPoint} {pos : Nat}
    (h : binarySearchByKey ((m.entries[p.key]?).getD []) p.timestampNs = .ok pos) :
    m.insert p = { m with entries := m.entries.insertPoint p } := by
  simp only [Memtable.insert, SeriesData.insertPoint, upsert, h]

/-- An insertion of a new point moves both. -/
theorem insert_of_error {p : DataPoint} {pos : Nat}
    (h : binarySearchByKey ((m.entries[p.key]?).getD []) p.timestampNs = .error pos) :
    m.insert p = { m with
      entries := m.entries.insertPoint p
      sizeBytes := m.sizeBytes + 32 + if p.key ∈ m.entries then 0 else keyBytes p.key
      entryCount := m.entryCount + 1 } := by
  simp only [Memtable.insert, SeriesData.insertPoint, upsert, h]
  by_cases hmem : p.key ∈ m.entries
  · simp [hmem]
  · simp [hmem]

theorem Accounts.insert (h : Accounts threshold points m) (p : DataPoint) :
    Accounts threshold (points ++ [p]) (m.insert p) := by
  have hentries : m.entries.insertPoint p = SeriesData.insertPoints ∅ (points ++ [p]) := by
    rw [SeriesData.insertPoints_append, h.entries]
    rfl
  have hcount := h.entryCount
  have hsize := h.sizeBytes
  have hlen : (m.entries.insertPoint p).points.length + ((m.entries[p.key]?).getD []).length = _ :=
    SeriesData.length_points_insert m.entries p.key _
  have hkeys : (m.entries.insertPoint p).sumKeys keyBytes = _ :=
    SeriesData.sumKeys_insert m.entries p.key _ keyBytes
  cases hsearch : binarySearchByKey ((m.entries[p.key]?).getD []) p.timestampNs with
  | ok pos =>
    -- the search finds nothing in a series without points
    have hmem : p.key ∈ m.entries := by
      by_contra hmem
      rw [Std.ExtTreeMap.getElem?_eq_none hmem] at hsearch
      cases hsearch
    rw [length_upsert_of_ok hsearch] at hlen
    rw [if_pos hmem] at hkeys
    rw [insert_of_ok hsearch]
    refine ⟨hentries, ?_, ?_, h.flushThreshold⟩
    · show m.entryCount = (m.entries.insertPoint p).points.length
      omega
    · show m.sizeBytes = 32 * m.entryCount + (m.entries.insertPoint p).sumKeys keyBytes
      omega
  | error pos =>
    rw [length_upsert_of_error hsearch] at hlen
    rw [insert_of_error hsearch]
    refine ⟨hentries, ?_, ?_, h.flushThreshold⟩
    · show m.entryCount + 1 = (m.entries.insertPoint p).points.length
      omega
    · show m.sizeBytes + 32 + (if p.key ∈ m.entries then 0 else keyBytes p.key) =
        32 * (m.entryCount + 1) + (m.entries.insertPoint p).sumKeys keyBytes
      omega

/-- **Every sequence of operations** keeps the account. -/
theorem accounts_run (threshold : Nat) (ops : List Op) :
    Accounts threshold (sinceDrain ops) ((new threshold).run ops) := by
  induction ops using List.reverseRecOn with
  | nil => exact accounts_new threshold
  | append_singleton ops op ih =>
    rw [sinceDrain, run, List.foldl_append, List.foldl_append, ← sinceDrain, ← run]
    cases op with
    | insert p => exact ih.insert p
    | drain =>
      show Accounts threshold [] ((new threshold).run ops).drain.2
      rw [ih.drain]
      exact accounts_new threshold

/-! ## The map -/

theorem lastValue_eq_some {key : SeriesKey} {ts : Int64} {value : F64} :
    lastValue points key ts = some value ↔
      LastWrites.IsLast DataPoint.slot points ⟨key.metricName, key.tags, ts, value⟩ := by
  rw [lastValue, Option.map_eq_some_iff]
  constructor
  · rintro ⟨p, hfind, rfl⟩
    obtain ⟨hslot, later, earlier, hrev, hlater⟩ := List.find?_eq_some_iff_append.mp hfind
    have hp : p = ⟨key.metricName, key.tags, ts, p.value⟩ := by
      obtain ⟨rfl, rfl⟩ := Prod.mk.inj (of_decide_eq_true hslot)
      rfl
    refine ⟨earlier.reverse, later.reverse, ?_, ?_⟩
    · rw [← hp]
      simpa using congrArg List.reverse hrev
    · rintro hmem
      obtain ⟨q, hq, heq⟩ := List.mem_map.mp hmem
      have hnot := hlater q (List.mem_reverse.mp hq)
      rw [heq] at hnot
      simp [DataPoint.slot, DataPoint.key] at hnot
  · rintro ⟨earlier, later, rfl, hlater⟩
    refine ⟨⟨key.metricName, key.tags, ts, value⟩, ?_, rfl⟩
    refine List.find?_eq_some_iff_append.mpr ⟨by simp [DataPoint.slot, DataPoint.key],
      later.reverse, earlier.reverse, by simp, fun q hq => ?_⟩
    simp only [Bool.not_eq_true', decide_eq_false_iff_not]
    intro heq
    exact hlater (List.mem_map.mpr ⟨q, List.mem_reverse.mp hq, heq⟩)

theorem Accounts.mem_points (h : Accounts threshold points m) {q : DataPoint} :
    q ∈ m.entries.points ↔ lastValue points q.key q.timestampNs = some q.value := by
  rw [h.entries, SeriesData.mem_insertPoints_empty, lastValue_eq_some]
  rfl

theorem Accounts.wf (h : Accounts threshold points m) : m.entries.Wf := by
  rw [h.entries]
  exact SeriesData.wf_empty.insertPoints points

/-- The slots that hold a point are the slots written. -/
theorem Accounts.slots_perm (h : Accounts threshold points m) :
    (m.entries.points.map DataPoint.slot).Perm (points.map DataPoint.slot).dedup := by
  refine (List.perm_ext_iff_of_nodup h.wf.distinct (List.nodup_dedup _)).mpr fun slot => ?_
  rw [List.mem_dedup]
  constructor
  · intro hslot
    obtain ⟨q, hq, rfl⟩ := List.mem_map.mp hslot
    rw [h.entries, SeriesData.mem_insertPoints_empty] at hq
    exact List.mem_map_of_mem hq.mem
  · intro hslot
    obtain ⟨q, hq, rfl⟩ := LastWrites.exists_isLast hslot
    rw [h.entries]
    exact List.mem_map_of_mem (SeriesData.mem_insertPoints_empty.mpr hq)

/-- The series present are those written. -/
theorem Accounts.keys_perm (h : Accounts threshold points m) :
    (m.entries.toList.map Prod.fst).Perm (points.map DataPoint.key).dedup := by
  refine (List.perm_ext_iff_of_nodup (TreeMap.nodup_keys _) (List.nodup_dedup _)).mpr fun key => ?_
  have hslots : ∀ slot, slot ∈ m.entries.points.map DataPoint.slot ↔
      slot ∈ points.map DataPoint.slot := by
    intro slot
    rw [h.slots_perm.mem_iff, List.mem_dedup]
  rw [List.mem_dedup]
  constructor
  · intro hkey
    obtain ⟨⟨key, vec⟩, hkp, rfl⟩ := List.mem_map.mp hkey
    -- a series has a point, and its slot was written
    obtain ⟨e, he⟩ := List.exists_mem_of_ne_nil vec (h.wf _ hkp).1
    have hpoint : (⟨key.metricName, key.tags, e.1, e.2⟩ : DataPoint) ∈ m.entries.points :=
      SeriesData.mem_points.mpr ⟨vec, Std.ExtTreeMap.mem_toList_iff_getElem?_eq_some.mp hkp, he⟩
    obtain ⟨q, hq, hslot⟩ := List.mem_map.mp ((hslots _).mp (List.mem_map_of_mem hpoint))
    exact List.mem_map.mpr ⟨q, hq, congrArg Prod.fst hslot⟩
  · intro hkey
    obtain ⟨p, hp, rfl⟩ := List.mem_map.mp hkey
    obtain ⟨q, hq, hslot⟩ := List.mem_map.mp ((hslots _).mpr (List.mem_map_of_mem hp))
    obtain ⟨vec, hget, -⟩ := SeriesData.mem_points.mp hq
    refine List.mem_map.mpr ⟨(q.key, vec), ?_, congrArg Prod.fst hslot⟩
    exact Std.ExtTreeMap.mem_toList_iff_getElem?_eq_some.mpr hget

/-- A read returns points of the series in the range, in timestamp order. -/
theorem mem_readSeries {key : SeriesKey} {lo hi : Int64} {predicate : Option ValuePredicate}
    {q : DataPoint} : q ∈ m.readSeries key lo hi predicate ↔
      q.key = key ∧ q ∈ m.entries.points ∧ lo ≤ q.timestampNs ∧ q.timestampNs ≤ hi ∧
        predicate.all (fun p => p.satisfies q.value) = true := by
  unfold readSeries
  constructor
  · intro hq
    cases hget : m.entries[key]? with
    | none => simp [hget] at hq
    | some vec =>
      simp only [hget] at hq
      obtain ⟨e, he, rfl⟩ := List.mem_map.mp hq
      obtain ⟨he, hpred⟩ := List.mem_filter.mp he
      obtain ⟨he, hrange⟩ := List.mem_filter.mp he
      rw [Bool.and_eq_true, decide_eq_true_eq, decide_eq_true_eq] at hrange
      exact ⟨rfl, SeriesData.mem_points.mpr ⟨vec, hget, he⟩, hrange.1, hrange.2, hpred⟩
  · rintro ⟨rfl, hq, hlo, hhi, hpred⟩
    obtain ⟨vec, hget, he⟩ := SeriesData.mem_points.mp hq
    simp only [hget]
    refine List.mem_map.mpr ⟨(q.timestampNs, q.value), ?_, rfl⟩
    refine List.mem_filter.mpr ⟨List.mem_filter.mpr ⟨he, ?_⟩, hpred⟩
    rw [Bool.and_eq_true, decide_eq_true_eq, decide_eq_true_eq]
    exact ⟨hlo, hhi⟩

theorem sorted_readSeries (h : m.entries.Wf) (key : SeriesKey) (lo hi : Int64)
    (predicate : Option ValuePredicate) :
    (m.readSeries key lo hi predicate).Pairwise fun p q => p.timestampNs < q.timestampNs := by
  unfold readSeries
  cases hget : m.entries[key]? with
  | none => exact List.Pairwise.nil
  | some vec =>
    have hsorted := (h (key, vec) (Std.ExtTreeMap.mem_toList_iff_getElem?_eq_some.mpr hget)).2
    exact List.pairwise_map.mpr ((hsorted.filter _).filter _)

/-- **The memtable is a last-write-wins map with exact accounts**, after any
insertions and drains. -/
theorem memtable_is_last_write_map (threshold : Nat) (ops : List Op) :
    let m := (new threshold).run ops
    let value := lastValue (sinceDrain ops)
    (∀ (key : SeriesKey) vec, m.entries[key]? = some vec → vec ≠ [] ∧ Sorted vec ∧
      ∀ ts, Bisect.bisect (fun e : Int64 × F64 => compare e.1 ts) vec = binarySearchByKey vec ts) ∧
    (∀ (key : SeriesKey) ts v, (∃ vec, m.entries[key]? = some vec ∧ (ts, v) ∈ vec) ↔
      value key ts = some v) ∧
    (∀ key lo hi predicate,
      (m.readSeries key lo hi predicate).Pairwise (fun p q => p.timestampNs < q.timestampNs) ∧
      ∀ q, q ∈ m.readSeries key lo hi predicate ↔
        q.key = key ∧ value key q.timestampNs = some q.value ∧ lo ≤ q.timestampNs ∧
          q.timestampNs ≤ hi ∧ predicate.all (fun p => p.satisfies q.value) = true) ∧
    m.drain = (m.entries, new threshold) ∧
    m.entryCount = ((sinceDrain ops).map DataPoint.slot).dedup.length ∧
    m.sizeBytes =
      32 * m.entryCount + (((sinceDrain ops).map DataPoint.key).dedup.map keyBytes).sum := by
  intro m value
  have h : Accounts threshold (sinceDrain ops) m := accounts_run threshold ops
  refine ⟨fun key vec hget => ?_, fun key ts v => ?_, fun key lo hi predicate => ⟨?_, fun q => ?_⟩,
    ?_, ?_, ?_⟩
  · obtain ⟨hne, hsorted⟩ := h.wf (key, vec) (Std.ExtTreeMap.mem_toList_iff_getElem?_eq_some.mpr hget)
    exact ⟨hne, hsorted, bisect_eq_binarySearchByKey hsorted⟩
  · have hpoints := h.mem_points (q := ⟨key.metricName, key.tags, ts, v⟩)
    rw [SeriesData.mem_points] at hpoints
    exact hpoints
  · exact sorted_readSeries h.wf key lo hi predicate
  · rw [mem_readSeries, h.mem_points]
    refine and_congr_right fun hkey => ?_
    rw [hkey]
  · exact Prod.ext rfl h.drain
  · rw [h.entryCount, ← h.slots_perm.length_eq, List.length_map]
  · rw [h.sizeBytes, ← (h.keys_perm.map keyBytes).sum_nat, List.map_map]
    rfl

end Memtable

end Micius

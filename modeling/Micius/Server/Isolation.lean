import Micius.Server.IndexFiles

/-!
# Series isolation

A series is a structured key in the memtable, canonical bytes in a chunk
file, a 64-bit id in the index and a decoded key in a merge. `append` takes
any strings; the four agree on the keys that round-trip through their bytes.
-/

namespace Micius

section

variable [Crates]

/-- Keys that round-trip have different bytes, so their ids differ unless
their bytes collide. -/
theorem keysOk_of_noCollision {U : SeriesKey → Prop}
    (hcodec : ∀ k, U k → SeriesKey.fromBytes k.toBytes = .ok k)
    (hhash : ∀ k k', U k → U k' → Crates.xxh64 k.toBytes = Crates.xxh64 k'.toBytes →
      k.toBytes = k'.toBytes) : KeysOk U where
  codec := hcodec
  inj := by
    intro k k' hk hk' hid
    have hdec := hcodec k hk
    rw [hhash k k' hk hk' hid, hcodec k' hk'] at hdec
    exact (Except.ok.inj hdec).symm

/-- A merge of live chunks reads all its files. -/
theorem StoreOk.readGroup_ok (hlaw : Crates.LawfulLz4) {U : SeriesKey → Prop} (hU : KeysOk U)
    {cfg : StorageConfig} {s : Server} {requested : List DataPoint} {created : List ChunkId}
    {live flight merged : List Chunk}
    (h : StoreOk U cfg s requested created live flight merged) {group : MergeGroup}
    {rest : List MergeGroup} (hc : s.compactor = .merging (group :: rest)) :
    ∃ points, readGroup s.disk.chunks group.chunks = .ok points := by
  have hcompactor := h.compactor
  rw [hc] at hcompactor
  cases hcompactor with
  | merging hgroups =>
    obtain ⟨cs, hgroup⟩ := hgroups.group group (by simp)
    refine ⟨livePoints cs, ?_⟩
    rw [hgroup.chunks]
    exact readGroup_chunks hlaw hU
      (fun c hc => h.files.onDisk c (by simp [hgroup.live c hc]))
      fun c hc => h.keys_of_live (hgroup.live c hc)

omit [Crates] in
/-- Of the points of a series a query selects those in its range. -/
theorem Query.selects_of_matches {q : Query} {k : SeriesKey}
    (hk : Memtable.matchesSeries q.metricName q.tags k = true) (p : DataPoint) :
    (decide (p.key = k) && q.selects p) =
      decide (p.key = k ∧ q.timeStartNs ≤ p.timestampNs ∧ p.timestampNs ≤ q.timeEndNs) := by
  by_cases hkey : p.key = k
  · simp [Query.selects, hkey, hk]
  · simp [hkey]

/-- **Series isolation.** Open empty directories and run any interleaving of
the server's steps with keys that round-trip through their bytes. In every
quiescent state a query that matches one series and not another streams the
points of the first in its range, each once, and none of the second; and in
every state a merge reads the files of its group without error. -/
theorem series_isolated (hlaw : Crates.LawfulLz4) (cfg : StorageConfig) {U : SeriesKey → Prop}
    (hcodec : ∀ k, U k → SeriesKey.fromBytes k.toBytes = .ok k)
    (hhash : ∀ k k', U k → U k' → Crates.xxh64 k.toBytes = Crates.xxh64 k'.toBytes →
      k.toBytes = k'.toBytes)
    (chunkIds : Nat → ChunkId) {s₀ s : Server} (actions : List Action) {tr : List Event}
    (hopen : (openStore cfg chunkIds .empty).1 = .ok s₀)
    (hsteps : Runs.Along (step cfg) (StepsOk U) s₀ [] actions)
    (hrun : Runs.run (step cfg) s₀ actions = some (s, tr)) :
    (s.Quiescent → ∀ (q : Query) (k₁ k₂ : SeriesKey), U k₁ → U k₂ →
      Memtable.matchesSeries q.metricName q.tags k₁ = true →
      Memtable.matchesSeries q.metricName q.tags k₂ = false →
        ((s.query cfg q).filter fun r => r.seriesId = k₁.id).Perm
          (((requestedPoints tr).filter fun p =>
            p.key = k₁ ∧ q.timeStartNs ≤ p.timestampNs ∧ p.timestampNs ≤ q.timeEndNs).map
              DataPoint.response) ∧
        ∀ r ∈ s.query cfg q, r.seriesId ≠ k₂.id) ∧
    ∀ group rest, s.compactor = .merging (group :: rest) →
      ∃ points, readGroup s.disk.chunks group.chunks = .ok points := by
  have hU := keysOk_of_noCollision hcodec hhash
  have hinv := storeInv_of_run hlaw cfg hU chunkIds hopen hsteps hrun
  obtain ⟨live, flight, merged, h⟩ := id hinv
  refine ⟨fun hquiet q k₁ k₂ hk₁ hk₂ hmatch hother => ?_, fun group rest => h.readGroup_ok hlaw hU⟩
  have hperm := hinv.query_perm hlaw hU hquiet q
  constructor
  · -- among the keys in use only the first series has its id
    have hsame : ∀ p ∈ (requestedPoints tr).filter q.selects,
        decide (p.response.seriesId = k₁.id) = decide (p.key = k₁) := by
      intro p hp
      have hid : p.response.seriesId = k₁.id ↔ p.key = k₁ :=
        ⟨hU.inj _ _ (h.keys p (List.mem_of_mem_filter hp)) hk₁, fun hkey => congrArg SeriesKey.id hkey⟩
      simp only [hid]
    refine (hperm.filter _).trans (.of_eq ?_)
    rw [List.filter_map, Function.comp_def, List.filter_congr hsame, List.filter_filter]
    simp only [Query.selects_of_matches hmatch]
  · intro r hr hid
    obtain ⟨p, hp, rfl⟩ := List.mem_map.mp (hperm.mem_iff.mp hr)
    obtain ⟨hreq, hsel⟩ := List.mem_filter.mp hp
    have hkey : p.key = k₂ := hU.inj _ _ (h.keys p hreq) hk₂ hid
    rw [Query.selects, hkey, hother] at hsel
    cases hsel

end

/-! ## Runs with two series -/

section Example

attribute [local instance] Reference.crates

/-- A point of the series `cpu` with a tag. -/
def hostPoint (ts : Int64) (bits : UInt64) : DataPoint :=
  ⟨"cpu", (∅ : BTreeMap String String).insert "h" "a", ts, ⟨bits⟩⟩

/-- Points of two series in two chunks that are merged. -/
def mergedSeries : List Action :=
  appendSteps 0 (cpuPoint 5 7) ++ appendSteps 1 (hostPoint 5 9) ++ sweepSteps 100 0 ++
    appendSteps 2 (hostPoint 6 8) ++ sweepSteps 101 0 ++
    [.compactFind [(100, ⟨100, 270⟩), (101, ⟨101, 191⟩)], .compactMerge 102, .compactCommit] ++
    deleteSteps

set_option maxRecDepth 20000 in
theorem series_isolated_mergedSeries : ∃ s tr,
    Runs.run (step oneShard) (.fresh oneShard) mergedSeries = some (s, tr) ∧ s.Quiescent ∧
    ((s.query oneShard ⟨"cpu", [("h", "a")], 0, 10⟩).filter fun r =>
      r.seriesId = (hostPoint 0 0).key.id).Perm
        (((requestedPoints tr).filter fun p => p.key = (hostPoint 0 0).key ∧
          0 ≤ p.timestampNs ∧ p.timestampNs ≤ 10).map DataPoint.response) ∧
    ∀ r ∈ s.query oneShard ⟨"cpu", [("h", "a")], 0, 10⟩,
      r.seriesId ≠ (cpuPoint 0 0).key.id := by
  have hrun : ((Runs.run (step oneShard) (.fresh oneShard) mergedSeries).any
      fun r => r.1.isQuiescent) = true := by decide +kernel
  obtain ⟨s, tr, hrun, hquiet⟩ := Runs.exists_of_any hrun
  have hquiet := Server.quiescent_of_isQuiescent hquiet
  have hisolated := (series_isolated Reference.lawful.lz4 oneShard
    (U := fun k => k = (hostPoint 0 0).key ∨ k = (cpuPoint 0 0).key)
    (by rintro k (rfl | rfl) <;> exact SeriesKey.fromBytes_of_roundTrips (by decide +kernel))
    (by rintro k k' (rfl | rfl) (rfl | rfl) <;> decide +kernel)
    (fun _ => 0) mergedSeries (openStore_empty oneShard _) (by decide +kernel) hrun).1 hquiet
    ⟨"cpu", [("h", "a")], 0, 10⟩ _ _ (.inl rfl) (.inr rfl) (by decide +kernel) (by decide +kernel)
  exact ⟨s, tr, hrun, hquiet, hisolated⟩

/-- A point of the series with metric name `a,b=c` and no tag. -/
def commaPoint (ts : Int64) (bits : UInt64) : DataPoint := ⟨"a,b=c", ∅, ts, ⟨bits⟩⟩

/-- A point of the series with metric name `a` and the tag `b=c`. -/
def tagPoint (ts : Int64) (bits : UInt64) : DataPoint :=
  ⟨"a", (∅ : BTreeMap String String).insert "b" "c", ts, ⟨bits⟩⟩

set_option maxRecDepth 20000 in
/-- Two keys with the same bytes: after a sweep a query that matches the first
key only streams the point of the second, twice, and not that of the first. -/
theorem series_with_equal_bytes : ∃ s tr,
    (openStore oneShard (fun _ => 0) .empty).1 = .ok (.fresh oneShard) ∧
    Runs.run (step oneShard) (.fresh oneShard)
      (appendSteps 0 (commaPoint 5 7) ++ appendSteps 1 (tagPoint 6 8) ++ sweepSteps 100 0) =
        some (s, tr) ∧
    (commaPoint 0 0).key ≠ (tagPoint 0 0).key ∧
    Memtable.matchesSeries "a,b=c" [] (commaPoint 0 0).key = true ∧
    Memtable.matchesSeries "a,b=c" [] (tagPoint 0 0).key = false ∧
    requestedPoints tr = [commaPoint 5 7, tagPoint 6 8] ∧ s.Quiescent ∧
    s.query oneShard (.all "a,b=c") = [(tagPoint 6 8).response, (tagPoint 6 8).response] := by
  have hrun : ((Runs.run (step oneShard) (.fresh oneShard)
      (appendSteps 0 (commaPoint 5 7) ++ appendSteps 1 (tagPoint 6 8) ++ sweepSteps 100 0)).any
        fun r => requestedPoints r.2 = [commaPoint 5 7, tagPoint 6 8] ∧ r.1.isQuiescent ∧
          r.1.query oneShard (.all "a,b=c") =
            [(tagPoint 6 8).response, (tagPoint 6 8).response]) = true := by decide +kernel
  obtain ⟨s, tr, hrun, hstate⟩ := Runs.exists_of_any hrun
  obtain ⟨hreq, hquiet, hquery⟩ := of_decide_eq_true hstate
  exact ⟨s, tr, openStore_empty oneShard _, hrun, by decide +kernel, by decide +kernel,
    by decide +kernel, hreq, Server.quiescent_of_isQuiescent hquiet, hquery⟩

-- A comma in a tag key: the bytes do not decode, and a merge fails on them.
example : SeriesKey.roundTrips ⟨"a", (∅ : BTreeMap String String).insert "b,c" "d"⟩ = false := by
  decide +kernel

end Example

end Micius

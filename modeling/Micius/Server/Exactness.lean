import Micius.Reference.Instance
import Micius.Server.Conservation

/-!
# Queries are exact

In a quiescent state a query streams the requested points it selects, each
once, whatever sweeps, merges, snapshots and segment deletions the run had.
-/

namespace Micius

/-- No append call, sweep or compaction cycle is in progress. -/
def Server.Quiescent (s : Server) : Prop :=
  (∀ t ∈ s.appends, t.acked = true) ∧ (∃ i, s.sweeper = .next i) ∧ s.compactor = .idle

/-- `s.Quiescent`, computed. -/
def Server.isQuiescent (s : Server) : Bool :=
  (s.appends.all AppendTask.acked) &&
    (match s.sweeper with
      | .next _ => true
      | _ => false) &&
    (match s.compactor with
      | .idle => true
      | _ => false)

theorem Server.quiescent_of_isQuiescent {s : Server} (h : s.isQuiescent = true) :
    s.Quiescent := by
  simp only [isQuiescent, Bool.and_eq_true, List.all_eq_true] at h
  obtain ⟨⟨hacked, hsweeper⟩, hcompactor⟩ := h
  refine ⟨hacked, ?_, ?_⟩
  · split at hsweeper
    · next i hs => exact ⟨i, hs⟩
    · cases hsweeper
  · split at hcompactor
    · assumption
    · cases hcompactor

section

variable [Crates]

/-- The stream of a query on the server. -/
def Server.query (cfg : StorageConfig) (s : Server) (q : Query) : List QueryResponse :=
  Micius.query q ((List.range cfg.numShards).map s.memtables) s.index s.disk.chunks

/-- What a run without I/O failure may assume of its steps: new points with
keys in use, sizes that fit, unused chunk ids. -/
def StepsOk (U : SeriesKey → Prop) (s : Server) (tr : List Event) (a : Action) : Prop :=
  AppendsOk U tr a ∧ SizesFit s a ∧ FreshIds tr a

instance decidableStepsOk (U : SeriesKey → Prop) [DecidablePred U] (s : Server)
    (tr : List Event) (a : Action) : Decidable (StepsOk U s tr a) :=
  inferInstanceAs (Decidable (_ ∧ _ ∧ _))

/-- Stage 1 streams the selected points of all memtables. -/
theorem flatMap_scanMemtable (q : Query) (shards : Nat) (memtables : Nat → Memtable) :
    ((List.range shards).map memtables).flatMap (scanMemtable q) =
      ((memPoints shards memtables).filter q.selects).map DataPoint.response := by
  rw [memPoints, List.flatMap_map, List.filter_flatMap, List.map_flatMap]
  exact List.flatMap_congr fun i _ => scanMemtable_eq q (memtables i)

/-- A query streams the selected points of the memtables and the live chunks. -/
theorem StoreOk.query_perm (hlaw : Crates.LawfulLz4) {U : SeriesKey → Prop} (hU : KeysOk U)
    {cfg : StorageConfig} {s : Server} {requested : List DataPoint} {created : List ChunkId}
    {live flight merged : List Chunk}
    (h : StoreOk U cfg s requested created live flight merged) (q : Query) :
    (s.query cfg q).Perm
      (((memPoints cfg.numShards s.memtables ++ livePoints live).filter q.selects).map
        DataPoint.response) := by
  have hfiles : FilesOk s.disk.chunks created live := h.files.sublist
    ((List.sublist_append_right ..).trans (List.sublist_append_right ..))
  rw [Server.query, query, flatMap_scanMemtable, List.filter_append, List.map_append]
  exact (queryChunks_perm hlaw hU h.index q hfiles.ids hfiles.onDisk).append_left _

/-- In a quiescent state all points are in memtables and live chunks. -/
theorem StoreOk.points_of_quiescent {U : SeriesKey → Prop} {cfg : StorageConfig} {s : Server}
    {requested : List DataPoint} {created : List ChunkId} {live flight merged : List Chunk}
    (h : StoreOk U cfg s requested created live flight merged) (hquiet : s.Quiescent) :
    requested.Perm (memPoints cfg.numShards s.memtables ++ livePoints live) := by
  obtain ⟨hacked, ⟨i, hsweeper⟩, -⟩ := hquiet
  have hpending : pendingPoints s.appends = [] := by
    rw [pendingPoints, List.flatMap_eq_nil_iff]
    intro t ht
    rw [h.acked t ht (hacked t ht)]
    rfl
  have hflight : flight = [] := h.sweeper.eq_nil (by simp [hsweeper])
  have hpoints := h.points
  rw [hpending, hsweeper, hflight] at hpoints
  exact hpoints

/-- The invariants of a run from empty directories. -/
theorem storeInv_of_run (hlaw : Crates.LawfulLz4) (cfg : StorageConfig) {U : SeriesKey → Prop}
    (hU : KeysOk U) (chunkIds : Nat → ChunkId) {s₀ s : Server} {actions : List Action}
    {tr : List Event} (hopen : (openStore cfg chunkIds .empty).1 = .ok s₀)
    (hsteps : Runs.Along (step cfg) (StepsOk U) s₀ [] actions)
    (hrun : Runs.run (step cfg) s₀ actions = some (s, tr)) : StoreInv U cfg s tr := by
  obtain rfl := fresh_of_openStore hopen
  have hinv : SweepOk cfg s ∧ StoreInv U cfg s ([] ++ tr) :=
    Runs.run_invariant (P := StepsOk U) (I := fun s tr => SweepOk cfg s ∧ StoreInv U cfg s tr)
      (fun {s tr a s' es} hinv hok hstep => ⟨hinv.1.step (step_sound hstep),
        hinv.2.step hlaw hU hinv.1 hok.1 hok.2.1 hok.2.2 (step_sound hstep)⟩)
      ⟨SweepOk.fresh cfg, [], [], [], storeOk_fresh U cfg⟩ hsteps hrun
  exact hinv.2

/-- In a quiescent state a query streams the requested points it selects. -/
theorem StoreInv.query_perm (hlaw : Crates.LawfulLz4) {U : SeriesKey → Prop} (hU : KeysOk U)
    {cfg : StorageConfig} {s : Server} {tr : List Event} (hinv : StoreInv U cfg s tr)
    (hquiet : s.Quiescent) (q : Query) :
    (s.query cfg q).Perm (((requestedPoints tr).filter q.selects).map DataPoint.response) := by
  obtain ⟨live, flight, merged, h⟩ := hinv
  have hperm := h.points_of_quiescent hquiet
  exact (h.query_perm hlaw hU q).trans ((hperm.symm.filter _).map _)

/-- **Query exactness.** Open empty directories and run any interleaving of
the server's steps. In every quiescent state the query streams exactly the
points of the append calls that it selects, each once. -/
theorem query_exact (hlaw : Crates.LawfulLz4) (cfg : StorageConfig) {U : SeriesKey → Prop}
    (hU : KeysOk U) (chunkIds : Nat → ChunkId) {s₀ s : Server} (actions : List Action)
    {tr : List Event} (hopen : (openStore cfg chunkIds .empty).1 = .ok s₀)
    (hsteps : Runs.Along (step cfg) (StepsOk U) s₀ [] actions)
    (hrun : Runs.run (step cfg) s₀ actions = some (s, tr)) (hquiet : s.Quiescent) (q : Query) :
    (s.query cfg q).Perm
      (((actions.flatMap Action.points).filter q.selects).map DataPoint.response) := by
  rw [← requestedPoints_run hrun]
  exact (storeInv_of_run hlaw cfg hU chunkIds hopen hsteps hrun).query_perm hlaw hU hquiet q

end

/-! ## A run with a merge -/

/-- One shard; every memtable with a point is flushed, and two chunks of any
size are merged. -/
def oneShard : StorageConfig where
  walMaxSegmentBytes := 100000
  memtableFlushThresholdBytes := 1
  numShards := 1
  compaction := ⟨2, fun _ _ => true⟩
  powerOfTwo := ⟨0, by decide, rfl⟩

/-- Two shards: `disk` is in shard 0, `cpu` in shard 1. -/
def twoShards : StorageConfig where
  walMaxSegmentBytes := 100000
  memtableFlushThresholdBytes := 1
  numShards := 2
  compaction := ⟨2, fun _ _ => true⟩
  powerOfTwo := ⟨1, by decide, rfl⟩

/-- An append call of one point on a single shard, from arrival to answer. -/
def appendSteps (call : Nat) (p : DataPoint) : List Action :=
  [.append [p] [(0, 0)], .walCommit 0 [(call, 0)] none, .walFinish 0, .memInsert call, .ack call]

/-- A sweep of a single shard that writes a chunk. -/
def sweepSteps (chunkId : ChunkId) (gcSeq : Nat) : List Action :=
  [.sweepLock, .sweepWrite chunkId, .sweepRegister, .sweepReadSequence, .sweepPublish,
    .sweepRequestDrain, .walCommit 0 [] (some gcSeq), .walFinish 0, .sweepDelete]

/-- Two appends, a sweep after each, and a compaction cycle. -/
def mergedRun : List Action :=
  appendSteps 0 (cpuPoint 5 7) ++ sweepSteps 100 0 ++ appendSteps 1 (cpuPoint 6 8) ++
    sweepSteps 101 0 ++
    [.compactFind [(100, ⟨100, 187⟩), (101, ⟨101, 187⟩)], .compactMerge 102, .compactCommit,
      .compactDelete, .compactDelete, .compactDelete, .compactEnd]

/-- The key round-trips through its bytes, computed. -/
def SeriesKey.roundTrips (k : SeriesKey) : Bool :=
  match SeriesKey.fromBytes k.toBytes with
  | .ok k' => k' = k
  | .error _ => false

theorem SeriesKey.fromBytes_of_roundTrips {k : SeriesKey} (h : k.roundTrips = true) :
    SeriesKey.fromBytes k.toBytes = .ok k := by
  unfold roundTrips at h
  split at h
  · next hdec => rw [hdec, of_decide_eq_true h]
  · cases h

section Example

attribute [local instance] Reference.crates

theorem keysOk_cpu : KeysOk (· = ⟨"cpu", ∅⟩) where
  codec := by
    rintro k rfl
    exact SeriesKey.fromBytes_of_roundTrips (by decide +kernel)
  inj := by
    rintro k k' rfl rfl -
    rfl

theorem query_exact_merged : ∃ s tr,
    Runs.run (step oneShard) (.fresh oneShard) mergedRun = some (s, tr) ∧ s.Quiescent ∧
      (s.query oneShard (.all "cpu")).Perm
        [(cpuPoint 5 7).response, (cpuPoint 6 8).response] := by
  have hrun : ((Runs.run (step oneShard) (.fresh oneShard) mergedRun).any
      fun r => r.1.isQuiescent) = true := by decide +kernel
  obtain ⟨s, tr, hrun, hquiet⟩ := Runs.exists_of_any hrun
  have hquiet := Server.quiescent_of_isQuiescent hquiet
  have hselected : ((mergedRun.flatMap Action.points).filter (Query.all "cpu").selects) =
      [cpuPoint 5 7, cpuPoint 6 8] := by decide +kernel
  have hanswer := query_exact Reference.lawful.lz4 oneShard keysOk_cpu (fun _ => 0) mergedRun
    (openStore_empty oneShard _) (by decide +kernel) hrun hquiet (.all "cpu")
  rw [hselected] at hanswer
  exact ⟨s, tr, hrun, hquiet, hanswer⟩

end Example

end Micius

import Micius.Server.Atomicity
import Micius.Server.Session

/-!
# Another number of shards

The logs are laid out by the number of shards that a session was opened
with, `open` reads those of the number it is given. A session that logs
with `cfg` and is reopened with `cfg'` gets back what the first
`cfg'.numShards` logs hold: everything if the number grows.
-/

namespace Micius

section

variable [Crates]

omit [Crates] in
theorem fresh_watermark (cfg : StorageConfig) (i : Nat) : (Server.fresh cfg).disk.watermark i = 0 := by
  rw [Disk.watermark, Disk.loadedIndex, fresh_snapshot]
  rfl

theorem InSession.fresh (U : SeriesKey → Prop) (cfg : StorageConfig) :
    InSession U cfg (.fresh cfg) (.fresh cfg) [] := .start U fun _ hi => walOk_fresh hi

/-- **Reopening with another number of shards.** Open empty directories with
`cfg`, run any interleaving of appends and snapshots and crash. `open` with
`cfg'` succeeds, and a query returns an acknowledged point, the only value
of its slot, exactly if its log is one of those that `cfg'` has. -/
theorem open_resharded (hlaw : Crates.Lawful) (cfg cfg' : StorageConfig) {U : SeriesKey → Prop}
    (hU : KeysOk U) (chunkIds chunkIds' : Nat → ChunkId) {s₀ s : Server} (actions : List Action)
    {tr : List Event} {d : Disk} (hopen : (openStore cfg chunkIds .empty).1 = .ok s₀)
    (hsteps : Runs.Along (step cfg) (SessionStep U) s₀ [] actions)
    (hrun : Runs.run (step cfg) s₀ actions = some (s, tr)) (hcrash : CrashImage cfg s [] d)
    (hempty : ∀ i < cfg'.numShards, cfg.numShards ≤ i → d.wal i = ∅) (hfit : RecoveryFits cfg' d)
    (hids : IdsFree chunkIds' (List.range cfg'.numShards) d.chunks) :
    ∃ s', (openStore cfg' chunkIds' d).1 = .ok s' ∧ ∀ p ∈ ackedPoints tr,
      (∀ q ∈ requestedPoints tr, q.slot = p.slot → q = p) →
      (p.response ∈ s'.query cfg' (.all p.metricName) ↔
        shardIndex p cfg.numShards < cfg'.numShards) := by
  obtain rfl := fresh_of_openStore hopen
  have h := (InSession.fresh U cfg).run hsteps hrun
  have hstart : StoreExact U ⟨(Server.fresh cfg).index, (Server.fresh cfg).disk.chunks⟩ [] := by
    rw [fresh_chunks]
    exact ⟨.empty, List.nodup_nil⟩
  have hloaded : (Server.fresh cfg).disk.loadedIndex = (Server.fresh cfg).index := by
    rw [Disk.loadedIndex, fresh_snapshot]
    rfl
  obtain ⟨replayed, hlogs, hpoints⟩ :=
    h.logsReplay hlaw.prost (fresh_watermark cfg) hcrash hempty hfit
  obtain ⟨s', cs, hreopen, hexact, hlive⟩ := (h.loaded hstart (.inl hloaded) hcrash).openStore hU cfg'
    hlogs hids fun _ _ _ _ _ hq => absurd hq List.not_mem_nil
  refine ⟨s', hreopen, fun p hp hunique => ?_⟩
  have hlogged := h.logged.of_acked h.calls hp
  rw [hexact.mem_query hlaw.lz4 hU (memPoints_of_open hreopen) (h.key_in_use hlogged), hlive]
  constructor
  · rintro (⟨i, hi, hlast⟩ | hnone)
    · rw [hlogs.routed i (List.mem_range.mpr hi) p hlast.mem]
      exact hi
    · cases hnone
  · intro hi
    refine .inl ⟨_, hi, LastWrites.isLast_of_unique ((hpoints _ hi).2 p hlogged rfl) ?_⟩
    exact fun q hq => hunique q ((hpoints _ hi).1 q hq)

end

/-! ## Growing and shrinking -/

section Example

attribute [local instance] Reference.crates

/-- From one shard to two: the point is still there. -/
theorem open_resharded_grown : ∃ s tr s',
    Runs.run (step oneShard) (.fresh oneShard) (appendSteps 0 (cpuPoint 5 7)) = some (s, tr) ∧
    ackedPoints tr = [cpuPoint 5 7] ∧
    (openStore twoShards (fun i => 100 + .ofNat i) s.disk).1 = .ok s' ∧
    (cpuPoint 5 7).response ∈ s'.query twoShards (.all "cpu") := by
  have hrun : ((Runs.run (step oneShard) (.fresh oneShard) (appendSteps 0 (cpuPoint 5 7))).any
      fun r => ackedPoints r.2 = [cpuPoint 5 7] && requestedPoints r.2 = [cpuPoint 5 7] &&
        (r.1.disk.wal 1).isEmpty && recoveryFits twoShards r.1.disk &&
        r.1.disk.chunks.isEmpty) = true := by
    decide +kernel
  obtain ⟨s, tr, hrun, hstate⟩ := Runs.exists_of_any hrun
  simp only [Bool.and_eq_true, decide_eq_true_eq, Std.ExtTreeMap.isEmpty_iff] at hstate
  obtain ⟨⟨⟨⟨hacked, hrequested⟩, hempty⟩, hfits⟩, hchunks⟩ := hstate
  have hlogs : ∀ i < twoShards.numShards, oneShard.numShards ≤ i → s.disk.wal i = ∅ := by
    intro i hi hge
    obtain rfl : i = 1 := Nat.le_antisymm (Nat.le_of_lt_succ hi) hge
    exact hempty
  obtain ⟨s', hreopen, hall⟩ := open_resharded Reference.lawful oneShard twoShards keysOk_cpu
    (fun _ => 0) (fun i => 100 + .ofNat i) (appendSteps 0 (cpuPoint 5 7)) (openStore_empty oneShard _)
    (by decide +kernel) hrun (.self oneShard s []) hlogs (recoveryFits_iff hfits)
    ⟨by decide, by simp [hchunks]⟩
  refine ⟨s, tr, s', hrun, hacked, hreopen, ?_⟩
  rw [hacked, hrequested] at hall
  exact (hall (cpuPoint 5 7) (by simp) (by simp)).mpr (by decide +kernel)

/-- A request with a point in each of the two shards. -/
def bothShardsRun : List Action :=
  [.append [diskPoint 5 7, cpuPoint 5 7] [(0, 0), (1, 1)], .walCommit 0 [(0, 0)] none, .walFinish 0,
    .walCommit 1 [(0, 1)] none, .walFinish 1, .memInsert 0, .memInsert 0, .ack 0]

/-- From two shards to one: the log of shard 1 is not read, and the point is
gone. -/
theorem open_resharded_loses : ∃ s tr s',
    Runs.Along (step twoShards) (SessionStep cpuOrDisk) (.fresh twoShards) [] bothShardsRun ∧
    Runs.run (step twoShards) (.fresh twoShards) bothShardsRun = some (s, tr) ∧
    ackedPoints tr = [diskPoint 5 7, cpuPoint 5 7] ∧ CrashImage twoShards s [] s.disk ∧
    (openStore oneShard (fun _ => 100) s.disk).1 = .ok s' ∧
    (diskPoint 5 7).response ∈ s'.query oneShard (.all "disk") ∧
    (cpuPoint 5 7).response ∉ s'.query oneShard (.all "cpu") := by
  have hrun : ((Runs.run (step twoShards) (.fresh twoShards) bothShardsRun).any fun r =>
      (openStore oneShard (fun _ => 100) r.1.disk).1.toOption.any fun s' =>
        ackedPoints r.2 = [diskPoint 5 7, cpuPoint 5 7] &&
          decide ((diskPoint 5 7).response ∈ s'.query oneShard (.all "disk")) &&
          decide ((cpuPoint 5 7).response ∉ s'.query oneShard (.all "cpu"))) = true := by
    decide +kernel
  obtain ⟨s, tr, hrun, hstate⟩ := Runs.exists_of_any hrun
  obtain ⟨s', hreopen, hstate⟩ := Runs.exists_ok_of_any hstate
  simp only [Bool.and_eq_true, decide_eq_true_eq] at hstate
  exact ⟨s, tr, s', by decide +kernel, hrun, hstate.1.1, .self twoShards s [], hreopen,
    hstate.1.2, hstate.2⟩

end Example

end Micius

import Micius.Server.Crash
import Micius.Server.Recovered

/-!
# Sessions without a sweep

Without sweeps and compaction the index and the chunk files stay as `open`
left them, the live watermarks stay 0, and the logs keep every entry. After
a crash a log gives back the points of its shard that were answered, and
others only if they were requested.
-/

namespace Micius

/-- The step belongs to an append call, a WAL task or a snapshot. -/
def Action.inSession : Action → Bool
  | append _ _ => true
  | walCommit _ _ _ => true
  | walFinish _ => true
  | memInsert _ => true
  | ack _ => true
  | snapshotBegin => true
  | snapshotLoad _ => true
  | snapshotLock _ => true
  | snapshotSave _ => true
  | snapshotStore _ => true
  | snapshotUnlock _ => true
  | _ => false

section

variable [Crates]

/-- The steps of a session: keys in use, entries that fit their frames. -/
def SessionStep (U : SeriesKey → Prop) (s : Server) (_ : List Event) (a : Action) : Prop :=
  a.inSession = true ∧ (∀ p ∈ a.points, U p.key) ∧ BatchesFit s a

instance decidableSessionStep (U : SeriesKey → Prop) [DecidablePred U] (s : Server)
    (tr : List Event) (a : Action) : Decidable (SessionStep U s tr a) :=
  inferInstanceAs (Decidable (_ ∧ _ ∧ _))

/-! ## The index and the watermarks -/

/-- What a session that started as `s₀` leaves alone. A snapshot it saves has
the index of the start and watermarks 0. -/
structure Unmoved (s₀ s : Server) (tr : List Event) : Prop where
  sweeper : s.sweeper = .next 0
  index : s.index = s₀.index
  chunks : s.disk.chunks = s₀.disk.chunks
  watermarks : ∀ i, s.shardWatermarks i = 0
  loaded : ∀ task ∈ s.snapshots, ∀ w ∈ task.watermarks, w = 0
  snapshot : s.disk.snapshot = s₀.disk.snapshot ∧ (∀ k snap, .saved k snap ∉ tr) ∨
    ∃ ws : List Nat, (∀ w ∈ ws, w = 0) ∧ s.disk.snapshot = some (saveIndex s₀.index ws)

namespace Unmoved

variable {cfg : StorageConfig} {s₀ s s' : Server} {tr es : List Event} {a : Action}

omit [Crates] in
theorem start (cfg : StorageConfig) (disk : Disk) (idx : ChunkIndex) (wals : List WalWriter) :
    Unmoved (.start cfg disk idx wals) (.start cfg disk idx wals) [] where
  sweeper := rfl
  index := rfl
  chunks := rfl
  watermarks _ := rfl
  loaded := by simp [Server.start]
  snapshot := .inl ⟨rfl, by simp⟩

omit [Crates] in
/-- A snapshot task moves and saves nothing. -/
theorem taskMoves (h : Unmoved s₀ s tr) {k : Nat} {task : SnapshotTask}
    (htask : ∀ w ∈ task.watermarks, w = 0) :
    ∀ task' ∈ s.snapshots.set k task, ∀ w ∈ task'.watermarks, w = 0 := by
  intro task' ht
  rcases List.mem_or_eq_of_mem_set ht with ht | rfl
  · exact h.loaded task' ht
  · exact htask

omit [Crates] in
theorem saved_later (h : Unmoved s₀ s tr) (hes : ∀ k snap, .saved k snap ∉ es) :
    s.disk.snapshot = s₀.disk.snapshot ∧ (∀ k snap, .saved k snap ∉ tr ++ es) ∨
      ∃ ws : List Nat, (∀ w ∈ ws, w = 0) ∧ s.disk.snapshot = some (saveIndex s₀.index ws) := by
  refine h.snapshot.imp_left fun hnone => ⟨hnone.1, fun k snap hmem => ?_⟩
  exact (List.mem_append.mp hmem).elim (hnone.2 k snap) (hes k snap)

/-- **Every step** of a session keeps it. -/
theorem step (h : Unmoved s₀ s tr) (hdrain : DrainOk s) (hstep : Step cfg s a s' es)
    (ha : a.inSession = true) : Unmoved s₀ s' (tr ++ es) := by
  cases hstep with
  | walCommit _ _ _ _ _ => exact { h with snapshot := h.saved_later (by simp) }
  | walDrain hfinish =>
    -- no sweep, so no drain request
    have hs := h.sweeper.symm.trans (hdrain _ _ hfinish)
    cases hs
  | snapshotBegin =>
    refine { h with loaded := fun task ht => ?_, snapshot := h.saved_later (by simp) }
    rcases List.mem_append.mp ht with ht | ht
    · exact h.loaded task ht
    · rw [List.mem_singleton.mp ht]
      exact fun w hw => absurd hw (List.not_mem_nil)
  | @snapshotLoad k ws hk _ =>
    refine { h with loaded := h.taskMoves fun w hw => ?_, snapshot := h.saved_later (by simp) }
    rcases List.mem_append.mp hw with hw | hw
    · exact h.loaded _ (List.mem_of_getElem? hk) w hw
    · rw [List.mem_singleton.mp hw]
      exact h.watermarks _
  | @snapshotLock k ws hk _ =>
    have hws : ∀ w ∈ ws, w = 0 := h.loaded _ (List.mem_of_getElem? hk)
    exact { h with loaded := h.taskMoves hws, snapshot := h.saved_later (by simp) }
  | @snapshotSave k ws hk =>
    have hws : ∀ w ∈ ws, w = 0 := h.loaded _ (List.mem_of_getElem? hk)
    exact { h with
      loaded := h.taskMoves hws
      snapshot := .inr ⟨ws, hws, by rw [← h.index]; rfl⟩ }
  | @snapshotStore k i w ws hk _ =>
    have hws : ∀ w ∈ ws, w = 0 := h.loaded _ (List.mem_of_getElem? hk)
    exact { h with loaded := h.taskMoves hws, snapshot := h.saved_later (by simp) }
  | snapshotUnlock hk =>
    refine { h with loaded := h.taskMoves fun w hw => ?_, snapshot := h.saved_later (by simp) }
    cases hw
  | append _ => exact { h with snapshot := h.saved_later (by simp) }
  | walFinish _ => exact { h with snapshot := h.saved_later (by simp) }
  | memInsert _ _ => exact { h with snapshot := h.saved_later (by simp) }
  | ack _ => exact { h with snapshot := h.saved_later (by simp) }
  | _ => cases ha

end Unmoved

/-! ## The logs -/

/-- The logs have the batches of the trace, each in the log of its shard. -/
structure LogsKeep (U : SeriesKey → Prop) (cfg : StorageConfig) (s : Server) (tr : List Event) :
    Prop where
  keys : ∀ p ∈ requestedPoints tr, U p.key
  shard : ∀ i seg b, .committed i seg b ∈ tr → i < cfg.numShards
  fits : ∀ i seg b, .committed i seg b ∈ tr → b.Fits
  present : ∀ i seg b, .committed i seg b ∈ tr → seg ∈ s.disk.wal i
  routed : ∀ i seg b, .committed i seg b ∈ tr → ∀ p ∈ b.2,
    shardIndex p cfg.numShards = i ∧ p ∈ requestedPoints tr

omit [Crates] in
/-- The points of a group that is pending were requested. -/
theorem CallsKeep.mem_requested {tasks : List AppendTask} {tr : List Event}
    (h : CallsKeep tasks tr) {ref : Nat × Nat} {g : Group} (hg : groupAt tasks ref = some g)
    {p : DataPoint} (hp : p ∈ g.points) : p ∈ requestedPoints tr := by
  obtain ⟨t, ht, hj⟩ := Option.bind_eq_some_iff.mp hg
  have htask := List.mem_of_getElem? ht
  rw [h.requested]
  exact List.mem_flatMap.mpr ⟨t, htask, h.pending t htask g (List.mem_of_getElem? hj) p hp⟩

theorem Routed.groupAt {cfg : StorageConfig} {s : Server} (h : Routed cfg s) {ref : Nat × Nat}
    {g : Group} (hg : groupAt s.appends ref = some g) {p : DataPoint} (hp : p ∈ g.points) :
    shardIndex p cfg.numShards = g.shard := by
  obtain ⟨t, ht, hj⟩ := Option.bind_eq_some_iff.mp hg
  exact h.pending t (List.mem_of_getElem? ht) g (List.mem_of_getElem? hj) p hp

namespace LogsKeep

variable {U : SeriesKey → Prop} {cfg : StorageConfig} {s s' : Server} {tr es : List Event}
  {a : Action}

theorem start (U : SeriesKey → Prop) (cfg : StorageConfig) (s : Server) : LogsKeep U cfg s [] where
  keys := by simp [requestedPoints]
  shard := by simp
  fits := by simp
  present := by simp
  routed := by simp

/-- A step that writes to no log. -/
theorem quiet (h : LogsKeep U cfg s tr) (hkeys : ∀ p ∈ requestedPoints es, U p.key)
    (hes : ∀ i seg b, .committed i seg b ∉ es)
    (hdir : ∀ i seg, seg ∈ s.disk.wal i → seg ∈ s'.disk.wal i) : LogsKeep U cfg s' (tr ++ es) := by
  have hmem : ∀ {i seg b}, .committed i seg b ∈ tr ++ es → .committed i seg b ∈ tr :=
    fun hb => (List.mem_append.mp hb).resolve_right (hes _ _ _)
  refine ⟨?_, fun i seg b hb => h.shard i seg b (hmem hb), fun i seg b hb => h.fits i seg b (hmem hb),
    fun i seg b hb => hdir i seg (h.present i seg b (hmem hb)), ?_⟩
  · rw [requestedPoints_append]
    intro p hp
    exact (List.mem_append.mp hp).elim (h.keys p) (hkeys p)
  · intro i seg b hb p hp
    obtain ⟨hshard, hreq⟩ := h.routed i seg b (hmem hb) p hp
    rw [requestedPoints_append]
    exact ⟨hshard, List.mem_append_left _ hreq⟩

/-- **Every step** of a session keeps it. -/
theorem step (h : LogsKeep U cfg s tr) (hrouted : Routed cfg s) (hcalls : CallsKeep s.appends tr)
    (hwal : ∀ i < cfg.numShards, s.WalOk tr i) (hstep : Step cfg s a s' es)
    (ha : SessionStep U s tr a) : LogsKeep U cfg s' (tr ++ es) := by
  obtain ⟨hin, hkeys, hfits⟩ := ha
  cases hstep with
  | append _ =>
    exact h.quiet (by simpa [requestedPoints, Action.points] using hkeys) (by simp)
      fun _ _ hseg => hseg
  | @walCommit i refs drain hi hidle hrequest hnodup hwait =>
    have hdir : ∀ j seg, seg ∈ s.disk.wal j →
        seg ∈ (s.disk.runWal i ((s.wals i).commitOps (messagesAt s.appends refs))).wal j :=
      fun j seg hseg => mem_wal_runWal hseg fun h => mem_run_commitOps _ _ h
    refine ⟨?_, ?_, ?_, ?_, ?_⟩
    · rw [requestedPoints_append, requestedPoints_committed, List.append_nil]
      exact h.keys
    all_goals
      intro j seg b hb
      rcases List.mem_append.mp hb with hb | hb
    · exact h.shard j seg b hb
    · exact (mem_committed hb).1 ▸ hi
    · exact h.fits j seg b hb
    · exact hfits b (mem_committed hb).2.2.1
    · exact hdir j seg (h.present j seg b hb)
    · obtain ⟨rfl, rfl, -⟩ := mem_committed hb
      refine hdir j _ ?_
      rw [(hwal j hi).file_eq]
      exact (hwal j hi).current
    all_goals
      intro p hp
      rw [requestedPoints_append, requestedPoints_committed, List.append_nil]
    · exact h.routed j seg b hb p hp
    · obtain ⟨rfl, -, -, ref, href, g, hg, hpts⟩ := mem_committed hb
      obtain ⟨g', hg', hshard, -⟩ := hwait ref href
      obtain rfl : g = g' := Option.some.inj (hg.symm.trans hg')
      rw [← hpts] at hp
      exact ⟨(hrouted.groupAt hg hp).trans hshard, hcalls.mem_requested hg hp⟩
  | walFinish _ =>
    exact h.quiet (by simp [requestedPoints]) (by simp) fun i seg hseg =>
      mem_wal_runWal hseg mem_run_rotateFull
  | walDrain _ =>
    exact h.quiet (by simp [requestedPoints]) (by simp) fun i seg hseg =>
      mem_wal_runWal hseg mem_run_rotateFull
  | memInsert _ _ => exact h.quiet (by simp [requestedPoints]) (by simp) fun _ _ hseg => hseg
  | ack _ => exact h.quiet (by simp [requestedPoints]) (by simp) fun _ _ hseg => hseg
  | snapshotBegin => exact h.quiet (by simp [requestedPoints]) (by simp) fun _ _ hseg => hseg
  | snapshotLoad _ _ => exact h.quiet (by simp [requestedPoints]) (by simp) fun _ _ hseg => hseg
  | snapshotLock _ _ => exact h.quiet (by simp [requestedPoints]) (by simp) fun _ _ hseg => hseg
  | snapshotSave _ => exact h.quiet (by simp [requestedPoints]) (by simp) fun _ _ hseg => hseg
  | snapshotStore _ _ => exact h.quiet (by simp [requestedPoints]) (by simp) fun _ _ hseg => hseg
  | snapshotUnlock _ => exact h.quiet (by simp [requestedPoints]) (by simp) fun _ _ hseg => hseg
  | _ => cases hin

end LogsKeep

/-! ## The session -/

/-- What holds in every state of a session that started as `s₀`. -/
structure InSession (U : SeriesKey → Prop) (cfg : StorageConfig) (s₀ s : Server)
    (tr : List Event) : Prop where
  drain : DrainOk s
  routed : Routed cfg s
  wal : ∀ i < cfg.numShards, s.WalOk tr i
  calls : CallsKeep s.appends tr
  logged : CallsLogged s.appends tr
  unmoved : Unmoved s₀ s tr
  logs : LogsKeep U cfg s tr

namespace InSession

variable {U : SeriesKey → Prop} {cfg : StorageConfig} {s₀ s s' : Server} {tr es : List Event}
  {failed : List (Nat × Nat)} {d : Disk}

theorem start (U : SeriesKey → Prop) {disk : Disk} {idx : ChunkIndex} {wals : List WalWriter}
    (hwal : ∀ i < cfg.numShards, (Server.start cfg disk idx wals).WalOk [] i) :
    InSession U cfg (.start cfg disk idx wals) (.start cfg disk idx wals) [] where
  drain := drainOk_start cfg disk idx wals
  routed := .start cfg disk idx wals
  wal := hwal
  calls := .fresh
  logged := by simp [CallsLogged, Server.start]
  unmoved := .start cfg disk idx wals
  logs := .start U cfg _

theorem step (h : InSession U cfg s₀ s tr) {a : Action} (hstep : Step cfg s a s' es)
    (ha : SessionStep U s tr a) : InSession U cfg s₀ s' (tr ++ es) where
  drain := h.drain.step hstep
  routed := h.routed.step hstep
  wal i hi := (h.wal i hi).step hstep
  calls := h.calls.step hstep
  logged := h.logged.step hstep
  unmoved := h.unmoved.step h.drain hstep ha.1
  logs := h.logs.step h.routed h.calls h.wal hstep ha

theorem run (h : InSession U cfg s₀ s₀ []) {actions : List Action}
    (hsteps : Runs.Along (Micius.step cfg) (SessionStep U) s₀ [] actions)
    (hrun : Runs.run (Micius.step cfg) s₀ actions = some (s, tr)) : InSession U cfg s₀ s tr :=
  Runs.run_invariant (P := SessionStep U) (I := fun s tr => InSession U cfg s₀ s tr)
    (fun hinv hok hstep => hinv.step (step_sound hstep) hok) h hsteps hrun

theorem key_in_use (h : InSession U cfg s₀ s tr) {p : DataPoint} (hp : p ∈ loggedPoints tr) :
    U p.key := by
  obtain ⟨i, seg, b, hb, hpb⟩ := mem_loggedPoints.mp hp
  exact h.logs.keys p (h.logs.routed i seg b hb p hpb).2

/-- The watermarks of the snapshot are 0. -/
theorem watermark (h : InSession U cfg s₀ s tr) (hfirst : ∀ i, s₀.disk.watermark i = 0)
    (hcrash : CrashImage cfg s failed d) (i : Nat) : d.watermark i = 0 := by
  rw [Disk.watermark, Disk.loadedIndex, hcrash.snapshot]
  rcases h.unmoved.snapshot with ⟨hsame, -⟩ | ⟨ws, hws, hsaved⟩
  · rw [hsame]
    exact hfirst i
  · rw [hsaved]
    show (ws[i]?).getD 0 = 0
    cases hw : ws[i]? with
    | none => rfl
    | some w => exact hws w (List.mem_of_getElem? hw)

/-- The next `open` starts from the index and the chunks of this one, if a
snapshot was saved or the index did not change since the last one. -/
theorem loaded (h : InSession U cfg s₀ s tr) {cs : List Chunk}
    (hexact : StoreExact U ⟨s₀.index, s₀.disk.chunks⟩ cs)
    (hsaved : s₀.disk.loadedIndex = s₀.index ∨ ∃ k snap, .saved k snap ∈ tr)
    (hcrash : CrashImage cfg s failed d) : StoreExact U ⟨d.loadedIndex, d.chunks⟩ cs := by
  have hindex : IndexOk U d.loadedIndex cs := by
    rw [Disk.loadedIndex, hcrash.snapshot]
    rcases h.unmoved.snapshot with ⟨hsame, hnone⟩ | ⟨ws, -, hws⟩
    · rcases hsaved with hloaded | ⟨k, snap, hmem⟩
      · rw [hsame, ← Disk.loadedIndex, hloaded]
        exact hexact.index
      · exact absurd hmem (hnone k snap)
    · rw [hws]
      exact hexact.index.rebuild ws
  refine ⟨⟨hindex, hexact.ids, fun c hc => ?_⟩, hexact.distinct⟩
  obtain ⟨hfits, bytes, result, hw, hget⟩ := hexact.onDisk c hc
  exact ⟨hfits, bytes, result, hw, hcrash.chunks _ _ (h.unmoved.chunks ▸ hget)⟩

/-- **What a log gives back** after a crash: the points of its shard that
were logged, and otherwise requested ones. -/
theorem replays (hlaw : Crates.LawfulProst) (h : InSession U cfg s₀ s tr)
    (hcrash : CrashImage cfg s failed d) {i : Nat} (hempty : cfg.numShards ≤ i → d.wal i = ∅) :
    ∃ r, recover (d.wal i) 0 = .ok r ∧
      (∀ p ∈ r.points, shardIndex p cfg.numShards = i ∧ p ∈ requestedPoints tr) ∧
      ∀ p ∈ loggedPoints tr, shardIndex p cfg.numShards = i → p ∈ r.points := by
  rcases Nat.lt_or_ge i cfg.numShards with hi | hi
  · obtain ⟨file, hfile⟩ := (hcrash.wal i hi).files (h.logs.fits i) (h.wal i hi)
    obtain ⟨r, hr, -, hpoints⟩ := recover_files hlaw file hfile.bytes 0
    refine ⟨r, hr, fun p hp => ?_, fun p hp hshard => ?_⟩
    · obtain ⟨seg, -, b, hb, -, hpb⟩ := (hpoints p).mp hp
      rcases hfile.only seg b hb with hb | ⟨ref, g, hg, hshard, -, hpts, -⟩
      · exact h.logs.routed i seg b hb p hpb
      · rw [← hpts] at hpb
        exact ⟨(h.routed.groupAt hg hpb).trans hshard, h.calls.mem_requested hg hpb⟩
    · obtain ⟨j, seg, b, hb, hpb⟩ := mem_loggedPoints.mp hp
      obtain rfl : j = i := (h.logs.routed j seg b hb p hpb).1.symm.trans hshard
      exact (hpoints p).mpr ⟨seg, hfile.kept seg (h.logs.present j seg b hb), b,
        hfile.logged seg b hb, ((h.wal j hi).seqs seg b hb).1, hpb⟩
  · -- the log of a shard that the session did not have
    refine ⟨.empty, by rw [hempty hi]; rfl, by simp [RecoveryResult.empty], fun p _ hshard => ?_⟩
    exact absurd (shardIndex_lt p cfg) (by omega)

/-- **The logs after a crash**, for `open` with any number of shards. -/
theorem logsReplay (hlaw : Crates.LawfulProst) (h : InSession U cfg s₀ s tr)
    (hfirst : ∀ i, s₀.disk.watermark i = 0) (hcrash : CrashImage cfg s failed d)
    {cfg' : StorageConfig} (hempty : ∀ i < cfg'.numShards, cfg.numShards ≤ i → d.wal i = ∅)
    (hfit : RecoveryFits cfg' d) :
    ∃ replayed, LogsReplay U cfg.numShards d.loadedIndex d replayed (List.range cfg'.numShards) ∧
      ∀ i < cfg'.numShards, (∀ p ∈ replayed i, p ∈ requestedPoints tr) ∧
        ∀ p ∈ loggedPoints tr, shardIndex p cfg.numShards = i → p ∈ replayed i := by
  have hzero := h.watermark hfirst hcrash
  have hreplays : ∀ i, ∃ r, i < cfg'.numShards → recover (d.wal i) (d.watermark i) = .ok r ∧
      (∀ p ∈ r.points, shardIndex p cfg.numShards = i ∧ p ∈ requestedPoints tr) ∧
      ∀ p ∈ loggedPoints tr, shardIndex p cfg.numShards = i → p ∈ r.points := by
    intro i
    by_cases hi : i < cfg'.numShards
    · obtain ⟨r, hr⟩ := h.replays hlaw hcrash (hempty i hi)
      exact ⟨r, fun _ => hzero i ▸ hr⟩
    · exact ⟨.empty, fun hlt => absurd hlt hi⟩
  choose r hr using hreplays
  refine ⟨fun i => (r i).points, ⟨fun i hi => ?_, fun i hi p hp => ?_, fun i hi p hp => ?_,
    fun i hi => ?_⟩, fun i hi => ⟨fun p hp => ((hr i hi).2.1 p hp).2, (hr i hi).2.2⟩⟩
  all_goals rw [List.mem_range] at hi
  · exact ⟨r i, (hr i hi).1, rfl⟩
  · exact ((hr i hi).2.1 p hp).1
  · exact h.logs.keys p ((hr i hi).2.1 p hp).2
  · exact hfit i hi (r i) (hr i hi).1

end InSession

end

end Micius

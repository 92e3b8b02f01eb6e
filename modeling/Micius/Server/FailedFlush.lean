import Micius.Compaction.Cycle
import Micius.Server.Atomicity

/-!
# Failed flushes

The sweep drains a memtable before it writes the chunk. If `ChunkWriter::write`
returns an error, because the file cannot be created or synced or a write that
more bytes follow fails, the error is logged and the sweep goes on: the drained
points are in no memtable and in no chunk. They are still in the log, until a
later flush of the shard publishes a watermark above them. (A write that fails
in its last piece is no error here if the fsync succeeds; such a flush does not
fail.)
-/

namespace Micius

/-! ## A server whose flushes may fail -/

/-- A server, and the points that failed flushes had drained. -/
structure FlushServer where
  server : Server
  lost : List DataPoint

/-- The steps of the server, and flushes whose file cannot be written. -/
inductive FlushAction
  | server (a : Action)
  | flushFails (chunkId : ChunkId) (io : FileIo)

/-- The sweep after a failed flush of shard `i`, with what is left of the file. -/
def Server.flushFail (cfg : StorageConfig) (s : Server) (i : Nat) (chunks : ChunkDir) : Server :=
  { s with
    disk := { s.disk with chunks := chunks }
    sweeper := .next (cfg.nextShard i) }

section

variable [Crates]

/-- One step. -/
def flushStep (cfg : StorageConfig) (t : FlushServer) :
    FlushAction → Option (FlushServer × List Event)
  | .server a => (step cfg t.server a).map fun r => (⟨r.1, t.lost⟩, r.2)
  | .flushFails chunkId io =>
    match t.server.sweeper with
    | .drained i data =>
      match ChunkWriter.write chunkId data with
      -- nothing to write: the server's own step
      | .error _ => none
      | .ok (bytes, _) =>
        match createFile chunkId bytes t.server.disk.chunks io with
        | (.ok _, _) => none
        | (.error _, chunks) =>
          some (⟨t.server.flushFail cfg i chunks, t.lost ++ data.points⟩, [])
    | _ => none

/-- What a step of the system does. -/
inductive FlushStep (cfg : StorageConfig) (t : FlushServer) :
    FlushAction → FlushServer → List Event → Prop
  | server {a : Action} {s' : Server} {es : List Event} (hstep : Step cfg t.server a s' es) :
      FlushStep cfg t (.server a) ⟨s', t.lost⟩ es
  | flushFails {chunkId : ChunkId} {io : FileIo} {i : Nat} {data : SeriesData}
      (bytes : Bytes) (hs : t.server.sweeper = .drained i data) :
      FlushStep cfg t (.flushFails chunkId io)
        ⟨t.server.flushFail cfg i (createFile chunkId bytes t.server.disk.chunks io).2,
          t.lost ++ data.points⟩ []

theorem flushStep_sound {cfg : StorageConfig} {t t' : FlushServer} {a : FlushAction}
    {es : List Event} (h : flushStep cfg t a = some (t', es)) : FlushStep cfg t a t' es := by
  cases a with
  | server a =>
    obtain ⟨r, hr, heq⟩ := Option.map_eq_some_iff.mp h
    obtain ⟨rfl, rfl⟩ := Prod.mk.inj heq
    exact .server (step_sound hr)
  | flushFails chunkId io =>
    simp only [flushStep] at h
    split at h
    · next i data hs =>
      split at h
      · cases h
      · next bytes _ hw =>
        split at h
        · cases h
        · next chunks hfile =>
          obtain ⟨rfl, rfl⟩ := Prod.mk.inj (Option.some.inj h)
          obtain rfl : (createFile chunkId bytes t.server.disk.chunks io).2 = chunks := by
            rw [hfile]
          exact .flushFails bytes hs
    · cases h

/-! ## What a failed flush keeps -/

variable {U : SeriesKey → Prop} {cfg : StorageConfig} {s s' : Server} {tr es : List Event}
  {kept lost : List DataPoint} {live flight merged : List Chunk} {created : List ChunkId} {i : Nat}
  {data : SeriesData}

/-- All points but the drained ones stay in their places. -/
theorem StoreOk.flushFail (h : StoreOk U cfg s kept created live flight merged)
    (hs : s.sweeper = .drained i data) (chunkId : ChunkId) (bytes : Bytes) (io : FileIo) :
    ∃ kept', kept.Perm (kept' ++ data.points) ∧
      StoreOk U cfg (s.flushFail cfg i (createFile chunkId bytes s.disk.chunks io).2) kept'
        created live flight merged := by
  have hnil : flight = [] := h.sweeper.eq_nil (by simp [hs])
  subst hnil
  have hpoints : kept.Perm (pendingPoints s.appends ++ (memPoints cfg.numShards s.memtables ++
      livePoints live) ++ data.points) := by
    have hpoints := h.points
    rw [hs] at hpoints
    refine hpoints.trans ?_
    rw [List.append_assoc, List.append_assoc]
    exact (List.perm_append_comm.append_left _).append_left _
  refine ⟨_, hpoints, ?_⟩
  have hdist := h.distinct.of_perm hpoints
  exact
    { h with
      points := .refl _
      distinct := hdist.sublist (List.sublist_append_left ..)
      keys := fun p hp => h.keys p (hpoints.mem_iff.mpr (List.mem_append_left _ hp))
      files := { h.files with
        onDisk := fun c hc => (h.files.onDisk c hc).createFile chunkId bytes io }
      sweeper := .none (by simp [Server.flushFail]) }

theorem SweepOk.flushFail (h : SweepOk cfg s) (hs : s.sweeper = .drained i data) (chunks : ChunkDir) :
    SweepOk cfg (s.flushFail cfg i chunks) := by
  refine h.moves (fun j gcSeq hfin => ?_) rfl (nextShard_lt cfg i) (by simp [Server.flushFail])
    (by simp [Server.flushFail, Sweeper.result?])
  cases hs.symm.trans (h.drain j gcSeq hfin)

/-- **A failed flush** loses the points that it had drained. -/
theorem LossyRun.flushFail (h : LossyRun U cfg s tr kept lost live flight)
    (hs : s.sweeper = .drained i data) (chunkId : ChunkId) (bytes : Bytes) (io : FileIo) :
    ∃ kept', LossyRun U cfg (s.flushFail cfg i (createFile chunkId bytes s.disk.chunks io).2) tr
      kept' (lost ++ data.points) live flight := by
  obtain ⟨kept', hperm, hstore⟩ := h.store.flushFail hs chunkId bytes io
  refine ⟨kept', { h with
    sweep := h.sweep.flushFail hs _
    routed := { h.routed with }
    wal := fun j hj => { h.wal j hj with deleting := by simp [Server.flushFail] }
    logged := { h.logged with }
    store := hstore
    points := ?_ }⟩
  refine (h.points.trans (hperm.append_right lost)).trans ?_
  rw [List.append_assoc]
  exact List.perm_append_comm.append_left _

theorem Durable.flushFail (h : Durable U cfg s tr live) (i : Nat) (chunks : ChunkDir) :
    Durable U cfg (s.flushFail cfg i chunks) tr live := by
  rw [← List.append_nil tr]
  exact h.sweeperMoves (by simp) rfl rfl (fun _ _ hseg => hseg) rfl rfl rfl
    (by simp [Server.flushFail]) (by simp [Server.flushFail]) (by simp [Server.flushFail])

/-! ## Runs -/

/-- New points with keys in use, sizes that fit, unused chunk ids, and no
compaction. -/
def FlushOk (U : SeriesKey → Prop) (t : FlushServer) (tr : List Event) : FlushAction → Prop
  | .server a => StepsOk U t.server tr a ∧ BatchesFit t.server a ∧ a.isCompaction = false
  | .flushFails _ _ => True

instance decidableFlushOk (U : SeriesKey → Prop) [DecidablePred U] (t : FlushServer)
    (tr : List Event) : (a : FlushAction) → Decidable (FlushOk U t tr a)
  | .server _ => inferInstanceAs (Decidable (_ ∧ _ ∧ _))
  | .flushFails _ _ => isTrue trivial

/-- When the sweep reads the sequence number of a shard, no point of the
shard is lost. -/
def FlushServer.readsWhole (cfg : StorageConfig) (t : FlushServer) (a : Action) : Bool :=
  match a, t.server.sweeper with
  | .sweepReadSequence, .registered i _ => t.lost.all fun p => shardIndex p cfg.numShards ≠ i
  | _, _ => true

/-- The watermarks stay true: the sweep reads the sequence number of a shard
that is flushed and has lost nothing, and snapshots go forward. -/
def KeepsMarks (cfg : StorageConfig) (t : FlushServer) (_ : List Event) : FlushAction → Prop
  | .server a => ReadsFlushed t.server a = true ∧ SavesForward cfg t.server a = true ∧
      t.readsWhole cfg a = true
  | .flushFails _ _ => True

instance decidableKeepsMarks (cfg : StorageConfig) (t : FlushServer) (tr : List Event) :
    (a : FlushAction) → Decidable (KeepsMarks cfg t tr a)
  | .server _ => inferInstanceAs (Decidable (_ ∧ _ ∧ _))
  | .flushFails _ _ => isTrue trivial

/-- A run with failed flushes, at a state with the given live chunks. -/
def FlushRun (U : SeriesKey → Prop) (cfg : StorageConfig) (t : FlushServer) (tr : List Event)
    (live : List Chunk) : Prop :=
  ∃ kept flight, LossyRun U cfg t.server tr kept t.lost live flight

/-- A point that was inserted into a memtable. -/
def Inserted (s : Server) (tr : List Event) (p : DataPoint) : Prop :=
  p ∈ requestedPoints tr ∧ p ∉ pendingPoints s.appends

/-- A point that waits has waited before, or is requested in this step. -/
theorem pendingPoints_step {cfg : StorageConfig} {s s' : Server} {a : Action} {es : List Event}
    (hstep : Step cfg s a s' es) {p : DataPoint} (hp : p ∈ pendingPoints s'.appends) :
    p ∈ pendingPoints s.appends ∨ p ∈ a.points := by
  -- a task is replaced by one that has less to insert
  have hset : ∀ {k : Nat} {t t' : AppendTask}, s.appends[k]? = some t →
      (∀ g ∈ t'.pending, g ∈ t.pending) → p ∈ pendingPoints (s.appends.set k t') →
      p ∈ pendingPoints s.appends := by
    intro k t t' hk hless hp
    obtain ⟨t₁, ht₁, hp⟩ := List.mem_flatMap.mp hp
    rcases List.mem_or_eq_of_mem_set ht₁ with ht₁ | heq
    · exact List.mem_flatMap.mpr ⟨t₁, ht₁, hp⟩
    · rw [heq] at hp
      obtain ⟨g, hg, hp⟩ := List.mem_flatMap.mp hp
      exact List.mem_flatMap.mpr
        ⟨t, List.mem_of_getElem? hk, List.mem_flatMap.mpr ⟨g, hless g hg, hp⟩⟩
  cases hstep with
  | append hsorted =>
    rw [pendingPoints_append] at hp
    refine (List.mem_append.mp hp).imp_right fun hp => ?_
    simp only [pendingPoints, List.flatMap_cons, List.flatMap_nil, List.append_nil] at hp
    exact (shardGroups_perm hsorted).mem_iff.mp hp
  | walCommit _ _ _ _ _ =>
    rw [pendingPoints_deliver] at hp
    exact .inl hp
  | memInsert hk _ => exact .inl (hset hk (fun g hg => List.mem_cons_of_mem _ hg) hp)
  | ack hk => exact .inl (hset hk (fun g hg => absurd hg List.not_mem_nil) hp)
  | _ => exact .inl hp

theorem Inserted.step {t t' : FlushServer} {a : FlushAction} {p : DataPoint}
    (h : Inserted t.server tr p) (hok : FlushOk U t tr a) (hstep : FlushStep cfg t a t' es) :
    Inserted t'.server (tr ++ es) p := by
  refine ⟨by rw [requestedPoints_append]; exact List.mem_append_left _ h.1, fun hp => ?_⟩
  cases hstep with
  | server hstep =>
    rcases pendingPoints_step hstep hp with hp | hp
    · exact h.2 hp
    · exact hok.1.1.1.slot_ne h.1 hp rfl
  | flushFails bytes hs => exact h.2 hp

/-- **One step.** -/
theorem FlushRun.step (hU : KeysOk U) {t t' : FlushServer} {a : FlushAction}
    (h : FlushRun U cfg t tr live) (hok : FlushOk U t tr a) (hstep : FlushStep cfg t a t' es) :
    ∃ live', FlushRun U cfg t' (tr ++ es) live' ∧
      (Durable U cfg t.server tr live → KeepsMarks cfg t tr a →
        Durable U cfg t'.server (tr ++ es) live') := by
  obtain ⟨kept, flight, h⟩ := h
  cases hstep with
  | @server a s' es hstep =>
    obtain ⟨hsteps, hfits, hcompact⟩ := hok
    obtain ⟨live', flight', h', hgrows⟩ := h.step hU hsteps hfits hcompact hstep
    refine ⟨live', ⟨_, _, h'⟩, fun hdurable hmarks => ?_⟩
    obtain ⟨hflushed, hforward, hwhole⟩ := hmarks
    refine h.durable_step hdurable hgrows hcompact hflushed hforward (fun i result ha hs p hp => ?_) hstep
    subst ha
    simp only [FlushServer.readsWhole, hs] at hwhole
    exact of_decide_eq_true (List.all_eq_true.mp hwhole p hp)
  | @flushFails chunkId io i data bytes hs =>
    rw [List.append_nil]
    obtain ⟨kept', h'⟩ := h.flushFail hs chunkId bytes io
    exact ⟨live, ⟨kept', flight, h'⟩, fun hdurable _ => hdurable.flushFail i _⟩

/-- **A run** in which flushes may fail; an inserted point stays inserted. -/
theorem FlushRun.run (hU : KeysOk U) {t t' : FlushServer} {actions : List FlushAction}
    (h : ∃ live, FlushRun U cfg t tr live)
    (hok : Runs.Along (flushStep cfg) (FlushOk U) t tr actions)
    (hrun : Runs.run (flushStep cfg) t actions = some (t', es)) :
    (∃ live, FlushRun U cfg t' (tr ++ es) live) ∧
      ∀ p, Inserted t.server tr p → Inserted t'.server (tr ++ es) p := by
  have hstep : ∀ {t tr a t' es}, FlushOk U t tr a → flushStep cfg t a = some (t', es) →
      ((∃ live, FlushRun U cfg t tr live) → ∃ live, FlushRun U cfg t' (tr ++ es) live) ∧
        ∀ p, Inserted t.server tr p → Inserted t'.server (tr ++ es) p := by
    intro t tr a t' es hok hstep
    have hstep := flushStep_sound hstep
    exact ⟨fun ⟨_, h⟩ => (h.step hU hok hstep).imp fun _ h => h.1, fun p hp => hp.step hok hstep⟩
  exact ⟨Runs.run_invariant (P := FlushOk U) (fun h hok hs => (hstep hok hs).1 h) h hok hrun,
    fun p hp => Runs.run_invariant (P := FlushOk U) (I := fun t tr => Inserted t.server tr p)
      (fun hp hok hs => (hstep hok hs).2 p hp) hp hok hrun⟩

/-- **A run that keeps the watermarks true.** -/
theorem FlushRun.durable_run (hU : KeysOk U) {t t' : FlushServer} {actions : List FlushAction}
    (h : ∃ live, FlushRun U cfg t tr live ∧ Durable U cfg t.server tr live)
    (hok : Runs.Along (flushStep cfg) (FlushOk U) t tr actions)
    (hmarks : Runs.Along (flushStep cfg) (KeepsMarks cfg) t tr actions)
    (hrun : Runs.run (flushStep cfg) t actions = some (t', es)) :
    ∃ live, FlushRun U cfg t' (tr ++ es) live ∧ Durable U cfg t'.server (tr ++ es) live :=
  Runs.run_invariant (P := fun t tr a => FlushOk U t tr a ∧ KeepsMarks cfg t tr a)
    (I := fun t tr => ∃ live, FlushRun U cfg t tr live ∧ Durable U cfg t.server tr live)
    (fun ⟨_, h, hdurable⟩ hok hstep =>
      (h.step hU hok.1 (flushStep_sound hstep)).imp fun _ h => ⟨h.1, h.2 hdurable hok.2⟩)
    h (hok.and hmarks) hrun

/-- A point that is returned was inserted. -/
theorem LossyRun.inserted (hlaw : Crates.LawfulLz4) (hU : KeysOk U)
    (h : LossyRun U cfg s tr kept lost live flight) {p : DataPoint} (hp : p ∈ requestedPoints tr)
    (hreturns : s.returns cfg p) : Inserted s tr p := by
  refine ⟨hp, fun hwaits => ?_⟩
  rcases (h.store.returns_iff hlaw hU (h.keys p hp)).mp hreturns with hmem | hlive
  · exact h.store.distinct_places.slot_ne hwaits (by simp [hmem]) rfl
  · exact h.not_mem_live (.inl hwaits) hlive

/-- **In the session**, with no flush in progress, an inserted point is
returned exactly if it is not lost. -/
theorem LossyRun.returns_iff (hlaw : Crates.LawfulLz4) (hU : KeysOk U)
    (h : LossyRun U cfg s tr kept lost live flight) (hidle : s.sweeper.carries = false)
    {p : DataPoint} (hp : Inserted s tr p) : s.returns cfg p ↔ p ∉ lost := by
  have hnil : flight = [] := h.store.sweeper.eq_nil fun i result hs => by
    rw [hs] at hidle
    cases hidle
  have hplaces : p ∈ kept ↔ p ∈ memPoints cfg.numShards s.memtables ∨ p ∈ livePoints live := by
    rw [h.store.points.mem_iff, Sweeper.drainedPoints_of_carries hidle, hnil]
    simp [hp.2, livePoints]
  rw [h.store.returns_iff hlaw hU (h.keys p hp.1), ← hplaces]
  refine ⟨fun hkept hlost => ?_, h.mem_kept hp.1⟩
  exact (h.distinct.of_perm h.points).slot_ne hkept hlost rfl

/-- An inserted point is in a log. -/
theorem LossyRun.logged_of_inserted (h : LossyRun U cfg s tr kept lost live flight) {p : DataPoint}
    (hp : Inserted s tr p) : p ∈ loggedPoints tr :=
  (List.mem_append.mp (h.logged.points.mem_iff.mp hp.1)).resolve_left fun hun =>
    hp.2 ((unloggedPoints_sublist _).subset hun)

/-- **A failed flush.** Open empty directories, run any interleaving of
appends, sweeps and snapshots in which any flush may fail, and go on from a
state that returns a point. In the session the point is returned, with no
flush in progress, exactly if no failed flush has drained it. After a crash
and a successful `open` it is returned, if no flush of a shard that has lost
points has read a sequence number. -/
theorem failed_flush (hlaw : Crates.Lawful) (cfg : StorageConfig) {U : SeriesKey → Prop}
    (hU : KeysOk U) (chunkIds chunkIds' : Nat → ChunkId) {s₀ : Server} {t₀ t : FlushServer}
    {before after : List FlushAction} {tr₀ tr : List Event}
    (hopen : (openStore cfg chunkIds .empty).1 = .ok s₀)
    (hbefore : Runs.Along (flushStep cfg) (FlushOk U) ⟨s₀, []⟩ [] before)
    (hrun₀ : Runs.run (flushStep cfg) ⟨s₀, []⟩ before = some (t₀, tr₀))
    (hafter : Runs.Along (flushStep cfg) (FlushOk U) t₀ tr₀ after)
    (hrun : Runs.run (flushStep cfg) t₀ after = some (t, tr)) :
    ∀ p ∈ requestedPoints tr₀, t₀.server.returns cfg p →
      (t.server.sweeper.carries = false → (t.server.returns cfg p ↔ p ∉ t.lost)) ∧
      (Runs.Along (flushStep cfg) (KeepsMarks cfg) ⟨s₀, []⟩ [] before →
        Runs.Along (flushStep cfg) (KeepsMarks cfg) t₀ tr₀ after →
        ∀ d s', CrashImage cfg t.server [] d → RecoveryFits cfg d →
          (openStore cfg chunkIds' d).1 = .ok s' → s'.returns cfg p) := by
  obtain rfl := fresh_of_openStore hopen
  intro p hp hreturns
  have hstart : FlushRun U cfg ⟨.fresh cfg, []⟩ [] [] := ⟨[], [], (DurableRun.fresh U cfg).lossy⟩
  obtain ⟨⟨live₀, kept₀, flight₀, h₀⟩, -⟩ := FlushRun.run hU ⟨_, hstart⟩ hbefore hrun₀
  have hinserted := h₀.inserted hlaw.lz4 hU hp hreturns
  refine ⟨fun hidle => ?_, fun hmarks₀ hmarks d s' hcrash hfit hreopen => ?_⟩
  · obtain ⟨⟨live, kept, flight, h⟩, hstays⟩ := FlushRun.run hU ⟨_, _, _, h₀⟩ hafter hrun
    exact h.returns_iff hlaw.lz4 hU hidle (hstays p hinserted)
  · have hdurable₀ := FlushRun.durable_run hU ⟨_, hstart, .fresh U cfg⟩ hbefore hmarks₀ hrun₀
    obtain ⟨live, ⟨kept, flight, h⟩, hdurable⟩ :=
      FlushRun.durable_run hU hdurable₀ hafter hmarks hrun
    obtain ⟨cs, hserves, hlogged, -⟩ := h.serves hlaw.prost hU hdurable hcrash hfit hreopen
    refine (hserves.mem_query hlaw.lz4 hU (memPoints_of_open hreopen) _).mpr
      ⟨p, hlogged p ?_, Query.selects_all p, rfl⟩
    rw [loggedPoints_append]
    exact List.mem_append_left _ (h₀.logged_of_inserted hinserted)

end

/-! ## Runs with a failed flush -/

section Example

attribute [local instance] Reference.crates

/-- A sweep of a single shard whose chunk file cannot be created. -/
def failedSweep (chunkId : ChunkId) : List FlushAction :=
  [.server .sweepLock, .flushFails chunkId ⟨false, .ok⟩]

/-- The first point is in a chunk, the second one is drained by a flush that
fails: it is not returned any more in the session, but again after a crash. -/
theorem failed_flush_swept : ∃ t₀ tr₀ t tr s',
    Runs.run (flushStep oneShard) ⟨.fresh oneShard, []⟩ (durableRun.map .server) = some (t₀, tr₀) ∧
    t₀.server.returns oneShard (cpuPoint 5 7) ∧ t₀.server.returns oneShard (cpuPoint 6 8) ∧
    Runs.run (flushStep oneShard) t₀ (failedSweep 101) = some (t, tr) ∧
    t.server.returns oneShard (cpuPoint 5 7) ∧ ¬ t.server.returns oneShard (cpuPoint 6 8) ∧
    (openStore oneShard (fun _ => 102) t.server.disk).1 = .ok s' ∧
    s'.returns oneShard (cpuPoint 5 7) ∧ s'.returns oneShard (cpuPoint 6 8) := by
  have hrun : ((Runs.run (flushStep oneShard) ⟨.fresh oneShard, []⟩ (durableRun.map .server)).any
      fun r₀ => requestedPoints r₀.2 = [cpuPoint 5 7, cpuPoint 6 8] &&
        decide ((cpuPoint 5 7).response ∈ r₀.1.server.query oneShard (.all "cpu")) &&
        decide ((cpuPoint 6 8).response ∈ r₀.1.server.query oneShard (.all "cpu")) &&
        decide (Runs.Along (flushStep oneShard) (FlushOk (· = ⟨"cpu", ∅⟩)) r₀.1 r₀.2
          (failedSweep 101)) &&
        decide (Runs.Along (flushStep oneShard) (KeepsMarks oneShard) r₀.1 r₀.2 (failedSweep 101)) &&
        (Runs.run (flushStep oneShard) r₀.1 (failedSweep 101)).any fun r =>
          r.1.server.sweeper.carries = false && r.1.lost = [cpuPoint 6 8] &&
            recoveryFits oneShard r.1.server.disk &&
            (openStore oneShard (fun _ => 102) r.1.server.disk).1.toOption.any fun _ => true) =
      true := by
    decide +kernel
  obtain ⟨t₀, tr₀, hrun₀, hstate⟩ := Runs.exists_of_any hrun
  simp only [Bool.and_eq_true, decide_eq_true_eq] at hstate
  obtain ⟨⟨⟨⟨⟨hrequested, hfirst⟩, hsecond⟩, hok⟩, hmarks⟩, hrun⟩ := hstate
  obtain ⟨t, tr, hrun, hstate⟩ := Runs.exists_of_any hrun
  simp only [Bool.and_eq_true, decide_eq_true_eq] at hstate
  obtain ⟨⟨⟨hidle, hlost⟩, hfits⟩, hopens⟩ := hstate
  obtain ⟨s', hreopen, -⟩ := Runs.exists_ok_of_any hopens
  have hflush := failed_flush Reference.lawful oneShard keysOk_cpu (fun _ => 0) (fun _ => 102)
    (openStore_empty oneShard _) (by decide +kernel) hrun₀ hok hrun
  obtain ⟨hsession₁, hcrash₁⟩ := hflush (cpuPoint 5 7) (by simp [hrequested]) hfirst
  obtain ⟨hsession₂, hcrash₂⟩ := hflush (cpuPoint 6 8) (by simp [hrequested]) hsecond
  have hbefore : Runs.Along (flushStep oneShard) (KeepsMarks oneShard) ⟨.fresh oneShard, []⟩ []
      (durableRun.map .server) := by
    decide +kernel
  have hfit := recoveryFits_iff hfits
  refine ⟨t₀, tr₀, t, tr, s', hrun₀, hfirst, hsecond, hrun, ?_, ?_, hreopen,
    hcrash₁ hbefore hmarks _ s' (.self oneShard _ []) hfit hreopen,
    hcrash₂ hbefore hmarks _ s' (.self oneShard _ []) hfit hreopen⟩
  · rw [hsession₁ hidle, hlost]
    decide
  · rw [hsession₂ hidle, hlost]
    decide

/-- An append, a sweep that succeeds, and a snapshot. -/
def laterFlush : List FlushAction :=
  (appendSteps 1 (cpuPoint 6 8) ++ sweepSteps 101 0 ++ snapshotSteps 0).map .server

/-- After the failed flush the point is not returned. The next flush of the
shard publishes a watermark that covers it: after a crash it is gone. -/
theorem failed_flush_loses : ∃ t₀ tr₀ t₁ tr₁ t₂ tr₂ s',
    Runs.run (flushStep oneShard) ⟨.fresh oneShard, []⟩
      ((appendSteps 0 (cpuPoint 5 7)).map .server) = some (t₀, tr₀) ∧
    cpuPoint 5 7 ∈ ackedPoints tr₀ ∧ t₀.server.returns oneShard (cpuPoint 5 7) ∧
    Runs.run (flushStep oneShard) t₀ (failedSweep 100) = some (t₁, tr₁) ∧
    ¬ t₁.server.returns oneShard (cpuPoint 5 7) ∧
    Runs.Along (flushStep oneShard) (FlushOk (· = ⟨"cpu", ∅⟩)) t₁ (tr₀ ++ tr₁) laterFlush ∧
    Runs.run (flushStep oneShard) t₁ laterFlush = some (t₂, tr₂) ∧
    CrashImage oneShard t₂.server [] t₂.server.disk ∧
    (openStore oneShard (fun _ => 102) t₂.server.disk).1 = .ok s' ∧
    ¬ s'.returns oneShard (cpuPoint 5 7) := by
  have hrun : ((Runs.run (flushStep oneShard) ⟨.fresh oneShard, []⟩
      ((appendSteps 0 (cpuPoint 5 7)).map .server)).any fun r₀ =>
        decide (cpuPoint 5 7 ∈ ackedPoints r₀.2) &&
        decide ((cpuPoint 5 7).response ∈ r₀.1.server.query oneShard (.all "cpu")) &&
        (Runs.run (flushStep oneShard) r₀.1 (failedSweep 100)).any fun r₁ =>
          decide ((cpuPoint 5 7).response ∉ r₁.1.server.query oneShard (.all "cpu")) &&
          decide (Runs.Along (flushStep oneShard) (FlushOk (· = ⟨"cpu", ∅⟩)) r₁.1 (r₀.2 ++ r₁.2)
            laterFlush) &&
          (Runs.run (flushStep oneShard) r₁.1 laterFlush).any fun r₂ =>
            (openStore oneShard (fun _ => 102) r₂.1.server.disk).1.toOption.any fun s' =>
              decide ((cpuPoint 5 7).response ∉ s'.query oneShard (.all "cpu"))) = true := by
    decide +kernel
  obtain ⟨t₀, tr₀, hrun₀, hstate⟩ := Runs.exists_of_any hrun
  simp only [Bool.and_eq_true, decide_eq_true_eq] at hstate
  obtain ⟨⟨hacked, hreturns⟩, hrun⟩ := hstate
  obtain ⟨t₁, tr₁, hrun₁, hstate⟩ := Runs.exists_of_any hrun
  simp only [Bool.and_eq_true, decide_eq_true_eq] at hstate
  obtain ⟨⟨hgone, hok⟩, hrun⟩ := hstate
  obtain ⟨t₂, tr₂, hrun₂, hopens⟩ := Runs.exists_of_any hrun
  obtain ⟨s', hreopen, hlost⟩ := Runs.exists_ok_of_any hopens
  rw [decide_eq_true_eq] at hlost
  exact ⟨t₀, tr₀, t₁, tr₁, t₂, tr₂, s', hrun₀, hacked, hreturns, hrun₁, hgone, hok, hrun₂,
    .self oneShard _ [], hreopen, hlost⟩

end Example

end Micius

import Micius.Server.Crash

/-!
# Failed batches and the atomicity of a request

`append` splits a request by shard, and the WAL task of every shard commits
its part on its own. Here the write and the fsync of a batch may also fail.
If the fsync fails, or the file keeps the error of an earlier write, every
message of the batch is answered with an error; part of the frames may be in
the segment. A call with such an answer returns an error and inserts nothing.
If the write fails in its last piece and the fsync succeeds, the batch is
answered with `Ok` although its frames are cut, and the file keeps the error.

The points of a request that all go to one shard are one group. They wait,
are inserted, drained and registered together, and they are one entry of the
log: a query returns all of them or none.
-/

namespace Micius

/-! ## A server whose batches may fail -/

/-- A server and the groups that were answered with an error. -/
structure FaultyServer where
  server : Server
  failed : List (Nat × Nat)

/-- The steps of the server, and batches whose write or fsync fails or that
find the error of an earlier write. -/
inductive FaultyAction
  | server (a : Action)
  | walFault (shard : Nat) (refs : List (Nat × Nat)) (drain : Option Nat) (io : WriteIo)

/-- The groups of the batch that an action commits. -/
def Action.refs : Action → List (Nat × Nat)
  | walCommit _ refs _ => refs
  | _ => []

/-- The shard to whose segment an action writes. -/
def Action.writesTo : Action → Option Nat
  | walCommit i refs _ => if refs = [] then none else some i
  | _ => none

section

variable [Crates]

/-- A batch is answered with errors. Its sequence numbers are used up, and the
sweep, if its drain request is in the batch, logs the error and goes on. -/
def Server.walFail (cfg : StorageConfig) (s : Server) (i : Nat) (refs : List (Nat × Nat))
    (drain : Option Nat) (io : WriteIo) : Server :=
  let wal := s.wals i
  let batch := walBatch (messagesAt s.appends refs) drain
  { s with
    disk := s.disk.runWal i (failedOps wal.writer batch io)
    wals := Function.update s.wals i { wal with writer := failedWriter wal.writer batch io }
    sweeper := if drain.isSome then .next (cfg.nextShard i) else s.sweeper }

/-- A batch is answered with `Ok`, and its frames are cut. -/
def Server.walCut (s : Server) (i : Nat) (refs : List (Nat × Nat)) (drain : Option Nat)
    (io : WriteIo) : Server :=
  let wal := s.wals i
  let reqs := messagesAt s.appends refs
  { s with
    disk := s.disk.runWal i
      [.write wal.writer.file (io.written (batchFrames wal.writer (walBatch reqs drain))),
        .sync wal.writer.file]
    wals := Function.update s.wals i
      { wal.commit reqs drain with writer := committedWriter wal.writer (walBatch reqs drain) io }
    appends := deliver s.appends (numbered wal.writer.currentSeq reqs) }

/-- The batch that the WAL task of the shard would write. -/
def Server.walFrames (s : Server) (i : Nat) (refs : List (Nat × Nat)) (drain : Option Nat) :
    Bytes :=
  batchFrames (s.wals i).writer (walBatch (messagesAt s.appends refs) drain)

/-- One step. A group that was answered is in no further batch. -/
def faultyStep (cfg : StorageConfig) (t : FaultyServer) :
    FaultyAction → Option (FaultyServer × List Event)
  | .server a =>
    if (a.refs.all fun ref => ref ∉ t.failed) ∧
        a.writesTo.all fun i => !(t.server.wals i).writer.lastWriteErr then
      (step cfg t.server a).map fun r => (⟨r.1, t.failed⟩, r.2)
    else none
  | .walFault i refs drain io =>
    let kept := (t.server.wals i).writer.lastWriteErr
    let bytes := t.server.walFrames i refs drain
    if (step cfg t.server (.walCommit i refs drain)).isSome ∧ refs ≠ [] ∧
        (refs.all fun ref => ref ∉ t.failed) ∧ (kept || io.fails bytes || !io.synced) then
      if !kept && io.returnsOk bytes then some (⟨t.server.walCut i refs drain io, t.failed⟩, [])
      else some (⟨t.server.walFail cfg i refs drain io, t.failed ++ refs⟩, [])
    else none

/-- What a step of the system does. -/
inductive FaultyStep (cfg : StorageConfig) (t : FaultyServer) :
    FaultyAction → FaultyServer → List Event → Prop
  | server {a : Action} {s' : Server} {es : List Event} (hrefs : ∀ ref ∈ a.refs, ref ∉ t.failed)
      (hstep : Step cfg t.server a s' es) : FaultyStep cfg t (.server a) ⟨s', t.failed⟩ es
  | walCut {i : Nat} {refs : List (Nat × Nat)} {drain : Option Nat} {io : WriteIo}
      (hkept : (t.server.wals i).writer.lastWriteErr = false)
      (hsilent : io.silent (t.server.walFrames i refs drain) = true) :
      FaultyStep cfg t (.walFault i refs drain io) ⟨t.server.walCut i refs drain io, t.failed⟩ []
  | walFail {i : Nat} {refs : List (Nat × Nat)} {drain : Option Nat} {io : WriteIo}
      {s' : Server} {es : List Event}
      (hbatch : Step cfg t.server (.walCommit i refs drain) s' es) :
      FaultyStep cfg t (.walFault i refs drain io)
        ⟨t.server.walFail cfg i refs drain io, t.failed ++ refs⟩ []

theorem faultyStep_sound {cfg : StorageConfig} {t t' : FaultyServer} {a : FaultyAction}
    {es : List Event} (h : faultyStep cfg t a = some (t', es)) : FaultyStep cfg t a t' es := by
  cases a with
  | server a =>
    simp only [faultyStep] at h
    split at h
    · next hguard =>
      obtain ⟨r, hr, heq⟩ := Option.map_eq_some_iff.mp h
      obtain ⟨rfl, rfl⟩ := Prod.mk.inj heq
      exact .server (by simpa using hguard.1) (step_sound hr)
    · cases h
  | walFault i refs drain io =>
    simp only [faultyStep] at h
    split at h
    · next hguard =>
      split at h
      · next hok =>
        obtain ⟨rfl, rfl⟩ := Prod.mk.inj (Option.some.inj h)
        obtain ⟨hkept, hok⟩ : (t.server.wals i).writer.lastWriteErr = false ∧
            io.returnsOk (t.server.walFrames i refs drain) = true := by simpa using hok
        -- something goes wrong, and it is neither the fsync nor an earlier write
        have hsync : io.synced = true := (Bool.and_eq_true_iff.mp hok).2
        have hfails : io.fails (t.server.walFrames i refs drain) = true := by
          simpa [hkept, hsync] using hguard.2.2.2
        exact .walCut hkept (by rw [WriteIo.silent, hok, hfails]; rfl)
      · obtain ⟨r, hr⟩ := Option.isSome_iff_exists.mp hguard.1
        obtain ⟨rfl, rfl⟩ := Prod.mk.inj (Option.some.inj h)
        exact .walFail (step_sound hr)
    · cases h

section Batch

variable (cfg : StorageConfig) (s : Server) (i : Nat) (refs : List (Nat × Nat))
  (drain : Option Nat) (io : BatchIo)

omit [Crates] in
theorem rotates_walBatch (reqs : List ((Nat × Nat) × List DataPoint)) :
    WalMessage.rotates (walBatch reqs drain) = [] := by
  cases drain <;> simp [walBatch, WalMessage.rotates]

/-- A batch of the server that fails is a batch of `process_batch` that fails. -/
theorem processBatch_walFail (hreqs : messagesAt s.appends refs ≠ [])
    (hio : ¬((s.wals i).writer.lastWriteErr = false ∧
      io.write.returnsOk (s.walFrames i refs drain) = true)) :
    processBatch (s.wals i).writer (walBatch (messagesAt s.appends refs) drain) io =
      (((s.walFail cfg i refs drain io.write).wals i).writer,
        (failedOps (s.wals i).writer (walBatch (messagesAt s.appends refs) drain)
          io.write).map .op ++
          failEvents .os
            (gather (s.wals i).writer.currentSeq (walBatch (messagesAt s.appends refs) drain))) := by
  have happends := WalOk.appends_walBatch (messagesAt s.appends refs) drain
  rw [processBatch_failed _ _ _ (not_or.mpr ⟨by simp [happends, hreqs], hio⟩), rotates_walBatch]
  simp [Server.walFail, rejectEvents]

/-- A batch of the server that is cut is a batch of `process_batch` that is cut. -/
theorem processBatch_walCut (hkept : (s.wals i).writer.lastWriteErr = false)
    (hio : io.write.returnsOk (s.walFrames i refs drain) = true) :
    processBatch (s.wals i).writer (walBatch (messagesAt s.appends refs) drain) io =
      ((finishBatch ((s.walCut i refs drain io.write).wals i).writer
          (walBatch (messagesAt s.appends refs) drain) io).1,
        commitEvents (s.wals i).writer (walBatch (messagesAt s.appends refs) drain) io.write ++
          (finishBatch ((s.walCut i refs drain io.write).wals i).writer
            (walBatch (messagesAt s.appends refs) drain) io).2) := by
  rw [processBatch_ok _ _ _ (.inr ⟨hkept, hio⟩), rotates_walBatch]
  simp [Server.walCut, rejectEvents]

end Batch

/-! ## A failed batch that leaves nothing in the segment -/

section Fail

variable {U : SeriesKey → Prop} {cfg : StorageConfig} {s s' : Server} {tr es : List Event}
  {live flight : List Chunk} {i : Nat} {refs : List (Nat × Nat)} {drain : Option Nat}

/-- The sweep leaves the drain it waits for, or stays where it is. -/
theorem sweeper_walFail (hbatch : Step cfg s (.walCommit i refs drain) s' es) (io : WriteIo) :
    (s.walFail cfg i refs drain io).sweeper = s.sweeper ∨
      (s.walFail cfg i refs drain io).sweeper = .next (cfg.nextShard i) ∧
        ∃ gcSeq, s.sweeper = .draining i gcSeq := by
  cases hbatch with
  | walCommit hi hidle hrequest hnodup hwait =>
    cases drain with
    | none => exact .inl rfl
    | some gcSeq => exact .inr ⟨rfl, gcSeq, hrequest gcSeq rfl⟩

theorem wals_walFail (cfg : StorageConfig) (s : Server) (i : Nat) (refs : List (Nat × Nat))
    (drain : Option Nat) (io : WriteIo) (j : Nat) :
    ∃ seq kept, (s.wals j).writer.currentSeq ≤ seq ∧ (s.walFail cfg i refs drain io).wals j =
      { s.wals j with
        writer := { (s.wals j).writer with currentSeq := seq, lastWriteErr := kept } } := by
  by_cases hj : j = i
  · subst hj
    exact ⟨_, _, Nat.le_add_right .., Function.update_self ..⟩
  · exact ⟨_, _, Nat.le_refl _, Function.update_of_ne hj ..⟩

theorem SweepOk.walFail (h : SweepOk cfg s) (hbatch : Step cfg s (.walCommit i refs drain) s' es)
    (io : WriteIo) : SweepOk cfg (s.walFail cfg i refs drain io) := by
  have hfinishing : ∀ j, ((s.walFail cfg i refs drain io).wals j).finishing =
      (s.wals j).finishing := by
    intro j
    obtain ⟨seq, kept, -, hwal⟩ := wals_walFail cfg s i refs drain io j
    rw [hwal]
  rcases sweeper_walFail hbatch io with hsame | ⟨hnext, gcSeq, hdraining⟩
  · have hdrain : DrainOk (s.walFail cfg i refs drain io) := by
      intro j gcSeq hfin
      rw [hsame]
      exact h.drain j gcSeq ((hfinishing j).symm.trans hfin)
    exact ⟨hdrain, by rw [hsame]; exact h.shard, h.memtables, by rw [hsame]; exact h.drained,
      by rw [hsame]; exact h.written⟩
  · have hdrain : DrainOk (s.walFail cfg i refs drain io) := by
      intro j gcSeq' hfin
      rw [hfinishing j] at hfin
      -- the WAL task of the shard is idle, the others have no request
      obtain ⟨rfl, -⟩ := Sweeper.draining.inj (hdraining.symm.trans (h.drain j gcSeq' hfin))
      cases hbatch with
      | walCommit hi hidle hrequest hnodup hwait => cases hidle.symm.trans hfin
    refine h.moves hdrain rfl ?_ ?_ ?_ <;> rw [hnext]
    · exact nextShard_lt cfg i
    · simp
    · simp [Sweeper.result?]

/-- The batch leaves nothing in the segment: it finds the error of an earlier
write, or its own write fails before the first byte and it is told so. -/
def Server.LeavesNothing (s : Server) (i : Nat) (refs : List (Nat × Nat)) (drain : Option Nat)
    (io : WriteIo) : Prop :=
  (s.wals i).writer.lastWriteErr = true ∨ io.silent (s.walFrames i refs drain) = false ∧
    io.written (s.walFrames i refs drain) = []

instance decidableLeavesNothing (io : WriteIo) : Decidable (s.LeavesNothing i refs drain io) :=
  inferInstanceAs (Decidable (_ ∨ _))

theorem disk_walFail {io : WriteIo} (hseg : (s.wals i).writer.file ∈ s.disk.wal i)
    (h : s.LeavesNothing i refs drain io) : (s.walFail cfg i refs drain io).disk = s.disk := by
  show s.disk.runWal i (failedOps _ _ io) = s.disk
  cases hkept : (s.wals i).writer.lastWriteErr with
  | true =>
    rw [failedOps, hkept, if_pos rfl, Disk.runWal, WalDir.run_nil, Function.update_eq_self]
  | false =>
    rw [Server.LeavesNothing, hkept] at h
    have hnothing := (h.resolve_left Bool.false_ne_true).2
    rw [Server.walFrames] at hnothing
    rw [failedOps, hkept, if_neg Bool.false_ne_true, hnothing, Disk.runWal, WalDir.run_cons,
      WalDir.apply_write_nil hseg, WalDir.run_nil, Function.update_eq_self]

/-- **A failed batch** of which nothing is in the segment. -/
theorem DurableRun.walFail (h : DurableRun U cfg s tr live flight)
    (hbatch : Step cfg s (.walCommit i refs drain) s' es) {io : WriteIo}
    (hnothing : s.LeavesNothing i refs drain io) :
    DurableRun U cfg (s.walFail cfg i refs drain io) tr live flight := by
  have hi : i < cfg.numShards := by
    cases hbatch with
    | walCommit hi hidle hrequest hnodup hwait => exact hi
  have hdisk : (s.walFail cfg i refs drain io).disk = s.disk := by
    refine disk_walFail ?_ hnothing
    rw [(h.wal i hi).file_eq]
    exact (h.wal i hi).current
  have hwals := wals_walFail cfg s i refs drain io
  have hsweeper := sweeper_walFail hbatch io
  -- a sweep at any other stage has not moved
  have hstage : ∀ {stage : Sweeper}, (∀ j, stage ≠ .next j) →
      (s.walFail cfg i refs drain io).sweeper = stage → s.sweeper = stage := by
    intro stage hne hs
    rcases hsweeper with hsame | ⟨hnext, -⟩
    · exact hsame.symm.trans hs
    · exact absurd (hs.symm.trans hnext) (hne _)
  refine ⟨h.sweep.walFail hbatch io, { h.routed with }, fun j hj => ?_, h.calls,
    { h.logged with }, ?_, ?_⟩
  · obtain ⟨seq, kept, hseq, hwal⟩ := hwals j
    rw [Server.WalOk, hwal, hdisk]
    have hold := h.wal j hj
    exact
      { hold with
        published := Nat.le_trans hold.published hseq
        deleting := fun segs hs => hold.deleting segs (hstage (by simp) hs) }
  · have hmoved : StoreOk U cfg { s with sweeper := (s.walFail cfg i refs drain io).sweeper }
        (requestedPoints tr) (createdChunks tr) live flight [] := by
      rcases hsweeper with hsame | ⟨hnext, gcSeq, hs⟩
      · rw [hsame]
        exact h.store
      · exact h.store.sweeperMoves _ (by rw [hs]; rfl) (by rw [hnext]; rfl)
    exact { hmoved with files := by rw [hdisk]; exact hmoved.files }
  · rw [← List.append_nil tr]
    refine h.durable.keep (by simp) ?_ ?_ (by rw [hdisk]) (fun j seg hseg => by rwa [hdisk])
      h.durable.persisted (fun ws k hk => ⟨k, hk⟩)
      (fun j hj gcSeq hs => h.durable.draining j hj gcSeq (hstage (by simp) hs))
      (fun j hj segs hs => h.durable.deleting j hj segs (hstage (by simp) hs))
    · intro j _ w hw
      cases hw with
      | live => exact .live
      | read hs => exact .read (hstage (by simp) hs)
      | loaded ht hw => exact .loaded ht hw
    · intro j
      obtain ⟨seq, kept, hseq, hwal⟩ := hwals j
      rw [hwal]
      exact hseq

end Fail

/-! ## Requests of one shard -/

/-- The points all go to one shard. -/
def OneShard (cfg : StorageConfig) (points : List DataPoint) : Prop :=
  ∀ p ∈ points, ∀ q ∈ points, shardIndex p cfg.numShards = shardIndex q cfg.numShards

instance decidableOneShard (cfg : StorageConfig) (points : List DataPoint) :
    Decidable (OneShard cfg points) :=
  inferInstanceAs (Decidable (∀ p ∈ points, ∀ q ∈ points,
    shardIndex p cfg.numShards = shardIndex q cfg.numShards))

/-- Such a request is one group, unless it is empty. -/
theorem shardGroups_oneShard {cfg : StorageConfig} {points : List DataPoint}
    {indexed : List (Nat × Nat)} (h : SortedByShard points cfg.numShards indexed)
    (hone : OneShard cfg points) (hne : points ≠ []) :
    ∃ g, shardGroups points indexed = [g] ∧ ∀ p ∈ points, p ∈ g.points := by
  have hpoints := shardGroups_perm h
  have hsame : ∀ e ∈ indexed, ∀ e' ∈ indexed, e.1 = e'.1 := by
    intro e he e' he'
    obtain ⟨p, hp, hshard⟩ := mem_indexPoints.mp (h.1.mem_iff.mp he)
    obtain ⟨q, hq, hshard'⟩ := mem_indexPoints.mp (h.1.mem_iff.mp he')
    rw [hshard, hshard']
    exact hone p (List.mem_of_getElem? hp) q (List.mem_of_getElem? hq)
  have hchain : indexed.IsChain fun a b => (a.1 == b.1) = true := by
    refine List.Pairwise.isChain (List.Pairwise.imp_of_mem ?_ (List.pairwise_of_forall fun _ _ => trivial))
    exact fun ha hb _ => by simpa using hsame _ ha _ hb
  have hindexed : indexed ≠ [] := by
    rintro rfl
    exact hne (List.nil_perm.mp hpoints)
  have hgroups : ∃ g, shardGroups points indexed = [g] := by
    rw [shardGroups, List.splitBy_of_isChain hindexed hchain]
    exact ⟨_, rfl⟩
  obtain ⟨g, hg⟩ := hgroups
  rw [hg, List.flatMap_singleton] at hpoints
  exact ⟨g, hg, fun p hp => hpoints.mem_iff.mpr hp⟩

/-- Where the points of a call are, all of them: in its group, in a memtable,
in the hands of the sweep, in the chunks. -/
inductive Together (shards : Nat) (memtables : Nat → Memtable) (live : List Chunk)
    (call : AppendTask) : Prop
  | waiting {g : Group} (hpending : call.pending = [g]) (hall : ∀ p ∈ call.points, p ∈ g.points)
  | inserted {i : Nat} (hpending : call.pending = []) (hi : i < shards)
      (hall : ∀ p ∈ call.points, p ∈ (memtables i).entries.points)
  | carried (hpending : call.pending = [])
      (hnone : ∀ p ∈ call.points, p ∉ memPoints shards memtables ∧ p ∉ livePoints live)
  | registered (hpending : call.pending = []) (hall : ∀ p ∈ call.points, p ∈ livePoints live)

namespace DurableRun

variable {U : SeriesKey → Prop} {cfg : StorageConfig} {s s' : Server} {tr es : List Event}
  {live live' flight : List Chunk} {a : Action} {call : AppendTask}

theorem requested_of_call (h : DurableRun U cfg s tr live flight) (hcall : call ∈ s.appends)
    {p : DataPoint} (hp : p ∈ call.points) : p ∈ requestedPoints tr := by
  rw [h.calls.requested]
  exact List.mem_flatMap.mpr ⟨call, hcall, hp⟩

theorem key_of_call (h : DurableRun U cfg s tr live flight) (hcall : call ∈ s.appends)
    {p : DataPoint} (hp : p ∈ call.points) : U p.key := h.store.keys p (h.requested_of_call hcall hp)

/-- The points of a call stay together while no memtable changes. -/
theorem together_chunks (h : DurableRun U cfg s tr live flight) (hcall : call ∈ s.appends)
    (htogether : Together cfg.numShards s.memtables live call)
    (hgrows : live' = live ∨ ∃ c, (∃ i result, s.sweeper = .written i result) ∧ flight = [c] ∧
      live' = c :: live) : Together cfg.numShards s.memtables live' call := by
  rcases hgrows with rfl | ⟨c, ⟨i, result, hs⟩, rfl, rfl⟩
  · exact htogether
  · cases htogether with
    | waiting hpending hall => exact .waiting hpending hall
    | inserted hpending hi hall => exact .inserted hpending hi hall
    | registered hpending hall =>
      exact .registered hpending fun p hp => List.mem_append_right c.points (hall p hp)
    | carried hpending hnone =>
      -- what the sweep holds is in the chunk it registers
      refine .registered hpending fun p hp => List.mem_append_left _ ?_
      have hplace := h.store.points.mem_iff.mp (h.requested_of_call hcall hp)
      have hdrained : s.sweeper.drainedPoints = [] := by rw [hs]; rfl
      have hflight : livePoints [c] = c.points := List.append_nil _
      simpa [h.calls.not_pending h.store.distinct hcall hpending hp, hnone p hp, hdrained, hflight]
        using hplace

/-- An insert keeps the points of the memtables and adds those of the group. -/
theorem mem_insert (h : DurableRun U cfg s tr live flight) {k : Nat} {points : List DataPoint}
    {g : Group} {rest : List Group} {acked : Bool}
    (hk : s.appends[k]? = some ⟨points, g :: rest, acked⟩) {i : Nat} (hi : i < cfg.numShards)
    {p : DataPoint} (hp : p ∈ (s.memtables i).entries.points ∨ i = g.shard ∧ p ∈ g.points) :
    p ∈ (Function.update s.memtables g.shard
      ((s.memtables g.shard).insertAll g.points) i).entries.points := by
  by_cases hig : i = g.shard
  · subst hig
    rw [Function.update_self, Memtable.entries_insertAll]
    have hgroup : ∀ q, q ∈ g.points ∨ q ∈ (s.memtables g.shard).entries.points →
        q ∈ requestedPoints tr := by
      rintro q (hq | hq)
      · exact h.requested_of_call (List.mem_of_getElem? hk)
          (h.calls.pending _ (List.mem_of_getElem? hk) g (by simp) q hq)
      · have hmem : q ∈ memPoints cfg.numShards s.memtables :=
          List.mem_flatMap.mpr ⟨g.shard, List.mem_range.mpr hi, hq⟩
        exact h.store.points.mem_iff.mpr (by simp [hmem])
    have hp' : p ∈ g.points ∨ p ∈ (s.memtables g.shard).entries.points := hp.symm.imp_left And.right
    obtain ⟨q, hq, hslot⟩ := SeriesData.exists_slot_insertPoints (h.sweep.memtables g.shard) hp'
    obtain rfl := h.store.distinct.eq_of_slot (hgroup q (SeriesData.mem_insertPoints hq))
      (hgroup p hp') hslot
    exact hq
  · rw [Function.update_of_ne hig]
    exact hp.resolve_right fun hp => hig hp.1

/-- A call inserts its next group. -/
theorem together_memInsert (h : DurableRun U cfg s tr live flight) {k : Nat}
    {points : List DataPoint} {g : Group} {rest : List Group} {acked : Bool}
    (hk : s.appends[k]? = some ⟨points, g :: rest, acked⟩) (hcall : call ∈ s.appends)
    (htogether : Together cfg.numShards s.memtables live call) :
    Together cfg.numShards
      (Function.update s.memtables g.shard ((s.memtables g.shard).insertAll g.points)) live call := by
  cases htogether with
  | waiting hpending hall => exact .waiting hpending hall
  | inserted hpending hi hall =>
    exact .inserted hpending hi fun p hp => h.mem_insert hk hi (.inl (hall p hp))
  | registered hpending hall => exact .registered hpending hall
  | carried hpending hnone =>
    refine .carried hpending fun p hp => ⟨fun hmem => ?_, (hnone p hp).2⟩
    obtain ⟨i, hi, hmem⟩ := List.mem_flatMap.mp hmem
    have hold : p ∉ (s.memtables i).entries.points := fun hold =>
      (hnone p hp).1 (List.mem_flatMap.mpr ⟨i, hi, hold⟩)
    by_cases hig : i = g.shard
    · subst hig
      rw [Function.update_self, Memtable.entries_insertAll] at hmem
      have hpending' : p ∈ pendingPoints s.appends :=
        List.mem_flatMap.mpr ⟨_, List.mem_of_getElem? hk, List.mem_flatMap.mpr
          ⟨g, by simp, (SeriesData.mem_insertPoints hmem).resolve_right hold⟩⟩
      exact h.calls.not_pending h.store.distinct hcall hpending hp hpending'
    · rw [Function.update_of_ne hig] at hmem
      exact hold hmem

/-- The sweep drains a memtable. -/
theorem together_sweepDrain (h : DurableRun U cfg s tr live flight) (i : Nat)
    (htogether : Together cfg.numShards s.memtables live call) :
    Together cfg.numShards (Function.update s.memtables i (s.memtables i).drain.2) live call := by
  have hmem : ∀ {j p}, p ∈ (Function.update s.memtables i (s.memtables i).drain.2 j).entries.points →
      j ≠ i ∧ p ∈ (s.memtables j).entries.points := by
    intro j p hp
    by_cases hji : j = i
    · subst hji
      rw [Function.update_self] at hp
      change p ∈ SeriesData.points ∅ at hp
      rw [SeriesData.points_empty] at hp
      cases hp
    · rw [Function.update_of_ne hji] at hp
      exact ⟨hji, hp⟩
  cases htogether with
  | waiting hpending hall => exact .waiting hpending hall
  | registered hpending hall => exact .registered hpending hall
  | carried hpending hnone =>
    refine .carried hpending fun p hp => ⟨fun hp' => ?_, (hnone p hp).2⟩
    obtain ⟨j, hj, hp'⟩ := List.mem_flatMap.mp hp'
    exact (hnone p hp).1 (List.mem_flatMap.mpr ⟨j, hj, (hmem hp').2⟩)
  | @inserted j hpending hj hall =>
    by_cases hji : j = i
    · subst hji
      refine .carried hpending fun p hp => ⟨fun hp' => ?_, fun hlive => ?_⟩
      · obtain ⟨j', -, hp'⟩ := List.mem_flatMap.mp hp'
        obtain ⟨hne, hp'⟩ := hmem hp'
        exact hne ((h.routed.memtables j' p hp').symm.trans (h.routed.memtables j p (hall p hp)))
      · have hmem : p ∈ memPoints cfg.numShards s.memtables :=
          List.mem_flatMap.mpr ⟨j, List.mem_range.mpr hj, hall p hp⟩
        have hplaces := h.store.distinct_places.sublist (List.sublist_append_right ..)
        exact hplaces.slot_ne hmem (by simp [hlive]) rfl
    · refine .inserted hpending hj fun p hp => ?_
      rw [Function.update_of_ne hji]
      exact hall p hp

/-- **One step** keeps the points of every request of one shard together. -/
theorem together_step (h : DurableRun U cfg s tr live flight) (hstep : Step cfg s a s' es)
    (hgrows : live' = live ∨ ∃ c, a = .sweepRegister ∧ flight = [c] ∧ live' = c :: live)
    (htogether : ∀ call ∈ s.appends, OneShard cfg call.points →
      Together cfg.numShards s.memtables live call) :
    ∀ call ∈ s'.appends, OneShard cfg call.points →
      Together cfg.numShards s'.memtables live' call := by
  have hsame : a ≠ .sweepRegister → live' = live := fun hne =>
    hgrows.resolve_right fun ⟨_, ha, _⟩ => hne ha
  cases hstep with
  | @append points indexed hsorted =>
    obtain rfl := hsame (by simp)
    intro call hcall hone
    rcases List.mem_append.mp hcall with hcall | hcall
    · exact htogether call hcall hone
    · obtain rfl := List.mem_singleton.mp hcall
      by_cases hne : points = []
      · subst hne
        have hnil : shardGroups [] indexed = [] := by
          rw [List.perm_nil.mp hsorted.1]
          rfl
        exact .registered hnil (by simp)
      · obtain ⟨g, hg, hall⟩ := shardGroups_oneShard hsorted hone hne
        exact .waiting hg hall
  | walCommit hi hidle hrequest hnodup hwait =>
    obtain rfl := hsame (by simp)
    intro call hcall hone
    obtain ⟨k, hk, rfl⟩ := List.mem_mapIdx.mp (deliver_eq s.appends _ ▸ hcall)
    have hold := htogether _ (List.getElem_mem hk) hone
    cases hold with
    | waiting hpending hall =>
      refine .waiting (by simp only [hpending]; rfl) fun p hp => ?_
      rw [Group.answered_points]
      exact hall p hp
    | inserted hpending hi hall => exact .inserted (by simp [hpending]) hi hall
    | carried hpending hnone => exact .carried (by simp [hpending]) hnone
    | registered hpending hall => exact .registered (by simp [hpending]) hall
  | @memInsert k points g rest acked hk hall =>
    obtain rfl := hsame (by simp)
    intro call hcall hone
    rcases List.mem_or_eq_of_mem_set hcall with hcall | rfl
    · exact h.together_memInsert hk hcall (htogether call hcall hone)
    · have htask := List.mem_of_getElem? hk
      cases htogether _ htask hone with
      | waiting hpending hpoints =>
        obtain ⟨rfl, rfl⟩ := List.cons.inj hpending
        have hshard := h.store.shards _ htask g (by simp)
        exact .inserted rfl hshard fun p hp =>
          h.mem_insert hk hshard (.inr ⟨rfl, hpoints p hp⟩)
      | inserted hpending _ _ => cases hpending
      | carried hpending _ => cases hpending
      | registered hpending _ => cases hpending
  | @ack k points hk =>
    obtain rfl := hsame (by simp)
    intro call hcall hone
    rcases List.mem_or_eq_of_mem_set hcall with hcall | rfl
    · exact htogether call hcall hone
    · cases htogether _ (List.mem_of_getElem? hk) hone with
      | waiting hpending _ => cases hpending
      | inserted _ hi hall => exact .inserted rfl hi hall
      | carried _ hnone => exact .carried rfl hnone
      | registered _ hall => exact .registered rfl hall
  | sweepDrain hs hflush =>
    obtain rfl := hsame (by simp)
    exact fun call hcall hone => h.together_sweepDrain _ (htogether call hcall hone)
  | sweepRegister hs hlock =>
    refine fun call hcall hone => h.together_chunks hcall (htogether call hcall hone) ?_
    exact hgrows.imp_right fun ⟨c, _, hc⟩ => ⟨c, ⟨_, _, hs⟩, hc⟩
  | _ =>
    obtain rfl := hsame (by simp)
    exact htogether

end DurableRun

/-! ## Runs -/

/-- What the steps of a run respect: those of the server as without
failures, and a batch that something goes wrong with leaves nothing in the
segment. -/
def KeepsAtomic (U : SeriesKey → Prop) (cfg : StorageConfig) (t : FaultyServer) (tr : List Event) :
    FaultyAction → Prop
  | .server a => KeepsDurable U cfg t.server tr a
  | .walFault i refs drain io => t.server.LeavesNothing i refs drain io

instance decidableKeepsAtomic (U : SeriesKey → Prop) [DecidablePred U] (cfg : StorageConfig)
    (t : FaultyServer) (tr : List Event) : ∀ a, Decidable (KeepsAtomic U cfg t tr a)
  | .server a => inferInstanceAs (Decidable (KeepsDurable U cfg t.server tr a))
  | .walFault i refs drain io =>
    inferInstanceAs (Decidable (t.server.LeavesNothing i refs drain io))

/-- What holds in every state of such a run. -/
structure AtomicRun (U : SeriesKey → Prop) (cfg : StorageConfig) (t : FaultyServer)
    (tr : List Event) (live flight : List Chunk) : Prop where
  run : DurableRun U cfg t.server tr live flight
  failed : ∀ ref ∈ t.failed, ∃ g, groupAt t.server.appends ref = some g ∧ g.committed = none
  together : ∀ call ∈ t.server.appends, OneShard cfg call.points →
    Together cfg.numShards t.server.memtables live call

/-- A group that was answered with an error waits for ever. -/
theorem failed_step {cfg : StorageConfig} {s s' : Server} {a : Action} {es : List Event}
    (hstep : Step cfg s a s' es) {ref : Nat × Nat} (href : ref ∉ a.refs)
    (h : ∃ g, groupAt s.appends ref = some g ∧ g.committed = none) :
    ∃ g, groupAt s'.appends ref = some g ∧ g.committed = none := by
  obtain ⟨g, hg, hnone⟩ := h
  cases hstep with
  | append hsorted => exact ⟨g, groupAt_append_left hg, hnone⟩
  | @walCommit i refs drain hi hidle hrequest hnodup hwait =>
    have hout : ref ∉ refs := href
    exact ⟨g, by rw [groupAt_deliver, hg, Option.map_some, answered_of_not_mem _ hout], hnone⟩
  | @memInsert k points g' rest acked hk hall =>
    refine ⟨g, ?_, hnone⟩
    rw [groupAt_set hk, if_neg, hg]
    -- a call that inserts has no group that waits for its log
    rintro rfl
    rw [groupAt, hk] at hg
    have hsome := hall g (List.mem_of_getElem? hg)
    rw [hnone] at hsome
    cases hsome
  | ack hk =>
    refine ⟨g, ?_, hnone⟩
    rw [groupAt_set hk, if_neg, hg]
    rintro rfl
    rw [groupAt, hk] at hg
    cases hg
  | _ => exact ⟨g, hg, hnone⟩

namespace AtomicRun

variable {U : SeriesKey → Prop} {cfg : StorageConfig} {t t' : FaultyServer} {tr es : List Event}
  {live flight : List Chunk}

/-- **One step**. -/
theorem step (hU : KeysOk U) (h : AtomicRun U cfg t tr live flight) {a : FaultyAction}
    (hok : KeepsAtomic U cfg t tr a) (hstep : FaultyStep cfg t a t' es) :
    ∃ live' flight', AtomicRun U cfg t' (tr ++ es) live' flight' := by
  cases hstep with
  | server hrefs hstep =>
    obtain ⟨live', flight', hrun, hgrows⟩ := h.run.step hU hok hstep
    exact ⟨live', flight', hrun, fun ref href => failed_step hstep (fun hmem => hrefs ref hmem href)
      (h.failed ref href), h.run.together_step hstep hgrows h.together⟩
  | walCut hkept hsilent =>
    rcases hok with hok | hok
    · cases hkept.symm.trans hok
    · cases hok.1.symm.trans hsilent
  | walFail hbatch =>
    have hrun := h.run.walFail hbatch hok
    rw [List.append_nil]
    refine ⟨live, flight, hrun, fun ref href => ?_, h.together⟩
    rcases List.mem_append.mp href with href | href
    · exact h.failed ref href
    · cases hbatch with
      | walCommit hi hidle hrequest hnodup hwait =>
        obtain ⟨g, hg, -, hnone⟩ := hwait ref href
        exact ⟨g, hg, hnone⟩

/-- The group of a call of one shard that was answered with an error. -/
theorem waits_of_failed (h : AtomicRun U cfg t tr live flight) {k j : Nat} {call : AppendTask}
    (hk : t.server.appends[k]? = some call) (hone : OneShard cfg call.points)
    (hfailed : (k, j) ∈ t.failed) : ∃ g, call.pending = [g] ∧ g.committed = none ∧ j = 0 ∧
      ∀ p ∈ call.points, p ∈ g.points := by
  obtain ⟨g, hg, hnone⟩ := h.failed _ hfailed
  rw [groupAt, hk] at hg
  change call.pending[j]? = some g at hg
  cases h.together call (List.mem_of_getElem? hk) hone with
  | waiting hpending hall =>
    rw [hpending] at hg
    cases j with
    | zero =>
      obtain rfl := Option.some.inj hg
      exact ⟨_, hpending, hnone, rfl, hall⟩
    | succ j => cases hg
  | inserted hpending _ _ => rw [hpending] at hg; cases hg
  | carried hpending _ => rw [hpending] at hg; cases hg
  | registered hpending _ => rw [hpending] at hg; cases hg

end AtomicRun

/-! ## What queries return -/

/-- A query of the point's metric over all time returns the point. -/
def Server.returns (cfg : StorageConfig) (s : Server) (p : DataPoint) : Prop :=
  p.response ∈ s.query cfg (.all p.metricName)

/-- In a session, a requested point is returned from a memtable or a chunk. -/
theorem StoreOk.returns_iff (hlaw : Crates.LawfulLz4) {U : SeriesKey → Prop} (hU : KeysOk U)
    {cfg : StorageConfig} {s : Server} {requested : List DataPoint} {created : List ChunkId}
    {live flight merged : List Chunk} (h : StoreOk U cfg s requested created live flight merged)
    {p : DataPoint} (hp : U p.key) :
    s.returns cfg p ↔ p ∈ memPoints cfg.numShards s.memtables ∨ p ∈ livePoints live := by
  rw [Server.returns, (h.query_perm hlaw hU _).mem_iff, List.mem_map, ← List.mem_append]
  constructor
  · rintro ⟨q, hq, heq⟩
    have hmem := List.mem_of_mem_filter hq
    have hreq : q ∈ requested := by
      refine h.points.mem_iff.mpr ?_
      rcases List.mem_append.mp hmem with hmem | hmem <;> simp [hmem]
    rwa [← eq_of_response hU (h.keys q hreq) hp heq]
  · exact fun hmem => ⟨p, List.mem_filter.mpr ⟨hmem, Query.selects_all p⟩, rfl⟩

/-- All of the points are returned, or none. -/
def AllOrNone (returns : DataPoint → Prop) (points : List DataPoint) : Prop :=
  (∀ p ∈ points, returns p) ∨ ∀ p ∈ points, ¬ returns p

namespace AtomicRun

variable {U : SeriesKey → Prop} {cfg : StorageConfig} {t : FaultyServer} {s' : Server}
  {tr : List Event} {live flight : List Chunk} {k : Nat} {call : AppendTask}

/-- A point that waits is not returned. -/
theorem not_returns (hlaw : Crates.LawfulLz4) (hU : KeysOk U) (h : AtomicRun U cfg t tr live flight)
    (hcall : call ∈ t.server.appends) {g : Group} (hpending : call.pending = [g]) {p : DataPoint}
    (hp : p ∈ call.points) (hpg : p ∈ g.points) : ¬ t.server.returns cfg p := by
  rw [h.run.store.returns_iff hlaw hU (h.run.key_of_call hcall hp)]
  have hwaits : p ∈ pendingPoints t.server.appends := by
    refine List.mem_flatMap.mpr ⟨call, hcall, List.mem_flatMap.mpr ⟨g, ?_, hpg⟩⟩
    simp [hpending]
  rintro (hmem | hlive)
  · exact h.run.store.distinct_places.slot_ne hwaits (by simp [hmem]) rfl
  · exact h.run.lossy.not_mem_live (.inl hwaits) hlive

/-- **In the session** the points of a call of one shard are all returned or
none is; none if the call was answered with an error. -/
theorem in_session (hlaw : Crates.LawfulLz4) (hU : KeysOk U) (h : AtomicRun U cfg t tr live flight)
    (hk : t.server.appends[k]? = some call) (hone : OneShard cfg call.points) :
    AllOrNone (t.server.returns cfg) call.points ∧
      ∀ j, (k, j) ∈ t.failed → ∀ p ∈ call.points, ¬ t.server.returns cfg p := by
  have hcall := List.mem_of_getElem? hk
  refine ⟨?_, fun j hfailed p hp => ?_⟩
  · have hreturns : ∀ p ∈ call.points, t.server.returns cfg p ↔
        p ∈ memPoints cfg.numShards t.server.memtables ∨ p ∈ livePoints live :=
      fun p hp => h.run.store.returns_iff hlaw hU (h.run.key_of_call hcall hp)
    cases h.together call hcall hone with
    | waiting hpending hall =>
      exact .inr fun p hp => h.not_returns hlaw hU hcall hpending hp (hall p hp)
    | inserted _ hi hall =>
      exact .inl fun p hp => (hreturns p hp).mpr
        (.inl (List.mem_flatMap.mpr ⟨_, List.mem_range.mpr hi, hall p hp⟩))
    | carried _ hnone => exact .inr fun p hp => by simp [hreturns p hp, hnone p hp]
    | registered _ hall => exact .inl fun p hp => (hreturns p hp).mpr (.inr (hall p hp))
  · obtain ⟨g, hpending, -, -, hall⟩ := h.waits_of_failed hk hone hfailed
    exact h.not_returns hlaw hU hcall hpending hp (hall p hp)

/-- The group of a call that has only one is told by any of its points. -/
theorem only_group (h : AtomicRun U cfg t tr live flight) (hk : t.server.appends[k]? = some call)
    {g : Group} (hpending : call.pending = [g]) {ref : Nat × Nat} {g' : Group}
    (hg' : groupAt t.server.appends ref = some g') {p : DataPoint} (hp : p ∈ g.points)
    (hp' : p ∈ g'.points) : ref = (k, 0) ∧ g' = g := by
  have hat : groupAt t.server.appends (k, 0) = some g := by
    rw [groupAt, hk]
    simp [hpending]
  have hplaces : Distinct (pendingPoints t.server.appends) :=
    h.run.store.distinct_places.sublist (List.sublist_append_left ..)
  obtain rfl := groupAt_unique hplaces hg' hat hp' hp rfl
  exact ⟨rfl, Option.some.inj (hg'.symm.trans hat)⟩

/-- The points of a call of one shard all wait for the log or are all in it. -/
theorem waits_or_logged (h : AtomicRun U cfg t tr live flight)
    (hk : t.server.appends[k]? = some call) (hone : OneShard cfg call.points) :
    (∃ g, call.pending = [g] ∧ g.committed = none ∧ ∀ p ∈ call.points, p ∈ g.points) ∨
      ∀ p ∈ call.points, p ∈ loggedPoints tr := by
  have hcall := List.mem_of_getElem? hk
  have hinserted : call.pending = [] → ∀ p ∈ call.points, p ∈ loggedPoints tr := fun hnil p hp =>
    h.run.logged.of_inserted h.run.calls h.run.store.distinct hcall hnil hp
  cases h.together call hcall hone with
  | @waiting g hpending hall =>
    by_cases hnone : g.committed = none
    · exact .inl ⟨g, hpending, hnone, hall⟩
    · refine .inr fun p hp => ?_
      have hreq := h.run.requested_of_call hcall hp
      refine (List.mem_append.mp (h.run.logged.points.mem_iff.mp hreq)).resolve_left fun hun => ?_
      obtain ⟨ref, g', hg', hnone', hpg'⟩ := mem_unloggedPoints.mp hun
      obtain ⟨-, rfl⟩ := h.only_group hk hpending hg' (hall p hp) hpg'
      exact hnone hnone'
  | inserted hpending _ _ => exact .inr (hinserted hpending)
  | carried hpending _ => exact .inr (hinserted hpending)
  | registered hpending _ => exact .inr (hinserted hpending)

/-- **After a crash** and a successful `open`, likewise. -/
theorem after_crash (hlaw : Crates.Lawful) (hU : KeysOk U) (h : AtomicRun U cfg t tr live flight)
    (hk : t.server.appends[k]? = some call) (hone : OneShard cfg call.points) {d : Disk}
    (hcrash : CrashImage cfg t.server t.failed d) (hfit : RecoveryFits cfg d)
    {chunkIds : Nat → ChunkId} (hopen : (openStore cfg chunkIds d).1 = .ok s') :
    AllOrNone (s'.returns cfg) call.points ∧
      ∀ j, (k, j) ∈ t.failed → ∀ p ∈ call.points, ¬ s'.returns cfg p := by
  obtain ⟨cs, hserves, hlogged, honly⟩ :=
    h.run.lossy.serves hlaw.prost hU h.run.durable hcrash hfit hopen
  have hreturns : ∀ p ∈ call.points, s'.returns cfg p ↔ Served s'.index cs p := by
    intro p hp
    rw [Server.returns, hserves.mem_query hlaw.lz4 hU (memPoints_of_open hopen)]
    refine ⟨?_, fun hserved => ⟨p, hserved, Query.selects_all p, rfl⟩⟩
    rintro ⟨q, hserved, -, heq⟩
    have hq : q ∈ requestedPoints tr := by
      rcases honly q hserved with hq | ⟨ref, g, hg, hnone, -, hq, -⟩
      · exact h.run.logged.mem_requested (.inr hq)
      · exact h.run.logged.mem_requested (.inl (mem_unloggedPoints.mpr ⟨ref, g, hg, hnone, hq⟩))
    rwa [← eq_of_response hU (h.run.store.keys q hq)
      (h.run.key_of_call (List.mem_of_getElem? hk) hp) heq]
  -- a group that no log has is served only if its batch was in flight, and then whole
  have hflight : ∀ g, call.pending = [g] → g.committed = none → (∀ p ∈ call.points, p ∈ g.points) →
      ∀ p ∈ call.points, s'.returns cfg p →
        (k, 0) ∉ t.failed ∧ ∀ q ∈ call.points, s'.returns cfg q := by
    intro g hpending hnone hall p hp hret
    rcases honly p ((hreturns p hp).mp hret) with hlog | ⟨ref, g', hg', hnone', href, hpg', hall'⟩
    · have hun : p ∈ unloggedPoints t.server.appends := by
        refine mem_unloggedPoints.mpr ⟨(k, 0), g, ?_, hnone, hall p hp⟩
        rw [groupAt, hk]
        simp [hpending]
      exact absurd rfl (h.run.lossy.distinct_logged.slot_ne hun hlog)
    · obtain ⟨rfl, rfl⟩ := h.only_group hk hpending hg' (hall p hp) hpg'
      exact ⟨href, fun q hq => (hreturns q hq).mpr (hall' q (hall q hq))⟩
  refine ⟨?_, fun j hfailed p hp hret => ?_⟩
  · rcases h.waits_or_logged hk hone with ⟨g, hpending, hnone, hall⟩ | hlog
    · by_cases hsome : ∃ p ∈ call.points, s'.returns cfg p
      · obtain ⟨p, hp, hret⟩ := hsome
        exact .inl (hflight g hpending hnone hall p hp hret).2
      · exact .inr fun p hp hret => hsome ⟨p, hp, hret⟩
    · exact .inl fun p hp => (hreturns p hp).mpr (hlogged p (hlog p hp))
  · obtain ⟨g, hpending, hnone, rfl, hall⟩ := h.waits_of_failed hk hone hfailed
    exact (hflight g hpending hnone hall p hp hret).1 hfailed

end AtomicRun

/-- **Atomicity of a request.** Open empty directories and run any
interleaving of appends, sweeps and snapshots, with batches of the WAL tasks
that are answered with errors and leave nothing in the segment. The points of a
call whose points all go to one shard are returned all or not at all, in every
state of the session and after a crash in it; not at all if the call was
answered with an error. -/
theorem append_atomic (hlaw : Crates.Lawful) (cfg : StorageConfig) {U : SeriesKey → Prop}
    (hU : KeysOk U) (chunkIds : Nat → ChunkId) {s₀ : Server} {t : FaultyServer}
    (actions : List FaultyAction) {tr : List Event}
    (hopen : (openStore cfg chunkIds .empty).1 = .ok s₀)
    (hsteps : Runs.Along (faultyStep cfg) (KeepsAtomic U cfg) ⟨s₀, []⟩ [] actions)
    (hrun : Runs.run (faultyStep cfg) ⟨s₀, []⟩ actions = some (t, tr)) :
    ∀ k call, t.server.appends[k]? = some call → OneShard cfg call.points →
      (AllOrNone (t.server.returns cfg) call.points ∧
        ∀ j, (k, j) ∈ t.failed → ∀ p ∈ call.points, ¬ t.server.returns cfg p) ∧
      ∀ (chunkIds' : Nat → ChunkId) (d : Disk) (s' : Server), CrashImage cfg t.server t.failed d →
        RecoveryFits cfg d → (openStore cfg chunkIds' d).1 = .ok s' →
        AllOrNone (s'.returns cfg) call.points ∧
          ∀ j, (k, j) ∈ t.failed → ∀ p ∈ call.points, ¬ s'.returns cfg p := by
  obtain rfl := fresh_of_openStore hopen
  have hinv : ∃ live flight, AtomicRun U cfg t ([] ++ tr) live flight :=
    Runs.run_invariant (P := KeepsAtomic U cfg)
      (I := fun t tr => ∃ live flight, AtomicRun U cfg t tr live flight)
      (fun ⟨_, _, hinv⟩ hok hstep => hinv.step hU hok (faultyStep_sound hstep))
      ⟨[], [], .fresh U cfg, by simp, by simp [Server.fresh, Server.start]⟩ hsteps hrun
  obtain ⟨live, flight, h⟩ := hinv
  intro k call hcall hone
  exact ⟨h.in_session hlaw.lz4 hU hcall hone, fun chunkIds' d s' hcrash hfit hreopen =>
    h.after_crash hlaw hU hcall hone hcrash hfit hreopen⟩

end

/-! ## Runs with failed batches -/

section Example

attribute [local instance] Reference.crates

/-- The series of these runs. -/
def cpuOrDisk (k : SeriesKey) : Prop := k = ⟨"cpu", ∅⟩ ∨ k = ⟨"disk", ∅⟩

instance decidableCpuOrDisk : DecidablePred cpuOrDisk := fun _ =>
  inferInstanceAs (Decidable (_ ∨ _))

theorem keysOk_cpuOrDisk : KeysOk cpuOrDisk where
  codec := by
    rintro k (rfl | rfl)
    · exact SeriesKey.fromBytes_of_roundTrips (by decide +kernel)
    · exact SeriesKey.fromBytes_of_roundTrips (by decide +kernel)
  inj := by
    have hne : SeriesKey.id ⟨"cpu", ∅⟩ ≠ SeriesKey.id ⟨"disk", ∅⟩ := by decide +kernel
    rintro k k' (rfl | rfl) (rfl | rfl) hid
    · rfl
    · exact absurd hid hne
    · exact absurd hid.symm hne
    · rfl

/-- A request of two points in shard 1 that succeeds, and two in shard 0: the
write and the fsync of the first one fail, and the second one finds the error. -/
def failedRun : List FaultyAction :=
  [.server (.append [cpuPoint 5 7, cpuPoint 6 8] [(1, 0), (1, 1)]),
    .server (.append [diskPoint 5 7] [(0, 0)]), .server (.append [diskPoint 6 8] [(0, 0)]),
    .server (.walCommit 1 [(0, 0)] none), .walFault 0 [(1, 0)] none ⟨some 0, false⟩,
    .walFault 0 [(2, 0)] none .ok, .server (.walFinish 1), .server (.memInsert 0), .server (.ack 0)]

theorem append_atomic_failed : ∃ t tr s',
    Runs.run (faultyStep twoShards) ⟨.fresh twoShards, []⟩ failedRun = some (t, tr) ∧
    t.failed = [(1, 0), (2, 0)] ∧
    (openStore twoShards (fun i => 100 + .ofNat i) t.server.disk).1 = .ok s' ∧
    AllOrNone (s'.returns twoShards) [cpuPoint 5 7, cpuPoint 6 8] ∧
    ∀ p ∈ [diskPoint 5 7], ¬ s'.returns twoShards p := by
  have hrun : ((Runs.run (faultyStep twoShards) ⟨.fresh twoShards, []⟩ failedRun).any fun r =>
      (openStore twoShards (fun i => 100 + .ofNat i) r.1.server.disk).1.toOption.any fun _ =>
        (r.1.server.appends[0]?).any (fun call => call.points = [cpuPoint 5 7, cpuPoint 6 8]) &&
          (r.1.server.appends[1]?).any (fun call => call.points = [diskPoint 5 7]) &&
          decide (r.1.failed = [(1, 0), (2, 0)]) &&
          recoveryFits twoShards r.1.server.disk) = true := by
    decide +kernel
  obtain ⟨t, tr, hrun, hstate⟩ := Runs.exists_of_any hrun
  obtain ⟨s', hreopen, hstate⟩ := Runs.exists_ok_of_any hstate
  simp only [Bool.and_eq_true, decide_eq_true_eq, Option.any_eq_true] at hstate
  obtain ⟨⟨⟨⟨cpus, hcpus, hcpu⟩, disks, hdisks, hdisk⟩, hfailed⟩, hfits⟩ := hstate
  have hatomic := append_atomic Reference.lawful twoShards keysOk_cpuOrDisk (fun _ => 0) failedRun
    (openStore_empty twoShards _) (by decide +kernel) hrun
  have hcrash := CrashImage.self twoShards t.server t.failed
  obtain ⟨-, hafter⟩ := hatomic 0 cpus hcpus (by rw [hcpu]; decide +kernel)
  obtain ⟨-, hafter'⟩ := hatomic 1 disks hdisks (by rw [hdisk]; decide +kernel)
  rw [hcpu] at hafter
  rw [hdisk] at hafter'
  exact ⟨t, tr, s', hrun, hfailed, hreopen,
    (hafter _ _ s' hcrash (recoveryFits_iff hfits) hreopen).1,
    (hafter' _ _ s' hcrash (recoveryFits_iff hfits) hreopen).2 0 (by simp [hfailed])⟩

/-- A request with a point in each shard: shard 0 commits its part, the write
of shard 1 fails at its first byte and its fsync fails too. -/
def splitRun : List FaultyAction :=
  [.server (.append [diskPoint 5 7, cpuPoint 5 7] [(0, 0), (1, 1)]),
    .server (.walCommit 0 [(0, 0)] none), .walFault 1 [(0, 1)] none ⟨some 0, false⟩]

/-- The same request; the write of shard 1 fails at its first byte and its
fsync succeeds, so that the call goes on and is acknowledged. -/
def cutRun : List FaultyAction :=
  [.server (.append [diskPoint 5 7, cpuPoint 5 7] [(0, 0), (1, 1)]),
    .server (.walCommit 0 [(0, 0)] none), .walFault 1 [(0, 1)] none ⟨some 0, true⟩,
    .server (.memInsert 0), .server (.memInsert 0), .server (.ack 0)]

/-- The first call was answered with an error, and after a crash its part of
shard 0 is back. The second call is acknowledged, and both of its points are
returned; after a crash only its part of shard 0 is. -/
theorem append_not_atomic :
    (∃ t tr call s',
      Runs.Along (faultyStep twoShards) (KeepsAtomic cpuOrDisk twoShards) ⟨.fresh twoShards, []⟩ []
        splitRun ∧
      Runs.run (faultyStep twoShards) ⟨.fresh twoShards, []⟩ splitRun = some (t, tr) ∧
      t.server.appends[0]? = some call ∧ call.points = [diskPoint 5 7, cpuPoint 5 7] ∧
      (0, 1) ∈ t.failed ∧ CrashImage twoShards t.server t.failed t.server.disk ∧
      (openStore twoShards (fun i => 100 + .ofNat i) t.server.disk).1 = .ok s' ∧
      s'.returns twoShards (diskPoint 5 7) ∧ ¬ s'.returns twoShards (cpuPoint 5 7)) ∧
    ∃ t tr s', Runs.run (faultyStep twoShards) ⟨.fresh twoShards, []⟩ cutRun = some (t, tr) ∧
      ackedPoints tr = [diskPoint 5 7, cpuPoint 5 7] ∧
      t.server.returns twoShards (diskPoint 5 7) ∧ t.server.returns twoShards (cpuPoint 5 7) ∧
      CrashImage twoShards t.server t.failed t.server.disk ∧
      (openStore twoShards (fun i => 100 + .ofNat i) t.server.disk).1 = .ok s' ∧
      s'.returns twoShards (diskPoint 5 7) ∧ ¬ s'.returns twoShards (cpuPoint 5 7) := by
  have hsplit : ((Runs.run (faultyStep twoShards) ⟨.fresh twoShards, []⟩ splitRun).any fun r =>
      (openStore twoShards (fun i => 100 + .ofNat i) r.1.server.disk).1.toOption.any fun s' =>
        (r.1.server.appends[0]?).any (fun call => call.points = [diskPoint 5 7, cpuPoint 5 7]) &&
          decide ((0, 1) ∈ r.1.failed) &&
          decide ((diskPoint 5 7).response ∈ s'.query twoShards (.all "disk")) &&
          decide ((cpuPoint 5 7).response ∉ s'.query twoShards (.all "cpu"))) = true := by
    decide +kernel
  have hcut : ((Runs.run (faultyStep twoShards) ⟨.fresh twoShards, []⟩ cutRun).any fun r =>
      (openStore twoShards (fun i => 100 + .ofNat i) r.1.server.disk).1.toOption.any fun s' =>
        decide (ackedPoints r.2 = [diskPoint 5 7, cpuPoint 5 7]) &&
          decide ((diskPoint 5 7).response ∈ r.1.server.query twoShards (.all "disk")) &&
          decide ((cpuPoint 5 7).response ∈ r.1.server.query twoShards (.all "cpu")) &&
          decide ((diskPoint 5 7).response ∈ s'.query twoShards (.all "disk")) &&
          decide ((cpuPoint 5 7).response ∉ s'.query twoShards (.all "cpu"))) = true := by
    decide +kernel
  constructor
  · obtain ⟨t, tr, hrun, hstate⟩ := Runs.exists_of_any hsplit
    obtain ⟨s', hreopen, hstate⟩ := Runs.exists_ok_of_any hstate
    simp only [Bool.and_eq_true, decide_eq_true_eq, Option.any_eq_true] at hstate
    obtain ⟨⟨⟨⟨call, hcall, hpoints⟩, hfailed⟩, hdisk⟩, hcpu⟩ := hstate
    exact ⟨t, tr, call, s', by decide +kernel, hrun, hcall, hpoints, hfailed, .self .., hreopen,
      hdisk, hcpu⟩
  · obtain ⟨t, tr, hrun, hstate⟩ := Runs.exists_of_any hcut
    obtain ⟨s', hreopen, hstate⟩ := Runs.exists_ok_of_any hstate
    simp only [Bool.and_eq_true, decide_eq_true_eq] at hstate
    obtain ⟨⟨⟨⟨hacked, hdisk⟩, hcpu⟩, hdisk'⟩, hcpu'⟩ := hstate
    exact ⟨t, tr, s', hrun, hacked, hdisk, hcpu, .self .., hreopen, hdisk', hcpu'⟩

-- an fsync that fails leaves the whole entry in the segment, to be replayed
example : ((Runs.run (faultyStep oneShard) ⟨.fresh oneShard, []⟩
    [.server (.append [cpuPoint 5 7] [(0, 0)]),
      .walFault 0 [(0, 0)] none ⟨none, false⟩]).any fun r =>
      (openStore oneShard (fun _ => 100) r.1.server.disk).1.toOption.any fun s' =>
        decide ((0, 0) ∈ r.1.failed) &&
          decide ((cpuPoint 5 7).response ∈ s'.query oneShard (.all "cpu"))) = true := by
  decide +kernel

end Example

end Micius

import Micius.Server.Durable

/-!
# Crashes

A crash leaves the files as they are, apart from what was being written: a
chunk file that nothing names yet, and a first part of the frames of a batch
at the end of a segment. `open` then serves the chunks of the snapshot and
the entries of the logs above its watermarks, so a point that a log has is
served, whether it is in a chunk or not.
-/

namespace Micius

section

variable [Crates]

/-! ## What a crash leaves -/

/-- The log of shard `i` after a crash: as it was, or with a first part of
the frames of a batch that the WAL task was writing. The groups at the
positions `failed` have been answered and are in no batch. -/
inductive LogLeft (cfg : StorageConfig) (s : Server) (failed : List (Nat × Nat)) (i : Nat) :
    WalDir → Prop
  | whole : LogLeft cfg s failed i (s.disk.wal i)
  | torn {refs : List (Nat × Nat)} {drain : Option Nat} {s' : Server} {es : List Event}
      (hbatch : Step cfg s (.walCommit i refs drain) s' es) (hrefs : ∀ ref ∈ refs, ref ∉ failed)
      (hfits : BatchesFit s (.walCommit i refs drain)) (cut : Nat) :
      LogLeft cfg s failed i ((s.disk.wal i).apply
        (.write (s.wals i).writer.file ((frames (s.batches (.walCommit i refs drain))).take cut)))

/-- The files after a crash in state `s`. -/
structure CrashImage (cfg : StorageConfig) (s : Server) (failed : List (Nat × Nat)) (d : Disk) :
    Prop where
  snapshot : d.snapshot = s.disk.snapshot
  chunks : ∀ (path : ChunkPath) (bytes : Bytes), s.disk.chunks[path]? = some bytes →
    d.chunks[path]? = some bytes
  wal : ∀ i < cfg.numShards, LogLeft cfg s failed i (d.wal i)

/-- A crash between two steps. -/
theorem CrashImage.self (cfg : StorageConfig) (s : Server) (failed : List (Nat × Nat)) :
    CrashImage cfg s failed s.disk where
  snapshot := rfl
  chunks _ _ h := h
  wal _ _ := .whole

/-- The batches of a log after a crash, file by file: those of the trace, and
maybe some of a batch whose groups still wait. -/
structure LeftFiles (s : Server) (failed : List (Nat × Nat)) (tr : List Event) (i : Nat)
    (dir : WalDir) (file : Nat → SegFile) : Prop where
  bytes : ∀ (seg : Nat) (bytes : Bytes), dir[seg]? = some bytes → bytes = (file seg).bytes
  kept : ∀ seg ∈ s.disk.wal i, seg ∈ dir
  logged : ∀ seg b, .committed i seg b ∈ tr → b ∈ (file seg).batches
  only : ∀ seg, ∀ b ∈ (file seg).batches, .committed i seg b ∈ tr ∨
    ∃ ref g, groupAt s.appends ref = some g ∧ g.shard = i ∧ g.committed = none ∧
      g.points = b.2 ∧ ref ∉ failed

/-- The frames of a segment of the log. -/
def loggedFile {tr : List Event} {i : Nat} (h : ∀ seg b, .committed i seg b ∈ tr → b.Fits)
    (seg : Nat) : SegFile where
  batches := segmentLog tr i seg
  tail := []
  fits b hb := h seg b (mem_segmentLog.mp hb)
  torn := .inl rfl

theorem LogLeft.files {cfg : StorageConfig} {s : Server} {failed : List (Nat × Nat)}
    {tr : List Event} {i : Nat} {dir : WalDir} (h : LogLeft cfg s failed i dir)
    (hlogged : ∀ seg b, .committed i seg b ∈ tr → b.Fits) (hwal : s.WalOk tr i) :
    ∃ file, LeftFiles s failed tr i dir file := by
  cases h with
  | whole =>
    refine ⟨loggedFile hlogged, ?_, fun seg hseg => hseg, fun seg b hb => mem_segmentLog.mpr hb,
      fun seg b hb => .inl (mem_segmentLog.mp hb)⟩
    intro seg bytes hget
    rw [SegFile.bytes, loggedFile, List.append_nil]
    exact (hwal.content seg bytes hget).1
  | @torn refs drain s' es hbatch hrefs hfits cut =>
    obtain ⟨tail, htake, htail⟩ := take_frames hfits cut
    let current : SegFile :=
      { batches := segmentLog tr i (s.wals i).writer.file ++
          framesBefore cut (s.batches (.walCommit i refs drain))
        tail := tail
        fits := by
          intro b hb
          rcases List.mem_append.mp hb with hb | hb
          · exact hlogged _ b (mem_segmentLog.mp hb)
          · exact hfits b ((framesBefore_sublist cut _).subset hb)
        torn := htail }
    refine ⟨fun seg => if seg = (s.wals i).writer.file then current else loggedFile hlogged seg,
      ?_, ?_, ?_, ?_⟩
    · intro seg bytes hget
      rw [WalDir.apply, TreeMap.getElem?_insert_eq] at hget
      split at hget
      · next hseg =>
        obtain ⟨old, hold⟩ := Option.isSome_iff_exists.mp
          (Std.ExtTreeMap.mem_iff_isSome_getElem?.mp (hwal.file_eq ▸ hwal.current))
        rw [hold, Option.getD_some, (hwal.content _ old hold).1, htake] at hget
        rw [if_pos hseg, ← Option.some.inj hget, SegFile.bytes, frames_append, List.append_assoc]
      · next hseg =>
        rw [if_neg hseg, SegFile.bytes, loggedFile, List.append_nil]
        exact (hwal.content seg bytes hget).1
    · exact fun seg hseg => Std.ExtTreeMap.mem_insert.mpr (.inr hseg)
    · intro seg b hb
      show b ∈ SegFile.batches (if _ then _ else _)
      split
      · next hseg => exact List.mem_append_left _ (mem_segmentLog.mpr (hseg ▸ hb))
      · exact mem_segmentLog.mpr hb
    · intro seg b hb
      change b ∈ SegFile.batches (if _ then _ else _) at hb
      split at hb
      · next hseg =>
        rcases List.mem_append.mp hb with hb | hb
        · exact .inl (hseg ▸ mem_segmentLog.mp hb)
        · -- a batch in flight is the group of a call that waits
          have hb := (framesBefore_sublist cut _).subset hb
          change b ∈ numbered _ ((messagesAt s.appends refs).map Prod.snd) at hb
          rw [numbered_map] at hb
          obtain ⟨r, hr, rfl⟩ := List.mem_map.mp hb
          obtain ⟨href, g, hg, hpts⟩ := mem_messagesAt.mp (mem_of_mem_numbered hr)
          cases hbatch with
          | walCommit hi hidle hrequest hnodup hwait =>
            obtain ⟨g', hg', hshard, hnone⟩ := hwait _ href
            obtain rfl : g = g' := Option.some.inj (hg.symm.trans hg')
            exact .inr ⟨_, g, hg, hshard, hnone, hpts, hrefs _ href⟩
      · exact .inl (mem_segmentLog.mp hb)

/-- A point that a log replays is a requested one of the shard, in a batch of
the trace or in a group that waits. -/
theorem LeftFiles.point {cfg : StorageConfig} {s : Server} {failed : List (Nat × Nat)}
    {tr : List Event} {i : Nat} {dir : WalDir} {file : Nat → SegFile}
    (h : LeftFiles s failed tr i dir file) (hlogged : LoggedOnce cfg s tr) (hrouted : Routed cfg s)
    {seg : Nat} {b : Batch} (hb : b ∈ (file seg).batches) {p : DataPoint} (hp : p ∈ b.2) :
    p ∈ requestedPoints tr ∧ shardIndex p cfg.numShards = i ∧
      (.committed i seg b ∈ tr ∨ p ∈ unloggedPoints s.appends) := by
  rcases h.only seg b hb with hb | ⟨ref, g, hg, hshard, hnone, hpts, -⟩
  · exact ⟨hlogged.mem_requested (.inr (mem_loggedPoints.mpr ⟨i, seg, b, hb, hp⟩)),
      (hlogged.routed i seg b hb).2 p hp, .inl hb⟩
  · have hun : p ∈ unloggedPoints s.appends :=
      mem_unloggedPoints.mpr ⟨ref, g, hg, hnone, hpts ▸ hp⟩
    obtain ⟨t, ht, hj⟩ := Option.bind_eq_some_iff.mp hg
    refine ⟨hlogged.mem_requested (.inl hun), ?_, .inr hun⟩
    rw [← hshard]
    exact hrouted.pending t (List.mem_of_getElem? ht) g (List.mem_of_getElem? hj) p (hpts ▸ hp)

/-! ## What is served after a crash -/

/-- The recovery chunks fit their fields. -/
def RecoveryFits (cfg : StorageConfig) (d : Disk) : Prop :=
  ∀ i < cfg.numShards, ∀ r, recover (d.wal i) (d.watermark i) = .ok r →
    (SeriesData.insertPoints ∅ r.points).Fits

namespace LossyRun

variable {U : SeriesKey → Prop} {cfg : StorageConfig} {s s' : Server} {tr : List Event}
  {kept lost : List DataPoint} {live flight : List Chunk} {failed : List (Nat × Nat)} {d : Disk}

/-- A point in a chunk is in a log. -/
theorem logged_of_live (h : LossyRun U cfg s tr kept lost live flight) {p : DataPoint}
    (hp : p ∈ livePoints live) : p ∈ loggedPoints tr := by
  have hkept : p ∈ kept := h.store.points.mem_iff.mpr (by simp [hp])
  have hreq := h.points.mem_iff.mpr (List.mem_append_left lost hkept)
  refine (List.mem_append.mp (h.logged.points.mem_iff.mp hreq)).resolve_left fun hun => ?_
  exact h.not_mem_live (.inl ((unloggedPoints_sublist _).subset hun)) hp

/-- A chunk with a batch below the watermark has no point that is replayed. -/
theorem replayed_below (h : LossyRun U cfg s tr kept lost live flight) {i w : Nat} {cs : List Chunk}
    (hcov : Covers cs tr i w) (hsub : ∀ c ∈ cs, c ∈ live) {c : Chunk} (hc : c ∈ cs)
    {p : DataPoint} (hp : p ∈ c.points) {seg : Nat} {b : Batch} (hb : .committed i seg b ∈ tr)
    (hpb : p ∈ b.2) (hle : b.1 ≤ w) {q : DataPoint} (hq : q ∈ c.points) {dir : WalDir}
    {file : Nat → SegFile} (hfile : LeftFiles s failed tr i dir file) {seg' : Nat} {b' : Batch}
    (hb' : b' ∈ (file seg').batches) (hqb : q ∈ b'.2) : b'.1 ≤ w := by
  rcases (hfile.point h.logged h.routed hb' hqb).2.2 with hcommitted | hun
  · rcases hcov.sides c hc with hside | hside
    · exact hside q hq seg' b' hcommitted hqb
    · exact absurd hle (Nat.not_le.mpr (hside p hp seg b hb hpb))
  · refine absurd (List.mem_flatMap.mpr ⟨c, hsub c hc, hq⟩) ?_
    exact h.not_mem_live (.inl ((unloggedPoints_sublist _).subset hun))

/-- **What is served after a crash**: every point that a log has; another
point only if it is in a group that was being written, and then all of the
group. -/
theorem serves (hlaw : Crates.LawfulProst) (hU : KeysOk U)
    (h : LossyRun U cfg s tr kept lost live flight) (hdurable : Durable U cfg s tr live)
    (hcrash : CrashImage cfg s failed d) (hfit : RecoveryFits cfg d) {chunkIds : Nat → ChunkId}
    (hopen : (openStore cfg chunkIds d).1 = .ok s') :
    ∃ cs, StoreServes U s'.index s'.disk.chunks cs ∧
      (∀ p ∈ loggedPoints tr, Served s'.index cs p) ∧
      ∀ p, Served s'.index cs p → p ∈ loggedPoints tr ∨
        ∃ ref g, groupAt s.appends ref = some g ∧ g.committed = none ∧ ref ∉ failed ∧
          p ∈ g.points ∧ ∀ q ∈ g.points, Served s'.index cs q := by
  have hloaded : d.loadedIndex = s.disk.loadedIndex := by
    rw [Disk.loadedIndex, Disk.loadedIndex, hcrash.snapshot]
  have hwatermark : ∀ i, d.loadedIndex.watermark i = s.disk.watermark i := by
    intro i
    rw [hloaded]
    rfl
  obtain ⟨saved, hidx, hsub, hmarks⟩ := hdurable.saved
  -- what every shard replays
  have hreplay : ∀ i, ∃ file r, i < cfg.numShards → LeftFiles s failed tr i (d.wal i) file ∧
      recover (d.wal i) (d.watermark i) = .ok r ∧ ∀ p, p ∈ r.points ↔
        ∃ seg ∈ d.wal i, ∃ b ∈ (file seg).batches, s.disk.watermark i < b.1 ∧ p ∈ b.2 := by
    intro i
    by_cases hi : i < cfg.numShards
    · obtain ⟨file, hfile⟩ := (hcrash.wal i hi).files (h.logged.fits i) (h.wal i hi)
      obtain ⟨r, hr, -, hpoints⟩ := recover_files hlaw file hfile.bytes (d.watermark i)
      refine ⟨file, r, fun _ => ⟨hfile, hr, fun p => ?_⟩⟩
      rw [hpoints, ← hwatermark]
      rfl
    · exact ⟨loggedFile (h.logged.fits i), .empty, fun hi' => absurd hi' hi⟩
  choose file result hreplay using hreplay
  have hpoint : ∀ i < cfg.numShards, ∀ p ∈ (result i).points, p ∈ requestedPoints tr ∧
      shardIndex p cfg.numShards = i := by
    intro i hi p hp
    obtain ⟨hfile, -, hpoints⟩ := hreplay i hi
    obtain ⟨seg, -, b, hb, -, hpb⟩ := (hpoints p).mp hp
    obtain ⟨hreq, hshard, -⟩ := hfile.point h.logged h.routed hb hpb
    exact ⟨hreq, hshard⟩
  have hlogs : LogsHold U cfg d.loadedIndex d (fun i => (result i).points)
      (List.range cfg.numShards) := by
    refine ⟨?_, ?_, ?_, ?_, ?_⟩ <;> intro i hi <;> rw [List.mem_range] at hi
    · intro r hr
      obtain rfl := Except.ok.inj ((hreplay i hi).2.1.symm.trans hr)
      rfl
    · exact fun p hp => (hpoint i hi p hp).2
    · exact fun p hp => h.keys p (hpoint i hi p hp).1
    · exact fun p hp q hq => h.distinct.eq_of_slot (hpoint i hi p hp).1 (hpoint i hi q hq).1
    · exact hfit i hi _ (hreplay i hi).2.1
  have hstart : StoreServes U d.loadedIndex d.chunks saved := by
    refine ⟨hloaded ▸ hidx.sound, fun c hc => ?_⟩
    obtain ⟨hfits, bytes, result, hw, hget⟩ := h.store.files.onDisk c (by simp [hsub c hc])
    exact ⟨hfits, bytes, result, hw, hcrash.chunks _ _ hget⟩
  obtain ⟨cs, hserves, halso⟩ := openStore_serves hU hopen hstart hlogs
  have hnew : ∀ i < cfg.numShards, ∀ p ∈ (result i).points, Served s'.index cs p :=
    fun i hi p hp => halso.new p (List.mem_flatMap.mpr ⟨i, List.mem_range.mpr hi, hp⟩)
  refine ⟨cs, hserves, fun p hp => ?_, fun p hp => ?_⟩
  · obtain ⟨i, seg, b, hb, hpb⟩ := mem_loggedPoints.mp hp
    obtain ⟨hi, hshard⟩ := h.logged.routed i seg b hb
    by_cases hle : b.1 ≤ s.disk.watermark i
    · -- in a chunk of the snapshot, all of which is below the watermark
      obtain ⟨c, hc, hpc⟩ := List.mem_flatMap.mp ((hmarks i hi).2.below seg b hb hle p hpb)
      obtain ⟨t, hserved, q, hq, hslot⟩ := hidx.servedAt hc hpc
      refine ⟨t, halso.old p t (hloaded ▸ hserved) fun p' hp' hslot' => ?_⟩
      obtain ⟨j, hj, hp'⟩ := List.mem_flatMap.mp hp'
      rw [List.mem_range] at hj
      have hqlive : q ∈ livePoints live := List.mem_flatMap.mpr ⟨c, hsub c hc, hq⟩
      obtain rfl : p' = q := h.distinct.eq_of_slot (hpoint j hj p' hp').1
        (h.logged.mem_requested (.inr (h.logged_of_live hqlive))) (hslot'.trans hslot.symm)
      obtain rfl : i = j := by
        rw [← hshard p hpb, ← shardIndex_of_key (congrArg Prod.fst hslot)]
        exact (hpoint j hj p' hp').2
      obtain ⟨hfile, -, hpoints⟩ := hreplay i hi
      obtain ⟨seg', -, b', hb', hlt, hpb'⟩ := (hpoints p').mp hp'
      exact absurd hlt (Nat.not_lt.mpr (h.replayed_below (hmarks i hi).2 hsub hc hpc hb hpb hle hq
        hfile hb' hpb'))
    · -- in the log
      have hseg := (hdurable.present i hi seg b hb).resolve_right hle
      obtain ⟨hfile, -, hpoints⟩ := hreplay i hi
      exact hnew i hi p ((hpoints p).mpr ⟨seg, hfile.kept seg hseg, b, hfile.logged seg b hb,
        Nat.lt_of_not_le hle, hpb⟩)
  · rcases halso.only p hp with hp | hp
    · obtain ⟨i, hi, hp⟩ := List.mem_flatMap.mp hp
      rw [List.mem_range] at hi
      obtain ⟨hfile, -, hpoints⟩ := hreplay i hi
      obtain ⟨seg, hseg, b, hb, hlt, hpb⟩ := (hpoints p).mp hp
      rcases hfile.only seg b hb with hb' | ⟨ref, g, hg, hshard, hnone, hpts, hnot⟩
      · exact .inl (mem_loggedPoints.mpr ⟨i, seg, b, hb', hpb⟩)
      · refine .inr ⟨ref, g, hg, hnone, hnot, hpts ▸ hpb, fun q hq => hnew i hi q ?_⟩
        exact (hpoints q).mpr ⟨seg, hseg, b, hb, hlt, hpts ▸ hq⟩
    · obtain ⟨c, hc, hpc⟩ := List.mem_flatMap.mp hp.mem_livePoints
      exact .inl (h.logged_of_live (List.mem_flatMap.mpr ⟨c, hsub c hc, hpc⟩))

end LossyRun

/-! ## Acknowledged points -/

theorem DurableRun.run {U : SeriesKey → Prop} (hU : KeysOk U) {cfg : StorageConfig}
    {s s' : Server} {tr es : List Event} {actions : List Action}
    (h : ∃ live flight, DurableRun U cfg s tr live flight)
    (hsteps : Runs.Along (Micius.step cfg) (KeepsDurable U cfg) s tr actions)
    (hrun : Runs.run (Micius.step cfg) s actions = some (s', es)) :
    ∃ live flight, DurableRun U cfg s' (tr ++ es) live flight :=
  Runs.run_invariant (P := KeepsDurable U cfg)
    (I := fun s tr => ∃ live flight, DurableRun U cfg s tr live flight)
    (fun ⟨_, _, hinv⟩ hok hstep => by
      obtain ⟨live', flight', hinv', -⟩ := hinv.step hU hok (step_sound hstep)
      exact ⟨live', flight', hinv'⟩) h hsteps hrun

/-- **Acknowledged writes survive a crash.** Open empty directories and run
any interleaving of appends, sweeps and snapshots in which the sweep reads
the sequence number of a flushed shard and no snapshot lowers a watermark.
After a crash and a successful `open`, a query of a metric returns every
point of the metric that was acknowledged. -/
theorem acked_survives_crash (hlaw : Crates.Lawful) (cfg : StorageConfig) {U : SeriesKey → Prop}
    (hU : KeysOk U) (chunkIds chunkIds' : Nat → ChunkId) {s₀ s s' : Server}
    (actions : List Action) {tr : List Event} {d : Disk}
    (hopen : (openStore cfg chunkIds .empty).1 = .ok s₀)
    (hsteps : Runs.Along (step cfg) (KeepsDurable U cfg) s₀ [] actions)
    (hrun : Runs.run (step cfg) s₀ actions = some (s, tr)) (hcrash : CrashImage cfg s [] d)
    (hfit : RecoveryFits cfg d) (hreopen : (openStore cfg chunkIds' d).1 = .ok s') :
    ∀ p ∈ ackedPoints tr, p.response ∈ s'.query cfg (.all p.metricName) := by
  obtain rfl := fresh_of_openStore hopen
  obtain ⟨live, flight, h⟩ := DurableRun.run hU ⟨[], [], .fresh U cfg⟩ hsteps hrun
  obtain ⟨cs, hserves, hlogged, -⟩ := h.lossy.serves hlaw.prost hU h.durable hcrash hfit hreopen
  intro p hp
  exact (hserves.mem_query hlaw.lz4 hU (memPoints_of_open hreopen) _).mpr
    ⟨p, hlogged p (h.logged.of_acked h.calls h.store.distinct hp), Query.selects_all p, rfl⟩

end

/-! ## Runs with a crash -/

section Example

attribute [local instance] Reference.crates

/-- An append, a sweep, a snapshot and a second append. -/
def durableRun : List Action :=
  appendSteps 0 (cpuPoint 5 7) ++ sweepSteps 100 0 ++ snapshotSteps 0 ++ appendSteps 1 (cpuPoint 6 8)

/-- The size condition of a recovery, computed. -/
def recoveryFits (cfg : StorageConfig) (d : Disk) : Bool :=
  (List.range cfg.numShards).all fun i =>
    match recover (d.wal i) (d.watermark i) with
    | .ok r => (SeriesData.insertPoints ∅ r.points).Fits
    | .error _ => true

theorem recoveryFits_iff {cfg : StorageConfig} {d : Disk} (h : recoveryFits cfg d = true) :
    RecoveryFits cfg d := by
  intro i hi r hr
  have := List.all_eq_true.mp h i (List.mem_range.mpr hi)
  rw [hr] at this
  exact of_decide_eq_true this

theorem acked_survives_crash_swept : ∃ s tr s',
    Runs.run (step oneShard) (.fresh oneShard) durableRun = some (s, tr) ∧
    ackedPoints tr = [cpuPoint 5 7, cpuPoint 6 8] ∧
    (openStore oneShard (fun _ => 101) s.disk).1 = .ok s' ∧
    ∀ p ∈ ackedPoints tr, p.response ∈ s'.query oneShard (.all p.metricName) := by
  have hrun : ((Runs.run (step oneShard) (.fresh oneShard) durableRun).any fun r =>
      (openStore oneShard (fun _ => 101) r.1.disk).1.toOption.any fun _ =>
        ackedPoints r.2 = [cpuPoint 5 7, cpuPoint 6 8] && recoveryFits oneShard r.1.disk) = true := by
    decide +kernel
  obtain ⟨s, tr, hrun, hstate⟩ := Runs.exists_of_any hrun
  obtain ⟨s', hreopen, hstate⟩ := Runs.exists_ok_of_any hstate
  simp only [Bool.and_eq_true, decide_eq_true_eq] at hstate
  exact ⟨s, tr, s', hrun, hstate.1, hreopen, acked_survives_crash Reference.lawful oneShard keysOk_cpu
    (fun _ => 0) (fun _ => 101) durableRun (openStore_empty oneShard _) (by decide +kernel) hrun
    (.self oneShard s []) (recoveryFits_iff hstate.2) hreopen⟩

/-- The second append is committed, inserted and answered after the sweep has
drained the shard and before it reads the sequence number; then a snapshot. -/
def racingRun : List Action :=
  appendSteps 0 (cpuPoint 5 7) ++ [.sweepLock, .sweepWrite 100, .sweepRegister] ++
    appendSteps 1 (cpuPoint 6 8) ++ [.sweepReadSequence, .sweepPublish] ++ snapshotSteps 0

/-- The watermark covers the second append, which is in no chunk: after a
crash it is gone. -/
theorem acked_lost_in_crash : ∃ s tr s',
    Runs.Along (step oneShard) (StepsOk (· = ⟨"cpu", ∅⟩)) (.fresh oneShard) [] racingRun ∧
    (∀ a ∈ racingRun, a.isCompaction = false) ∧
    Runs.run (step oneShard) (.fresh oneShard) racingRun = some (s, tr) ∧
    cpuPoint 6 8 ∈ ackedPoints tr ∧ CrashImage oneShard s [] s.disk ∧
    (openStore oneShard (fun _ => 101) s.disk).1 = .ok s' ∧
    (cpuPoint 6 8).response ∉ s'.query oneShard (.all "cpu") := by
  have hrun : ((Runs.run (step oneShard) (.fresh oneShard) racingRun).any fun r =>
      (openStore oneShard (fun _ => 101) r.1.disk).1.toOption.any fun s' =>
        ackedPoints r.2 = [cpuPoint 5 7, cpuPoint 6 8] &&
          decide ((cpuPoint 6 8).response ∉ s'.query oneShard (.all "cpu"))) = true := by
    decide +kernel
  obtain ⟨s, tr, hrun, hstate⟩ := Runs.exists_of_any hrun
  obtain ⟨s', hreopen, hstate⟩ := Runs.exists_ok_of_any hstate
  simp only [Bool.and_eq_true, decide_eq_true_eq] at hstate
  exact ⟨s, tr, s', by decide +kernel, by decide, hrun, by simp [hstate.1], .self oneShard s [],
    hreopen, hstate.2⟩

end Example

end Micius

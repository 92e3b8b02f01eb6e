import Micius.Server.Resume
import Micius.Server.Session

/-!
# Sessions one after another

A session opens the store, saves a snapshot, serves appends and ends with a
crash. Without sweeps the watermarks stay 0, so the next `open` replays
whatever segments are left. It deletes the highest of them and keeps the
lower ones, which the `open` after it replays again. As long as no segment
of a session fills up, a log has one segment, and every entry is replayed
once.
-/

namespace Micius

section

variable [Crates]

/-! ## Logs of one segment -/

/-- A log that `open` empties: at most one segment, and no number without a
point. -/
structure Clearable (dir : WalDir) : Prop where
  one : ∃ seg, ∀ seg' ∈ dir, seg' = seg
  numbers : ∀ r, recover dir 0 = .ok r → r.points = [] → r.lastSequence = 0

omit [Crates] in
/-- A directory with at most one segment. -/
theorem eq_insert_of_one {dir : WalDir} {seg : Nat} (h : ∀ seg' ∈ dir, seg' = seg) :
    dir = ∅ ∨ ∃ bytes, dir = (∅ : WalDir).insert seg bytes := by
  have hother : ∀ seg', seg' ≠ seg → dir[seg']? = none := by
    intro seg' hne
    refine Option.eq_none_iff_forall_ne_some.mpr fun bytes hbytes => hne (h seg' ?_)
    rw [Std.ExtTreeMap.mem_iff_isSome_getElem?, hbytes]
    rfl
  cases hget : dir[seg]? with
  | none =>
    refine .inl (Std.ExtTreeMap.ext_getElem? fun seg' => ?_)
    rw [Std.ExtTreeMap.getElem?_empty]
    by_cases hseg : seg' = seg
    · rw [hseg, hget]
    · exact hother seg' hseg
  | some bytes =>
    refine .inr ⟨bytes, Std.ExtTreeMap.ext_getElem? fun seg' => ?_⟩
    rw [TreeMap.getElem?_insert_eq]
    by_cases hseg : seg' = seg
    · rw [if_pos hseg, hseg, hget]
    · rw [if_neg hseg, Std.ExtTreeMap.getElem?_empty, hother seg' hseg]

omit [Crates] in
theorem toList_insert_empty (seg : Nat) (bytes : Bytes) :
    ((∅ : WalDir).insert seg bytes).toList = [(seg, bytes)] :=
  List.perm_singleton.mp (TreeMap.toList_insert_perm (∅ : WalDir) seg bytes)

omit [Crates] in
/-- `open` rotates away from the segment and deletes it. -/
theorem openWalShard_insert (cfg : StorageConfig) (seg : Nat) (bytes : Bytes) {w : Nat}
    {r : RecoveryResult} (hreplayed : 0 < r.segmentsReplayed)
    (hlast : r.points = [] → r.lastSequence ≤ w) :
    ∃ segs : List Nat, (openWalShard cfg ((∅ : WalDir).insert seg bytes) w r).2 =
        .create seg :: .create (seg + 1) :: segs.map .remove ∧
      (openWalShard cfg ((∅ : WalDir).insert seg bytes) w r).1.currentSegment = seg + 1 ∧
      seg ∈ segs ∧ seg + 1 ∉ segs := by
  have hhighest : highestSegmentNumber ((∅ : WalDir).insert seg bytes) = some seg := by
    rw [highestSegmentNumber, toList_insert_empty]
    rfl
  have hthreshold : r.lastSequence ≤ if r.points.isEmpty then w else r.lastSequence := by
    split
    · next hnil => exact hlast (List.isEmpty_iff.mp hnil)
    · exact Nat.le_refl _
  generalize hlower : (List.range' 1 (seg - 1)).map (fun n => (n, u64Max)) = lower
  have hlt : ∀ p ∈ lower, p.1 < seg := by
    intro p hp
    rw [← hlower] at hp
    obtain ⟨n, hn, rfl⟩ := List.mem_map.mp hp
    obtain ⟨k, hk, rfl⟩ := List.mem_range'.mp hn
    show 1 + 1 * k < seg
    omega
  simp only [openWalShard, WalWriter.openWal, hhighest, Option.getD_some, if_pos hreplayed, hlower,
    WalWriter.rotate, WalWriter.drainCompletedBefore]
  refine ⟨_, rfl, rfl, ?_, fun hmem => ?_⟩
  · refine List.mem_map.mpr ⟨(seg, r.lastSequence), List.mem_filter.mpr ⟨by simp, ?_⟩, rfl⟩
    exact decide_eq_true hthreshold
  · obtain ⟨p, hp, heq⟩ := List.mem_map.mp hmem
    rcases List.mem_append.mp (List.mem_of_mem_filter hp) with hp | hp
    · have := hlt p hp
      omega
    · rw [List.mem_singleton.mp hp] at heq
      exact absurd heq (Nat.ne_of_lt (Nat.lt_succ_self seg))

/-- **Opening such a log** leaves an empty segment and nothing else. -/
theorem Clearable.run_openWalShard {dir : WalDir} (h : Clearable dir) (cfg : StorageConfig)
    {r : RecoveryResult} (hr : recover dir 0 = .ok r) :
    dir.run (openWalShard cfg dir 0 r).2 =
      (∅ : WalDir).insert (openWalShard cfg dir 0 r).1.currentSegment [] := by
  have hreplayed := segmentsReplayed_recover hr
  obtain ⟨seg, hone⟩ := h.one
  rcases eq_insert_of_one hone with rfl | ⟨bytes, rfl⟩
  · have hnone : r.segmentsReplayed = 0 := hreplayed
    simp only [openWalShard, hnone]
    rfl
  · rw [WalDir.files, toList_insert_empty] at hreplayed
    obtain ⟨segs, hops, hcurrent, hmem, hnot⟩ := openWalShard_insert cfg seg bytes (w := 0)
      (hreplayed ▸ Nat.one_pos) fun hnil => Nat.le_of_eq (h.numbers r hr hnil)
    have hnext : seg + 1 ∉ (∅ : WalDir).insert seg bytes :=
      fun hmem => absurd (hone _ hmem) (Nat.succ_ne_self seg)
    have hsame : WalDir.apply ((∅ : WalDir).insert seg bytes) (.create seg) =
        (∅ : WalDir).insert seg bytes := if_pos Std.ExtTreeMap.mem_insert_self
    rw [hops, hcurrent, WalDir.run_cons, hsame, WalDir.run_cons]
    apply Std.ExtTreeMap.ext_getElem?
    intro seg'
    rw [WalDir.getElem?_removes, WalDir.apply, if_neg hnext]
    simp only [TreeMap.getElem?_insert_eq, Std.ExtTreeMap.getElem?_empty]
    by_cases hseg : seg' = seg + 1
    · subst hseg
      simp [hnot]
    · by_cases hold : seg' = seg
      · simp [hold, hmem]
      · simp [hseg, hold]

/-- The log of a shard after such an `open`. -/
theorem walOk_of_open {cfg : StorageConfig} {chunkIds : Nat → ChunkId} {d : Disk} {s : Server}
    (hopen : (openStore cfg chunkIds d).1 = .ok s) {i : Nat} (hi : i < cfg.numShards)
    (hzero : d.watermark i = 0) (hclear : Clearable (d.wal i)) :
    s.WalOk [] i ∧ s.disk.wal i = (∅ : WalDir).insert (s.wals i).writer.currentSegment [] := by
  obtain ⟨r, hr, hwriter, hdir, -⟩ := openStore_shard hopen hi
  rw [hzero] at hr hwriter hdir
  rw [hclear.run_openWalShard cfg hr, ← hwriter] at hdir
  obtain ⟨hfile, -, hcompleted, -⟩ := openWalShard_spec cfg (d.wal i) 0 r
  rw [← hwriter] at hfile hcompleted
  obtain ⟨idx, wals, -, rfl⟩ := openStore_ok hopen
  refine ⟨?_, hdir⟩
  rw [Server.WalOk, hdir]
  exact .opened hfile hcompleted

/-! ## Sessions that fill no segment -/

/-- The WAL task does not rotate in this step. -/
def Server.segmentStays (s : Server) : Action → Bool
  | .walFinish i => (s.wals i).writer.currentSize < (s.wals i).writer.maxSegmentBytes
  | _ => true

/-- The steps of a session that fills no segment. -/
def QuietStep (U : SeriesKey → Prop) (s : Server) (tr : List Event) (a : Action) : Prop :=
  SessionStep U s tr a ∧ s.segmentStays a = true

instance decidableQuietStep (U : SeriesKey → Prop) [DecidablePred U] (s : Server)
    (tr : List Event) (a : Action) : Decidable (QuietStep U s tr a) :=
  inferInstanceAs (Decidable (_ ∧ _))

theorem mem_of_run_commitOps {wal : WalHandle} {reqs : List ((Nat × Nat) × List DataPoint)}
    {dir : WalDir} (hfile : wal.writer.file ∈ dir) {seg : Nat}
    (h : seg ∈ dir.run (wal.commitOps reqs)) : seg ∈ dir := by
  unfold WalHandle.commitOps at h
  split at h
  · exact h
  · rcases Std.ExtTreeMap.mem_insert.mp h with heq | hmem
    · exact Std.LawfulEqCmp.eq_of_compare heq ▸ hfile
    · exact hmem

/-- Every log has one segment, and no entry is empty. -/
structure OneSegment (cfg : StorageConfig) (s : Server) (tr : List Event) : Prop where
  one : ∀ i < cfg.numShards, ∀ seg ∈ s.disk.wal i, seg = (s.wals i).writer.currentSegment
  groups : ∀ t ∈ s.appends, ∀ g ∈ t.pending, g.points ≠ []
  batches : ∀ i seg b, .committed i seg b ∈ tr → b.2 ≠ []

namespace OneSegment

variable {cfg : StorageConfig} {s s' : Server} {tr es : List Event} {a : Action}

omit [Crates] in
theorem start {cfg : StorageConfig} {disk : Disk} {idx : ChunkIndex} {wals : List WalWriter}
    (hdir : ∀ i < cfg.numShards, disk.wal i = (∅ : WalDir).insert
      ((Server.start cfg disk idx wals).wals i).writer.currentSegment []) :
    OneSegment cfg (.start cfg disk idx wals) [] where
  one i hi seg hseg := by
    change seg ∈ disk.wal i at hseg
    rw [hdir i hi] at hseg
    rcases Std.ExtTreeMap.mem_insert.mp hseg with heq | hmem
    · exact (Std.LawfulEqCmp.eq_of_compare heq).symm
    · simp at hmem
  groups := by simp [Server.start]
  batches := by simp

omit [Crates] in
/-- A step that logs nothing and moves no log. -/
theorem quiet (h : OneSegment cfg s tr) (hdisk : s'.disk.wal = s.disk.wal) (hwals : s'.wals = s.wals)
    (hgroups : ∀ t ∈ s'.appends, ∀ g ∈ t.pending, g.points ≠ [])
    (hes : ∀ i seg b, .committed i seg b ∉ es) : OneSegment cfg s' (tr ++ es) where
  one := by
    rw [hdisk, hwals]
    exact h.one
  groups := hgroups
  batches i seg b hb := h.batches i seg b ((List.mem_append.mp hb).resolve_right (hes i seg b))

omit [Crates] in
/-- The WAL task of shard `i` moves and stays in its segment. -/
theorem one_moves (h : OneSegment cfg s tr) {i : Nat} {ops : List WalOp} {wal : WalHandle}
    (hops : ∀ seg ∈ (s.disk.wal i).run ops, seg ∈ s.disk.wal i)
    (hsame : wal.writer.currentSegment = (s.wals i).writer.currentSegment) :
    ∀ j < cfg.numShards, ∀ seg ∈ (s.disk.runWal i ops).wal j,
      seg = (Function.update s.wals i wal j).writer.currentSegment := by
  intro j hj seg hseg
  rw [Disk.wal_runWal] at hseg
  by_cases hij : j = i
  · subst hij
    rw [if_pos rfl] at hseg
    rw [Function.update_self, hsame]
    exact h.one j hj seg (hops seg hseg)
  · rw [if_neg hij] at hseg
    rw [Function.update_of_ne hij]
    exact h.one j hj seg hseg

/-- **Every step** that fills no segment keeps it. -/
theorem step (h : OneSegment cfg s tr) (hwal : ∀ i < cfg.numShards, s.WalOk tr i)
    (hdrain : DrainOk s) (hsweeper : s.sweeper = .next 0) (hstep : Step cfg s a s' es)
    (hin : a.inSession = true) (ha : s.segmentStays a = true) : OneSegment cfg s' (tr ++ es) := by
  have hgroups := pending_step (P := fun g => g.points ≠ [])
    (fun hsorted _ hg => shardGroups_ne_nil hsorted hg) (fun hpoints _ h => hpoints ▸ h) h.groups hstep
  cases hstep with
  | @walCommit i refs drain hi _ _ _ _ =>
    refine ⟨h.one_moves (fun seg hseg => ?_) rfl, hgroups, fun j seg b hb => ?_⟩
    · exact mem_of_run_commitOps ((hwal i hi).file_eq ▸ (hwal i hi).current) hseg
    · rcases List.mem_append.mp hb with hb | hb
      · exact h.batches j seg b hb
      · obtain ⟨-, -, -, ref, -, g, hg, hpts⟩ := mem_committed hb
        obtain ⟨t, ht, hj⟩ := Option.bind_eq_some_iff.mp hg
        exact hpts ▸ h.groups t (List.mem_of_getElem? ht) g (List.mem_of_getElem? hj)
  | @walFinish i _ =>
    have hstays : rotateFull (s.wals i).writer = ((s.wals i).writer, []) :=
      if_neg (Nat.not_le.mpr (of_decide_eq_true ha))
    rw [hstays]
    exact ⟨h.one_moves (fun _ hseg => hseg) rfl, hgroups, by simpa using h.batches⟩
  | walDrain hfinish =>
    have hs := hsweeper.symm.trans (hdrain _ _ hfinish)
    cases hs
  | append _ => exact h.quiet rfl rfl hgroups (by simp)
  | memInsert _ _ => exact h.quiet rfl rfl hgroups (by simp)
  | ack _ => exact h.quiet rfl rfl hgroups (by simp)
  | snapshotBegin => exact h.quiet rfl rfl hgroups (by simp)
  | snapshotLoad _ _ => exact h.quiet rfl rfl hgroups (by simp)
  | snapshotLock _ _ => exact h.quiet rfl rfl hgroups (by simp)
  | snapshotSave _ => exact h.quiet rfl rfl hgroups (by simp)
  | snapshotStore _ _ => exact h.quiet rfl rfl hgroups (by simp)
  | snapshotUnlock _ => exact h.quiet rfl rfl hgroups (by simp)
  | _ => cases hin

theorem run {U : SeriesKey → Prop} {s₀ : Server} (hin : InSession U cfg s₀ s₀ [])
    (h : OneSegment cfg s₀ []) {actions : List Action}
    (hsteps : Runs.Along (Micius.step cfg) (QuietStep U) s₀ [] actions)
    (hrun : Runs.run (Micius.step cfg) s₀ actions = some (s, tr)) :
    InSession U cfg s₀ s tr ∧ OneSegment cfg s tr :=
  Runs.run_invariant (P := QuietStep U)
    (I := fun s tr => InSession U cfg s₀ s tr ∧ OneSegment cfg s tr)
    (fun ⟨hin, hone⟩ hok hstep => ⟨hin.step (step_sound hstep) hok.1,
      hone.step hin.wal hin.drain hin.unmoved.sweeper (step_sound hstep) hok.1.1 hok.2⟩)
    ⟨hin, h⟩ hsteps hrun

/-- **What a crash leaves** is emptied by the next `open`. -/
theorem clearable (hlaw : Crates.LawfulProst) (h : OneSegment cfg s tr)
    (hlogged : ∀ i seg b, .committed i seg b ∈ tr → b.Fits) {i : Nat} (hi : i < cfg.numShards)
    (hwal : s.WalOk tr i) {failed : List (Nat × Nat)} {dir : WalDir}
    (hleft : LogLeft cfg s failed i dir) : Clearable dir where
  one := by
    refine ⟨(s.wals i).writer.currentSegment, fun seg hseg => ?_⟩
    cases hleft with
    | whole => exact h.one i hi seg hseg
    | torn _ _ _ cut =>
      rcases Std.ExtTreeMap.mem_insert.mp hseg with heq | hmem
      · rw [← Std.LawfulEqCmp.eq_of_compare heq, hwal.file_eq]
      · exact h.one i hi seg hmem
  numbers := by
    intro r hr hnil
    obtain ⟨file, hfile⟩ := hleft.files (hlogged i) hwal
    obtain ⟨r', hr', hlast, hpoints⟩ := recover_files hlaw file hfile.bytes 0
    obtain rfl : r' = r := Except.ok.inj (hr'.symm.trans hr)
    have hnone : ((dir.toList.flatMap fun e => (file e.1).batches).filter fun b => 0 < b.1) = [] := by
      refine List.eq_nil_iff_forall_not_mem.mpr fun b hb => ?_
      obtain ⟨hb, hpos⟩ := List.mem_filter.mp hb
      obtain ⟨e, he, hb⟩ := List.mem_flatMap.mp hb
      have hne : b.2 ≠ [] := by
        rcases hfile.only e.1 b hb with hb | ⟨ref, g, hg, -, -, hpts, -⟩
        · exact h.batches i e.1 b hb
        · obtain ⟨t, ht, hj⟩ := Option.bind_eq_some_iff.mp hg
          exact hpts ▸ h.groups t (List.mem_of_getElem? ht) g (List.mem_of_getElem? hj)
      obtain ⟨p, hp⟩ := List.exists_mem_of_ne_nil _ hne
      have hseg : e.1 ∈ dir := by
        rw [Std.ExtTreeMap.mem_iff_isSome_getElem?,
          Std.ExtTreeMap.mem_toList_iff_getElem?_eq_some.mp he]
        rfl
      have hmem := (hpoints p).mpr ⟨e.1, hseg, b, hb, of_decide_eq_true hpos, hp⟩
      rw [hnil] at hmem
      cases hmem
    rw [hlast, hnone]
    rfl

end OneSegment

/-! ## From one session to the next -/

/-- A session on the files `d` with steps that satisfy `P`: it opens them,
saves a snapshot, and leaves the files `d'` in a crash. -/
inductive Session (P : Server → List Event → Action → Prop) (cfg : StorageConfig) (d : Disk) :
    List Event → Disk → Prop
  | run {chunkIds : Nat → ChunkId} {s₀ s : Server} {actions : List Action} {tr : List Event}
      {d' : Disk} (hids : IdsFree chunkIds (List.range cfg.numShards) d.chunks)
      (hopen : (openStore cfg chunkIds d).1 = .ok s₀) (hsteps : Runs.Along (step cfg) P s₀ [] actions)
      (hrun : Runs.run (step cfg) s₀ actions = some (s, tr)) (hsaved : ∃ k snap, .saved k snap ∈ tr)
      (hcrash : CrashImage cfg s [] d') (hfit : RecoveryFits cfg d') : Session P cfg d tr d'

/-- Sessions one after another on directories that were empty, with all
their events. -/
inductive Sessions (P : Server → List Event → Action → Prop) (cfg : StorageConfig) :
    List Event → Disk → Prop
  | none : Sessions P cfg [] .empty
  | next {tr tr' : List Event} {d d' : Disk} (h : Sessions P cfg tr d)
      (hsession : Session P cfg d tr' d') : Sessions P cfg (tr ++ tr') d'

theorem SeriesData.fits_empty : SeriesData.Fits ∅ where
  count := by simp
  series := by simp
  total := by
    show headerSize + 0 < 2 ^ 64
    decide

/-- The files between two sessions. The points of the chunks and of the logs
were requested, none of them is in both, and those answered are in one. -/
structure AtRest (U : SeriesKey → Prop) (cfg : StorageConfig) (tr : List Event) (d : Disk)
    (cs : List Chunk) (replayed : Nat → List DataPoint) : Prop where
  store : StoreExact U ⟨d.loadedIndex, d.chunks⟩ cs
  watermark : ∀ i, d.watermark i = 0
  logs : LogsReplay U cfg.numShards d.loadedIndex d replayed (List.range cfg.numShards)
  stored : ∀ p ∈ livePoints cs, p ∈ requestedPoints tr
  logged : ∀ i < cfg.numShards, ∀ p ∈ replayed i, p ∈ requestedPoints tr
  apart : ∀ i < cfg.numShards, ∀ p ∈ replayed i, ∀ q ∈ livePoints cs, p.slot ≠ q.slot
  acked : ∀ p ∈ ackedPoints tr, p ∈ livePoints cs ∨ ∃ i < cfg.numShards, p ∈ replayed i

namespace AtRest

variable {U : SeriesKey → Prop} {cfg : StorageConfig} {tr tr' : List Event} {d d' : Disk}
  {cs : List Chunk} {replayed : Nat → List DataPoint}

theorem empty (U : SeriesKey → Prop) (cfg : StorageConfig) :
    AtRest U cfg [] .empty [] fun _ => [] where
  store := ⟨.empty, List.nodup_nil⟩
  watermark _ := rfl
  logs := ⟨fun _ _ => ⟨.empty, rfl, rfl⟩, by simp, by simp, fun _ _ => SeriesData.fits_empty⟩
  stored := by simp [livePoints]
  logged := by simp
  apart := by simp
  acked := by simp [ackedPoints]

/-- **What `open` serves**: every answered point. -/
theorem opened (hU : KeysOk U) (h : AtRest U cfg tr d cs replayed)
    (hdist : Distinct (requestedPoints tr)) {chunkIds : Nat → ChunkId}
    (hids : IdsFree chunkIds (List.range cfg.numShards) d.chunks) {s : Server}
    (hopen : (openStore cfg chunkIds d).1 = .ok s) :
    ∃ cs', StoreExact U ⟨s.index, s.disk.chunks⟩ cs' ∧
      (∀ p ∈ livePoints cs', p ∈ requestedPoints tr) ∧ ∀ p ∈ ackedPoints tr, p ∈ livePoints cs' := by
  obtain ⟨s', cs', hopen', hexact, hlive⟩ := h.store.openStore hU cfg h.logs hids h.apart
  obtain rfl : s' = s := Except.ok.inj (hopen'.symm.trans hopen)
  refine ⟨cs', hexact, fun p hp => ?_, fun p hp => (hlive p).mpr ?_⟩
  · rcases (hlive p).mp hp with ⟨i, hi, hlast⟩ | hp
    · exact h.logged i hi p hlast.mem
    · exact h.stored p hp
  · rcases h.acked p hp with hp | ⟨i, hi, hp⟩
    · exact .inr hp
    · refine .inl ⟨i, hi, LastWrites.isLast_of_unique hp fun q hq hslot => ?_⟩
      exact hdist.eq_of_slot (h.logged i hi q hq) (h.logged i hi p hp) hslot

/-- The session on the files. -/
theorem inSession (h : AtRest U cfg tr d cs replayed)
    (hclear : ∀ i < cfg.numShards, Clearable (d.wal i)) {chunkIds : Nat → ChunkId} {s₀ : Server}
    (hopen : (openStore cfg chunkIds d).1 = .ok s₀) :
    InSession U cfg s₀ s₀ [] ∧ OneSegment cfg s₀ [] ∧ ∀ i, s₀.disk.watermark i = 0 := by
  have hlogs := fun i hi => walOk_of_open hopen (i := i) hi (h.watermark i) (hclear i hi)
  obtain ⟨idx, wals, hshards, rfl⟩ := openStore_ok hopen
  refine ⟨.start U fun i hi => (hlogs i hi).1, .start fun i hi => (hlogs i hi).2, fun i => ?_⟩
  have hsnapshot : (d.run (openStore cfg chunkIds d).2).snapshot = d.snapshot := hshards.keeps.2.1
  show Disk.watermark (d.run _) i = 0
  rw [Disk.watermark, Disk.loadedIndex, hsnapshot]
  exact h.watermark i

/-- **A session** leaves files of the same kind. -/
theorem session (hlaw : Crates.LawfulProst) (hU : KeysOk U) (h : AtRest U cfg tr d cs replayed)
    (hclear : ∀ i < cfg.numShards, Clearable (d.wal i))
    (hsession : Session (SessionStep U) cfg d tr' d')
    (hdist : Distinct (requestedPoints (tr ++ tr'))) :
    ∃ cs' replayed', AtRest U cfg (tr ++ tr') d' cs' replayed' := by
  rw [requestedPoints_append] at hdist
  obtain ⟨hdist₁, -, hother⟩ := List.nodup_append'.mp (by rwa [Distinct, List.map_append] at hdist)
  cases hsession with
  | @run chunkIds s₀ s actions tr' d' hids hopen hsteps hrun hsaved hcrash hfit =>
    obtain ⟨hstart, -, hfirst⟩ := h.inSession hclear hopen
    have hin := hstart.run hsteps hrun
    obtain ⟨cs', hexact, hstored, hacked⟩ := h.opened hU hdist₁ hids hopen
    obtain ⟨replayed', hlogs, hpoints⟩ := hin.logsReplay hlaw hfirst hcrash
      (fun i hi hge => absurd hi (Nat.not_lt.mpr hge)) hfit
    refine ⟨cs', replayed', hin.loaded hexact (.inr hsaved) hcrash, hin.watermark hfirst hcrash, hlogs,
      ?_, ?_, ?_, ?_⟩
    · rw [requestedPoints_append]
      exact fun p hp => List.mem_append_left _ (hstored p hp)
    · rw [requestedPoints_append]
      exact fun i hi p hp => List.mem_append_right _ ((hpoints i hi).1 p hp)
    · intro i hi p hp q hq hslot
      exact hother (List.mem_map_of_mem (hstored q hq))
        (hslot ▸ List.mem_map_of_mem ((hpoints i hi).1 p hp))
    · intro p hp
      rw [ackedPoints_append] at hp
      rcases List.mem_append.mp hp with hp | hp
      · exact .inl (hacked p hp)
      · have hi := shardIndex_lt p cfg
        exact .inr ⟨_, hi, (hpoints _ hi).2 p (hin.logged.of_acked hin.calls hp) rfl⟩

end AtRest

theorem Session.mono {P Q : Server → List Event → Action → Prop} (hPQ : ∀ s tr a, P s tr a → Q s tr a)
    {cfg : StorageConfig} {d d' : Disk} {tr : List Event} (h : Session P cfg d tr d') :
    Session Q cfg d tr d' := by
  cases h with
  | run hids hopen hsteps hrun hsaved hcrash hfit =>
    exact .run hids hopen (hsteps.mono hPQ) hrun hsaved hcrash hfit

/-- **Sessions that fill no segment** leave logs that the next `open` empties. -/
theorem Sessions.atRest (hlaw : Crates.LawfulProst) {U : SeriesKey → Prop} (hU : KeysOk U)
    {cfg : StorageConfig} {tr : List Event} {d : Disk} (h : Sessions (QuietStep U) cfg tr d)
    (hdist : Distinct (requestedPoints tr)) :
    (∃ cs replayed, AtRest U cfg tr d cs replayed) ∧ ∀ i < cfg.numShards, Clearable (d.wal i) := by
  induction h with
  | none =>
    refine ⟨⟨_, _, .empty U cfg⟩, fun i _ => ⟨⟨0, fun seg hseg => ?_⟩, fun r hr _ => ?_⟩⟩
    · exact absurd hseg Std.ExtTreeMap.not_mem_empty
    · obtain rfl := Except.ok.inj hr
      rfl
  | @next tr tr' d d' _ hsession ih =>
    have hearlier : Distinct (requestedPoints tr) := by
      rw [requestedPoints_append, Distinct, List.map_append] at hdist
      exact (List.nodup_append'.mp hdist).1
    obtain ⟨⟨cs, replayed, hrest⟩, hclear⟩ := ih hearlier
    refine ⟨hrest.session hlaw hU hclear (hsession.mono fun _ _ _ h => h.1) hdist, fun i hi => ?_⟩
    cases hsession with
    | run hids hopen hsteps hrun hsaved hcrash hfit =>
      obtain ⟨hstart, hone, -⟩ := hrest.inSession hclear hopen
      obtain ⟨hin, hone⟩ := OneSegment.run hstart hone hsteps hrun
      exact hone.clearable hlaw hin.logs.fits hi (hin.wal i hi) (hcrash.wal i hi)

/-- **No entry is replayed twice.** After any number of sessions that fill no
segment and one more session of any kind, `open` serves every point that was
ever acknowledged, once. -/
theorem acked_once_after_sessions (hlaw : Crates.Lawful) (cfg : StorageConfig)
    {U : SeriesKey → Prop} (hU : KeysOk U) {tr tr' : List Event} {d d' : Disk} {s : Server}
    (hsessions : Sessions (QuietStep U) cfg tr d) (hlast : Session (SessionStep U) cfg d tr' d')
    (hdist : Distinct (requestedPoints (tr ++ tr'))) (chunkIds : Nat → ChunkId)
    (hids : IdsFree chunkIds (List.range cfg.numShards) d'.chunks)
    (hopen : (openStore cfg chunkIds d').1 = .ok s) :
    ∀ p ∈ ackedPoints (tr ++ tr'), (s.query cfg (.all p.metricName)).count p.response = 1 := by
  have hearlier : Distinct (requestedPoints tr) := by
    rw [requestedPoints_append, Distinct, List.map_append] at hdist
    exact (List.nodup_append'.mp hdist).1
  obtain ⟨⟨cs, replayed, hrest⟩, hclear⟩ := hsessions.atRest hlaw.prost hU hearlier
  obtain ⟨cs', replayed', hrest'⟩ := hrest.session hlaw.prost hU hclear hlast hdist
  obtain ⟨cs'', hexact, -, hacked⟩ := hrest'.opened hU hdist hids hopen
  exact fun p hp => hexact.count_query hlaw.lz4 hU (memPoints_of_open hopen) (hacked p hp)

end

/-! ## Runs of several sessions -/

section Example

attribute [local instance] Reference.crates

def Event.isSave : Event → Bool
  | .saved _ _ => true
  | _ => false

section

variable (P : Server → List Event → Action → Prop) [∀ s tr a, Decidable (P s tr a)]

/-- A session that ends in a crash between two steps can be run, and its
events and the files it leaves pass a test. -/
def sessionPasses (cfg : StorageConfig) (chunkId : ChunkId) (d : Disk) (actions : List Action)
    (test : List Event → Disk → Bool) : Bool :=
  decide (chunkId ∉ d.chunks) && (openStore cfg (fun _ => chunkId) d).1.toOption.any fun s₀ =>
    decide (Runs.Along (step cfg) P s₀ [] actions) &&
      (Runs.run (step cfg) s₀ actions).any fun r =>
        r.2.any Event.isSave && recoveryFits cfg r.1.disk && test r.2 r.1.disk

theorem idsFree_one {cfg : StorageConfig} (hcfg : cfg.numShards = 1) {chunkId : ChunkId}
    {chunks : ChunkDir} (hfree : chunkId ∉ chunks) :
    IdsFree (fun _ => chunkId) (List.range cfg.numShards) chunks :=
  ⟨by simp [hcfg], fun _ _ => hfree⟩

theorem exists_session {cfg : StorageConfig} (hcfg : cfg.numShards = 1) {chunkId : ChunkId} {d : Disk}
    {actions : List Action} {test : List Event → Disk → Bool}
    (h : sessionPasses P cfg chunkId d actions test = true) :
    ∃ tr d', Session P cfg d tr d' ∧ test tr d' = true := by
  obtain ⟨hfree, hopens⟩ := Bool.and_eq_true_iff.mp h
  obtain ⟨s₀, hopen, hok⟩ := Runs.exists_ok_of_any hopens
  obtain ⟨hsteps, hok⟩ := Bool.and_eq_true_iff.mp hok
  obtain ⟨s, tr, hrun, hok⟩ := Runs.exists_of_any hok
  simp only [Bool.and_eq_true, List.any_eq_true] at hok
  obtain ⟨⟨⟨e, he, hsave⟩, hfit⟩, htest⟩ := hok
  have hsaved : ∃ k snap, .saved k snap ∈ tr := by
    cases e with
    | saved k snap => exact ⟨k, snap, he⟩
    | _ => cases hsave
  exact ⟨tr, s.disk, .run (idsFree_one hcfg (of_decide_eq_true hfree)) hopen
    (of_decide_eq_true hsteps) hrun hsaved (.self cfg s []) (recoveryFits_iff hfit), htest⟩

end

/-- Two sessions, each with a snapshot and an append. -/
theorem acked_once_after_two_sessions : ∃ tr tr' d d' s,
    Sessions (QuietStep (· = ⟨"cpu", ∅⟩)) oneShard tr d ∧
    Session (SessionStep (· = ⟨"cpu", ∅⟩)) oneShard d tr' d' ∧
    ackedPoints (tr ++ tr') = [cpuPoint 5 7, cpuPoint 6 8] ∧
    (openStore oneShard (fun _ => 102) d').1 = .ok s ∧
    ∀ p ∈ ackedPoints (tr ++ tr'), (s.query oneShard (.all p.metricName)).count p.response = 1 := by
  have hrun : sessionPasses (QuietStep (· = ⟨"cpu", ∅⟩)) oneShard 100 .empty
      (snapshotSteps 0 ++ appendSteps 0 (cpuPoint 5 7)) (fun tr d =>
    sessionPasses (SessionStep (· = ⟨"cpu", ∅⟩)) oneShard 101 d
      (snapshotSteps 0 ++ appendSteps 0 (cpuPoint 6 8)) fun tr' d' =>
    ackedPoints (tr ++ tr') = [cpuPoint 5 7, cpuPoint 6 8] &&
      decide (Distinct (requestedPoints (tr ++ tr'))) && decide ((102 : ChunkId) ∉ d'.chunks) &&
      (openStore oneShard (fun _ => 102) d').1.toOption.any fun _ => true) = true := by
    decide +kernel
  obtain ⟨tr, d, hfirst, hrun⟩ := exists_session _ rfl hrun
  obtain ⟨tr', d', hsecond, hrun⟩ := exists_session _ rfl hrun
  simp only [Bool.and_eq_true, decide_eq_true_eq] at hrun
  obtain ⟨⟨⟨hacked, hdist⟩, hfree⟩, hopens⟩ := hrun
  obtain ⟨s, hopen, -⟩ := Runs.exists_ok_of_any hopens
  exact ⟨tr, tr', d, d', s, .next .none hfirst, hsecond, hacked, hopen,
    acked_once_after_sessions Reference.lawful oneShard keysOk_cpu (.next .none hfirst) hsecond hdist
      (fun _ => 102) (idsFree_one rfl hfree) hopen⟩

/-- One shard with segments that are full after two points. -/
def shortSegments : StorageConfig := { oneShard with walMaxSegmentBytes := 40 }

/-- A request of two points that fills a segment, and a second request. -/
def fillingSteps : List Action :=
  [.append [cpuPoint 5 7, cpuPoint 6 8] [(0, 0), (0, 1)], .walCommit 0 [(0, 0)] none, .walFinish 0,
    .memInsert 0, .ack 0] ++ appendSteps 1 (cpuPoint 7 9)

/-- The second `open` deletes segment 2 and keeps segment 1. The third one
replays segment 1 into a chunk that takes the place of the first recovery
chunk: the point of segment 2 is gone. -/
theorem acked_lost_after_sessions : ∃ tr tr' d d' s,
    Sessions (SessionStep (· = ⟨"cpu", ∅⟩)) shortSegments tr d ∧
    Session (SessionStep (· = ⟨"cpu", ∅⟩)) shortSegments d tr' d' ∧
    Distinct (requestedPoints (tr ++ tr')) ∧
    ackedPoints (tr ++ tr') = [cpuPoint 5 7, cpuPoint 6 8, cpuPoint 7 9] ∧
    (openStore shortSegments (fun _ => 102) d').1 = .ok s ∧
    (cpuPoint 7 9).response ∉ s.query shortSegments (.all "cpu") := by
  have hrun : sessionPasses (SessionStep (· = ⟨"cpu", ∅⟩)) shortSegments 100 .empty
      (snapshotSteps 0 ++ fillingSteps) (fun tr d =>
    sessionPasses (SessionStep (· = ⟨"cpu", ∅⟩)) shortSegments 101 d (snapshotSteps 0) fun tr' d' =>
    ackedPoints (tr ++ tr') = [cpuPoint 5 7, cpuPoint 6 8, cpuPoint 7 9] &&
      decide (Distinct (requestedPoints (tr ++ tr'))) &&
      (openStore shortSegments (fun _ => 102) d').1.toOption.any fun s =>
        decide ((cpuPoint 7 9).response ∉ s.query shortSegments (.all "cpu"))) = true := by
    decide +kernel
  obtain ⟨tr, d, hfirst, hrun⟩ := exists_session _ rfl hrun
  obtain ⟨tr', d', hsecond, hrun⟩ := exists_session _ rfl hrun
  simp only [Bool.and_eq_true, decide_eq_true_eq] at hrun
  obtain ⟨⟨hacked, hdist⟩, hopens⟩ := hrun
  obtain ⟨s, hopen, hlost⟩ := Runs.exists_ok_of_any hopens
  exact ⟨tr, tr', d, d', s, .next .none hfirst, hsecond, hdist, hacked, hopen,
    of_decide_eq_true hlost⟩

end Example

end Micius

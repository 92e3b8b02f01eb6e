import Micius.Lib.Measures
import Micius.Server.Exactness
import Micius.Server.Reopen

/-!
# The server never gets stuck

The work in hand of the tasks: calls that are not yet answered, a sweep that has
left a memtable lock, snapshots and a compaction cycle. Every step of this work
lowers a measure, so without new calls and new rounds it ends whatever the
schedule; and as long as some of it is left, some task can move. A task that
waits for the index lock waits for a snapshot, and a snapshot waits for nothing.
-/

namespace Micius

open Measures

/-- The step belongs to work in hand: no new call, snapshot, round of the sweep
or compaction cycle starts, and a batch of a WAL task has a message. -/
def Action.isWork : Action → Bool
  | append _ _ => false
  | walCommit _ refs drain => !refs.isEmpty || drain.isSome
  | sweepLock => false
  | snapshotBegin => false
  | compactFind _ => false
  | _ => true

/-! ## The measure -/

/-- A group has to be committed, with the rest of its batch, and inserted. -/
def Group.work (g : Group) : Nat := if g.committed.isNone then 4 else 1

def AppendTask.work (t : AppendTask) : Nat := (if t.acked then 0 else 1) + total Group.work t.pending

/-- A batch to finish, and segments that a drain can hand to the sweep. -/
def WalHandle.work (wal : WalHandle) : Nat :=
  wal.writer.completedSegments.length + if wal.finishing.isSome then 2 else 0

/-- The steps of the sweep of one shard; `taken` says that the WAL task has the
drain request. -/
def Sweeper.work (taken : Nat → Bool) : Sweeper → Nat
  | next _ => 0
  | drained _ _ => 10
  | written _ _ => 9
  | registered _ _ => 8
  | sequenceRead _ _ _ => 7
  | published _ => 6
  | draining i _ => if taken i then 2 else 5
  | deleting _ segs => segs.length + 1

def SnapshotTask.work (shards : Nat) : SnapshotTask → Nat
  | loading ws => 2 * shards + 4 - ws.length
  | locked ws => ws.length + 3
  | storing ws i => ws.length + 1 - i
  | done => 0

def MergeGroup.work (group : MergeGroup) : Nat := group.chunks.length + 3

def Compactor.work : Compactor → Nat
  | idle => 0
  | merging groups => total MergeGroup.work groups + 1
  | merged group _ rest => group.chunks.length + 2 + (total MergeGroup.work rest + 1)
  | deleting paths rest => paths.length + 1 + (total MergeGroup.work rest + 1)

/-- The WAL task of the shard has a drain request. -/
def drainTaken (wals : Nat → WalHandle) (i : Nat) : Bool := (wals i).finishing.any Option.isSome

/-- The steps that are left of the work in hand, at most. -/
def Server.work (cfg : StorageConfig) (s : Server) : Nat :=
  total AppendTask.work s.appends + ∑ i ∈ Finset.range cfg.numShards, (s.wals i).work +
    s.sweeper.work (drainTaken s.wals) + total (SnapshotTask.work cfg.numShards) s.snapshots +
    s.compactor.work

section

variable [Crates]

/-! ## What holds of the tasks in every state -/

/-- A snapshot loads one watermark for each shard and stores each. -/
def SnapshotTask.Ok (shards : Nat) : SnapshotTask → Prop
  | loading ws => ws.length ≤ shards
  | locked _ => True
  | storing ws i => i ≤ ws.length
  | done => True

structure TasksOk (cfg : StorageConfig) (s : Server) : Prop where
  sweep : SweepOk cfg s
  routed : Routed cfg s
  finishing : ∀ i, (s.wals i).finishing ≠ none → i < cfg.numShards
  snapshots : ∀ t ∈ s.snapshots, t.Ok cfg.numShards

namespace TasksOk

variable {cfg : StorageConfig} {s s' : Server}

theorem start (cfg : StorageConfig) (disk : Disk) (idx : ChunkIndex) (wals : List WalWriter) :
    TasksOk cfg (.start cfg disk idx wals) where
  sweep := .start cfg disk idx wals
  routed := .start cfg disk idx wals
  finishing := by simp [Server.start]
  snapshots := by simp [Server.start]

omit [Crates] in
theorem finishing_update {wals : Nat → WalHandle} {n i : Nat}
    (h : ∀ j, (wals j).finishing ≠ none → j < n) (hi : i < n) (wal : WalHandle) (j : Nat)
    (hj : (Function.update wals i wal j).finishing ≠ none) : j < n := by
  by_cases heq : j = i
  · rwa [heq]
  · rw [Function.update_of_ne heq] at hj
    exact h j hj

omit [Crates] in
theorem snapshots_set {tasks : List SnapshotTask} {n k : Nat} {task : SnapshotTask}
    (h : ∀ t ∈ tasks, t.Ok n) (htask : task.Ok n) : ∀ t ∈ tasks.set k task, t.Ok n := by
  intro t ht
  rcases List.mem_or_eq_of_mem_set ht with ht | rfl
  · exact h t ht
  · exact htask

/-- **Every step** keeps it. -/
theorem step {a : Action} {es : List Event} (h : TasksOk cfg s) (hstep : Step cfg s a s' es) :
    TasksOk cfg s' := by
  have hsweep := h.sweep.step hstep
  have hrouted := h.routed.step hstep
  cases hstep with
  | walCommit hi _ _ _ _ =>
    exact ⟨hsweep, hrouted, finishing_update h.finishing hi _, h.snapshots⟩
  | walFinish hfinish =>
    exact ⟨hsweep, hrouted, finishing_update h.finishing (h.finishing _ (by simp [hfinish])) _,
      h.snapshots⟩
  | walDrain hfinish =>
    exact ⟨hsweep, hrouted, finishing_update h.finishing (h.finishing _ (by simp [hfinish])) _,
      h.snapshots⟩
  | snapshotBegin =>
    refine ⟨hsweep, hrouted, h.finishing, fun t ht => ?_⟩
    rcases List.mem_append.mp ht with ht | ht
    · exact h.snapshots t ht
    · rw [List.mem_singleton.mp ht]
      exact Nat.zero_le _
  | snapshotLoad hk hlen =>
    refine ⟨hsweep, hrouted, h.finishing, snapshots_set h.snapshots ?_⟩
    rw [SnapshotTask.Ok, List.length_append]
    exact hlen
  | snapshotLock hk hlen =>
    exact ⟨hsweep, hrouted, h.finishing, snapshots_set h.snapshots trivial⟩
  | snapshotSave hk =>
    exact ⟨hsweep, hrouted, h.finishing, snapshots_set h.snapshots (Nat.zero_le _)⟩
  | snapshotStore hk hw =>
    refine ⟨hsweep, hrouted, h.finishing, snapshots_set h.snapshots ?_⟩
    exact (List.getElem?_eq_some_iff.mp hw).1
  | snapshotUnlock hk =>
    exact ⟨hsweep, hrouted, h.finishing, snapshots_set h.snapshots trivial⟩
  | _ => exact ⟨hsweep, hrouted, h.finishing, h.snapshots⟩

end TasksOk

/-! ## Every step of the work lowers the measure -/

omit [Crates] in
theorem Group.work_answered_le (g : Group) (ref : Nat × Nat)
    (replies : List (Nat × (Nat × Nat) × List DataPoint)) :
    (g.answered ref replies).work ≤ g.work := by
  unfold Group.answered
  split
  · show 1 ≤ g.work
    rw [Group.work]
    split <;> decide
  · exact Nat.le_refl _

omit [Crates] in
theorem AppendTask.work_answered_le (t : AppendTask) (k : Nat)
    (replies : List (Nat × (Nat × Nat) × List DataPoint)) :
    AppendTask.work { t with pending := t.pending.mapIdx fun j g => g.answered (k, j) replies } ≤
      t.work :=
  Nat.add_le_add_left
    (total_mapIdx_le (fun j g => g.work_answered_le (k, j) replies) t.pending) _

omit [Crates] in
/-- A batch with an append saves three steps of a call. -/
theorem work_deliver {tasks : List AppendTask} {refs : List (Nat × Nat)} (hnodup : refs.Nodup)
    {i : Nat} (hwait : ∀ ref ∈ refs, ∃ g, groupAt tasks ref = some g ∧ g.shard = i ∧
      g.committed = none) (seq : Nat) :
    total AppendTask.work (deliver tasks (numbered seq (messagesAt tasks refs))) +
      (if refs.isEmpty then 0 else 3) ≤ total AppendTask.work tasks := by
  rw [deliver_eq]
  cases refs with
  | nil => exact total_mapIdx_le (fun k t => t.work_answered_le k _) tasks
  | cons ref refs =>
    obtain ⟨g, hg, -, hcommitted⟩ := hwait ref (by simp)
    obtain ⟨t, ht, hpending⟩ := Option.bind_eq_some_iff.mp hg
    refine total_mapIdx_add_le (fun k t => t.work_answered_le k _) ht ?_
    -- the first message of the batch is answered
    have hanswered : (g.answered ref (numbered seq (messagesAt tasks (ref :: refs)))).work + 3 ≤
        g.work := by
      obtain ⟨n, hn⟩ := answered_of_mem hnodup seq (List.mem_cons_self ..) hg
      rw [hn, Group.work, Group.work, hcommitted]
      simp
    have := total_mapIdx_add_le (f := Group.work)
      (fun j g => g.work_answered_le (ref.1, j)
        (numbered seq (messagesAt tasks (ref :: refs)))) hpending hanswered
    rw [AppendTask.work, AppendTask.work]
    simp only [List.isEmpty_cons, Bool.false_eq_true, if_false]
    omega

omit [Crates] in
theorem completedSegments_rotateFull (w : WalWriter) :
    (rotateFull w).1.completedSegments.length ≤ w.completedSegments.length + 1 := by
  rw [rotateFull]
  split
  · simp [WalWriter.rotate]
  · exact Nat.le_succ _

omit [Crates] in
theorem length_drainCompletedBefore (w : WalWriter) (seq : Nat) :
    (w.drainCompletedBefore seq).2.completedSegments.length +
      (w.drainCompletedBefore seq).1.length = w.completedSegments.length := by
  rw [WalWriter.drainCompletedBefore, List.length_map, Nat.add_comm]
  exact (List.length_eq_length_filter_add _).symm

omit [Crates] in
/-- The sweep of a shard whose WAL task is between batches waits as before. -/
theorem Sweeper.work_congr {sweeper : Sweeper} {taken taken' : Nat → Bool}
    (h : ∀ i gcSeq, sweeper = .draining i gcSeq → taken' i = taken i) :
    sweeper.work taken' = sweeper.work taken := by
  cases sweeper with
  | draining i gcSeq => rw [work, work, h i gcSeq rfl]
  | _ => rfl

omit [Crates] in
/-- A WAL task that has no drain request, before and after its step. -/
theorem Sweeper.work_update (sweeper : Sweeper) (wals : Nat → WalHandle) (i : Nat)
    (wal : WalHandle) (hold : (wals i).finishing.any Option.isSome = false)
    (hnew : wal.finishing.any Option.isSome = false) :
    sweeper.work (drainTaken (Function.update wals i wal)) = sweeper.work (drainTaken wals) := by
  refine work_congr fun j _ _ => ?_
  by_cases hj : j = i
  · subst hj
    rw [drainTaken, drainTaken, Function.update_self, hold, hnew]
  · rw [drainTaken, drainTaken, Function.update_of_ne hj]

/-- A step of a WAL task. -/
theorem Server.work_wal_step {cfg : StorageConfig} {s s' : Server} {a : Action} {es : List Event}
    (h : TasksOk cfg s) {i : Nat} (ha : a = .walFinish i ∨ ∃ refs drain, a = .walCommit i refs drain)
    (hwork : a.isWork = true) (hstep : Step cfg s a s' es) : s'.work cfg < s.work cfg := by
  cases hstep with
  | @walCommit i refs drain hi hidle hrequest hnodup hwait =>
    have htasks := work_deliver hnodup hwait (s.wals i).writer.currentSeq
    have hwals := sum_update WalHandle.work s.wals hi
      ((s.wals i).commit (messagesAt s.appends refs) drain)
    have hcommit : ((s.wals i).commit (messagesAt s.appends refs) drain).work =
        (s.wals i).work + 2 := by
      simp [WalHandle.work, WalHandle.commit, committedWriter, hidle]
    cases drain with
    | none =>
      have hsweep := Sweeper.work_update s.sweeper s.wals i
        ((s.wals i).commit (messagesAt s.appends refs) none) (by simp [hidle]) rfl
      have hne : refs.isEmpty = false := by simpa [Action.isWork] using hwork
      rw [hne] at htasks
      simp only [Server.work, hsweep]
      simp only [Bool.false_eq_true, if_false] at htasks
      omega
    | some gcSeq =>
      have hdrain := hrequest gcSeq rfl
      simp only [Server.work, hdrain, Sweeper.work, drainTaken, Function.update_self, hidle,
        WalHandle.commit, Option.any_some, Option.any_none, Option.isSome_some, if_true,
        Bool.false_eq_true, if_false]
      simp only [WalHandle.commit] at hwals hcommit
      split at htasks <;> omega
  | @walFinish i hfinish =>
    have hi := h.finishing i (by simp [hfinish])
    have hwals := sum_update WalHandle.work s.wals hi
      ⟨(rotateFull (s.wals i).writer).1, (s.wals i).lastSeq, none⟩
    have hrotate := completedSegments_rotateFull (s.wals i).writer
    have hsweep := Sweeper.work_update s.sweeper s.wals i
      ⟨(rotateFull (s.wals i).writer).1, (s.wals i).lastSeq, none⟩ (by simp [hfinish]) rfl
    simp only [Server.work, hsweep]
    simp only [WalHandle.work, hfinish, Option.isSome_some, Option.isSome_none, if_true,
      Bool.false_eq_true, if_false] at hwals ⊢
    omega
  | @walDrain i gcSeq hfinish =>
    have hi := h.finishing i (by simp [hfinish])
    have hwals := sum_update WalHandle.work s.wals hi
      ⟨((rotateFull (s.wals i).writer).1.drainCompletedBefore gcSeq).2, (s.wals i).lastSeq, none⟩
    have hrotate := completedSegments_rotateFull (s.wals i).writer
    have hlength := length_drainCompletedBefore (rotateFull (s.wals i).writer).1 gcSeq
    have hdrain := h.sweep.drain i gcSeq hfinish
    simp only [Server.work, hdrain, Sweeper.work, drainTaken, hfinish, Option.any_some,
      Option.isSome_some, if_true]
    simp only [WalHandle.work, hfinish, Option.isSome_some, Option.isSome_none, if_true,
      Bool.false_eq_true, if_false] at hwals ⊢
    omega
  | _ => obtain ha | ⟨refs, drain, ha⟩ := ha <;> cases ha

/-- **Every step** of the work lowers the measure. -/
theorem Server.work_step {cfg : StorageConfig} {s s' : Server} {a : Action} {es : List Event}
    (h : TasksOk cfg s) (hwork : a.isWork = true) (hstep : Step cfg s a s' es) :
    s'.work cfg < s.work cfg := by
  cases hstep with
  | append hsorted => cases hwork
  | sweepDrain hs hflush => cases hwork
  | sweepSkip hs hflush => cases hwork
  | snapshotBegin => cases hwork
  | compactFind hc hfiles => cases hwork
  | @walCommit i refs drain hi hidle hrequest hnodup hwait =>
    exact work_wal_step h (.inr ⟨refs, drain, rfl⟩) hwork (.walCommit hi hidle hrequest hnodup hwait)
  | walFinish hfinish => exact work_wal_step h (.inl rfl) hwork (.walFinish hfinish)
  | walDrain hfinish => exact work_wal_step h (.inl rfl) hwork (.walDrain hfinish)
  | @memInsert k points g rest acked hk hall =>
    have htasks := total_set AppendTask.work hk ⟨points, rest, acked⟩
    have hg : g.work = 1 := by
      rw [Group.work, Option.isNone_eq_false_iff.mpr (hall g (by simp))]
      rfl
    simp only [AppendTask.work, total_cons] at htasks
    simp only [Server.work]
    omega
  | @ack k points hk =>
    have htasks := total_set AppendTask.work hk ⟨points, [], true⟩
    simp only [AppendTask.work, total_nil, if_true, Bool.false_eq_true, if_false] at htasks
    simp only [Server.work]
    omega
  | sweepWrite hs hw hnew =>
    simp only [Server.work, hs, Sweeper.work]
    omega
  | sweepFail hs hw =>
    simp only [Server.work, hs, Sweeper.work]
    omega
  | sweepRegister hs hlock =>
    simp only [Server.work, hs, Sweeper.work]
    omega
  | sweepReadSequence hs =>
    simp only [Server.work, hs, Sweeper.work]
    omega
  | sweepPublish hs =>
    simp only [Server.work, hs, Sweeper.work]
    omega
  | sweepRequestDrain hs =>
    simp only [Server.work, hs, Sweeper.work]
    split <;> omega
  | sweepDelete hs =>
    simp only [Server.work, hs, Sweeper.work, List.length_cons]
    omega
  | sweepDone hs =>
    simp only [Server.work, hs, Sweeper.work]
    omega
  | @snapshotLoad k ws hk hlen =>
    have htasks := total_set (SnapshotTask.work cfg.numShards) hk
      (.loading (ws ++ [s.shardWatermarks ws.length]))
    simp only [SnapshotTask.work, List.length_append, List.length_singleton] at htasks
    simp only [Server.work]
    omega
  | @snapshotLock k ws hk hlen =>
    have htasks := total_set (SnapshotTask.work cfg.numShards) hk (.locked ws)
    simp only [SnapshotTask.work] at htasks
    simp only [Server.work]
    omega
  | @snapshotSave k ws hk =>
    have htasks := total_set (SnapshotTask.work cfg.numShards) hk (.storing ws 0)
    simp only [SnapshotTask.work] at htasks
    simp only [Server.work]
    omega
  | @snapshotStore k i w ws hk hw =>
    have hi := (List.getElem?_eq_some_iff.mp hw).1
    have htasks := total_set (SnapshotTask.work cfg.numShards) hk (.storing ws (i + 1))
    simp only [SnapshotTask.work] at htasks
    simp only [Server.work]
    omega
  | @snapshotUnlock k ws hk =>
    have htasks := total_set (SnapshotTask.work cfg.numShards) hk .done
    simp only [SnapshotTask.work] at htasks
    simp only [Server.work]
    omega
  | compactMerge hc hm hnew =>
    simp only [Server.work, hc, Compactor.work, total_cons, MergeGroup.work]
    omega
  | compactFail hc hm =>
    simp only [Server.work, hc, Compactor.work]
    omega
  | compactCommit hc hlock =>
    simp only [Server.work, hc, Compactor.work, List.length_map]
    omega
  | compactDelete hc =>
    simp only [Server.work, hc, Compactor.work, List.length_cons]
    omega
  | compactNext hc =>
    simp only [Server.work, hc, Compactor.work, List.length_nil]
    omega
  | compactEnd hc =>
    simp only [Server.work, hc, Compactor.work]
    omega

/-! ## Some task can move -/

/-- No step of work in hand is enabled. -/
def Server.Stuck (cfg : StorageConfig) (s : Server) : Prop :=
  ∀ a : Action, a.isWork = true → step cfg s a = none

namespace Server.Stuck

variable {cfg : StorageConfig} {s : Server}

theorem finishing (h : s.Stuck cfg) (i : Nat) : (s.wals i).finishing = none := by
  cases hfinish : (s.wals i).finishing with
  | none => rfl
  | some drain =>
    have := h (.walFinish i) rfl
    cases drain <;> simp [step, hfinish] at this

/-- A snapshot waits for nothing. -/
theorem snapshot_done (h : s.Stuck cfg) (hok : TasksOk cfg s) :
    ∀ t ∈ s.snapshots, t = .done := by
  intro t ht
  obtain ⟨k, hk⟩ := List.getElem?_of_mem ht
  have hnow := hok.snapshots t ht
  cases t with
  | loading ws =>
    rcases Nat.lt_or_eq_of_le (show ws.length ≤ cfg.numShards from hnow) with hlen | hlen
    · simpa [step, hk, hlen] using h (.snapshotLoad k) rfl
    · simpa [step, hk, hlen] using h (.snapshotLock k) rfl
  | locked ws => simpa [step, hk] using h (.snapshotSave k) rfl
  | storing ws i =>
    rcases Nat.lt_or_eq_of_le (show i ≤ ws.length from hnow) with hi | hi
    · simpa [step, hk, hi] using h (.snapshotStore k) rfl
    · simpa [step, hk, hi] using h (.snapshotUnlock k) rfl
  | done => rfl

theorem not_locked (h : s.Stuck cfg) (hok : TasksOk cfg s) : s.indexReadLocked = false := by
  rw [Server.indexReadLocked, List.any_eq_false]
  intro t ht
  rw [h.snapshot_done hok t ht]
  exact Bool.false_ne_true

/-- A call waits for a WAL task only, and that takes its message. -/
theorem call_answered (h : s.Stuck cfg) (hok : TasksOk cfg s) :
    ∀ t ∈ s.appends, t.acked = true := by
  intro t ht
  obtain ⟨k, hk⟩ := List.getElem?_of_mem ht
  by_contra hacked
  obtain ⟨points, pending, acked⟩ := t
  obtain rfl : acked = false := Bool.eq_false_iff.mpr hacked
  cases hfind : pending.findIdx? fun g => g.committed.isNone with
  | some j =>
    obtain ⟨hj, hnone, -⟩ := List.findIdx?_eq_some_iff_getElem.mp hfind
    have hgroup : groupAt s.appends (k, j) = some pending[j] := by
      rw [groupAt, hk]
      exact List.getElem?_eq_getElem hj
    have hshard := hok.routed.shards _ ht pending[j] (List.getElem_mem hj)
    have := h (.walCommit pending[j].shard [(k, j)] none) rfl
    simp [step, hshard, h.finishing, hgroup, Group.waitsFor, Option.isNone_iff_eq_none.mp hnone]
      at this
  | none =>
    have hall : ∀ g ∈ pending, g.committed.isSome = true := by
      intro g hg
      have := List.findIdx?_eq_none_iff.mp hfind g hg
      simpa using this
    cases pending with
    | nil => simpa [step, hk] using h (.ack k) rfl
    | cons g rest =>
      have := h (.memInsert k) rfl
      simp only [step, hk, List.all_eq_true.mpr hall, if_true] at this
      cases this

/-- The sweep waits for the index lock, or for a WAL task that takes its request. -/
theorem sweep_done (h : s.Stuck cfg) (hok : TasksOk cfg s) {id : ChunkId}
    (hid : id ∉ s.disk.chunks) : ∃ i, s.sweeper = .next i := by
  have hlock := h.not_locked hok
  cases hs : s.sweeper with
  | next i => exact ⟨i, rfl⟩
  | drained i data =>
    have := h (.sweepWrite id) rfl
    simp only [step, hs] at this
    split at this
    · cases this
    · rw [if_neg hid] at this
      cases this
  | written i result => simpa [step, hs, hlock] using h .sweepRegister rfl
  | registered i result => simpa [step, hs] using h .sweepReadSequence rfl
  | sequenceRead i result seq => simpa [step, hs] using h .sweepPublish rfl
  | published i => simpa [step, hs] using h .sweepRequestDrain rfl
  | draining i gcSeq =>
    have hi : i < cfg.numShards := by
      have := hok.sweep.shard
      rwa [hs] at this
    have := h (.walCommit i [] (some gcSeq)) rfl
    simp [step, hi, h.finishing, hs, Sweeper.requestsDrain] at this
  | deleting i segs =>
    have := h .sweepDelete rfl
    cases segs <;> simp [step, hs] at this

/-- The compaction worker waits for the index lock only. -/
theorem compaction_done (h : s.Stuck cfg) (hok : TasksOk cfg s) {id : ChunkId}
    (hid : id ∉ s.disk.chunks) : s.compactor = .idle := by
  have hlock := h.not_locked hok
  cases hc : s.compactor with
  | idle => rfl
  | merging groups =>
    cases groups with
    | nil => simpa [step, hc] using h .compactEnd rfl
    | cons group rest =>
      have := h (.compactMerge id) rfl
      simp only [step, hc] at this
      split at this
      · cases this
      · rw [if_neg hid] at this
        cases this
  | merged group result rest => simpa [step, hc, hlock] using h .compactCommit rfl
  | deleting paths rest =>
    have := h .compactDelete rfl
    cases paths <;> simp [step, hc] at this

end Server.Stuck

/-- Work in hand brings no new call and loses none. -/
theorem calls_of_work {cfg : StorageConfig} {s s' : Server} {a : Action} {es : List Event}
    (hwork : a.isWork = true) (hstep : Step cfg s a s' es) :
    s'.appends.map AppendTask.points = s.appends.map AppendTask.points := by
  have hset : ∀ {k : Nat} {t t' : AppendTask}, s.appends[k]? = some t → t'.points = t.points →
      (s.appends.set k t').map AppendTask.points = s.appends.map AppendTask.points := by
    intro k t t' hk hpoints
    obtain ⟨hlt, rfl⟩ := List.getElem?_eq_some_iff.mp hk
    rw [List.map_set, hpoints, ← List.getElem_map AppendTask.points]
    exact List.set_getElem_self (by simpa using hlt)
  cases hstep with
  | append hsorted => cases hwork
  | walCommit _ _ _ _ _ =>
    refine List.ext_getElem? fun k => ?_
    rw [List.getElem?_map, getElem?_deliver, Option.map_map, List.getElem?_map]
    rfl
  | memInsert hk hall => exact hset hk rfl
  | ack hk => exact hset hk rfl
  | _ => rfl

/-- **No schedule gets stuck.** In every state of every run from any disk: a
schedule of the work in hand has at most `work` steps; some schedule goes on
until no step of it is enabled; and where none is, while some chunk id has no
file, all calls are answered, the sweep and the compaction worker are between
rounds, all snapshots are taken and no WAL task is in a batch. -/
theorem work_in_hand_completes {cfg : StorageConfig} {chunkIds : Nat → ChunkId} {disk : Disk}
    {s₀ s : Server} {as : List Action} {tr : List Event}
    (hopen : (openStore cfg chunkIds disk).1 = .ok s₀)
    (hrun : Runs.run (step cfg) s₀ as = some (s, tr)) :
    (∀ (todo : List Action) (t : Server) (es : List Event), (∀ a ∈ todo, a.isWork = true) →
      Runs.run (step cfg) s todo = some (t, es) →
        todo.length ≤ s.work cfg ∧
        t.appends.map AppendTask.points = s.appends.map AppendTask.points ∧
        (t.Stuck cfg → (∃ id : ChunkId, id ∉ t.disk.chunks) →
          t.Quiescent ∧ (∀ task ∈ t.snapshots, task = .done) ∧
            ∀ i, (t.wals i).finishing = none)) ∧
    ∃ todo t es, (∀ a ∈ todo, a.isWork = true) ∧ Runs.run (step cfg) s todo = some (t, es) ∧
      t.Stuck cfg := by
  obtain ⟨idx, wals, -, rfl⟩ := openStore_ok hopen
  have hstep : ∀ {s s' : Server} {a : Action} {es : List Event}, TasksOk cfg s →
      step cfg s a = some (s', es) → TasksOk cfg s' := fun h hs => h.step (step_sound hs)
  have hless : ∀ {s s' : Server} {a : Action} {es : List Event}, TasksOk cfg s →
      a.isWork = true → step cfg s a = some (s', es) → s'.work cfg < s.work cfg :=
    fun h hwork hs => Server.work_step h hwork (step_sound hs)
  have hruns : ∀ {s t : Server} {as : List Action} {es : List Event}, TasksOk cfg s →
      Runs.run (step cfg) s as = some (t, es) → TasksOk cfg t := fun {s t as es} h hrun =>
    Runs.run_invariant (I := fun s _ => TasksOk cfg s) (P := fun _ _ _ => True)
      (fun h _ hs => hstep h hs) h (Runs.along_of_forall (fun _ _ => trivial) s []) hrun
  have hs := hruns (.start cfg _ idx wals) hrun
  refine ⟨fun todo t es hwork hrest => ?_, Measures.exists_run_to_end hstep hless hs⟩
  have hlen := Measures.length_le_of_decreasing hstep hless hs hwork hrest
  refine ⟨by omega, ?_, fun hstuck ⟨id, hid⟩ => ?_⟩
  · have hkeep : ∀ {t t' : Server} {a : Action} {es : List Event},
        t.appends.map AppendTask.points = s.appends.map AppendTask.points → a.isWork = true →
        step cfg t a = some (t', es) →
        t'.appends.map AppendTask.points = s.appends.map AppendTask.points :=
      fun h hwork hs => (calls_of_work hwork (step_sound hs)).trans h
    exact Runs.run_invariant
      (I := fun t _ => t.appends.map AppendTask.points = s.appends.map AppendTask.points)
      (P := fun _ _ a => a.isWork = true) hkeep rfl (Runs.along_of_forall hwork s []) hrest
  · have ht := hruns hs hrest
    exact ⟨⟨hstuck.call_answered ht, hstuck.sweep_done ht hid, hstuck.compaction_done ht hid⟩,
      hstuck.snapshot_done ht, hstuck.finishing⟩

end

/-! ## A call and a snapshot -/

section Example

attribute [local instance] Reference.crates

/-- A call and a snapshot in hand: at most eleven steps, and a schedule of them
after which nothing is left. -/
theorem work_in_hand_completes_twoTasks : ∃ s tr,
    Runs.run (step oneShard) (.fresh oneShard)
      [.append [cpuPoint 5 7] [(0, 0)], .snapshotBegin] = some (s, tr) ∧
    s.work oneShard = 11 ∧
    ∃ todo t es, todo.length ≤ 11 ∧ Runs.run (step oneShard) s todo = some (t, es) ∧
      t.Stuck oneShard := by
  have hrun : (Runs.run (step oneShard) (.fresh oneShard)
      [.append [cpuPoint 5 7] [(0, 0)], .snapshotBegin]).any
        (fun r => r.1.work oneShard = 11) = true := by decide +kernel
  obtain ⟨s, tr, hrun, hwork⟩ := Runs.exists_of_any hrun
  have hwork : s.work oneShard = 11 := by simpa using hwork
  obtain ⟨hbound, todo, t, es, htodo, hrest, hstuck⟩ := work_in_hand_completes
    (openStore_empty oneShard fun _ => 0) hrun
  exact ⟨s, tr, hrun, hwork, todo, t, es, hwork ▸ (hbound todo t es htodo hrest).1, hrest, hstuck⟩

end Example

end Micius

import Micius.Server.Sweep

/-!
# The log of a shard

The segment files of a running server hold the frames of the batches that
the trace records for them. A completed segment is recorded with a maximum
that no batch in it exceeds, and the segment being written is never deleted.
-/

namespace Micius

/-- The batch a trace event records for the segments of shard `i` that are
asked for. -/
def Event.batchIn (i : Nat) (keep : Nat → Bool) : Event → Option Batch
  | committed shard segment batch => if shard = i ∧ keep segment then some batch else none
  | _ => none

theorem Event.batchIn_eq_some {i : Nat} {keep : Nat → Bool} {e : Event} {b : Batch} :
    e.batchIn i keep = some b ↔ ∃ seg, e = .committed i seg b ∧ keep seg := by
  cases e with
  | committed shard segment batch =>
    simp only [batchIn, Option.ite_none_right_eq_some, Option.some.injEq, committed.injEq]
    constructor
    · rintro ⟨⟨rfl, hkeep⟩, rfl⟩
      exact ⟨segment, ⟨rfl, rfl, rfl⟩, hkeep⟩
    · rintro ⟨seg, ⟨rfl, rfl, rfl⟩, hkeep⟩
      exact ⟨⟨rfl, hkeep⟩, rfl⟩
  | _ => simp [batchIn]

/-- The batches of the numbered requests of a WAL task. -/
theorem filterMap_batchIn_committed (reqs : List ((Nat × Nat) × List DataPoint))
    (keep : Nat → Bool) (seg seq i j : Nat) :
    ((numbered seq reqs).map fun r => Event.committed j seg (r.1, r.2.2)).filterMap
        (Event.batchIn i keep) =
      if i = j ∧ keep seg then numbered seq (reqs.map Prod.snd) else [] := by
  rw [numbered_map, List.filterMap_map]
  split
  · next hkeep =>
    refine (List.filterMap_congr fun r _ => ?_).trans (congrFun List.filterMap_eq_map _)
    exact if_pos ⟨hkeep.1.symm, hkeep.2⟩
  · next hkeep =>
    refine List.filterMap_eq_nil_iff.mpr fun r _ => ?_
    exact if_neg fun h => hkeep ⟨h.1.symm, h.2⟩

/-- The batches written to a segment of shard `i`, oldest first. -/
def segmentLog (tr : List Event) (i seg : Nat) : List Batch :=
  tr.filterMap (Event.batchIn i (· = seg))

@[simp] theorem segmentLog_append (tr es : List Event) (i seg : Nat) :
    segmentLog (tr ++ es) i seg = segmentLog tr i seg ++ segmentLog es i seg :=
  List.filterMap_append

theorem mem_segmentLog {tr : List Event} {i seg : Nat} {b : Batch} :
    b ∈ segmentLog tr i seg ↔ .committed i seg b ∈ tr := by
  simp only [segmentLog, List.mem_filterMap, Event.batchIn_eq_some, decide_eq_true_eq]
  constructor
  · rintro ⟨e, he, seg', rfl, rfl⟩
    exact he
  · exact fun he => ⟨_, he, seg, rfl, rfl⟩

theorem segmentLog_eq_nil {tr : List Event} {i seg : Nat}
    (h : ∀ b, .committed i seg b ∉ tr) : segmentLog tr i seg = [] :=
  List.eq_nil_iff_forall_not_mem.mpr fun b hb => h b (mem_segmentLog.mp hb)

theorem segmentLog_committed (reqs : List ((Nat × Nat) × List DataPoint)) (seg' seq i seg : Nat) :
    segmentLog ((numbered seq reqs).map fun r => .committed i seg' (r.1, r.2.2)) i seg =
      if seg = seg' then numbered seq (reqs.map Prod.snd) else [] := by
  rw [segmentLog, filterMap_batchIn_committed]
  simp only [true_and, decide_eq_true_eq, eq_comm (a := seg)]

/-- The batches of shard `i`, oldest first. -/
def shardLog (tr : List Event) (i : Nat) : List Batch :=
  tr.filterMap (Event.batchIn i fun _ => true)

@[simp] theorem shardLog_append (tr es : List Event) (i : Nat) :
    shardLog (tr ++ es) i = shardLog tr i ++ shardLog es i := List.filterMap_append

theorem shardLog_committed (reqs : List ((Nat × Nat) × List DataPoint)) (seg seq i j : Nat) :
    shardLog ((numbered seq reqs).map fun r => .committed j seg (r.1, r.2.2)) i =
      if i = j then numbered seq (reqs.map Prod.snd) else [] := by
  rw [shardLog, filterMap_batchIn_committed]
  simp only [and_true]

variable [Crates]

/-- The WAL task of shard `i`, its files and the segments the sweep is
deleting, after a trace. -/
structure WalOk (i : Nat) (wal : WalHandle) (dir : WalDir) (sweeper : Sweeper)
    (tr : List Event) : Prop where
  file_eq : wal.writer.file = wal.writer.currentSegment
  published : wal.lastSeq ≤ wal.writer.currentSeq
  seqs : ∀ seg b, .committed i seg b ∈ tr →
    0 < b.1 ∧ b.1 ≤ wal.lastSeq ∧ seg ≤ wal.writer.currentSegment
  content : ∀ (seg : Nat) (bytes : Bytes), dir[seg]? = some bytes →
    bytes = frames (segmentLog tr i seg) ∧ seg ≤ wal.writer.currentSegment
  current : wal.writer.currentSegment ∈ dir
  completed : ∀ p ∈ wal.writer.completedSegments, p.1 < wal.writer.currentSegment ∧
    ∀ b, .committed i p.1 b ∈ tr → b.1 ≤ p.2
  deleting : ∀ segs, sweeper = .deleting i segs → ∀ seg ∈ segs, seg < wal.writer.currentSegment

namespace WalOk

variable {i : Nat} {wal : WalHandle} {dir : WalDir} {sweeper : Sweeper} {tr : List Event}

/-- Events of other shards and tasks. -/
theorem quiet (h : WalOk i wal dir sweeper tr) {es : List Event}
    (hes : ∀ seg b, .committed i seg b ∉ es) : WalOk i wal dir sweeper (tr ++ es) := by
  have hmem : ∀ seg b, .committed i seg b ∈ tr ++ es → .committed i seg b ∈ tr := by
    intro seg b hb
    exact (List.mem_append.mp hb).resolve_right (hes seg b)
  exact
    { h with
      seqs := fun seg b hb => h.seqs seg b (hmem seg b hb)
      content := by
        intro seg bytes hget
        rw [segmentLog_append, segmentLog_eq_nil (hes seg), List.append_nil]
        exact h.content seg bytes hget
      completed := fun p hp => ⟨(h.completed p hp).1, fun b hb => (h.completed p hp).2 b (hmem _ b hb)⟩ }

theorem sweeperMoves (h : WalOk i wal dir sweeper tr) {sweeper' : Sweeper}
    (hdel : ∀ segs, sweeper' = .deleting i segs → ∀ seg ∈ segs, seg < wal.writer.currentSegment) :
    WalOk i wal dir sweeper' tr :=
  { h with deleting := hdel }

omit [Crates] in
theorem appends_walBatch (reqs : List ((Nat × Nat) × List DataPoint)) (drain : Option Nat) :
    WalMessage.appends (walBatch reqs drain) = reqs.map fun r => (r.2, 0) := by
  have hreqs : WalMessage.appends (reqs.map fun r => .append r.2 0) = reqs.map fun r => (r.2, 0) := by
    rw [WalMessage.appends, List.filterMap_map]
    exact congrFun List.filterMap_eq_map reqs
  rw [walBatch, WalMessage.appends_append, hreqs]
  cases drain with
  | none => exact List.append_nil _
  | some gcSeq => exact List.append_nil _

section Commit

variable (reqs : List ((Nat × Nat) × List DataPoint)) (drain : Option Nat)

theorem currentSeq_commit : (wal.commit reqs drain).writer.currentSeq =
    wal.writer.currentSeq + reqs.length := by
  simp [WalHandle.commit, committedWriter, appends_walBatch]

/-- `last_seq` stays at the end of the log. -/
theorem lastSeq_commit (h : wal.lastSeq ≤ wal.writer.currentSeq) :
    wal.lastSeq ≤ (wal.commit reqs drain).lastSeq ∧
      (wal.commit reqs drain).lastSeq ≤ wal.writer.currentSeq + reqs.length ∧
      (reqs ≠ [] → (wal.commit reqs drain).lastSeq = wal.writer.currentSeq + reqs.length) := by
  unfold WalHandle.commit
  cases reqs with
  | nil => exact ⟨Nat.le_refl _, h, fun hne => absurd rfl hne⟩
  | cons r reqs => exact ⟨Nat.le_trans h (Nat.le_add_right ..), Nat.le_refl _, fun _ => rfl⟩

/-- Writing a batch. -/
theorem commit (h : WalOk i wal dir sweeper tr) :
    WalOk i (wal.commit reqs drain) (dir.run (wal.commitOps reqs)) sweeper
      (tr ++ (numbered wal.writer.currentSeq reqs).map
        fun r => .committed i wal.writer.file (r.1, r.2.2)) := by
  have hnew : ∀ seg b, .committed i seg b ∈ (numbered wal.writer.currentSeq reqs).map
      (fun r => Event.committed i wal.writer.file (r.1, r.2.2)) →
      wal.writer.currentSeq < b.1 ∧ b.1 ≤ wal.writer.currentSeq + reqs.length ∧
        seg = wal.writer.currentSegment := by
    intro seg b hb
    obtain ⟨r, hr, heq⟩ := List.mem_map.mp hb
    obtain ⟨-, rfl, rfl⟩ := Event.committed.inj heq
    exact ⟨(lt_of_mem_numbered hr).1, (lt_of_mem_numbered hr).2, h.file_eq⟩
  have hdir : ∀ seg : Nat, (dir.run (wal.commitOps reqs))[seg]? =
      if seg = wal.writer.currentSegment then
        (dir[seg]?).map (· ++ frames (numbered wal.writer.currentSeq (reqs.map Prod.snd)))
      else dir[seg]? := by
    intro seg
    obtain ⟨old, hold⟩ := Option.isSome_iff_exists.mp
      (Std.ExtTreeMap.mem_iff_isSome_getElem?.mp h.current)
    unfold WalHandle.commitOps
    cases reqs with
    | nil => simp [numbered]
    | cons r reqs =>
      rw [if_neg (by simp), h.file_eq]
      simp only [WalDir.run_cons, WalDir.run_nil, WalDir.apply, hold, Option.getD_some,
        TreeMap.getElem?_insert_eq]
      split
      · next hseg => rw [hseg, hold, Option.map_some]
      · rfl
  exact
    { file_eq := h.file_eq
      published := by
        rw [currentSeq_commit]
        exact (lastSeq_commit reqs drain h.published).2.1
      seqs := by
        intro seg b hb
        obtain ⟨hold, -, hlast⟩ := lastSeq_commit reqs drain h.published
        rcases List.mem_append.mp hb with hb | hb
        · obtain ⟨hpos, hle, hseg⟩ := h.seqs seg b hb
          exact ⟨hpos, Nat.le_trans hle hold, hseg⟩
        · obtain ⟨hlt, hle, rfl⟩ := hnew seg b hb
          have hne : reqs ≠ [] := by
            rintro rfl
            cases hb
          exact ⟨by omega, by rw [hlast hne]; exact hle, Nat.le_refl _⟩
      content := by
        intro seg bytes hget
        rw [hdir] at hget
        rw [segmentLog_append, segmentLog_committed, h.file_eq]
        split at hget
        · next hseg =>
          obtain ⟨old, hold, rfl⟩ := Option.map_eq_some_iff.mp hget
          obtain ⟨hold, hle⟩ := h.content seg old hold
          rw [if_pos hseg, frames_append, hold]
          exact ⟨rfl, hle⟩
        · next hseg =>
          rw [if_neg hseg, List.append_nil]
          exact h.content seg bytes hget
      current := by
        have hcur := h.current
        rw [Std.ExtTreeMap.mem_iff_isSome_getElem?] at hcur ⊢
        show ((dir.run (wal.commitOps reqs))[wal.writer.currentSegment]?).isSome = true
        rw [hdir, if_pos rfl, Option.isSome_map]
        exact hcur
      completed := by
        intro p hp
        obtain ⟨hlt, hmax⟩ := h.completed p hp
        refine ⟨hlt, fun b hb => ?_⟩
        rcases List.mem_append.mp hb with hb | hb
        · exact hmax b hb
        · exact absurd (hnew p.1 b hb).2.2 (Nat.ne_of_lt hlt)
      deleting := h.deleting }

end Commit

/-- Rotating a full segment. -/
theorem rotateFull (h : WalOk i wal dir sweeper tr) (lastSeq : Nat)
    (hlast : lastSeq = wal.lastSeq) (finishing : Option (Option Nat)) :
    WalOk i ⟨(Micius.rotateFull wal.writer).1, lastSeq, finishing⟩
      (dir.run (Micius.rotateFull wal.writer).2) sweeper tr := by
  unfold Micius.rotateFull
  split
  · have hnot : wal.writer.currentSegment + 1 ∉ dir := by
      intro hmem
      obtain ⟨bytes, hget⟩ := Option.isSome_iff_exists.mp
        (Std.ExtTreeMap.mem_iff_isSome_getElem?.mp hmem)
      have := (h.content _ bytes hget).2
      omega
    have hdir : dir.run (wal.writer.rotate true).2.2 =
        dir.insert (wal.writer.currentSegment + 1) [] := by
      simp [WalWriter.rotate, WalDir.apply, hnot]
    have hnone : segmentLog tr i (wal.writer.currentSegment + 1) = [] := by
      refine segmentLog_eq_nil fun b hb => ?_
      have := (h.seqs _ b hb).2.2
      omega
    rw [hdir]
    exact
      { file_eq := rfl
        published := hlast ▸ h.published
        seqs := fun seg b hb => ⟨(h.seqs seg b hb).1, hlast ▸ (h.seqs seg b hb).2.1,
          Nat.le_succ_of_le (h.seqs seg b hb).2.2⟩
        content := by
          intro seg bytes hget
          rw [TreeMap.getElem?_insert_eq] at hget
          split at hget
          · next hseg =>
            obtain rfl := Option.some.inj hget
            rw [hseg, hnone]
            exact ⟨rfl, Nat.le_refl _⟩
          · exact ⟨(h.content seg bytes hget).1, Nat.le_succ_of_le (h.content seg bytes hget).2⟩
        current := by
          rw [Std.ExtTreeMap.mem_iff_isSome_getElem?]
          show ((dir.insert (wal.writer.currentSegment + 1) [])[wal.writer.currentSegment + 1]?).isSome
          rw [TreeMap.getElem?_insert_eq, if_pos rfl]
          rfl
        completed := by
          intro p hp
          rcases List.mem_append.mp hp with hp | hp
          · exact ⟨Nat.lt_succ_of_lt (h.completed p hp).1, (h.completed p hp).2⟩
          · obtain rfl := List.mem_singleton.mp hp
            exact ⟨Nat.lt_succ_self _, fun b hb =>
              Nat.le_trans (h.seqs _ b hb).2.1 h.published⟩
        deleting := fun segs hs seg hseg => Nat.lt_succ_of_lt (h.deleting segs hs seg hseg) }
  · exact { h with published := hlast ▸ h.published, seqs := hlast ▸ h.seqs }

/-- Answering a drain request. -/
theorem drain (h : WalOk i wal dir sweeper tr) (gcSeq lastSeq : Nat)
    (hlast : lastSeq = wal.lastSeq) (finishing : Option (Option Nat)) :
    WalOk i ⟨(wal.writer.drainCompletedBefore gcSeq).2, lastSeq, finishing⟩ dir
      (.deleting i (wal.writer.drainCompletedBefore gcSeq).1) tr :=
  { file_eq := h.file_eq
    published := hlast ▸ h.published
    seqs := hlast ▸ h.seqs
    content := h.content
    current := h.current
    completed := fun p hp => h.completed p (List.mem_of_mem_filter hp)
    deleting := by
      intro segs hs seg hseg
      obtain ⟨-, rfl⟩ := Sweeper.deleting.inj hs
      obtain ⟨p, hp, rfl⟩ := List.mem_map.mp hseg
      exact (h.completed p (List.mem_of_mem_filter hp)).1 }

/-- Deleting a segment. -/
theorem remove {seg : Nat} {segs : List Nat} (h : WalOk i wal dir (.deleting i (seg :: segs)) tr) :
    WalOk i wal (dir.run [.remove seg]) (.deleting i segs) tr := by
  have hlt : seg < wal.writer.currentSegment := h.deleting _ rfl seg (by simp)
  have hdir : ∀ seg' : Nat, (dir.run [.remove seg])[seg']? =
      if seg' = seg then none else dir[seg']? := TreeMap.getElem?_erase_eq dir seg
  exact
    { h with
      content := by
        intro seg' bytes hget
        rw [hdir] at hget
        split at hget
        · cases hget
        · exact h.content seg' bytes hget
      current := by
        rw [Std.ExtTreeMap.mem_iff_isSome_getElem?, hdir, if_neg (Nat.ne_of_gt hlt),
          ← Std.ExtTreeMap.mem_iff_isSome_getElem?]
        exact h.current
      deleting := by
        intro segs' hs seg' hseg'
        obtain ⟨-, rfl⟩ := Sweeper.deleting.inj hs
        exact h.deleting _ rfl seg' (by simp [hseg']) }

end WalOk

/-- The log of shard `i` of the server. -/
def Server.WalOk (s : Server) (tr : List Event) (i : Nat) : Prop :=
  Micius.WalOk i (s.wals i) (s.disk.wal i) s.sweeper tr

/-- A log that has just been opened and has one empty segment. -/
theorem WalOk.opened {i : Nat} {writer : WalWriter} (hfile : writer.file = writer.currentSegment)
    (hcompleted : ∀ p ∈ writer.completedSegments, p.1 < writer.currentSegment) :
    Micius.WalOk i ⟨writer, writer.currentSeq, none⟩ ((∅ : WalDir).insert writer.currentSegment [])
      (.next 0) [] where
  file_eq := hfile
  published := Nat.le_refl _
  seqs := by simp
  content := by
    intro seg bytes hget
    rw [TreeMap.getElem?_insert_eq] at hget
    split at hget
    · next hseg =>
      obtain rfl := Option.some.inj hget
      exact ⟨rfl, Nat.le_of_eq hseg⟩
    · simp at hget
  current := Std.ExtTreeMap.mem_insert_self
  completed p hp := ⟨hcompleted p hp, by simp⟩
  deleting := by simp

theorem walOk_fresh {cfg : StorageConfig} {i : Nat} (hi : i < cfg.numShards) :
    (Server.fresh cfg).WalOk [] i := by
  unfold Server.WalOk
  rw [fresh_wals cfg hi, fresh_wal cfg hi]
  exact .opened rfl (by simp [freshWriter])

/-- What another shard's WAL task does. -/
theorem Server.WalOk.other {s : Server} {tr es : List Event} {i j : Nat} (hij : i ≠ j)
    (h : s.WalOk tr i) (hes : ∀ seg b, .committed i seg b ∉ es) (wal : WalHandle) (dir : WalDir)
    {sweeper : Sweeper}
    (hdel : ∀ segs, sweeper = .deleting i segs → ∀ seg ∈ segs,
      seg < (s.wals i).writer.currentSegment) :
    Micius.WalOk i (Function.update s.wals j wal i) (Function.update s.disk.wal j dir i) sweeper
      (tr ++ es) := by
  rw [Function.update_of_ne hij, Function.update_of_ne hij]
  exact (h.sweeperMoves hdel).quiet hes

/-- **Every step** keeps the logs. -/
theorem Server.WalOk.step {cfg : StorageConfig} {s s' : Server} {tr es : List Event} {a : Action}
    {i : Nat} (h : s.WalOk tr i) (hstep : Step cfg s a s' es) : s'.WalOk (tr ++ es) i := by
  cases hstep with
  | @walCommit j refs drain hj hidle hrequest hnodup hwait =>
    by_cases hij : i = j
    · subst hij
      have hcommit := WalOk.commit (messagesAt s.appends refs) drain h
      show Micius.WalOk i (Function.update s.wals i _ i) (Function.update s.disk.wal i _ i) _ _
      rwa [Function.update_self, Function.update_self]
    · refine h.other hij (fun seg b hb => ?_) _ _ h.deleting
      obtain ⟨r, -, heq⟩ := List.mem_map.mp hb
      exact hij (Event.committed.inj heq).1.symm
  | @walFinish j hfinish =>
    by_cases hij : i = j
    · subst hij
      show Micius.WalOk i (Function.update s.wals i _ i) (Function.update s.disk.wal i _ i) _ _
      rw [Function.update_self, Function.update_self]
      exact (h.rotateFull _ rfl none).quiet (by simp)
    · exact h.other hij (by simp) _ _ h.deleting
  | @walDrain j gcSeq hfinish =>
    by_cases hij : i = j
    · subst hij
      show Micius.WalOk i (Function.update s.wals i _ i) (Function.update s.disk.wal i _ i) _ _
      rw [Function.update_self, Function.update_self]
      exact ((h.rotateFull (s.wals i).lastSeq rfl none).drain gcSeq _ rfl none).quiet (by simp)
    · refine h.other hij (by simp) _ _ fun segs hs => ?_
      exact absurd (Sweeper.deleting.inj hs).1.symm hij
  | @sweepDelete j seg segs hs =>
    by_cases hij : i = j
    · subst hij
      unfold Server.WalOk at h
      rw [hs] at h
      show Micius.WalOk i (s.wals i) (Function.update s.disk.wal i _ i) _ _
      rw [Function.update_self]
      exact h.remove.quiet (by simp)
    · show Micius.WalOk i (s.wals i) (Function.update s.disk.wal j _ i) _ _
      rw [Function.update_of_ne hij]
      refine (h.sweeperMoves fun segs hs => ?_).quiet (by simp)
      exact absurd (Sweeper.deleting.inj hs).1.symm hij
  | sweepDrain hs hflush => exact (h.sweeperMoves (by simp)).quiet (by simp)
  | sweepSkip hs hflush => exact (h.sweeperMoves (by simp)).quiet (by simp)
  | sweepWrite hs hw hnew => exact (h.sweeperMoves (by simp)).quiet (by simp)
  | sweepFail hs hw => exact (h.sweeperMoves (by simp)).quiet (by simp)
  | sweepRegister hs hlock => exact (h.sweeperMoves (by simp)).quiet (by simp)
  | sweepReadSequence hs => exact (h.sweeperMoves (by simp)).quiet (by simp)
  | sweepPublish hs => exact (h.sweeperMoves (by simp)).quiet (by simp)
  | sweepRequestDrain hs => exact (h.sweeperMoves (by simp)).quiet (by simp)
  | sweepDone hs => exact (h.sweeperMoves (by simp)).quiet (by simp)
  | _ => exact h.quiet (by simp)

end Micius

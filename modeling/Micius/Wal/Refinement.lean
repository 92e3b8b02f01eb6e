import Micius.Wal.BatchSpec
import Micius.Reference.Instance

/-!
# Group commit refines sequential appends

Without I/O failures `wal_task` writes the log that `WalWriter::append`
writes on the same batches one by one: the same bytes, split over files in
another way. Every message gets one reply, and an append is answered after
its frame is fsynced and its sequence number published.
-/

namespace Micius

open WalMessage

/-! ## Properties of every event of a trace -/

namespace LogView

/-- `P` holds of every event, in the view just before it. -/
def Always (P : LogView → WalEvent → Prop) (v : LogView) : List WalEvent → Prop
  | [] => True
  | e :: es => P v e ∧ Always P (v.step e) es

theorem always_append {P : LogView → WalEvent → Prop} {v : LogView} {es es' : List WalEvent} :
    Always P v (es ++ es') ↔ Always P v es ∧ Always P (v.after es) es' := by
  induction es generalizing v with
  | nil => simp [Always]
  | cons e es ih => simp [Always, ih, and_assoc]

theorem always_of_forall {P : LogView → WalEvent → Prop} {es : List WalEvent}
    (h : ∀ e ∈ es, ∀ v, P v e) (v : LogView) : Always P v es := by
  induction es generalizing v with
  | nil => trivial
  | cons e es ih =>
    exact ⟨h e (by simp) v, ih (fun e' he' => h e' (by simp [he'])) (v.step e)⟩

theorem always_replies {α : Type} {P : LogView → WalEvent → Prop} {v : LogView} {l : List α}
    {f : α → Nat} {g : α → WalReply} (h : ∀ a ∈ l, P v (.reply (f a) (g a))) :
    Always P v (l.map fun a => .reply (f a) (g a)) := by
  induction l with
  | nil => trivial
  | cons a l ih => exact ⟨h a (by simp), ih fun a' ha' => h a' (by simp [ha'])⟩

theorem Always.split {P : LogView → WalEvent → Prop} {v : LogView} {es pre post : List WalEvent}
    {e : WalEvent} (h : Always P v es) (hes : es = pre ++ e :: post) : P (v.after pre) e := by
  rw [hes, always_append] at h
  exact h.2.1

end LogView

/-- The replies of a trace, in order. -/
def repliesOf (es : List WalEvent) : List (Nat × WalReply) :=
  es.filterMap fun
    | .reply channel r => some (channel, r)
    | _ => none

/-- The answers to appends of a trace, in order. -/
def appendRepliesOf (es : List WalEvent) : List (Nat × Except WalError Nat) :=
  es.filterMap fun
    | .reply channel (.sequence r) => some (channel, r)
    | _ => none

@[simp] theorem repliesOf_append (as bs : List WalEvent) :
    repliesOf (as ++ bs) = repliesOf as ++ repliesOf bs := List.filterMap_append ..

@[simp] theorem appendRepliesOf_append (as bs : List WalEvent) :
    appendRepliesOf (as ++ bs) = appendRepliesOf as ++ appendRepliesOf bs :=
  List.filterMap_append ..

/-! ## The log invariant -/

section

variable [Crates]

/-- The writer is at the end of a fully fsynced log of the given batches,
numbered from the resume sequence on. -/
structure LogInv (resumeSeq : Nat) (as : List (List DataPoint)) (w : WalWriter) (v : LogView) :
    Prop where
  file_eq : w.file = w.currentSegment
  noErr : w.lastWriteErr = false
  seq_eq : w.currentSeq = resumeSeq + as.length
  synced_eq : v.synced = v.files
  holds : ∃ init bs, v.files.Holds (init ++ [(w.currentSegment, bs)]) ∧
    SegLog.batches init ++ bs = numbered resumeSeq as

namespace LogInv

variable {resumeSeq : Nat} {as : List (List DataPoint)} {w : WalWriter} {v : LogView}

/-- The view of an empty directory, once `WalWriter::open` has run on it. -/
theorem openWal (maxSegmentBytes resumeSeq published : Nat) :
    LogInv resumeSeq [] (WalWriter.openWal ∅ maxSegmentBytes resumeSeq).1
      ((⟨∅, ∅, published⟩ : LogView).after
        ((WalWriter.openWal ∅ maxSegmentBytes resumeSeq).2.map .op)) := by
  refine ⟨rfl, rfl, rfl, rfl, [], [], ?_, rfl⟩
  exact TreeMap.toList_insert_snoc [] (m := (∅ : WalDir)) (by simp)

/-- Writing and fsyncing the frames of new batches. -/
theorem commit (h : LogInv resumeSeq as w v) (new : List (List DataPoint)) (size : Nat) :
    LogInv resumeSeq (as ++ new)
      { w with
        lastWriteErr := false, currentSeq := w.currentSeq + new.length, currentSize := size }
      (v.after [.op (.write w.file (frames (numbered w.currentSeq new))), .op (.sync w.file)]) := by
  obtain ⟨init, bs, hold, hlog⟩ := h.holds
  have hw := hold.write (numbered w.currentSeq new)
  rw [← h.file_eq] at hw
  refine ⟨h.file_eq, rfl, ?_, ?_, init, bs ++ numbered w.currentSeq new, h.file_eq ▸ hw, ?_⟩
  · rw [List.length_append, h.seq_eq, Nat.add_assoc]
  · simp [LogView.step, WalDir.apply, h.synced_eq]
  · rw [← List.append_assoc, hlog, numbered_append, h.seq_eq]

/-- Rotation opens an empty segment and keeps the log. -/
theorem rotate (h : LogInv resumeSeq as w v) :
    LogInv resumeSeq as (w.rotate true).2.1 (v.after ((w.rotate true).2.2.map .op)) := by
  obtain ⟨init, bs, hold, hlog⟩ := h.holds
  refine ⟨rfl, rfl, h.seq_eq, ?_, init ++ [(w.currentSegment, bs)], [], ?_, by simpa using hlog⟩
  · simp [WalWriter.rotate, LogView.step, h.synced_eq]
  · simpa [WalWriter.rotate, LogView.step] using hold.create

theorem drain (h : LogInv resumeSeq as w v) (seq : Nat) :
    LogInv resumeSeq as (w.drainCompletedBefore seq).2 v :=
  ⟨h.file_eq, h.noErr, h.seq_eq, h.synced_eq, h.holds⟩

theorem rotateIfFull (h : LogInv resumeSeq as w v) :
    LogInv resumeSeq as (Micius.rotateIfFull w true).1
      (v.after (Micius.rotateIfFull w true).2) := by
  unfold Micius.rotateIfFull
  split
  · exact h.rotate
  · exact h

theorem answerDrains (h : LogInv resumeSeq as w v) (ds : List (Nat × Nat)) :
    LogInv resumeSeq as (Micius.answerDrains w ds).1 (v.after (Micius.answerDrains w ds).2) := by
  unfold Micius.answerDrains
  split
  · exact h
  · rw [LogView.after_replies v ds Prod.snd]
    exact h.drain _

theorem answerRotate (h : LogInv resumeSeq as w v) (reply : Option Nat) :
    LogInv resumeSeq as (Micius.answerRotate w true reply).1
      (v.after (Micius.answerRotate w true reply).2) := by
  cases reply with
  | none => exact h
  | some reply => exact h.rotate.drain u64Max

theorem finishBatch (h : LogInv resumeSeq as w v) (batch : List WalMessage) :
    LogInv resumeSeq as (Micius.finishBatch w batch .ok).1
      (v.after (Micius.finishBatch w batch .ok).2) := by
  have h₁ := h.rotateIfFull
  have h₂ := h₁.answerDrains (drains batch)
  have h₃ := h₂.answerRotate (rotates batch).head?
  simpa [Micius.finishBatch, BatchIo.ok] using h₃

theorem acks (h : LogInv resumeSeq as w v) (batch : List WalMessage) : w.Acks batch .ok :=
  .inr ⟨h.noErr, rfl⟩

theorem processBatch (h : LogInv resumeSeq as w v) (batch : List WalMessage) :
    LogInv resumeSeq (as ++ (appends batch).map Prod.fst) (Micius.processBatch w batch .ok).1
      (v.after (Micius.processBatch w batch .ok).2) := by
  have hreject : v.after (rejectEvents (rotates batch).tail) = v :=
    LogView.after_replies v _ id fun _ => .paths (.error .concurrentRotate)
  rw [processBatch_ok w batch .ok (h.acks batch), LogView.after_append, LogView.after_append,
    hreject]
  refine LogInv.finishBatch ?_ batch
  have hcommit := h.commit ((appends batch).map Prod.fst) (committedWriter w batch .ok).currentSize
  have hnoErr : (committedWriter w batch .ok).lastWriteErr = false := by
    simp [committedWriter, h.noErr]
  by_cases has : appends batch = []
  · refine ⟨h.file_eq, hnoErr, by simp [committedWriter, has, h.seq_eq], ?_, ?_⟩
    · simpa [commitEvents, has] using h.synced_eq
    · simpa [commitEvents, has, committedWriter] using h.holds
  · rw [commitEvents, if_neg has, LogView.after_append,
      LogView.after_replies _ (numbered w.currentSeq (appends batch))]
    rw [List.length_map] at hcommit
    exact ⟨hcommit.file_eq, hnoErr, hcommit.seq_eq, hcommit.synced_eq, hcommit.holds⟩

/-- The fsynced bytes, in the order of the segments. -/
theorem flatten_synced (h : LogInv resumeSeq as w v) :
    v.synced.files.flatten = frames (numbered resumeSeq as) := by
  obtain ⟨init, bs, hold, hlog⟩ := h.holds
  rw [h.synced_eq, hold.flatten_files, ← hlog]
  simp

end LogInv

/-! ## Replies -/

omit [Crates] in
@[simp] theorem repliesOf_ops (ops : List WalOp) : repliesOf (ops.map .op) = [] := by
  simp [repliesOf, List.filterMap_map]

omit [Crates] in
@[simp] theorem repliesOf_replies {α : Type} (l : List α) (f : α → Nat) (g : α → WalReply) :
    repliesOf (l.map fun a => .reply (f a) (g a)) = l.map fun a => (f a, g a) := by
  simp [repliesOf, List.filterMap_map]

omit [Crates] in
theorem repliesOf_rotateIfFull (w : WalWriter) (opened : Bool) :
    repliesOf (rotateIfFull w opened).2 = [] := by
  unfold rotateIfFull
  split
  · exact repliesOf_ops _
  · rfl

omit [Crates] in
/-- The stages after the commit answer the drains and the kept rotate. -/
theorem repliesOf_finishBatch (w : WalWriter) (batch : List WalMessage) :
    (repliesOf (finishBatch w batch .ok).2).map Prod.fst =
      (drains batch).map Prod.snd ++ (rotates batch).head?.toList := by
  have hdrains : ∀ w : WalWriter, (repliesOf (answerDrains w (drains batch)).2).map Prod.fst =
      (drains batch).map Prod.snd := by
    intro w
    unfold answerDrains
    split
    · next h => simp [h, repliesOf]
    · simp
  have hrotate : ∀ w : WalWriter,
      (repliesOf (answerRotate w true (rotates batch).head?).2).map Prod.fst =
        (rotates batch).head?.toList := by
    intro w
    cases (rotates batch).head? with
    | none => rfl
    | some reply => rfl
  simp only [finishBatch, repliesOf_append, List.map_append, repliesOf_rotateIfFull,
    List.nil_append, BatchIo.ok, hdrains, hrotate]

/-- Every message of a batch gets one reply. -/
theorem repliesOf_processBatch {w : WalWriter} {batch : List WalMessage}
    (hio : w.Acks batch .ok) :
    ((repliesOf (processBatch w batch .ok).2).map Prod.fst).Perm (batch.map replyTo) := by
  have hcommit : (repliesOf (commitEvents w batch .ok)).map Prod.fst =
      (appends batch).map Prod.snd := by
    have hacks : ∀ (seq : Nat) (as : List (List DataPoint × Nat)),
        (numbered seq as).map (fun p => p.2.2) = as.map Prod.snd := by
      intro seq as
      induction as generalizing seq with
      | nil => rfl
      | cons a as ih => simp [numbered, ih]
    unfold commitEvents
    split
    · next h => simp [h, repliesOf]
    · rw [repliesOf_append, repliesOf_replies, List.map_append, List.map_map]
      simpa [repliesOf, Function.comp_def] using hacks w.currentSeq (appends batch)
  have hrotates : (rotates batch).head?.toList ++ (rotates batch).tail = rotates batch := by
    cases rotates batch <;> rfl
  rw [processBatch_ok w batch .ok hio, BatchIo.write_ok, repliesOf_append, repliesOf_append,
    List.map_append, List.map_append, hcommit, repliesOf_finishBatch, rejectEvents,
    repliesOf_replies, List.map_map]
  refine List.Perm.trans ?_ (map_replyTo_perm batch).symm
  conv_rhs => rw [← hrotates]
  simp only [Function.comp_def, List.map_id', List.append_assoc]
  refine List.perm_append_comm.trans ?_
  simp only [List.append_assoc]
  exact List.Perm.refl _

omit [Crates] in
theorem appendRepliesOf_eq_nil {es : List WalEvent} (h : ∀ e ∈ es, e.Quiet) :
    appendRepliesOf es = [] := by
  rw [appendRepliesOf, List.filterMap_eq_nil_iff]
  intro e he
  cases e with
  | op o => rfl
  | publish seq => rfl
  | reply channel r =>
    cases r with
    | sequence r => exact absurd rfl ((h _ he).ne_sequence channel r)
    | paths r => rfl

/-- The appends of a batch are answered in order with their numbers. -/
theorem appendRepliesOf_processBatch {w : WalWriter} {batch : List WalMessage}
    (hio : w.Acks batch .ok) :
    appendRepliesOf (processBatch w batch .ok).2 =
      (numbered w.currentSeq (appends batch)).map fun p => (p.2.2, .ok p.1) := by
  have hcommit : appendRepliesOf (commitEvents w batch .ok) =
      (numbered w.currentSeq (appends batch)).map fun p => (p.2.2, .ok p.1) := by
    unfold commitEvents
    split
    · next h => simp [h, appendRepliesOf, numbered]
    · simp [appendRepliesOf, List.filterMap_map]
  rw [processBatch_ok w batch .ok hio, BatchIo.write_ok, appendRepliesOf_append,
    appendRepliesOf_append, hcommit, appendRepliesOf_eq_nil (quiet_rejectEvents _),
    appendRepliesOf_eq_nil (quiet_finishBatch _ _ _), List.nil_append, List.append_nil]

/-- An answer to an append carries the append's number, which is published
by then, and the fsynced log holds the frames of all appends up to it. -/
def AckIsDurable (resumeSeq : Nat) (all : List (List DataPoint × Nat)) (v : LogView)
    (e : WalEvent) : Prop :=
  ∀ channel r, e = .reply channel (.sequence r) → ∃ seq points m,
    r = .ok seq ∧ (seq, points, channel) ∈ numbered resumeSeq all ∧ seq ≤ v.published ∧
    seq ≤ resumeSeq + m ∧
    v.synced.files.flatten = frames ((numbered resumeSeq (all.map Prod.fst)).take m)

omit [Crates] in
theorem numbered_take {α : Type} (seq m : Nat) (as : List α) :
    (numbered seq as).take m = numbered seq (as.take m) := by
  induction as generalizing seq m with
  | nil => simp [numbered]
  | cons a as ih =>
    cases m with
    | zero => rfl
    | succ m => simp [numbered, ih]

theorem ackIsDurable_processBatch {resumeSeq : Nat} {as : List (List DataPoint × Nat)}
    {w : WalWriter} {v : LogView} (h : LogInv resumeSeq (as.map Prod.fst) w v)
    (batch : List WalMessage) (later : List (List DataPoint × Nat)) :
    v.Always (AckIsDurable resumeSeq (as ++ appends batch ++ later))
      (processBatch w batch .ok).2 := by
  have hquiet : ∀ {es : List WalEvent}, (∀ e ∈ es, e.Quiet) →
      ∀ v : LogView, v.Always (AckIsDurable resumeSeq (as ++ appends batch ++ later)) es :=
    fun hes v => LogView.always_of_forall
      (fun e he v channel r heq => absurd heq ((hes e he).ne_sequence channel r)) v
  have hseq : w.currentSeq = resumeSeq + as.length := by simpa using h.seq_eq
  rw [processBatch_ok w batch .ok (h.acks batch), BatchIo.write_ok, LogView.always_append,
    LogView.always_append]
  refine ⟨⟨hquiet (quiet_rejectEvents _) _, ?_⟩, hquiet (quiet_finishBatch _ _ _) _⟩
  rw [show v.after (rejectEvents (rotates batch).tail) = v from
    LogView.after_replies v _ id fun _ => .paths (.error .concurrentRotate)]
  unfold commitEvents
  split
  · trivial
  · rw [LogView.always_append]
    refine ⟨⟨?_, ?_, ?_, trivial⟩, ?_⟩
    · exact fun _ _ heq => nomatch heq
    · exact fun _ _ heq => nomatch heq
    · exact fun _ _ heq => nomatch heq
    -- from here on the view does not change, and it has the whole batch
    have hsynced := (h.commit ((appends batch).map Prod.fst) 0).flatten_synced
    have hpublished : (v.after [.op (.write w.file (WriteIo.ok.written (batchFrames w batch))),
        .op (.sync w.file),
        .publish (w.currentSeq + (appends batch).length)]).published =
          w.currentSeq + (appends batch).length := rfl
    apply LogView.always_replies
    intro p hp channel r heq
    obtain ⟨rfl, rfl⟩ : p.2.2 = channel ∧ (.ok p.1 : Except WalError Nat) = r := by
      simpa using heq
    have hnum := lt_of_mem_numbered hp
    refine ⟨p.1, p.2.1, as.length + (appends batch).length, rfl, ?_, ?_, by omega, ?_⟩
    · rw [numbered_append, numbered_append, ← hseq]
      simp [hp]
    · rw [hpublished]
      exact hnum.2
    · rw [numbered_take, List.map_append, List.map_append, List.take_append_of_le_length (by simp),
        List.take_of_length_le (by simp)]
      exact hsynced

/-! ## Whole runs -/

/-- One run of the task without failures, from any state with the log
invariant. -/
theorem walTask_ok {resumeSeq : Nat} (maxBatch : Nat) (rounds : List (List WalMessage))
    (as : List (List DataPoint × Nat)) {t : WalTask} {v : LogView}
    (h : LogInv resumeSeq (as.map Prod.fst) t.writer v) :
    ∃ received,
      t.queue ++ rounds.flatten =
        received ++ (walTask maxBatch t (rounds.map (·, .ok))).1.queue ∧
      LogInv resumeSeq ((as ++ appends received).map Prod.fst)
        (walTask maxBatch t (rounds.map (·, .ok))).1.writer
        (v.after (walTask maxBatch t (rounds.map (·, .ok))).2) ∧
      ((repliesOf (walTask maxBatch t (rounds.map (·, .ok))).2).map Prod.fst).Perm
        (received.map replyTo) ∧
      appendRepliesOf (walTask maxBatch t (rounds.map (·, .ok))).2 =
        (numbered (resumeSeq + as.length) (appends received)).map (fun p => (p.2.2, .ok p.1)) ∧
      v.Always (AckIsDurable resumeSeq (as ++ appends received))
        (walTask maxBatch t (rounds.map (·, .ok))).2 := by
  induction rounds generalizing as t v with
  | nil => exact ⟨[], by simp [walTask], by simpa [walTask, appends] using h, .refl _, rfl, trivial⟩
  | cons arrived rounds ih =>
    rw [List.map_cons, walTask]
    rcases t.round_cases maxBatch arrived .ok with ⟨hq, hround⟩ | ⟨batch, rest, -, -, hq, hround⟩
    · obtain ⟨received, hsplit, hinv, hreplies, hacks, halways⟩ := ih as h
      have hqueue : t.queue = [] ∧ arrived = [] := by simpa using hq
      simp only [hround, List.nil_append]
      exact ⟨received, by simpa [hqueue] using hsplit, hinv, hreplies, hacks, halways⟩
    · have hbatch := h.processBatch batch
      rw [← List.map_append] at hbatch
      obtain ⟨received, hsplit, hinv, hreplies, hacks, halways⟩ :=
        ih (as ++ appends batch) (t := ⟨(processBatch t.writer batch .ok).1, rest⟩) hbatch
      have hseq : t.writer.currentSeq = resumeSeq + as.length := by simpa using h.seq_eq
      simp only [hround]
      refine ⟨batch ++ received, ?_, ?_, ?_, ?_, ?_⟩
      · rw [List.flatten_cons, ← List.append_assoc, hq, List.append_assoc, hsplit,
          List.append_assoc]
      · simpa [List.append_assoc] using hinv
      · rw [repliesOf_append, List.map_append, List.map_append]
        exact (repliesOf_processBatch (h.acks batch)).append hreplies
      · rw [appendRepliesOf_append, appendRepliesOf_processBatch (h.acks batch), hacks,
          appends_append, numbered_append, List.map_append, hseq, List.length_append, Nat.add_assoc]
      · rw [LogView.always_append, appends_append, ← List.append_assoc]
        exact ⟨ackIsDurable_processBatch h batch (appends received), halways⟩

/-! ## The sequential writer -/

/-- `WalWriter::append` on the batches one by one, without I/O failure. -/
def appendAll (w : WalWriter) : List (List DataPoint) → WalWriter × List WalOp
  | [] => (w, [])
  | points :: rest =>
    let (_, w, ops) := w.append points .ok true
    let (w, later) := appendAll w rest
    (w, ops ++ later)

theorem LogInv.append {resumeSeq : Nat} {as : List (List DataPoint)} {w : WalWriter} {v : LogView}
    (h : LogInv resumeSeq as w v) (points : List DataPoint) :
    LogInv resumeSeq (as ++ [points]) (w.append points .ok true).2.1
      (v.after ((w.append points .ok true).2.2.map .op)) := by
  have hcommit := h.commit [points] (w.currentSize + (encodeFrame (w.currentSeq + 1) points).length)
  have hframe : frames (numbered w.currentSeq [points]) = encodeFrame (w.currentSeq + 1) points := by
    simp [numbered, Batch.frame]
  rw [hframe] at hcommit
  simp only [WalWriter.append, h.noErr, writeAndSync_ok]
  split
  · have hrotate := hcommit.rotate
    rw [← LogView.after_append] at hrotate
    exact hrotate
  · exact hcommit

theorem LogInv.appendAll {resumeSeq : Nat} {as : List (List DataPoint)} {w : WalWriter}
    {v : LogView} (h : LogInv resumeSeq as w v) (new : List (List DataPoint)) :
    LogInv resumeSeq (as ++ new) (Micius.appendAll w new).1
      (v.after ((Micius.appendAll w new).2.map .op)) := by
  induction new generalizing as w v with
  | nil => simpa [Micius.appendAll] using h
  | cons points new ih =>
    have hnew := ih (h.append points)
    rw [List.append_assoc, ← LogView.after_append, ← List.map_append] at hnew
    exact hnew

/-- The log of a run holds the numbered batches, in some split into files. -/
theorem LogInv.recover (lawful : Crates.LawfulProst) {resumeSeq : Nat} {as : List (List DataPoint)}
    {w : WalWriter} {v : LogView} (h : LogInv resumeSeq as w v)
    (hfits : ∀ b ∈ numbered resumeSeq as, Batch.Fits b) (watermark : Nat) :
    recover v.files watermark =
      .ok (.ofBatches watermark (numbered resumeSeq as) v.files.toList.length false) := by
  obtain ⟨init, bs, hold, hlog⟩ := h.holds
  have hbatches : SegLog.batches (init ++ [(w.currentSegment, bs)]) = numbered resumeSeq as := by
    simpa using hlog
  have hlen : v.files.toList.length = (init ++ [(w.currentSegment, bs)]).length := by
    rw [hold, List.length_map]
  rw [hold.recover lawful (by rwa [hbatches]), hbatches, hlen]

/-- **Group commit refines sequential appends.** Without I/O failure, for
every batching of the messages that arrive: the messages taken off the
channel get one reply each, the `k`-th append is answered with the `k`-th
number above the resume sequence, after its frame is fsynced and that number
published; the segment files together are the frames of the appends in
order, as they are for `WalWriter::append` on the same batches one by one.
Recovery then returns the same points, entries and last sequence for both.
Only its count of segment files depends on the batching. Every further turn
on a channel with messages takes one, and as many turns as there are messages
left empty the channel, so that every message is answered. -/
theorem walTask_refines_append (lawful : Crates.LawfulProst)
    (maxSegmentBytes resumeSeq maxBatch : Nat) (rounds : List (List WalMessage))
    (hseq : resumeSeq + (appends rounds.flatten).length < 2 ^ 64) :
    let opened := WalWriter.openWal ∅ maxSegmentBytes resumeSeq
    let start := (⟨∅, ∅, resumeSeq⟩ : LogView).after (opened.2.map .op)
    let run := walTask maxBatch ⟨opened.1, []⟩ (rounds.map (·, .ok))
    let dir := (start.after run.2).files
    (∀ arrived, run.1.queue ++ arrived ≠ [] →
      (run.1.round maxBatch arrived .ok).1.queue.length < (run.1.queue ++ arrived).length) ∧
    (∀ n, run.1.queue.length ≤ n → (walTask maxBatch ⟨opened.1, []⟩
      ((rounds ++ List.replicate n []).map (·, .ok))).1.queue = []) ∧
    ∃ received, rounds.flatten = received ++ run.1.queue ∧
      ((repliesOf run.2).map Prod.fst).Perm (received.map replyTo) ∧
      appendRepliesOf run.2 =
        (numbered resumeSeq (appends received)).map (fun p => (p.2.2, .ok p.1)) ∧
      (∀ pre channel r post, run.2 = pre ++ .reply channel (.sequence r) :: post →
        ∃ seq points m, r = .ok seq ∧ seq < 2 ^ 64 ∧
          (seq, points, channel) ∈ numbered resumeSeq (appends received) ∧
          seq ≤ (start.after pre).published ∧ seq ≤ resumeSeq + m ∧
          (start.after pre).synced.files.flatten =
            frames ((numbered resumeSeq ((appends received).map Prod.fst)).take m)) ∧
      dir.files.flatten = frames (numbered resumeSeq ((appends received).map Prod.fst)) ∧
      let sequential := start.files.run
        (appendAll opened.1 ((appends received).map Prod.fst)).2
      sequential.files.flatten = dir.files.flatten ∧
      ((∀ b ∈ numbered resumeSeq ((appends received).map Prod.fst), Batch.Fits b) →
        ∀ watermark, ∃ r r', recover dir watermark = .ok r ∧
          recover sequential watermark = .ok r' ∧
          r.points = r'.points ∧ r.lastSequence = r'.lastSequence ∧
          r.entriesReplayed = r'.entriesReplayed ∧
          r.tornWriteDetected = r'.tornWriteDetected ∧
          r.segmentsReplayed = dir.toList.length ∧
          r'.segmentsReplayed = sequential.toList.length) := by
  intro opened start run dir
  have hstart : LogInv resumeSeq [] opened.1 start := .openWal maxSegmentBytes resumeSeq resumeSeq
  obtain ⟨received, hsplit, hinv, hreplies, hacks, halways⟩ :=
    walTask_ok maxBatch rounds [] (t := ⟨opened.1, []⟩) hstart
  rw [List.nil_append] at hinv hsplit halways
  have hseqInv := hstart.appendAll ((appends received).map Prod.fst)
  rw [List.nil_append] at hseqInv
  have hdir := hinv.flatten_synced
  rw [hinv.synced_eq] at hdir
  have hseqDir := hseqInv.flatten_synced
  rw [hseqInv.synced_eq, LogView.files_after_ops] at hseqDir
  refine ⟨fun arrived hne => run.1.length_round maxBatch arrived .ok hne, fun n hn => ?_,
    received, hsplit, hreplies, by simpa using hacks, ?_, hdir, ?_, ?_⟩
  · rw [List.map_append, List.map_replicate, walTask_append]
    exact walTask_empties maxBatch .ok hn
  · intro pre channel r post hes
    obtain ⟨seq, points, m, hr, hmem, hrest⟩ := halways.split hes channel r rfl
    refine ⟨seq, points, m, hr, ?_, hmem, hrest⟩
    have hle := (lt_of_mem_numbered hmem).2
    have hlen := congrArg (fun msgs => (appends msgs).length) hsplit
    simp only [appends_append, List.length_append] at hlen
    omega
  · rw [hseqDir, hdir]
  · intro hfits watermark
    have hr := hinv.recover lawful hfits watermark
    have hr' := hseqInv.recover lawful hfits watermark
    rw [LogView.files_after_ops] at hr'
    exact ⟨_, _, hr, hr', rfl, rfl, rfl, rfl, rfl, rfl⟩

end

/-! ## Two appends in one batch -/

section Example

attribute [local instance] Reference.crates

/-- Two appends that arrive together, with a segment limit of one byte. -/
def twoAppends : List WalMessage := [.append [cpuPoint 5 7] 0, .append [cpuPoint 6 8] 1]

/-- The files of group commit on `twoAppends` in one batch. -/
def twoAppendsGrouped : WalDir :=
  let opened := WalWriter.openWal ∅ 1 0
  ((⟨∅, ∅, 0⟩ : LogView).after (opened.2.map .op ++
    (walTask 8 ⟨opened.1, []⟩ [(twoAppends, .ok)]).2)).files

/-- The files of the sequential writer on the same two batches. -/
def twoAppendsSequential : WalDir :=
  let opened := WalWriter.openWal ∅ 1 0
  (((∅ : WalDir).run opened.2).run (appendAll opened.1 [[cpuPoint 5 7], [cpuPoint 6 8]]).2)

/-- The two logs do not recover to the same result: group commit rotates
once after the batch, the sequential writer after each append. -/
theorem recover_grouped_ne_sequential :
    (recover twoAppendsGrouped 0).map RecoveryResult.segmentsReplayed = .ok 2 ∧
      (recover twoAppendsSequential 0).map RecoveryResult.segmentsReplayed = .ok 3 ∧
      recover twoAppendsGrouped 0 ≠ recover twoAppendsSequential 0 := by
  have hgrouped : (recover twoAppendsGrouped 0).map RecoveryResult.segmentsReplayed = .ok 2 := by
    decide +kernel
  have hseq : (recover twoAppendsSequential 0).map RecoveryResult.segmentsReplayed = .ok 3 := by
    decide +kernel
  refine ⟨hgrouped, hseq, fun heq => ?_⟩
  rw [heq, hseq] at hgrouped
  cases hgrouped

/-- The refinement at the same two appends: both are received and answered,
and both are in the log that recovery reads. -/
theorem walTask_refines_append_two :
    let run := walTask 8 ⟨(WalWriter.openWal ∅ 1 0).1, []⟩ [(twoAppends, .ok)]
    run.1.queue = [] ∧ ((repliesOf run.2).map Prod.fst).Perm [0, 1] ∧
      appendRepliesOf run.2 = [(0, .ok 1), (1, .ok 2)] ∧
      twoAppendsGrouped.files.flatten = frames [(1, [cpuPoint 5 7]), (2, [cpuPoint 6 8])] ∧
      ∃ r r', recover twoAppendsGrouped 0 = .ok r ∧ recover twoAppendsSequential 0 = .ok r' ∧
        r.points = r'.points := by
  obtain ⟨-, -, received, hsplit, hreplies, hacks, -, hfiles, -, hrecover⟩ :=
    walTask_refines_append Reference.lawful.prost 1 0 8 [twoAppends] (by decide)
  have hqueue : (walTask 8 ⟨(WalWriter.openWal ∅ 1 0).1, []⟩ [(twoAppends, .ok)]).1.queue = [] :=
    List.isEmpty_iff.mp (by decide +kernel)
  obtain rfl : twoAppends = received := by simpa [hqueue] using hsplit
  obtain ⟨r, r', hr, hr', hpoints, -⟩ := hrecover (by decide +kernel) 0
  exact ⟨hqueue, hreplies, hacks, hfiles, r, r', hr, hr', hpoints⟩

end Example

end Micius

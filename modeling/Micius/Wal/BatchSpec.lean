import Mathlib.Data.List.Induction
import Micius.Wal.GroupCommit
import Micius.Wal.Segments

/-!
# What one batch does

The gathering loop and the body of `wal_task` in closed form: how the
messages of a batch split into appends, rotates and drains, which sequence
numbers the appends get, and which replies are sent.
-/

namespace Micius

namespace WalMessage

@[simp] theorem appends_append (as bs : List WalMessage) :
    appends (as ++ bs) = appends as ++ appends bs := List.filterMap_append ..

@[simp] theorem rotates_append (as bs : List WalMessage) :
    rotates (as ++ bs) = rotates as ++ rotates bs := List.filterMap_append ..

@[simp] theorem drains_append (as bs : List WalMessage) :
    drains (as ++ bs) = drains as ++ drains bs := List.filterMap_append ..

/-- The reply channels of a batch are those of its three kinds of message. -/
theorem map_replyTo_perm (batch : List WalMessage) :
    (batch.map replyTo).Perm
      ((appends batch).map Prod.snd ++ ((drains batch).map Prod.snd ++ rotates batch)) := by
  induction batch with
  | nil => exact .refl _
  | cons msg batch ih =>
    cases msg with
    | append points reply => exact ih.cons reply
    | rotate reply =>
      refine (ih.cons reply).trans ?_
      have h : ((appends batch).map Prod.snd ++ (drains batch).map Prod.snd ++
          reply :: rotates batch).Perm
          (reply :: ((appends batch).map Prod.snd ++ (drains batch).map Prod.snd ++
            rotates batch)) := List.perm_middle
      simpa [appends, rotates, drains, replyTo] using h.symm
    | drainBefore seq reply =>
      refine (ih.cons reply).trans ?_
      have h : ((appends batch).map Prod.snd ++
          reply :: ((drains batch).map Prod.snd ++ rotates batch)).Perm
          (reply :: ((appends batch).map Prod.snd ++
            ((drains batch).map Prod.snd ++ rotates batch))) := List.perm_middle
      simpa [appends, rotates, drains, replyTo] using h.symm

end WalMessage

/-! ## The effect of events on the view -/

namespace LogView

@[simp] theorem after_nil (v : LogView) : v.after [] = v := rfl

@[simp] theorem after_cons (v : LogView) (e : WalEvent) (es : List WalEvent) :
    v.after (e :: es) = (v.step e).after es := rfl

@[simp] theorem after_append (v : LogView) (es es' : List WalEvent) :
    v.after (es ++ es') = (v.after es).after es' := by
  simp [after, List.foldl_append]

/-- Replies change nothing that others see of the log. -/
theorem after_replies {α : Type} (v : LogView) (l : List α) (f : α → Nat) (g : α → WalReply) :
    v.after (l.map fun a => .reply (f a) (g a)) = v := by
  induction l with
  | nil => rfl
  | cons a l ih => simpa [step] using ih

theorem files_after_ops (v : LogView) (ops : List WalOp) :
    (v.after (ops.map .op)).files = v.files.run ops := by
  induction ops generalizing v with
  | nil => rfl
  | cons op ops ih =>
    rw [List.map_cons, after_cons, ih, WalDir.run_cons]
    cases op <;> rfl

end LogView

open WalMessage

variable [Crates]

/-- The gathering loop in closed form. -/
theorem gather_eq (seq : Nat) (batch : List WalMessage) :
    gather seq batch =
      { currentSeq := seq + (appends batch).length
        frames := frames (numbered seq ((appends batch).map Prod.fst))
        seqs := (numbered seq (appends batch)).map Prod.fst
        replies := (appends batch).map Prod.snd
        rotateReply := (rotates batch).head?
        drainReplies := drains batch
        rejected := (rotates batch).tail } := by
  induction batch using List.reverseRecOn with
  | nil => rfl
  | append_singleton batch msg ih =>
    rw [gather, List.foldl_append, ← gather, ih]
    cases msg with
    | append points reply =>
      simp [Gathered.add, appends, rotates, drains, numbered_append, numbered, frames_append,
        Batch.frame, Nat.add_assoc]
    | rotate reply =>
      have ha : appends [rotate reply] = [] := rfl
      have hd : drains [rotate reply] = [] := rfl
      have hr : rotates [rotate reply] = [reply] := rfl
      cases hb : rotates batch with
      | nil => simp [Gathered.add, ha, hd, hr, hb]
      | cons r rs => simp [Gathered.add, ha, hd, hr, hb]
    | drainBefore seq reply => simp [Gathered.add, appends, rotates, drains]

/-- The frames of the appends of a batch. -/
def batchFrames (w : WalWriter) (batch : List WalMessage) : Bytes :=
  frames (numbered w.currentSeq ((appends batch).map Prod.fst))

/-- The stages after the appends of a batch are answered: rotate a full
segment, answer the drains, answer the rotate. -/
def finishBatch (w : WalWriter) (batch : List WalMessage) (io : BatchIo) :
    WalWriter × List WalEvent :=
  let (w, full) := rotateIfFull w io.sizeRotate
  let (w, drained) := answerDrains w (drains batch)
  let (w, rotated) := answerRotate w io.rotate (rotates batch).head?
  (w, full ++ drained ++ rotated)

/-- The appends of the batch are answered with `Ok`, if it has any. -/
def WalWriter.Acks (w : WalWriter) (batch : List WalMessage) (io : WriteIo) : Prop :=
  appends batch = [] ∨ w.lastWriteErr = false ∧ io.returnsOk (batchFrames w batch) = true

instance WalWriter.decidableAcks (w : WalWriter) (batch : List WalMessage) (io : WriteIo) :
    Decidable (w.Acks batch io) := inferInstanceAs (Decidable (_ ∨ _))

/-- The writer after a batch that is answered with `Ok`. -/
def committedWriter (w : WalWriter) (batch : List WalMessage) (io : WriteIo) : WalWriter :=
  { w with
    lastWriteErr := w.lastWriteErr || io.fails (batchFrames w batch)
    currentSeq := w.currentSeq + (appends batch).length
    currentSize := w.currentSize + (batchFrames w batch).length }

/-- The events from the write of a batch to the answers to its appends. -/
def commitEvents (w : WalWriter) (batch : List WalMessage) (io : WriteIo) : List WalEvent :=
  if appends batch = [] then []
  else
    [.op (.write w.file (io.written (batchFrames w batch))), .op (.sync w.file),
      .publish (w.currentSeq + (appends batch).length)] ++
    (numbered w.currentSeq (appends batch)).map fun p => .reply p.2.2 (.sequence (.ok p.1))

/-- The writer after a batch that is answered with errors. -/
def failedWriter (w : WalWriter) (batch : List WalMessage) (io : WriteIo) : WalWriter :=
  { w with
    lastWriteErr := !w.lastWriteErr && !io.seen (batchFrames w batch) &&
      io.fails (batchFrames w batch)
    currentSeq := w.currentSeq + (appends batch).length }

/-- What such a batch leaves in the segment: nothing, if the file kept the
error of an earlier write. -/
def failedOps (w : WalWriter) (batch : List WalMessage) (io : WriteIo) : List WalOp :=
  if w.lastWriteErr then [] else [.write w.file (io.written (batchFrames w batch))]

theorem frames_eq_nil {bs : List Batch} : frames bs = [] ↔ bs = [] := by
  constructor
  · intro h
    have := length_le_frames bs
    rw [h, List.length_nil] at this
    exact List.eq_nil_of_length_eq_zero (by omega)
  · rintro rfl
    rfl

theorem batchFrames_eq_nil {w : WalWriter} {batch : List WalMessage} :
    batchFrames w batch = [] ↔ appends batch = [] := by
  rw [batchFrames, frames_eq_nil, ← List.length_eq_zero_iff, length_numbered, List.length_map,
    List.length_eq_zero_iff]

omit [Crates] in
theorem ackEvents_numbered (seq : Nat) (as : List (List DataPoint × Nat)) :
    ackEvents ((numbered seq as).map Prod.fst) (as.map Prod.snd) =
      (numbered seq as).map fun p => .reply p.2.2 (.sequence (.ok p.1)) := by
  induction as generalizing seq with
  | nil => rfl
  | cons a as ih => simpa [ackEvents, numbered] using ih (seq + 1)

omit [Crates] in
theorem publishEvents_numbered (seq : Nat) {as : List (List DataPoint × Nat)} (h : as ≠ []) :
    publishEvents ((numbered seq as).map Prod.fst) = [.publish (seq + as.length)] := by
  obtain ⟨init, a, rfl⟩ := List.eq_nil_or_concat as |>.resolve_left h
  simp [publishEvents, numbered_append, numbered, Nat.add_assoc]

/-- A batch that is answered with `Ok`: reject, commit, finish. -/
theorem processBatch_ok (w : WalWriter) (batch : List WalMessage) (io : BatchIo)
    (hio : w.Acks batch io.write) :
    processBatch w batch io =
      ((finishBatch (committedWriter w batch io.write) batch io).1,
        rejectEvents (rotates batch).tail ++ commitEvents w batch io.write ++
          (finishBatch (committedWriter w batch io.write) batch io).2) := by
  by_cases has : appends batch = []
  · have hfails : io.write.fails [] = false := by simp [WriteIo.fails]
    simp [processBatch, gather_eq, finishBatch, committedWriter, commitEvents, batchFrames,
      has, numbered, publishEvents, ackEvents, hfails]
  · have hframes : frames (numbered w.currentSeq ((appends batch).map Prod.fst)) ≠ [] :=
      fun h => has (batchFrames_eq_nil.mp h)
    obtain ⟨hkept, hok⟩ := hio.resolve_left has
    have hwrite := writeAndSync_of_returnsOk hok w.file
    rw [batchFrames] at hwrite
    simp [processBatch, gather_eq, finishBatch, committedWriter, commitEvents, batchFrames,
      has, hframes, hkept, hwrite, publishEvents_numbered _ has, ackEvents_numbered]

/-- A batch that is answered with errors: part of it may be in the file. -/
theorem processBatch_failed (w : WalWriter) (batch : List WalMessage) (io : BatchIo)
    (hio : ¬w.Acks batch io.write) :
    processBatch w batch io =
      (failedWriter w batch io.write,
        rejectEvents (rotates batch).tail ++ (failedOps w batch io.write).map .op ++
          failEvents .os (gather w.currentSeq batch)) := by
  obtain ⟨has, hio⟩ := not_or.mp hio
  have hframes : frames (numbered w.currentSeq ((appends batch).map Prod.fst)) ≠ [] :=
    fun h => has (batchFrames_eq_nil.mp h)
  have hwrite := writeAndSync_of_error hio w.file
  rw [batchFrames] at hwrite
  simp [processBatch, gather_eq, hframes, failedWriter, failedOps, batchFrames, hwrite]

omit [Crates] in
theorem currentSeq_finishBatch (w : WalWriter) (batch : List WalMessage) (io : BatchIo) :
    (finishBatch w batch io).1.currentSeq = w.currentSeq := by
  have hrotate : ∀ (w : WalWriter) opened, (w.rotate opened).2.1.currentSeq = w.currentSeq := by
    intro w opened
    cases opened <;> rfl
  have hfull : (rotateIfFull w io.sizeRotate).1.currentSeq = w.currentSeq := by
    unfold rotateIfFull
    split
    · exact hrotate w io.sizeRotate
    · rfl
  have hdrains : ∀ w : WalWriter, (answerDrains w (drains batch)).1.currentSeq = w.currentSeq := by
    intro w
    unfold answerDrains
    split <;> rfl
  have hanswer : ∀ w : WalWriter,
      (answerRotate w io.rotate (rotates batch).head?).1.currentSeq = w.currentSeq := by
    intro w
    cases (rotates batch).head? with
    | none => rfl
    | some reply => cases io.rotate <;> rfl
  rw [finishBatch, hanswer, hdrains, hfull]

/-- Every append of a batch uses up one sequence number, written or not. -/
theorem currentSeq_processBatch (w : WalWriter) (batch : List WalMessage) (io : BatchIo) :
    (processBatch w batch io).1.currentSeq = w.currentSeq + (appends batch).length := by
  by_cases hio : w.Acks batch io.write
  · rw [processBatch_ok w batch io hio, currentSeq_finishBatch]
    rfl
  · rw [processBatch_failed w batch io hio]
    rfl

/-! ## Events after the commit -/

/-- The event opens a segment file or answers a drain or a rotate. -/
def WalEvent.Quiet (e : WalEvent) : Prop :=
  (∃ seg, e = .op (.create seg)) ∨ ∃ channel r, e = .reply channel (.paths r)

omit [Crates] in
theorem WalEvent.Quiet.ne_sequence {e : WalEvent} (h : e.Quiet) (channel : Nat)
    (r : Except WalError Nat) : e ≠ .reply channel (.sequence r) := by
  rcases h with ⟨seg, rfl⟩ | ⟨channel', r', rfl⟩ <;> simp

omit [Crates] in
theorem quiet_pathReplies {α : Type} (l : List α) (f : α → Nat)
    (g : α → Except WalError (List Nat)) :
    ∀ e ∈ l.map (fun a => WalEvent.reply (f a) (.paths (g a))), e.Quiet := by
  intro e he
  obtain ⟨a, -, rfl⟩ := List.mem_map.mp he
  exact .inr ⟨f a, g a, rfl⟩

omit [Crates] in
theorem quiet_rotate (w : WalWriter) (opened : Bool) :
    ∀ e ∈ (w.rotate opened).2.2.map WalEvent.op, e.Quiet := by
  intro e he
  cases opened with
  | true => exact .inl ⟨w.currentSegment + 1, List.mem_singleton.mp he⟩
  | false => cases he

omit [Crates] in
theorem quiet_answerRotate (w : WalWriter) (opened : Bool) (reply : Option Nat) :
    ∀ e ∈ (answerRotate w opened reply).2, e.Quiet := by
  intro e he
  have hops := quiet_rotate w opened
  cases reply with
  | none => cases he
  | some reply =>
    rw [answerRotate] at he
    split at he
    · next hr =>
      rw [hr] at hops
      rcases List.mem_append.mp he with he | he
      · exact hops e he
      · exact .inr ⟨reply, _, List.mem_singleton.mp he⟩
    · next hr =>
      rw [hr] at hops
      rcases List.mem_append.mp he with he | he
      · exact hops e he
      · exact .inr ⟨reply, _, List.mem_singleton.mp he⟩

omit [Crates] in
/-- The stages after the commit only open files and answer drains and rotates. -/
theorem quiet_finishBatch (w : WalWriter) (batch : List WalMessage) (io : BatchIo) :
    ∀ e ∈ (finishBatch w batch io).2, e.Quiet := by
  intro e he
  simp only [finishBatch, List.mem_append] at he
  rcases he with (he | he) | he
  · unfold rotateIfFull at he
    split at he
    · exact quiet_rotate _ _ e he
    · cases he
  · unfold answerDrains at he
    split at he
    · cases he
    · exact quiet_pathReplies (drains batch) Prod.snd _ e he
  · exact quiet_answerRotate _ _ _ e he

omit [Crates] in
theorem quiet_rejectEvents (rejected : List Nat) : ∀ e ∈ rejectEvents rejected, e.Quiet :=
  quiet_pathReplies rejected id fun _ => .error .concurrentRotate

/-! ## Rounds of the task -/

omit [Crates] in
/-- Draining the backlog splits the channel's contents in two. -/
theorem drainBacklog_append (maxBatch : Nat) (batch backlog : List WalMessage) :
    (drainBacklog maxBatch batch backlog).1 ++ (drainBacklog maxBatch batch backlog).2 =
      batch ++ backlog := by
  induction backlog generalizing batch with
  | nil => rfl
  | cons msg backlog ih =>
    rw [drainBacklog]
    split
    · rw [ih]
      simp
    · rfl

omit [Crates] in
theorem receiveBatch_append (maxBatch : Nat) (queue : List WalMessage) :
    (receiveBatch maxBatch queue).1 ++ (receiveBatch maxBatch queue).2 = queue := by
  cases queue with
  | nil => rfl
  | cons msg backlog => exact drainBacklog_append maxBatch [msg] backlog

omit [Crates] in
theorem length_drainBacklog (maxBatch : Nat) (batch backlog : List WalMessage) :
    batch.length ≤ (drainBacklog maxBatch batch backlog).1.length := by
  induction backlog generalizing batch with
  | nil => exact Nat.le_refl _
  | cons msg backlog ih =>
    rw [drainBacklog]
    split
    · have := ih (batch ++ [msg])
      rw [List.length_append] at this
      omega
    · exact Nat.le_refl _

/-- One turn of the loop: the task stays parked on an empty channel, or
takes a batch off its front. -/
theorem WalTask.round_cases (maxBatch : Nat) (t : WalTask) (arrived : List WalMessage)
    (io : BatchIo) :
    (t.queue ++ arrived = [] ∧ t.round maxBatch arrived io = (t, [])) ∨
    ∃ batch rest, batch ≠ [] ∧ receiveBatch maxBatch (t.queue ++ arrived) = (batch, rest) ∧
      t.queue ++ arrived = batch ++ rest ∧
      t.round maxBatch arrived io =
        (⟨(processBatch t.writer batch io).1, rest⟩, (processBatch t.writer batch io).2) := by
  have happ := receiveBatch_append maxBatch (t.queue ++ arrived)
  unfold WalTask.round
  cases hq : t.queue ++ arrived with
  | nil => exact .inl ⟨rfl, rfl⟩
  | cons msg backlog =>
    rw [hq] at happ
    obtain ⟨batch, rest, hr⟩ : ∃ batch rest, receiveBatch maxBatch (msg :: backlog) = (batch, rest) :=
      ⟨_, _, rfl⟩
    have hlen := length_drainBacklog maxBatch [msg] backlog
    rw [← receiveBatch, hr] at hlen
    cases batch with
    | nil => simp at hlen
    | cons m batch =>
      refine .inr ⟨m :: batch, rest, by simp, hr, ?_, ?_⟩
      · rw [← happ, hr]
      · rw [hr]

/-! ## Progress -/

/-- A turn on a channel with messages takes at least one of them. -/
theorem WalTask.length_round (maxBatch : Nat) (t : WalTask) (arrived : List WalMessage)
    (io : BatchIo) (h : t.queue ++ arrived ≠ []) :
    (t.round maxBatch arrived io).1.queue.length < (t.queue ++ arrived).length := by
  rcases t.round_cases maxBatch arrived io with ⟨hq, -⟩ | ⟨batch, rest, hne, -, hq, hround⟩
  · exact absurd hq h
  · have hpos := List.length_pos_iff.mpr hne
    rw [hround, hq, List.length_append]
    dsimp only
    omega

theorem walTask_append (maxBatch : Nat) (t : WalTask)
    (rounds later : List (List WalMessage × BatchIo)) :
    (walTask maxBatch t (rounds ++ later)).1 =
      (walTask maxBatch (walTask maxBatch t rounds).1 later).1 := by
  induction rounds generalizing t with
  | nil => rfl
  | cons round rounds ih => exact ih (t.round maxBatch round.1 round.2).1

/-- When nothing more arrives, as many turns as there are messages empty the
channel. -/
theorem walTask_empties (maxBatch : Nat) (io : BatchIo) {t : WalTask} {n : Nat}
    (h : t.queue.length ≤ n) : (walTask maxBatch t (List.replicate n ([], io))).1.queue = [] := by
  induction n generalizing t with
  | zero => exact List.eq_nil_of_length_eq_zero (Nat.le_zero.mp h)
  | succ n ih =>
    refine ih (t := (t.round maxBatch [] io).1) ?_
    by_cases hq : t.queue = []
    · simp [WalTask.round, hq, receiveBatch]
    · have := t.length_round maxBatch [] io (by simpa using hq)
      rw [List.append_nil] at this
      omega

end Micius

import Micius.Wal.Writer

/-!
# Group commit (`wal/group_commit.rs`)

`wal_task` takes messages off a channel in batches. A batch costs one write
and one fsync; then the task publishes the highest sequence number, answers
the appends, rotates if the segment is full, answers the drain requests and
last an explicit rotate request.

A reply channel is named by a number. What the task does is a list of
events in the order it does them: operations on the segment files, stores to
the shared `last_seq`, and replies.
-/

namespace Micius

/-- `WalMessage`; each carries the channel its reply goes to. -/
inductive WalMessage
  | append (points : List DataPoint) (reply : Nat)
  | rotate (reply : Nat)
  | drainBefore (seq : Nat) (reply : Nat)

namespace WalMessage

/-- The reply channel of a message. -/
def replyTo : WalMessage → Nat
  | append _ reply => reply
  | rotate reply => reply
  | drainBefore _ reply => reply

/-- The points and reply channels of the `Append`s of a list of messages. -/
def appends (msgs : List WalMessage) : List (List DataPoint × Nat) :=
  msgs.filterMap fun
    | append points reply => some (points, reply)
    | _ => none

/-- The reply channels of the `Rotate`s. -/
def rotates (msgs : List WalMessage) : List Nat :=
  msgs.filterMap fun
    | rotate reply => some reply
    | _ => none

/-- The thresholds and reply channels of the `DrainBefore`s. -/
def drains (msgs : List WalMessage) : List (Nat × Nat) :=
  msgs.filterMap fun
    | drainBefore seq reply => some (seq, reply)
    | _ => none

end WalMessage

/-- The errors sent in replies. -/
inductive WalError
  /-- The text of the I/O error. -/
  | io (e : IoError)
  /-- `WAL write failed: {e}`. -/
  | writeFailed (e : IoError)
  /-- `concurrent Rotate in same batch`. -/
  | concurrentRotate
  deriving DecidableEq, Repr

/-- What is sent on a reply channel: a sequence number for an `Append`, the
completed segments for the other two messages. -/
inductive WalReply
  | sequence (r : Except WalError Nat)
  | paths (r : Except WalError (List Nat))
  deriving DecidableEq

/-- One thing `wal_task` does. -/
inductive WalEvent
  | op (o : WalOp)
  /-- `last_seq.store`. -/
  | publish (seq : Nat)
  | reply (channel : Nat) (r : WalReply)
  deriving DecidableEq

/-- What the operating system does during one batch. -/
structure BatchIo where
  /-- The write and fsync of the batch. -/
  write : WriteIo
  /-- Whether the rotation of a full segment opens the new file. -/
  sizeRotate : Bool
  /-- Whether an explicitly requested rotation does. -/
  rotate : Bool

/-- No I/O failure. -/
def BatchIo.ok : BatchIo := ⟨.ok, true, true⟩

@[simp] theorem BatchIo.write_ok : BatchIo.ok.write = .ok := rfl

/-! ## One batch -/

/-- The local variables that the gathering loop fills. -/
structure Gathered where
  currentSeq : Nat
  frames : Bytes
  seqs : List Nat
  replies : List Nat
  rotateReply : Option Nat
  drainReplies : List (Nat × Nat)
  /-- The `Rotate`s answered with an error inside the loop. -/
  rejected : List Nat

section Batch

variable [Crates]

/-- One turn of the gathering loop. -/
def Gathered.add (g : Gathered) : WalMessage → Gathered
  | .append points reply =>
    { g with
      currentSeq := g.currentSeq + 1
      frames := g.frames ++ encodeFrame (g.currentSeq + 1) points
      seqs := g.seqs ++ [g.currentSeq + 1]
      replies := g.replies ++ [reply] }
  | .rotate reply =>
    match g.rotateReply with
    | none => { g with rotateReply := some reply }
    | some _ => { g with rejected := g.rejected ++ [reply] }
  | .drainBefore seq reply => { g with drainReplies := g.drainReplies ++ [(seq, reply)] }

/-- The gathering loop: number and frame the appends, keep one rotate. -/
def gather (currentSeq : Nat) (batch : List WalMessage) : Gathered :=
  batch.foldl Gathered.add ⟨currentSeq, [], [], [], none, [], []⟩

end Batch

/-- The error replies to the `Rotate`s that are not kept. -/
def rejectEvents (rejected : List Nat) : List WalEvent :=
  rejected.map fun reply => .reply reply (.paths (.error .concurrentRotate))

/-- The store to `last_seq`, if the batch has an append. -/
def publishEvents (seqs : List Nat) : List WalEvent :=
  match seqs.getLast? with
  | some maxSeq => [.publish maxSeq]
  | none => []

/-- The replies to the appends. -/
def ackEvents (seqs replies : List Nat) : List WalEvent :=
  (seqs.zip replies).map fun p => .reply p.2 (.sequence (.ok p.1))

/-- Rotate when the segment has reached the size limit; a failure is only logged. -/
def rotateIfFull (w : WalWriter) (opened : Bool) : WalWriter × List WalEvent :=
  if w.currentSize ≥ w.maxSegmentBytes then
    let (_, w, ops) := w.rotate opened
    (w, ops.map .op)
  else (w, [])

/-- Answer all drain requests with the segments below the greatest threshold. -/
def answerDrains (w : WalWriter) (drains : List (Nat × Nat)) : WalWriter × List WalEvent :=
  if drains = [] then (w, [])
  else
    let maxSeq := (drains.map Prod.fst).foldl max 0
    let (paths, w) := w.drainCompletedBefore maxSeq
    (w, drains.map fun d => .reply d.2 (.paths (.ok paths)))

/-- Answer the kept rotate request. -/
def answerRotate (w : WalWriter) (opened : Bool) : Option Nat → WalWriter × List WalEvent
  | none => (w, [])
  | some reply =>
    match w.rotate opened with
    | (.error e, w, ops) => (w, ops.map .op ++ [.reply reply (.paths (.error (.io e)))])
    | (.ok (), w, ops) =>
      let (paths, w) := w.drainCompletedBefore u64Max
      (w, ops.map .op ++ [.reply reply (.paths (.ok paths))])

/-- The replies after a failed write or fsync. -/
def failEvents (e : IoError) (g : Gathered) : List WalEvent :=
  (g.replies.map fun reply => .reply reply (.sequence (.error (.io e)))) ++
    (g.drainReplies.map fun d => .reply d.2 (.paths (.error (.writeFailed e)))) ++
    g.rotateReply.toList.map fun reply => .reply reply (.paths (.error (.writeFailed e)))

variable [Crates]

/-- The body of the `wal_task` loop, once a batch is collected. -/
def processBatch (w : WalWriter) (batch : List WalMessage) (io : BatchIo) :
    WalWriter × List WalEvent :=
  let g := gather w.currentSeq batch
  let w := { w with currentSeq := g.currentSeq }
  let (ioResult, kept, ops) :=
    if g.frames = [] then (.ok (), w.lastWriteErr, [])
    else writeAndSync w.file w.lastWriteErr g.frames io.write
  let w := { w with lastWriteErr := kept }
  match ioResult with
  | .error e => (w, rejectEvents g.rejected ++ ops.map .op ++ failEvents e g)
  | .ok () =>
    let w := { w with currentSize := w.currentSize + g.frames.length }
    let (w, full) := rotateIfFull w io.sizeRotate
    let (w, drained) := answerDrains w g.drainReplies
    let (w, rotated) := answerRotate w io.rotate g.rotateReply
    (w, rejectEvents g.rejected ++ ops.map .op ++ publishEvents g.seqs ++
      ackEvents g.seqs g.replies ++ full ++ drained ++ rotated)

/-! ## The task -/

/-- The `try_recv` loop: take messages while the batch is below the limit. -/
def drainBacklog (maxBatch : Nat) (batch : List WalMessage) :
    List WalMessage → List WalMessage × List WalMessage
  | [] => (batch, [])
  | msg :: backlog =>
    if batch.length < maxBatch then drainBacklog maxBatch (batch ++ [msg]) backlog
    else (batch, msg :: backlog)

/-- The batch taken off the channel: the message `recv` waits for, and the
backlog after it. -/
def receiveBatch (maxBatch : Nat) : List WalMessage → List WalMessage × List WalMessage
  | [] => ([], [])
  | msg :: backlog => drainBacklog maxBatch [msg] backlog

/-- The task and its channel. -/
structure WalTask where
  writer : WalWriter
  queue : List WalMessage

/-- One turn of the `wal_task` loop. `arrived` is what reaches the channel
until the backlog is drained; with no message at all the task stays parked. -/
def WalTask.round (maxBatch : Nat) (t : WalTask) (arrived : List WalMessage) (io : BatchIo) :
    WalTask × List WalEvent :=
  match receiveBatch maxBatch (t.queue ++ arrived) with
  | ([], _) => (t, [])
  | (batch, rest) =>
    let (w, events) := processBatch t.writer batch io
    (⟨w, rest⟩, events)

/-- `wal_task`: the loop over a list of arrivals. -/
def walTask (maxBatch : Nat) (t : WalTask) :
    List (List WalMessage × BatchIo) → WalTask × List WalEvent
  | [] => (t, [])
  | (arrived, io) :: rounds =>
    let (t, events) := t.round maxBatch arrived io
    let (t, later) := walTask maxBatch t rounds
    (t, events ++ later)

/-! ## What the events amount to -/

/-- What others see of a shard's log: the files as written, the part of
them that is fsynced, and the shared `last_seq`. -/
structure LogView where
  files : WalDir
  synced : WalDir
  published : Nat

namespace LogView

/-- The effect of one event. -/
def step (v : LogView) : WalEvent → LogView
  | .op (.sync seg) => { v with synced := v.synced.insert seg ((v.files[seg]?).getD []) }
  | .op (.write seg bytes) => { v with files := v.files.apply (.write seg bytes) }
  | .op (.create seg) =>
    { v with files := v.files.apply (.create seg), synced := v.synced.apply (.create seg) }
  | .op (.remove seg) =>
    { v with files := v.files.apply (.remove seg), synced := v.synced.apply (.remove seg) }
  | .publish seq => { v with published := seq }
  | .reply _ _ => v

/-- The effect of a run of events. -/
def after (v : LogView) (events : List WalEvent) : LogView := events.foldl step v

/-- A crash keeps every fsynced byte of a file and a prefix of the rest. -/
def CrashImage (v : LogView) (dir : WalDir) : Prop :=
  ∀ seg : Nat, match v.files[seg]? with
    | none => dir[seg]? = none
    | some file => ∃ bytes, dir[seg]? = some bytes ∧
        (v.synced[seg]?).getD [] <+: bytes ∧ bytes <+: file

end LogView

end Micius

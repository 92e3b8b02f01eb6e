import Micius.Crates
import Micius.FileWrites
import Micius.Lib.LittleEndian

/-!
# WAL segment writer (`wal/writer.rs`)

A shard's WAL directory maps segment numbers to file contents. The source
names segment `n` `{n:020}.wal`: twenty digits hold every `u64`, so the
order of the names is the order of the numbers.

Files are opened in append mode and never truncated. `writer.file` is the
segment whose file is open; it is `currentSegment` unless a rotation failed
to open the new file.
-/

namespace Micius

open LittleEndian

/-- The segment files of one shard, by segment number. -/
abbrev WalDir := BTreeMap Nat Bytes

/-- `WalWriter`. -/
structure WalWriter where
  /-- The segment whose file is open. -/
  file : Nat
  /-- The open file keeps the error of an earlier write. -/
  lastWriteErr : Bool
  currentSeq : Nat
  currentSize : Nat
  currentSegment : Nat
  maxSegmentBytes : Nat
  completedSegments : List (Nat × Nat)
  deriving DecidableEq, Repr

/-- The errors of the writer. -/
inductive IoError
  /-- The operating system's own error. -/
  | os
  /-- `failed to open new WAL segment`. -/
  | newSegment (seg : Nat)
  deriving DecidableEq, Repr

/-- `u64::MAX`. -/
def u64Max : Nat := 2 ^ 64 - 1

section Frame

variable [Crates]

/-- The protobuf payload of a frame. -/
def payloadOf (seq : Nat) (points : List DataPoint) : Bytes :=
  Crates.walEncode ⟨seq, points.map WalDataPoint.ofDataPoint⟩

/-- `WalWriter::encode_frame`: `[length: u32][crc32: u32][payload]`. -/
def encodeFrame (seq : Nat) (points : List DataPoint) : Bytes :=
  let payload := payloadOf seq points
  toLe 4 payload.length ++ toLe 4 (Crates.crc32 payload).toNat ++ payload

theorem length_encodeFrame (seq : Nat) (points : List DataPoint) :
    (encodeFrame seq points).length = 8 + (payloadOf seq points).length := by
  simp only [encodeFrame, List.length_append, length_toLe]

end Frame

/-! ## Files -/

/-- What the engine does to the files of a WAL directory. -/
inductive WalOp
  /-- Open with `create(true).append(true)`: an existing file keeps its bytes. -/
  | create (seg : Nat)
  /-- Append bytes to the file of an open segment. -/
  | write (seg : Nat) (bytes : Bytes)
  /-- `sync_all`. -/
  | sync (seg : Nat)
  /-- `remove_file`. -/
  | remove (seg : Nat)
  deriving DecidableEq

namespace WalDir

/-- The contents of the files, in the order of their names. -/
def files (dir : WalDir) : List Bytes := dir.toList.map Prod.snd

/-- The effect of one operation on the files. -/
def apply (dir : WalDir) : WalOp → WalDir
  | .create seg => if seg ∈ dir then dir else dir.insert seg []
  | .write seg bytes => dir.insert seg ((dir[seg]?).getD [] ++ bytes)
  | .sync _ => dir
  | .remove seg => dir.erase seg

/-- The effect of a list of operations, in order. -/
def run (dir : WalDir) (ops : List WalOp) : WalDir := ops.foldl apply dir

@[simp] theorem run_nil (dir : WalDir) : dir.run [] = dir := rfl

@[simp] theorem run_cons (dir : WalDir) (op : WalOp) (ops : List WalOp) :
    dir.run (op :: ops) = (dir.apply op).run ops := rfl

theorem run_append (dir : WalDir) (ops ops' : List WalOp) :
    dir.run (ops ++ ops') = (dir.run ops).run ops' := by
  simp [run, List.foldl_append]

end WalDir

/-- `highest_segment_number`. -/
def highestSegmentNumber (dir : WalDir) : Option Nat :=
  (dir.toList.map Prod.fst).foldl (fun m n => match m with
    | none => some n
    | some k => if n > k then some n else some k) none

/-- `file.write_all(bytes)` and then `file.sync_all()`: the result, whether the
file now keeps the error of the write, and what happens to the segment. An
error kept from an earlier write is returned instead of writing. -/
def writeAndSync (seg : Nat) (lastWriteErr : Bool) (bytes : Bytes) (io : WriteIo) :
    Except IoError Unit × Bool × List WalOp :=
  if lastWriteErr then (.error .os, false, [])
  else if io.seen bytes then (.error .os, false, [.write seg (io.written bytes)])
  else if io.synced then (.ok (), io.fails bytes, [.write seg (io.written bytes), .sync seg])
  else (.error .os, io.fails bytes, [.write seg (io.written bytes)])

@[simp] theorem writeAndSync_ok (seg : Nat) (bytes : Bytes) :
    writeAndSync seg false bytes .ok = (.ok (), false, [.write seg bytes, .sync seg]) := rfl

/-- The file keeps no error, and both calls return `Ok`. -/
theorem writeAndSync_of_returnsOk {bytes : Bytes} {io : WriteIo} (h : io.returnsOk bytes = true)
    (seg : Nat) : writeAndSync seg false bytes io =
      (.ok (), io.fails bytes, [.write seg (io.written bytes), .sync seg]) := by
  obtain ⟨hseen, hsync⟩ : io.seen bytes = false ∧ io.synced = true := by
    simpa [WriteIo.returnsOk] using h
  simp [writeAndSync, hseen, hsync]

/-- In all other cases an error is returned. -/
theorem writeAndSync_of_error {bytes : Bytes} {io : WriteIo} {lastWriteErr : Bool}
    (h : ¬(lastWriteErr = false ∧ io.returnsOk bytes = true)) (seg : Nat) :
    writeAndSync seg lastWriteErr bytes io =
      (.error .os, !lastWriteErr && !io.seen bytes && io.fails bytes,
        if lastWriteErr then [] else [.write seg (io.written bytes)]) := by
  cases lastWriteErr with
  | true => rfl
  | false =>
    cases hseen : io.seen bytes with
    | true => simp [writeAndSync, hseen]
    | false =>
      have hsync : io.synced = false := by simpa [WriteIo.returnsOk, hseen] using h
      simp [writeAndSync, hseen, hsync]

namespace WalWriter

/-- `WalWriter::open`: resume the highest segment or start at segment 1; the
segments below it are recorded as completed at `u64::MAX`. -/
def openWal (dir : WalDir) (maxSegmentBytes resumeSeq : Nat) : WalWriter × List WalOp :=
  let segmentNumber := (highestSegmentNumber dir).getD 1
  ({ file := segmentNumber
     lastWriteErr := false
     currentSeq := resumeSeq
     currentSize := ((dir[segmentNumber]?).getD []).length
     currentSegment := segmentNumber
     maxSegmentBytes := maxSegmentBytes
     completedSegments := (List.range' 1 (segmentNumber - 1)).map fun n => (n, u64Max) },
   [.create segmentNumber])

/-- `WalWriter::rotate`: record the current segment as completed and open
the next one. `opened` says whether opening the new file succeeded; the
bookkeeping before it is done in both cases. -/
def rotate (w : WalWriter) (opened : Bool) : Except IoError Unit × WalWriter × List WalOp :=
  let w' := { w with
    completedSegments := w.completedSegments ++ [(w.currentSegment, w.currentSeq)]
    currentSegment := w.currentSegment + 1 }
  if opened then
    (.ok (), { w' with file := w'.currentSegment, lastWriteErr := false, currentSize := 0 },
      [.create w'.currentSegment])
  else (.error (.newSegment w'.currentSegment), w', [])

/-- The completed segments whose recorded maximum is at most `flushedSeq`,
with that maximum. -/
def completedBefore (w : WalWriter) (flushedSeq : Nat) : List (Nat × Nat) :=
  w.completedSegments.filter fun p => p.2 ≤ flushedSeq

/-- `WalWriter::drain_completed_before`: the completed segments whose
recorded maximum is at most `flushedSeq`, removed from tracking. -/
def drainCompletedBefore (w : WalWriter) (flushedSeq : Nat) : List Nat × WalWriter :=
  ((w.completedBefore flushedSeq).map Prod.fst,
   { w with completedSegments := w.completedSegments.filter fun p => !(p.2 ≤ flushedSeq) })

/-- `WalWriter::append`: frame, write, fsync, and rotate once the size limit
is reached. -/
def append [Crates] (w : WalWriter) (points : List DataPoint) (io : WriteIo)
    (opened : Bool) : Except IoError Nat × WalWriter × List WalOp :=
  let w := { w with currentSeq := w.currentSeq + 1 }
  let frame := encodeFrame w.currentSeq points
  match writeAndSync w.file w.lastWriteErr frame io with
  | (.error e, kept, ops) => (.error e, { w with lastWriteErr := kept }, ops)
  | (.ok (), kept, ops) =>
    let w := { w with lastWriteErr := kept, currentSize := w.currentSize + frame.length }
    if w.currentSize ≥ w.maxSegmentBytes then
      match w.rotate opened with
      | (.error e, w, ops') => (.error e, w, ops ++ ops')
      | (.ok (), w, ops') => (.ok w.currentSeq, w, ops ++ ops')
    else (.ok w.currentSeq, w, ops)

end WalWriter

end Micius

import Micius.Lib.Runs
import Micius.Reference.Instance
import Micius.Wal.BatchSpec

/-!
# Segment accounting (`wal/writer.rs`)

`rotate` records the open segment with the current sequence number, and
`drain_completed_before` returns the recorded segments below a threshold. As
long as every rotation opens its new file, the record is right: what is
returned is never written to again and has no entry above the threshold. A
rotation that fails to open the file has recorded a segment that stays open.
-/

namespace Micius

open WalMessage

/-! ## Runs of a writer -/

/-- A writer and the files of its directory. -/
structure WriterState where
  writer : WalWriter
  files : WalDir

/-- The writer that `WalWriter::open` makes of an empty directory. -/
def WriterState.fresh (maxSegmentBytes resumeSeq : Nat) : WriterState :=
  let opened := WalWriter.openWal ∅ maxSegmentBytes resumeSeq
  ⟨opened.1, WalDir.run ∅ opened.2⟩

/-- The uses of a writer, with what the operating system does during each. -/
inductive WriterCall
  | append (points : List DataPoint) (io : WriteIo) (opened : Bool)
  /-- A batch of `wal_task`. -/
  | batch (msgs : List WalMessage) (io : BatchIo)
  | rotate (opened : Bool)
  | drainCompletedBefore (flushedSeq : Nat)

/-- What is recorded of a run. -/
inductive WriterEvent
  /-- The frames of these batches were written to a segment, perhaps in part. -/
  | wrote (seg : Nat) (batches : List Batch)
  /-- `drain_completed_before` returned the segments while `file` was open. -/
  | drained (flushedSeq : Nat) (segments : List Nat) (file : Nat)
  deriving DecidableEq

/-- The parts a call is made of. -/
inductive WriterOp
  | write (batches : List (List DataPoint)) (io : WriteIo)
  | rotate (opened : Bool)
  | drain (flushedSeq : Nat)
  deriving DecidableEq

/-- The operations on files among the events of a batch. -/
def fileOps (es : List WalEvent) : List WalOp :=
  es.filterMap fun
    | .op o => some o
    | _ => none

/-- The batches written to a segment. -/
def entriesIn (tr : List WriterEvent) (seg : Nat) : List Batch :=
  tr.flatMap fun
    | .wrote seg' batches => if seg' = seg then batches else []
    | .drained _ _ _ => []

@[simp] theorem entriesIn_append (tr es : List WriterEvent) (seg : Nat) :
    entriesIn (tr ++ es) seg = entriesIn tr seg ++ entriesIn es seg :=
  List.flatMap_append ..

section

variable [Crates]

/-- What the call does to the writer and the files. -/
def WriterState.call (t : WriterState) : WriterCall → WriterState
  | .append points io opened =>
    let (_, w, ops) := t.writer.append points io opened
    ⟨w, t.files.run ops⟩
  | .batch msgs io =>
    let (w, es) := processBatch t.writer msgs io
    ⟨w, t.files.run (fileOps es)⟩
  | .rotate opened =>
    let (_, w, ops) := t.writer.rotate opened
    ⟨w, t.files.run ops⟩
  | .drainCompletedBefore flushedSeq => { t with writer := (t.writer.drainCompletedBefore flushedSeq).2 }

/-- One part of a call. -/
def WriterState.op (t : WriterState) : WriterOp → WriterState × List WriterEvent
  | .write as io =>
    let bs := numbered t.writer.currentSeq as
    let w := { t.writer with currentSeq := t.writer.currentSeq + as.length }
    match writeAndSync w.file w.lastWriteErr (frames bs) io with
    | (.error _, kept, ops) =>
      (⟨{ w with lastWriteErr := kept }, t.files.run ops⟩, [.wrote w.file bs])
    | (.ok (), kept, ops) =>
      (⟨{ w with lastWriteErr := kept, currentSize := w.currentSize + (frames bs).length },
        t.files.run ops⟩, [.wrote w.file bs])
  | .rotate opened =>
    let (_, w, ops) := t.writer.rotate opened
    (⟨w, t.files.run ops⟩, [])
  | .drain flushedSeq =>
    let (segments, w) := t.writer.drainCompletedBefore flushedSeq
    ({ t with writer := w }, [.drained flushedSeq segments t.writer.file])

/-- The parts in order. -/
def WriterState.ops (t : WriterState) : List WriterOp → WriterState × List WriterEvent
  | [] => (t, [])
  | o :: os =>
    let (t, es) := t.op o
    let (t, es') := t.ops os
    (t, es ++ es')

/-- The rotation of a segment that a write has filled. -/
def fullOps (w : WalWriter) (as : List (List DataPoint)) (opened : Bool) : List WriterOp :=
  if w.currentSize + (frames (numbered w.currentSeq as)).length ≥ w.maxSegmentBytes then
    [.rotate opened]
  else []

/-- The parts of a call. -/
def WriterCall.ops (w : WalWriter) : WriterCall → List WriterOp
  | append points io opened =>
    .write [points] io ::
      if w.lastWriteErr = false ∧ io.returnsOk (frames (numbered w.currentSeq [points])) = true then
        fullOps w [points] opened
      else []
  | batch msgs io =>
    (if appends msgs = [] then [] else [.write ((appends msgs).map Prod.fst) io.write]) ++
    if w.Acks msgs io.write then
      fullOps w ((appends msgs).map Prod.fst) io.sizeRotate ++
      (if drains msgs = [] then [] else [.drain (((drains msgs).map Prod.fst).foldl max 0)]) ++
      if rotates msgs = [] then []
      else .rotate io.rotate :: if io.rotate then [.drain u64Max] else []
    else []
  | rotate opened => [.rotate opened]
  | drainCompletedBefore flushedSeq => [.drain flushedSeq]

/-- One call. -/
def callStep (t : WriterState) (c : WriterCall) : Option (WriterState × List WriterEvent) :=
  some (t.call c, (t.ops (c.ops t.writer)).2)

/-! ## Calls are made of their parts -/

theorem WriterState.ops_append (t : WriterState) (os os' : List WriterOp) :
    t.ops (os ++ os') =
      (((t.ops os).1.ops os').1, (t.ops os).2 ++ ((t.ops os).1.ops os').2) := by
  induction os generalizing t with
  | nil => rfl
  | cons o os ih => simp [WriterState.ops, ih]

omit [Crates] in
@[simp] theorem fileOps_append (es es' : List WalEvent) :
    fileOps (es ++ es') = fileOps es ++ fileOps es' := List.filterMap_append ..

omit [Crates] in
@[simp] theorem fileOps_ops (ops : List WalOp) : fileOps (ops.map .op) = ops := by
  simp [fileOps, List.filterMap_map]

omit [Crates] in
@[simp] theorem fileOps_replies {α : Type} (l : List α) (f : α → Nat) (g : α → WalReply) :
    fileOps (l.map fun a => .reply (f a) (g a)) = [] := by
  simp [fileOps, List.filterMap_map]

omit [Crates] in
theorem fileOps_rejectEvents (rejected : List Nat) : fileOps (rejectEvents rejected) = [] :=
  fileOps_replies rejected id _

omit [Crates] in
theorem fileOps_failEvents (e : IoError) (g : Gathered) : fileOps (failEvents e g) = [] := by
  simp [failEvents]

/-- The write of a batch that is answered with `Ok`. -/
theorem ops_write (t : WriterState) (msgs : List WalMessage) (io : WriteIo)
    (hio : t.writer.Acks msgs io) :
    (t.ops (if appends msgs = [] then [] else [.write ((appends msgs).map Prod.fst) io])).1 =
      ⟨committedWriter t.writer msgs io, t.files.run (fileOps (commitEvents t.writer msgs io))⟩ := by
  by_cases happends : appends msgs = []
  · have hfails : io.fails [] = false := by simp [WriteIo.fails]
    simp [happends, WriterState.ops, committedWriter, commitEvents, batchFrames, numbered, fileOps,
      hfails]
  · obtain ⟨hkept, hok⟩ := hio.resolve_left happends
    have hwrite := writeAndSync_of_returnsOk hok t.writer.file
    rw [batchFrames] at hwrite
    simp [happends, WriterState.ops, WriterState.op, hwrite, hkept, committedWriter, commitEvents,
      batchFrames, fileOps, List.filterMap_map]

/-- The rotation after a batch. -/
theorem ops_fullOps (t : WriterState) (msgs : List WalMessage) (files : WalDir) (io : WriteIo)
    (opened : Bool) : WriterState.ops ⟨committedWriter t.writer msgs io, files⟩
        (fullOps t.writer ((appends msgs).map Prod.fst) opened) =
      (⟨(rotateIfFull (committedWriter t.writer msgs io) opened).1,
        files.run (fileOps (rotateIfFull (committedWriter t.writer msgs io) opened).2)⟩, []) := by
  by_cases hfull : t.writer.currentSize + (batchFrames t.writer msgs).length ≥
      t.writer.maxSegmentBytes
  · have hrotate : rotateIfFull (committedWriter t.writer msgs io) opened =
        (((committedWriter t.writer msgs io).rotate opened).2.1,
          ((committedWriter t.writer msgs io).rotate opened).2.2.map .op) := if_pos hfull
    have hops : fullOps t.writer ((appends msgs).map Prod.fst) opened = [.rotate opened] :=
      if_pos hfull
    rw [hrotate, hops, fileOps_ops]
    rfl
  · have hrotate : rotateIfFull (committedWriter t.writer msgs io) opened =
        (committedWriter t.writer msgs io, []) := if_neg hfull
    have hops : fullOps t.writer ((appends msgs).map Prod.fst) opened = [] := if_neg hfull
    rw [hrotate, hops]
    rfl

/-- The answers to the drain requests of a batch. -/
theorem ops_drains (w : WalWriter) (files : WalDir) (ds : List (Nat × Nat)) :
    WriterState.ops ⟨w, files⟩
        (if ds = [] then [] else [.drain ((ds.map Prod.fst).foldl max 0)]) =
      (⟨(answerDrains w ds).1, files.run (fileOps (answerDrains w ds).2)⟩,
        if ds = [] then [] else
          [.drained ((ds.map Prod.fst).foldl max 0)
            (w.drainCompletedBefore ((ds.map Prod.fst).foldl max 0)).1 w.file]) := by
  unfold answerDrains
  by_cases hds : ds = []
  · simp [hds, WriterState.ops, fileOps]
  · simp [hds, WriterState.ops, WriterState.op]

/-- The answer to the rotate request of a batch. -/
theorem ops_rotate (w : WalWriter) (files : WalDir) (rs : List Nat) (opened : Bool) :
    WriterState.ops ⟨w, files⟩
        (if rs = [] then [] else .rotate opened :: if opened then [.drain u64Max] else []) =
      (⟨(answerRotate w opened rs.head?).1,
        files.run (fileOps (answerRotate w opened rs.head?).2)⟩,
        if rs = [] ∨ opened = false then [] else
          [.drained u64Max ((w.rotate true).2.1.drainCompletedBefore u64Max).1
            (w.rotate true).2.1.file]) := by
  cases rs with
  | nil => rfl
  | cons r rs => cases opened <;> rfl

/-- **A call is its parts.** -/
theorem call_eq_ops (t : WriterState) (c : WriterCall) : t.call c = (t.ops (c.ops t.writer)).1 := by
  cases c with
  | append points io opened =>
    have hframes : frames (numbered t.writer.currentSeq [points]) =
        encodeFrame (t.writer.currentSeq + 1) points := List.append_nil _
    by_cases hio : t.writer.lastWriteErr = false ∧
        io.returnsOk (frames (numbered t.writer.currentSeq [points])) = true
    · have hwrite := writeAndSync_of_returnsOk hio.2 t.writer.file
      rw [hframes] at hwrite
      rw [WriterCall.ops, if_pos hio]
      simp only [WriterState.call, WalWriter.append, WriterState.ops, WriterState.op, fullOps,
        hframes, List.length_singleton, hio.1, hwrite]
      split
      · cases opened <;> rfl
      · rfl
    · have hwrite := writeAndSync_of_error hio t.writer.file
      rw [hframes] at hwrite
      rw [WriterCall.ops, if_neg hio]
      simp [WriterState.call, WalWriter.append, WriterState.ops, WriterState.op, hframes, hwrite]
  | batch msgs io =>
    by_cases hio : t.writer.Acks msgs io.write
    · simp only [WriterState.call, WriterCall.ops, processBatch_ok t.writer msgs io hio, if_pos hio,
        WriterState.ops_append, ops_write t msgs io.write hio, ops_fullOps, ops_drains, ops_rotate,
        finishBatch, fileOps_append, fileOps_rejectEvents, WalDir.run_append, WalDir.run_nil]
    · have hops : fileOps (processBatch t.writer msgs io).2 =
          failedOps t.writer msgs io.write := by
        simp [processBatch_failed t.writer msgs io hio, fileOps_rejectEvents, fileOps_failEvents]
      have hwrite := writeAndSync_of_error (not_or.mp hio).2 t.writer.file
      rw [batchFrames] at hwrite
      simp only [WriterState.call, WriterCall.ops, hops, (not_or.mp hio).1, hio, if_false,
        List.append_nil]
      simp [processBatch_failed t.writer msgs io hio, WriterState.ops, WriterState.op, hwrite,
        failedWriter, failedOps, batchFrames]
  | rotate opened => rfl
  | drainCompletedBefore flushedSeq => rfl

/-! ## The accounting -/

/-- The bytes are what writes of the frames of the batches leave in a file,
each write perhaps cut short. -/
inductive LeftBy : Bytes → List Batch → Prop
  | nil : LeftBy [] []
  | write {bytes : Bytes} {bs : List Batch} (h : LeftBy bytes bs) {piece : Bytes}
      {new : List Batch} (hpiece : piece <+: frames new) : LeftBy (bytes ++ piece) (bs ++ new)

/-- The segment is complete: its file is there and closed, and it has no
entry above the bound. -/
structure Complete (t : WriterState) (tr : List WriterEvent) (seg bound : Nat) : Prop where
  closed : seg < t.writer.currentSegment
  exists_file : seg ∈ t.files
  below : ∀ b ∈ entriesIn tr seg, b.1 ≤ bound

/-- What holds of a writer all of whose rotations opened their file. -/
structure Accounted (t : WriterState) (tr : List WriterEvent) : Prop where
  file : t.writer.file = t.writer.currentSegment
  exists_file : t.writer.file ∈ t.files
  written : ∀ seg, ∀ b ∈ entriesIn tr seg, seg ≤ t.writer.currentSegment ∧ b.1 ≤ t.writer.currentSeq
  contents : ∀ (seg : Nat) (bytes : Bytes), t.files[seg]? = some bytes → LeftBy bytes (entriesIn tr seg)
  completed : ∀ p ∈ t.writer.completedSegments, Complete t tr p.1 p.2
  drained : ∀ s segs file, .drained s segs file ∈ tr → ∀ seg ∈ segs, seg ≠ file ∧ Complete t tr seg s

/-- The effect of a write to a file that exists: a first part of the frames is
added, perhaps nothing. -/
theorem op_write_eq (t : WriterState) (as : List (List DataPoint)) (io : WriteIo)
    (hfile : t.writer.file ∈ t.files) :
    ∃ size kept piece, piece <+: frames (numbered t.writer.currentSeq as) ∧
      t.op (.write as io) =
        (⟨{ t.writer with
            lastWriteErr := kept
            currentSeq := t.writer.currentSeq + as.length
            currentSize := size },
          t.files.insert t.writer.file ((t.files[t.writer.file]?).getD [] ++ piece)⟩,
          [.wrote t.writer.file (numbered t.writer.currentSeq as)]) := by
  have hprefix := io.written_prefix (frames (numbered t.writer.currentSeq as))
  by_cases hio : t.writer.lastWriteErr = false ∧
      io.returnsOk (frames (numbered t.writer.currentSeq as)) = true
  · have hwrite := writeAndSync_of_returnsOk hio.2 t.writer.file
    exact ⟨_, _, _, hprefix, by simp only [WriterState.op, hio.1, hwrite]; rfl⟩
  · have hwrite := writeAndSync_of_error hio t.writer.file
    cases hkept : t.writer.lastWriteErr with
    | false =>
      simp only [hkept] at hwrite
      exact ⟨_, _, _, hprefix, by simp only [WriterState.op, hkept, hwrite]; rfl⟩
    | true =>
      simp only [hkept] at hwrite
      refine ⟨t.writer.currentSize, false, [], List.nil_prefix, ?_⟩
      have hsame := WalDir.apply_write_nil hfile
      rw [WalDir.apply] at hsame
      simp only [WriterState.op, hkept, hwrite, hsame]
      rfl

namespace Accounted

variable {t : WriterState} {tr : List WriterEvent}

theorem fresh (maxSegmentBytes resumeSeq : Nat) :
    Accounted (.fresh maxSegmentBytes resumeSeq) [] where
  file := rfl
  exists_file := by
    show 1 ∈ WalDir.apply ∅ (.create 1)
    simp [WalDir.apply]
  written seg b hb := by cases hb
  contents seg bytes hbytes := by
    have hfiles : (WriterState.fresh maxSegmentBytes resumeSeq).files = WalDir.apply ∅ (.create 1) :=
      rfl
    rw [hfiles, WalDir.apply, if_neg (by simp), Std.ExtTreeMap.getElem?_insert] at hbytes
    split at hbytes
    · obtain rfl := Option.some.inj hbytes
      exact .nil
    · simp at hbytes
  completed p hp := by cases hp
  drained s segs file h := by cases h

/-- Frame numbers only grow, and the write goes to the open segment. -/
theorem write (h : Accounted t tr) (as : List (List DataPoint)) (io : WriteIo) :
    Accounted (t.op (.write as io)).1 (tr ++ (t.op (.write as io)).2) := by
  obtain ⟨size, kept, piece, hpiece, heq⟩ := op_write_eq t as io h.exists_file
  rw [heq]
  have hentries : ∀ seg, entriesIn [.wrote t.writer.file (numbered t.writer.currentSeq as)] seg =
      if t.writer.file = seg then numbered t.writer.currentSeq as else [] := by
    intro seg
    simp [entriesIn]
  have hcomplete : ∀ seg bound, Complete t tr seg bound → Complete
      ⟨{ t.writer with
          lastWriteErr := kept
          currentSeq := t.writer.currentSeq + as.length
          currentSize := size },
        t.files.insert t.writer.file ((t.files[t.writer.file]?).getD [] ++ piece)⟩
      (tr ++ [.wrote t.writer.file (numbered t.writer.currentSeq as)]) seg bound := by
    intro seg bound hc
    have hne : t.writer.file ≠ seg := by
      have hfile := h.file
      have hclosed := hc.closed
      omega
    refine ⟨hc.closed, by simp [hc.exists_file], fun b hb => ?_⟩
    rw [entriesIn_append, hentries, if_neg hne, List.append_nil] at hb
    exact hc.below b hb
  refine
    { file := h.file
      exists_file := by simp
      written := ?_
      contents := ?_
      completed := fun p hp => hcomplete p.1 p.2 (h.completed p hp)
      drained := ?_ }
  · intro seg b hb
    rw [entriesIn_append, hentries, List.mem_append] at hb
    rcases hb with hb | hb
    · obtain ⟨hseg, hseq⟩ := h.written seg b hb
      exact ⟨hseg, Nat.le_trans hseq (Nat.le_add_right ..)⟩
    · split at hb
      · next hfile =>
        exact ⟨Nat.le_of_eq (hfile.symm.trans h.file), (lt_of_mem_numbered hb).2⟩
      · cases hb
  · intro seg bytes hbytes
    rw [entriesIn_append, hentries]
    rw [Std.ExtTreeMap.getElem?_insert] at hbytes
    by_cases hfile : t.writer.file = seg
    · subst hfile
      rw [if_pos (by simp)] at hbytes
      obtain rfl := Option.some.inj hbytes
      obtain ⟨old, hold⟩ := Option.isSome_iff_exists.mp
        (Std.ExtTreeMap.mem_iff_isSome_getElem?.mp h.exists_file)
      rw [if_pos rfl, hold]
      exact .write (h.contents _ old hold) hpiece
    · rw [if_neg (by simpa using hfile)] at hbytes
      rw [if_neg hfile, List.append_nil]
      exact h.contents seg bytes hbytes
  · intro s segs file hd seg hseg
    have hd : .drained s segs file ∈ tr := by simpa using hd
    obtain ⟨hne, hc⟩ := h.drained s segs file hd seg hseg
    exact ⟨hne, hcomplete seg s hc⟩

/-- A rotation that opens its file completes the open segment. -/
theorem rotate (h : Accounted t tr) :
    Accounted (t.op (.rotate true)).1 (tr ++ (t.op (.rotate true)).2) := by
  let next := t.writer.currentSegment + 1
  have hkeep : ∀ seg ∈ t.files, seg ∈ t.files.apply (.create next) := by
    intro seg hseg
    rw [WalDir.apply]
    split
    · exact hseg
    · simp [hseg]
  have hcomplete : ∀ seg bound, Complete t tr seg bound → Complete (t.op (.rotate true)).1 tr seg bound :=
    fun seg bound hc => ⟨Nat.lt_succ_of_lt hc.closed, hkeep seg hc.exists_file, hc.below⟩
  rw [show (t.op (.rotate true)).2 = [] from rfl, List.append_nil]
  refine
    { file := rfl
      exists_file := ?_
      written := fun seg b hb => ?_
      contents := fun seg bytes hbytes => ?_
      completed := fun p hp => ?_
      drained := fun s segs file hd seg hseg => ?_ }
  · show next ∈ t.files.apply (.create next)
    rw [WalDir.apply]
    split
    · assumption
    · simp
  · obtain ⟨hseg, hseq⟩ := h.written seg b hb
    exact ⟨Nat.le_succ_of_le hseg, hseq⟩
  · change (t.files.apply (.create next))[seg]? = some bytes at hbytes
    rw [WalDir.apply] at hbytes
    split at hbytes
    · exact h.contents seg bytes hbytes
    · rw [Std.ExtTreeMap.getElem?_insert] at hbytes
      split at hbytes
      · next hnext =>
        obtain rfl := Option.some.inj hbytes
        -- nothing was written to a segment above the open one
        have hnone : entriesIn tr seg = [] := by
          refine List.eq_nil_iff_forall_not_mem.mpr fun b hb => ?_
          have hseg := (h.written seg b hb).1
          have heq : next = seg := Nat.compare_eq_eq.mp hnext
          omega
        rw [hnone]
        exact .nil
      · exact h.contents seg bytes hbytes
  · rcases List.mem_append.mp hp with hp | hp
    · exact hcomplete p.1 p.2 (h.completed p hp)
    · obtain rfl := List.mem_singleton.mp hp
      exact ⟨Nat.lt_succ_self _, hkeep _ (h.file ▸ h.exists_file), fun b hb => (h.written _ b hb).2⟩
  · obtain ⟨hne, hc⟩ := h.drained s segs file hd seg hseg
    exact ⟨hne, hcomplete seg s hc⟩

/-- What is drained is complete at the threshold. -/
theorem drain (h : Accounted t tr) (flushedSeq : Nat) :
    Accounted (t.op (.drain flushedSeq)).1 (tr ++ (t.op (.drain flushedSeq)).2) := by
  have hentries : ∀ seg, entriesIn (tr ++ (t.op (.drain flushedSeq)).2) seg = entriesIn tr seg := by
    intro seg
    rw [entriesIn_append]
    exact List.append_nil _
  have hcomplete : ∀ seg bound, Complete t tr seg bound →
      Complete (t.op (.drain flushedSeq)).1 (tr ++ (t.op (.drain flushedSeq)).2) seg bound :=
    fun seg bound hc => ⟨hc.closed, hc.exists_file, by simpa only [hentries] using hc.below⟩
  refine
    { file := h.file
      exists_file := h.exists_file
      written := fun seg b hb => h.written seg b (hentries seg ▸ hb)
      contents := fun seg bytes hbytes => (hentries seg).symm ▸ h.contents seg bytes hbytes
      completed := fun p hp => hcomplete p.1 p.2 (h.completed p (List.mem_of_mem_filter hp))
      drained := fun s segs file hd seg hseg => ?_ }
  rcases List.mem_append.mp hd with hd | hd
  · obtain ⟨hne, hc⟩ := h.drained s segs file hd seg hseg
    exact ⟨hne, hcomplete seg s hc⟩
  · obtain ⟨rfl, rfl, rfl⟩ := WriterEvent.drained.inj (List.mem_singleton.mp hd)
    obtain ⟨p, hp, rfl⟩ := List.mem_map.mp hseg
    obtain ⟨hp, hle⟩ := List.mem_filter.mp hp
    have hc := h.completed p hp
    refine ⟨?_, hcomplete p.1 s ⟨hc.closed, hc.exists_file, fun b hb => ?_⟩⟩
    · exact h.file ▸ Nat.ne_of_lt hc.closed
    · exact Nat.le_trans (hc.below b hb) (of_decide_eq_true hle)

theorem ops (h : Accounted t tr) {os : List WriterOp} (hopens : WriterOp.rotate false ∉ os) :
    Accounted (t.ops os).1 (tr ++ (t.ops os).2) := by
  induction os generalizing t tr with
  | nil => simpa [WriterState.ops] using h
  | cons o os ih =>
    rw [List.mem_cons, not_or] at hopens
    have hop : Accounted (t.op o).1 (tr ++ (t.op o).2) := by
      cases o with
      | write as io => exact h.write as io
      | rotate opened =>
        cases opened with
        | false => exact absurd rfl hopens.1
        | true => exact h.rotate
      | drain flushedSeq => exact h.drain flushedSeq
    have hrest := ih hop hopens.2
    rwa [List.append_assoc] at hrest

end Accounted

/-- Every rotation of the call opens its file. -/
def WriterCall.Opens (t : WriterState) (c : WriterCall) : Prop :=
  WriterOp.rotate false ∉ c.ops t.writer

instance (t : WriterState) (c : WriterCall) : Decidable (c.Opens t) :=
  inferInstanceAs (Decidable (_ ∉ _))

/-- **Segment accounting.** In every run from an empty directory in which
every rotation opens its file, what `drain_completed_before` returns is not
the file then open, and is a file with no entry above the threshold, then or
later. Whenever a rotation fails instead, the next drain at the current
sequence number returns the file that stays open. -/
theorem drained_segments_complete (maxSegmentBytes resumeSeq : Nat) (calls : List WriterCall)
    {t : WriterState} {tr : List WriterEvent}
    (hopens : Runs.Along callStep (fun t _ c => c.Opens t) (.fresh maxSegmentBytes resumeSeq) [] calls)
    (hrun : Runs.run callStep (.fresh maxSegmentBytes resumeSeq) calls = some (t, tr)) :
    (∀ s segs file, .drained s segs file ∈ tr → ∀ seg ∈ segs, seg ≠ file ∧ seg ≠ t.writer.file ∧
      (∀ b ∈ entriesIn tr seg, b.1 ≤ s) ∧
      ∃ bytes, t.files[seg]? = some bytes ∧ LeftBy bytes (entriesIn tr seg)) ∧
    (t.call (.rotate false)).writer.file ∈
      ((t.call (.rotate false)).writer.drainCompletedBefore t.writer.currentSeq).1 := by
  have h : Accounted t tr := Runs.run_invariant (I := Accounted)
    (fun {s tr c s' es} hinv hopens hstep => by
      obtain ⟨rfl, rfl⟩ := Prod.mk.inj (Option.some.inj hstep)
      rw [call_eq_ops]
      exact hinv.ops hopens) (.fresh maxSegmentBytes resumeSeq) hopens hrun
  refine ⟨fun s segs file hd seg hseg => ?_, ?_⟩
  · obtain ⟨hne, hc⟩ := h.drained s segs file hd seg hseg
    obtain ⟨bytes, hbytes⟩ := Option.isSome_iff_exists.mp
      (Std.ExtTreeMap.mem_iff_isSome_getElem?.mp hc.exists_file)
    exact ⟨hne, h.file ▸ Nat.ne_of_lt hc.closed, hc.below, bytes, hbytes, h.contents seg bytes hbytes⟩
  · refine List.mem_map.mpr ⟨(t.writer.currentSegment, t.writer.currentSeq),
      List.mem_filter.mpr ⟨List.mem_append_right _ (List.mem_singleton.mpr rfl), ?_⟩, h.file.symm⟩
    exact decide_eq_true (Nat.le_refl _)

end

/-! ## A rotation that fails -/

section Example

attribute [local instance] Reference.crates

/-- Two batches with a rotation each, and a drain of the first segment. -/
def rotatedCalls (opened : Bool) : List WriterCall :=
  [.batch [.append [cpuPoint 5 7] 0] ⟨.ok, opened, true⟩,
    .batch [.append [cpuPoint 6 8] 1, .drainBefore 1 2] ⟨.ok, opened, true⟩]

theorem drained_segments_complete_rotated : ∃ t tr,
    Runs.run callStep (.fresh 1 0) (rotatedCalls true) = some (t, tr) ∧
    .drained 1 [1] 3 ∈ tr ∧ ∀ b ∈ entriesIn tr 1, b.1 ≤ 1 := by
  have hrun : ((Runs.run callStep (.fresh 1 0) (rotatedCalls true)).any fun r =>
      .drained 1 [1] 3 ∈ r.2) = true := by decide +kernel
  obtain ⟨t, tr, hrun, hdrained⟩ := Runs.exists_of_any hrun
  have hdrained : .drained 1 [1] 3 ∈ tr := of_decide_eq_true hdrained
  have hcomplete := drained_segments_complete 1 0 (rotatedCalls true) (by decide +kernel) hrun
  exact ⟨t, tr, hrun, hdrained, (hcomplete.1 1 [1] 3 hdrained 1 (List.mem_singleton.mpr rfl)).2.2.1⟩

/-- Both rotations fail: the drain at sequence number 1 returns the open
segment, which holds an entry with sequence number 2. -/
theorem drain_returns_open_segment : ∃ t tr,
    Runs.run callStep (.fresh 1 0) (rotatedCalls false) = some (t, tr) ∧
    .drained 1 [1] 1 ∈ tr ∧ t.writer.file = 1 ∧ (2, [cpuPoint 6 8]) ∈ entriesIn tr 1 := by
  have hrun : ((Runs.run callStep (.fresh 1 0) (rotatedCalls false)).any fun r =>
      .drained 1 [1] 1 ∈ r.2 ∧ r.1.writer.file = 1 ∧ (2, [cpuPoint 6 8]) ∈ entriesIn r.2 1) = true := by
    decide +kernel
  obtain ⟨t, tr, hrun, hstate⟩ := Runs.exists_of_any hrun
  exact ⟨t, tr, hrun, of_decide_eq_true hstate⟩

end Example

end Micius

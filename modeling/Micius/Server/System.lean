import Mathlib.Logic.Function.Basic
import Micius.Lib.Runs
import Micius.Server.Open
import Micius.Wal.BatchSpec

/-!
# The running server (`server/mod.rs`)

The tasks of an open server and their atomic steps: append calls, the WAL
task of every shard, the memtable sweep with its WAL garbage collection,
snapshots and the compaction worker. Any interleaving of enabled steps is a
run; a run has no I/O failure. A lock that a task holds across steps is a
guard on the steps that need it.

A step is either taken at once with respect to all other tasks or split
further: what a task does between two steps is seen by no other task.
-/

namespace Micius

/-! ## Append calls -/

/-- The points of an append call that go to one shard. -/
structure Group where
  shard : Nat
  points : List DataPoint
  /-- The sequence number the WAL task replied with. -/
  committed : Option Nat

/-- An append call. -/
structure AppendTask where
  points : List DataPoint
  /-- The groups not yet inserted into their memtable, in shard order. -/
  pending : List Group
  acked : Bool

section Route

variable [Crates]

/-- `shard_index`. -/
def shardIndex (p : DataPoint) (shards : Nat) : Nat :=
  (seriesIdFromParts p.metricName p.tags &&& (UInt64.ofNat shards - 1)).toNat

/-- The shard and position of every point of a request. -/
def indexPoints (points : List DataPoint) (shards : Nat) : List (Nat × Nat) :=
  points.zipIdx.map fun p => (shardIndex p.1 shards, p.2)

/-- `indexed` is a possible outcome of `sort_unstable_by_key` by shard. -/
def SortedByShard (points : List DataPoint) (shards : Nat) (indexed : List (Nat × Nat)) : Prop :=
  indexed.Perm (indexPoints points shards) ∧ indexed.Pairwise fun a b => a.1 ≤ b.1

instance (points : List DataPoint) (shards : Nat) (indexed : List (Nat × Nat)) :
    Decidable (SortedByShard points shards indexed) :=
  inferInstanceAs (Decidable (_ ∧ _))

end Route

/-- The grouping loop: runs of equal shard become one group each. -/
def shardGroups (points : List DataPoint) (indexed : List (Nat × Nat)) : List Group :=
  (indexed.splitBy fun a b => a.1 == b.1).map fun run =>
    { shard := (run.head?.map Prod.fst).getD 0
      points := run.filterMap fun e => points[e.2]?
      committed := none }

/-- The group at a position `(call, group)`. -/
def groupAt (tasks : List AppendTask) (ref : Nat × Nat) : Option Group :=
  (tasks[ref.1]?).bind fun t => t.pending[ref.2]?

/-- The group waits for the WAL task of shard `i`. -/
def Group.waitsFor (g : Group) (i : Nat) : Bool := g.shard = i && g.committed.isNone

/-- The append messages of the groups at the given positions. -/
def messagesAt (tasks : List AppendTask) (refs : List (Nat × Nat)) :
    List ((Nat × Nat) × List DataPoint) :=
  refs.filterMap fun ref => (groupAt tasks ref).map fun g => (ref, g.points)

/-- Deliver the replies of a batch to the waiting calls. -/
def deliver (tasks : List AppendTask) (replies : List (Nat × (Nat × Nat) × List DataPoint)) :
    List AppendTask :=
  tasks.mapIdx fun k t =>
    { t with
      pending := t.pending.mapIdx fun j g =>
        match replies.find? fun r => r.2.1 = (k, j) with
        | some r => { g with committed := some r.1 }
        | none => g }

/-! ## The other tasks -/

/-- The WAL task of a shard with its shared `last_seq`. A batch is first
written, published and answered; then, while `finishing` holds the threshold
of its drain request, if any, the task rotates and answers that request. -/
structure WalHandle where
  writer : WalWriter
  lastSeq : Nat
  finishing : Option (Option Nat)

/-- Where the memtable sweep is. -/
inductive Sweeper
  /-- About to lock the memtable of shard `i`. -/
  | next (i : Nat)
  | drained (i : Nat) (data : SeriesData)
  | written (i : Nat) (result : ChunkWriteResult)
  | registered (i : Nat) (result : ChunkWriteResult)
  | sequenceRead (i : Nat) (result : ChunkWriteResult) (seq : Nat)
  | published (i : Nat)
  /-- `DrainBefore` is sent; waiting for the reply. -/
  | draining (i : Nat) (gcSeq : Nat)
  | deleting (i : Nat) (segments : List Nat)

/-- A snapshot, requested by RPC or by the periodic task. -/
inductive SnapshotTask
  | loading (watermarks : List Nat)
  /-- The index read lock is held from here on. -/
  | locked (watermarks : List Nat)
  /-- Saved; the persisted watermarks below `shard` are stored. -/
  | storing (watermarks : List Nat) (shard : Nat)
  | done

/-- Whether the task holds the index read lock. -/
def SnapshotTask.holdsIndex : SnapshotTask → Bool
  | loading _ => false
  | locked _ => true
  | storing _ _ => true
  | done => false

/-- Where the compaction worker is. -/
inductive Compactor
  | idle
  | merging (groups : List MergeGroup)
  | merged (group : MergeGroup) (result : ChunkWriteResult) (rest : List MergeGroup)
  | deleting (paths : List ChunkPath) (rest : List MergeGroup)

/-- `StorageServer`, its tasks and the disk. -/
structure Server where
  disk : Disk
  index : ChunkIndex
  wals : Nat → WalHandle
  memtables : Nat → Memtable
  shardWatermarks : Nat → Nat
  persistedWatermarks : Nat → Nat
  appendSeq : Nat
  appends : List AppendTask
  sweeper : Sweeper
  snapshots : List SnapshotTask
  compactor : Compactor

/-- Some snapshot holds the index read lock. -/
def Server.indexReadLocked (s : Server) : Bool := s.snapshots.any SnapshotTask.holdsIndex

/-! ## Opening -/

/-- The server that `open` returns. -/
def Server.start (cfg : StorageConfig) (disk : Disk) (idx : ChunkIndex) (wals : List WalWriter) :
    Server where
  disk := disk
  index := idx
  wals i :=
    let writer := (wals[i]?).getD ⟨0, false, 0, 0, 0, 0, []⟩
    ⟨writer, writer.currentSeq, none⟩
  memtables _ := Memtable.new (cfg.memtableFlushThresholdBytes / cfg.numShards)
  shardWatermarks _ := 0
  persistedWatermarks i := idx.watermark i
  appendSeq := 0
  appends := []
  sweeper := .next 0
  snapshots := []
  compactor := .idle

/-- `StorageServer::open`, with the operations it does on the disk. -/
def openStore [Crates] (cfg : StorageConfig) (chunkIds : Nat → ChunkId) (disk : Disk) :
    Except OpenError Server × List DiskOp :=
  let idx := (loadIndex disk.snapshot).getD .new
  match openShards cfg chunkIds (List.range cfg.numShards) idx disk with
  | (.error e, ops) => (.error e, ops)
  | (.ok (idx, wals), ops) => (.ok (.start cfg (disk.run ops) idx wals), ops)

/-! ## Steps -/

/-- The steps of the tasks. Positions in the lists of calls and snapshots
name the task that moves. -/
inductive Action
  /-- A call arrives; its points are sorted by shard and grouped. -/
  | append (points : List DataPoint) (indexed : List (Nat × Nat))
  /-- The WAL task of a shard writes and fsyncs a batch, publishes `last_seq`
  and answers the appends. The batch holds the groups at the given positions
  and the sweeper's drain request, if `drain` is its threshold. -/
  | walCommit (shard : Nat) (refs : List (Nat × Nat)) (drain : Option Nat)
  /-- It rotates a full segment and answers the drain request. -/
  | walFinish (shard : Nat)
  /-- A call inserts its next group under the shard's memtable lock. -/
  | memInsert (call : Nat)
  | ack (call : Nat)
  | sweepLock
  | sweepWrite (chunkId : ChunkId)
  | sweepRegister
  | sweepReadSequence
  | sweepPublish
  | sweepRequestDrain
  | sweepDelete
  | snapshotBegin
  | snapshotLoad (task : Nat)
  | snapshotLock (task : Nat)
  | snapshotSave (task : Nat)
  | snapshotStore (task : Nat)
  | snapshotUnlock (task : Nat)
  /-- `files` lists `chunk_files` in its iteration order. -/
  | compactFind (files : List (ChunkId × ChunkMeta))
  | compactMerge (chunkId : ChunkId)
  | compactCommit
  | compactDelete
  | compactEnd

/-- The step belongs to the compaction worker. -/
def Action.isCompaction : Action → Bool
  | compactFind _ => true
  | compactMerge _ => true
  | compactCommit => true
  | compactDelete => true
  | compactEnd => true
  | _ => false

/-- What an observer of a run records. -/
inductive Event
  | requested (points : List DataPoint)
  /-- A batch was written to a segment of the shard. -/
  | committed (shard segment : Nat) (batch : Batch)
  | acked (points : List DataPoint) (sequence : Nat)
  | chunkWritten (chunk : ChunkId) (bytes : Bytes)
  /-- A flush of the shard with this chunk stored its watermark. -/
  | published (shard watermark : Nat) (chunk : ChunkId)
  | loaded (task shard watermark : Nat)
  | saved (task : Nat) (snapshot : IndexSnapshot)
  /-- `drain_completed_before` returned these segments, with their recorded maxima. -/
  | drained (shard : Nat) (segments : List (Nat × Nat))
  | compacted (chunks : List ChunkId)

/-- The shard the sweep goes to after shard `i`. -/
def StorageConfig.nextShard (cfg : StorageConfig) (i : Nat) : Nat := (i + 1) % cfg.numShards

/-- The sweeper waits for the drain of shard `i` below `gcSeq`. -/
def Sweeper.requestsDrain : Sweeper → Nat → Nat → Bool
  | .draining j seq, i, gcSeq => j = i && seq = gcSeq
  | _, _, _ => false

/-- Rotate when the segment has reached the size limit. -/
def rotateFull (w : WalWriter) : WalWriter × List WalOp :=
  if w.currentSize ≥ w.maxSegmentBytes then (w.rotate true).2 else (w, [])

/-- The messages of a batch. Reply channels play no part here: the replies
are delivered by position. -/
def walBatch (reqs : List ((Nat × Nat) × List DataPoint)) (drain : Option Nat) :
    List WalMessage :=
  (reqs.map fun r => .append r.2 0) ++ drain.toList.map fun gcSeq => .drainBefore gcSeq 0

section Step

variable [Crates] (cfg : StorageConfig)

/-- The WAL task after the first part of a batch. -/
def WalHandle.commit (wal : WalHandle) (reqs : List ((Nat × Nat) × List DataPoint))
    (drain : Option Nat) : WalHandle where
  writer := committedWriter wal.writer (walBatch reqs drain) .ok
  lastSeq := if reqs.isEmpty then wal.lastSeq else wal.writer.currentSeq + reqs.length
  finishing := some drain

/-- What the first part of a batch does to the segment files. -/
def WalHandle.commitOps (wal : WalHandle) (reqs : List ((Nat × Nat) × List DataPoint)) :
    List WalOp :=
  if reqs.isEmpty then []
  else
    [.write wal.writer.file (frames (numbered wal.writer.currentSeq (reqs.map Prod.snd))),
      .sync wal.writer.file]

/-- Change the files of one shard. -/
def Disk.runWal (d : Disk) (i : Nat) (ops : List WalOp) : Disk :=
  { d with wal := Function.update d.wal i ((d.wal i).run ops) }

/-- The effect of a step and the events it emits; nothing if it is not enabled. -/
def step (s : Server) : Action → Option (Server × List Event)
  | .append points indexed =>
    if SortedByShard points cfg.numShards indexed then
      some ({ s with appends := s.appends ++ [⟨points, shardGroups points indexed, false⟩] },
        [.requested points])
    else none
  | .walCommit i refs drain =>
    let wal := s.wals i
    let reqs := messagesAt s.appends refs
    if i < cfg.numShards ∧ wal.finishing.isNone ∧ (drain.all fun gcSeq =>
          s.sweeper.requestsDrain i gcSeq) ∧ refs.Nodup ∧
        (refs.all fun ref => (groupAt s.appends ref).any fun g => g.waitsFor i) then
      some ({ s with
        disk := s.disk.runWal i (wal.commitOps reqs)
        wals := Function.update s.wals i (wal.commit reqs drain)
        appends := deliver s.appends (numbered wal.writer.currentSeq reqs) },
        (numbered wal.writer.currentSeq reqs).map fun r =>
          .committed i wal.writer.file (r.1, r.2.2))
    else none
  | .walFinish i =>
    let wal := s.wals i
    match wal.finishing with
    | none => none
    | some drain =>
      let (writer, ops) := rotateFull wal.writer
      let disk := s.disk.runWal i ops
      match drain with
      | none =>
        some ({ s with disk := disk, wals := Function.update s.wals i ⟨writer, wal.lastSeq, none⟩ },
          [])
      | some gcSeq =>
        let (paths, writer') := writer.drainCompletedBefore gcSeq
        some ({ s with
          disk := disk
          wals := Function.update s.wals i ⟨writer', wal.lastSeq, none⟩
          sweeper := .deleting i paths },
          [.drained i (writer.completedBefore gcSeq)])
  | .memInsert k =>
    match s.appends[k]? with
    | some ⟨points, g :: rest, acked⟩ =>
      if (g :: rest).all fun g => g.committed.isSome then
        some ({ s with
          memtables := Function.update s.memtables g.shard
            ((s.memtables g.shard).insertAll g.points)
          appends := s.appends.set k ⟨points, rest, acked⟩ }, [])
      else none
    | _ => none
  | .ack k =>
    match s.appends[k]? with
    | some ⟨points, [], false⟩ =>
      some ({ s with
        appends := s.appends.set k ⟨points, [], true⟩
        appendSeq := s.appendSeq + 1 }, [.acked points (s.appendSeq + 1)])
    | _ => none
  | .sweepLock =>
    match s.sweeper with
    | .next i =>
      if (s.memtables i).shouldFlush then
        let (data, memtable) := (s.memtables i).drain
        some ({ s with
          memtables := Function.update s.memtables i memtable
          sweeper := .drained i data }, [])
      else some ({ s with sweeper := .next (cfg.nextShard i) }, [])
    | _ => none
  | .sweepWrite chunkId =>
    match s.sweeper with
    | .drained i data =>
      match ChunkWriter.write chunkId data with
      | .error _ => some ({ s with sweeper := .next (cfg.nextShard i) }, [])
      | .ok (bytes, result) =>
        if chunkId ∈ s.disk.chunks then none
        else
          some ({ s with
            disk := s.disk.apply (.writeChunk chunkId bytes)
            sweeper := .written i result }, [.chunkWritten chunkId bytes])
    | _ => none
  | .sweepRegister =>
    match s.sweeper with
    | .written i result =>
      if s.indexReadLocked then none
      else
        some ({ s with
          index := s.index.registerAll result.chunkMeta result.seriesResults
          sweeper := .registered i result }, [])
    | _ => none
  | .sweepReadSequence =>
    match s.sweeper with
    | .registered i result =>
      some ({ s with sweeper := .sequenceRead i result (s.wals i).lastSeq }, [])
    | _ => none
  | .sweepPublish =>
    match s.sweeper with
    | .sequenceRead i result seq =>
      some ({ s with
        shardWatermarks := Function.update s.shardWatermarks i seq
        sweeper := .published i }, [.published i seq result.chunkId])
    | _ => none
  | .sweepRequestDrain =>
    match s.sweeper with
    | .published i =>
      some ({ s with sweeper := .draining i (s.persistedWatermarks i) }, [])
    | _ => none
  | .sweepDelete =>
    match s.sweeper with
    | .deleting i (seg :: segs) =>
      some ({ s with
        disk := s.disk.runWal i [.remove seg]
        sweeper := .deleting i segs }, [])
    | .deleting i [] => some ({ s with sweeper := .next (cfg.nextShard i) }, [])
    | _ => none
  | .snapshotBegin => some ({ s with snapshots := s.snapshots ++ [.loading []] }, [])
  | .snapshotLoad k =>
    match s.snapshots[k]? with
    | some (.loading ws) =>
      if ws.length < cfg.numShards then
        let w := s.shardWatermarks ws.length
        some ({ s with snapshots := s.snapshots.set k (.loading (ws ++ [w])) },
          [.loaded k ws.length w])
      else none
    | _ => none
  | .snapshotLock k =>
    match s.snapshots[k]? with
    | some (.loading ws) =>
      if ws.length = cfg.numShards then
        some ({ s with snapshots := s.snapshots.set k (.locked ws) }, [])
      else none
    | _ => none
  | .snapshotSave k =>
    match s.snapshots[k]? with
    | some (.locked ws) =>
      some ({ s with
        disk := s.disk.apply (.saveSnapshot (saveIndex s.index ws))
        snapshots := s.snapshots.set k (.storing ws 0) }, [.saved k (saveIndex s.index ws)])
    | _ => none
  | .snapshotStore k =>
    match s.snapshots[k]? with
    | some (.storing ws i) =>
      match ws[i]? with
      | some w =>
        some ({ s with
          persistedWatermarks := Function.update s.persistedWatermarks i w
          snapshots := s.snapshots.set k (.storing ws (i + 1)) }, [])
      | none => none
    | _ => none
  | .snapshotUnlock k =>
    match s.snapshots[k]? with
    | some (.storing ws i) =>
      if i = ws.length then some ({ s with snapshots := s.snapshots.set k .done }, []) else none
    | _ => none
  | .compactFind files =>
    match s.compactor with
    | .idle =>
      if files.Perm s.index.chunkFiles.toList then
        some ({ s with compactor := .merging (findCandidates cfg.compaction s.index files) }, [])
      else none
    | _ => none
  | .compactMerge chunkId =>
    match s.compactor with
    | .merging (group :: rest) =>
      match mergeGroup s.disk.chunks chunkId group with
      | .error _ => some ({ s with compactor := .idle }, [])
      | .ok (bytes, result) =>
        if chunkId ∈ s.disk.chunks then none
        else
          some ({ s with
            disk := s.disk.apply (.writeChunk chunkId bytes)
            compactor := .merged group result rest }, [.chunkWritten chunkId bytes])
    | _ => none
  | .compactCommit =>
    match s.compactor with
    | .merged group result rest =>
      if s.indexReadLocked then none
      else
        some ({ s with
          index := group.commit s.index result
          compactor := .deleting (group.chunks.map Prod.snd) rest },
          [.compacted (group.chunks.map Prod.fst)])
    | _ => none
  | .compactDelete =>
    match s.compactor with
    | .deleting (path :: paths) rest =>
      some ({ s with
        disk := s.disk.apply (.removeChunk path)
        compactor := .deleting paths rest }, [])
    | .deleting [] rest => some ({ s with compactor := .merging rest }, [])
    | _ => none
  | .compactEnd =>
    match s.compactor with
    | .merging [] => some ({ s with compactor := .idle }, [])
    | _ => none

end Step

end Micius

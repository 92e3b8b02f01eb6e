import Mathlib.Logic.Function.Basic
import Micius.Compaction
import Micius.Index.Persistence
import Micius.Wal.Recovery

/-!
# Opening the store (`StorageServer::open`)

`open` loads the index snapshot and then works through the shards one by
one: replay the WAL above the snapshot's watermark, write what was replayed
to a recovery chunk, open the WAL writer, rotate it and delete segments. Its
effect on the disk is a list of operations; a crash or an error in the
middle leaves the effect of a first part of them.
-/

namespace Micius

/-- The part of `StorageConfig` the engine reads. `load` refuses a number of
shards that is not a power of two. -/
structure StorageConfig where
  walMaxSegmentBytes : Nat
  memtableFlushThresholdBytes : Nat
  numShards : Nat
  compaction : CompactionConfig
  powerOfTwo : ∃ k < 64, numShards = 2 ^ k

theorem StorageConfig.numShards_pos (cfg : StorageConfig) : 0 < cfg.numShards := by
  obtain ⟨k, -, hk⟩ := cfg.powerOfTwo
  rw [hk]
  exact Nat.two_pow_pos k

theorem StorageConfig.numShards_lt (cfg : StorageConfig) : cfg.numShards < 2 ^ 64 := by
  obtain ⟨k, hlt, hk⟩ := cfg.powerOfTwo
  rw [hk]
  exact Nat.pow_lt_pow_right (by decide) hlt

/-- The files of a store: the index snapshot, the chunk directory and the
WAL directory `shard-{i}` of every shard. -/
structure Disk where
  snapshot : Option IndexSnapshot
  chunks : ChunkDir
  wal : Nat → WalDir

/-- What the engine does to these files. -/
inductive DiskOp
  /-- Create a chunk file and write it. -/
  | writeChunk (path : ChunkPath) (bytes : Bytes)
  | removeChunk (path : ChunkPath)
  /-- `save_index`: write a temporary file, rename it onto the path. -/
  | saveSnapshot (snapshot : IndexSnapshot)
  | wal (shard : Nat) (op : WalOp)

namespace Disk

/-- Empty directories. -/
def empty : Disk := ⟨none, ∅, fun _ => ∅⟩

/-- The effect of one operation. -/
def apply (d : Disk) : DiskOp → Disk
  | .writeChunk path bytes => { d with chunks := d.chunks.insert path bytes }
  | .removeChunk path => { d with chunks := d.chunks.erase path }
  | .saveSnapshot snapshot => { d with snapshot := some snapshot }
  | .wal shard op => { d with wal := Function.update d.wal shard ((d.wal shard).apply op) }

/-- The effect of a list of operations, in order. -/
def run (d : Disk) (ops : List DiskOp) : Disk := ops.foldl apply d

end Disk

/-- The operation on the WAL of shard `i`, if it is one. -/
def DiskOp.onWal (i : Nat) : DiskOp → Option WalOp
  | wal shard op => if shard = i then some op else none
  | _ => none

namespace Disk

@[simp] theorem run_nil (d : Disk) : d.run [] = d := rfl

@[simp] theorem run_cons (d : Disk) (op : DiskOp) (ops : List DiskOp) :
    d.run (op :: ops) = (d.apply op).run ops := rfl

theorem run_append (d : Disk) (ops ops' : List DiskOp) :
    d.run (ops ++ ops') = (d.run ops).run ops' := by
  simp [run, List.foldl_append]

/-- Each shard's directory sees the operations on it alone. -/
theorem wal_run (d : Disk) (ops : List DiskOp) (i : Nat) :
    (d.run ops).wal i = (d.wal i).run (ops.filterMap (DiskOp.onWal i)) := by
  induction ops generalizing d with
  | nil => rfl
  | cons op ops ih =>
    rw [run_cons, ih]
    cases op with
    | wal shard op =>
      by_cases hi : shard = i
      · subst hi
        simp [DiskOp.onWal, apply]
      · simp [DiskOp.onWal, apply, hi, Function.update_of_ne (Ne.symm hi)]
    | _ => rfl

/-- Operations on WAL directories leave the chunks and the snapshot alone. -/
theorem run_wal (d : Disk) {ops : List DiskOp} (h : ∀ op ∈ ops, ∃ i o, op = .wal i o) :
    (d.run ops).chunks = d.chunks ∧ (d.run ops).snapshot = d.snapshot := by
  induction ops generalizing d with
  | nil => exact ⟨rfl, rfl⟩
  | cons op ops ih =>
    obtain ⟨i, o, rfl⟩ := h op (by simp)
    exact ih (d.apply (.wal i o)) fun op' hop' => h op' (by simp [hop'])

end Disk

/-- The errors of `open`. -/
inductive OpenError
  | recover (e : RecoverError)
  | chunk (e : ChunkWriteError)
  /-- `create_new` on an existing path. -/
  | chunkExists (path : ChunkPath)

/-- `idx.shard_watermarks.get(i).copied().unwrap_or(0)`. -/
def ChunkIndex.watermark (idx : ChunkIndex) (i : Nat) : Nat := (idx.shardWatermarks[i]?).getD 0

/-- The WAL part of a shard's turn: open the writer at the highest segment,
rotate if a segment was replayed, drain and delete. -/
def openWalShard (cfg : StorageConfig) (dir : WalDir) (watermark : Nat) (r : RecoveryResult) :
    WalWriter × List WalOp :=
  let (writer, opened) := WalWriter.openWal dir cfg.walMaxSegmentBytes r.lastSequence
  let (writer, rotated) := if r.segmentsReplayed > 0 then (writer.rotate true).2 else (writer, [])
  let drainThreshold := if r.points.isEmpty then watermark else r.lastSequence
  let (toDelete, writer) := writer.drainCompletedBefore drainThreshold
  (writer, opened ++ rotated ++ toDelete.map .remove)

section Recover

variable [Crates]

/-- The recovery chunk of a shard: nothing if no point was replayed. -/
def recoveryChunk (cfg : StorageConfig) (idx : ChunkIndex) (chunks : ChunkDir) (chunkId : ChunkId)
    (points : List DataPoint) : Except OpenError (ChunkIndex × List DiskOp) :=
  if points.isEmpty then .ok (idx, [])
  else
    let memtable := (Memtable.new cfg.memtableFlushThresholdBytes).insertAll points
    match ChunkWriter.write chunkId memtable.drain.1 with
    | .error e => .error (.chunk e)
    | .ok (bytes, result) =>
      if chunkId ∈ chunks then .error (.chunkExists chunkId)
      else .ok (idx.registerAll result.chunkMeta result.seriesResults, [.writeChunk chunkId bytes])

/-- The turn of shard `i`. `chunkId` is the clock's value at the write of
the recovery chunk. -/
def openShard (cfg : StorageConfig) (i : Nat) (idx : ChunkIndex) (disk : Disk)
    (chunkId : ChunkId) : Except OpenError (ChunkIndex × WalWriter × List DiskOp) :=
  match recover (disk.wal i) (idx.watermark i) with
  | .error e => .error (.recover e)
  | .ok r =>
    match recoveryChunk cfg idx disk.chunks chunkId r.points with
    | .error e => .error e
    | .ok (idx', ops) =>
      let (writer, walOps) := openWalShard cfg (disk.wal i) (idx.watermark i) r
      .ok (idx', writer, ops ++ walOps.map (.wal i))

/-- The loop over the shards. The operations done before an error stay done. -/
def openShards (cfg : StorageConfig) (chunkIds : Nat → ChunkId) :
    List Nat → ChunkIndex → Disk →
      Except OpenError (ChunkIndex × List WalWriter) × List DiskOp
  | [], idx, _ => (.ok (idx, []), [])
  | i :: shards, idx, disk =>
    match openShard cfg i idx disk (chunkIds i) with
    | .error e => (.error e, [])
    | .ok (idx, writer, ops) =>
      match openShards cfg chunkIds shards idx (disk.run ops) with
      | (.error e, ops') => (.error e, ops ++ ops')
      | (.ok (idx, wals), ops') => (.ok (idx, writer :: wals), ops ++ ops')

end Recover

end Micius

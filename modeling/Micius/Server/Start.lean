import Micius.Server.System

/-!
# Opening empty directories

`open` on empty directories creates the first segment of every shard and
starts from an empty index.
-/

namespace Micius

variable [Crates]

/-- The writer of a shard that has no segment yet. -/
def freshWriter (cfg : StorageConfig) : WalWriter where
  file := 1
  lastWriteErr := false
  currentSeq := 0
  currentSize := 0
  currentSegment := 1
  maxSegmentBytes := cfg.walMaxSegmentBytes
  completedSegments := []

theorem openShard_empty (cfg : StorageConfig) (i : Nat) (idx : ChunkIndex) {disk : Disk}
    (hwal : disk.wal i = ∅) (chunkId : ChunkId) :
    openShard cfg i idx disk chunkId = .ok (idx, freshWriter cfg, [.wal i (.create 1)]) := by
  have hrecover : recover (∅ : WalDir) (idx.watermark i) = .ok .empty := rfl
  have hopen : openWalShard cfg ∅ (idx.watermark i) .empty = (freshWriter cfg, [.create 1]) := rfl
  rw [openShard, hwal, hrecover]
  simp only [hopen]
  rfl

/-- The loop over shards without segments. -/
theorem openShards_empty (cfg : StorageConfig) (chunkIds : Nat → ChunkId) (idx : ChunkIndex)
    {shards : List Nat} (hnodup : shards.Nodup) {disk : Disk}
    (hwal : ∀ i ∈ shards, disk.wal i = ∅) :
    openShards cfg chunkIds shards idx disk =
      (.ok (idx, shards.map fun _ => freshWriter cfg), shards.map fun i => .wal i (.create 1)) := by
  induction shards generalizing disk with
  | nil => rfl
  | cons i shards ih =>
    obtain ⟨hi, hrest⟩ := List.nodup_cons.mp hnodup
    have hothers : ∀ j ∈ shards, (disk.run [.wal i (.create 1)]).wal j = ∅ := by
      intro j hj
      have hne : j ≠ i := by
        rintro rfl
        exact hi hj
      show Function.update disk.wal i _ j = ∅
      rw [Function.update_of_ne hne]
      exact hwal j (by simp [hj])
    rw [openShards, openShard_empty cfg i idx (hwal i (by simp))]
    simp only
    rw [ih hrest hothers]
    rfl

/-- The server that `open` returns on empty directories. -/
def Server.fresh (cfg : StorageConfig) : Server :=
  .start cfg (Disk.empty.run ((List.range cfg.numShards).map fun i => .wal i (.create 1))) .new
    ((List.range cfg.numShards).map fun _ => freshWriter cfg)

/-- **Opening empty directories** succeeds. -/
theorem openStore_empty (cfg : StorageConfig) (chunkIds : Nat → ChunkId) :
    (openStore cfg chunkIds .empty).1 = .ok (.fresh cfg) := by
  have hshards := openShards_empty cfg chunkIds .new List.nodup_range
    (fun i (_ : i ∈ List.range cfg.numShards) => (rfl : Disk.empty.wal i = ∅))
  simp only [openStore, Disk.empty, loadIndex, Option.getD_none] at hshards ⊢
  rw [hshards]
  rfl

theorem fresh_of_openStore {cfg : StorageConfig} {chunkIds : Nat → ChunkId} {s₀ : Server}
    (hopen : (openStore cfg chunkIds .empty).1 = .ok s₀) : Server.fresh cfg = s₀ :=
  Except.ok.inj ((openStore_empty cfg chunkIds).symm.trans hopen)

section

variable (cfg : StorageConfig)

omit [Crates] in
theorem fresh_ops : ∀ op ∈ (List.range cfg.numShards).map (fun i => DiskOp.wal i (.create 1)),
    ∃ i o, op = .wal i o := by
  intro op hop
  obtain ⟨i, -, rfl⟩ := List.mem_map.mp hop
  exact ⟨i, _, rfl⟩

omit [Crates] in
@[simp] theorem fresh_chunks : (Server.fresh cfg).disk.chunks = ∅ :=
  (Disk.run_wal .empty (fresh_ops cfg)).1

omit [Crates] in
@[simp] theorem fresh_snapshot : (Server.fresh cfg).disk.snapshot = none :=
  (Disk.run_wal .empty (fresh_ops cfg)).2

omit [Crates] in
theorem fresh_wals {i : Nat} (hi : i < cfg.numShards) :
    (Server.fresh cfg).wals i = ⟨freshWriter cfg, 0, none⟩ := by
  simp [Server.fresh, Server.start, hi, freshWriter]

omit [Crates] in
/-- Every shard has its first segment. -/
theorem fresh_wal {i : Nat} (hi : i < cfg.numShards) :
    (Server.fresh cfg).disk.wal i = (∅ : WalDir).insert 1 [] := by
  have hops : ((List.range cfg.numShards).map fun i => DiskOp.wal i (.create 1)).filterMap
      (DiskOp.onWal i) = [.create 1] := by
    have hself : (List.range cfg.numShards).filter (· == i) = [i] := by
      rw [List.filter_beq, List.count_eq_one_of_mem List.nodup_range (List.mem_range.mpr hi)]
      rfl
    rw [List.filterMap_map]
    calc (List.range cfg.numShards).filterMap (DiskOp.onWal i ∘ fun i => .wal i (.create 1))
        = ((List.range cfg.numShards).filter (· == i)).map fun _ => .create 1 := by
          rw [← List.filterMap_eq_map, ← List.filterMap_eq_filter, List.filterMap_filterMap]
          refine List.filterMap_congr fun j _ => ?_
          by_cases hj : j = i <;> simp [DiskOp.onWal, Option.guard, hj]
      _ = [.create 1] := by rw [hself]; rfl
  rw [Server.fresh, Server.start, Disk.wal_run, hops]
  rfl

end

end Micius

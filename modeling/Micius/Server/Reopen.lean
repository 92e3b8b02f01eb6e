import Micius.Server.Exactness
import Micius.Server.Served

/-!
# Opening a store that was in use

What `open` makes of a directory: the index of the snapshot, extended by a
recovery chunk for every shard whose log has entries above the watermark.
The turns of the shards are independent: a turn reads and changes the log of
its own shard only, and adds at most one chunk file.
-/

namespace Micius

variable [Crates]

/-! ## The turns -/

/-- A successful turn of a shard that replayed `points`. -/
inductive RecoversTo (idx : ChunkIndex) (chunks : ChunkDir) (chunkId : ChunkId)
    (points : List DataPoint) : ChunkIndex → List DiskOp → Prop
  | nothing (hnil : points = []) : RecoversTo idx chunks chunkId points idx []
  | chunk {bytes : Bytes} {result : ChunkWriteResult} (hne : points ≠ [])
      (hw : ChunkWriter.write chunkId (SeriesData.insertPoints ∅ points) = .ok (bytes, result))
      (hnew : chunkId ∉ chunks) :
      RecoversTo idx chunks chunkId points (idx.registerAll result.chunkMeta result.seriesResults)
        [.writeChunk chunkId bytes]

theorem recoversTo_of_recoveryChunk {cfg : StorageConfig} {idx idx' : ChunkIndex}
    {chunks : ChunkDir} {chunkId : ChunkId} {points : List DataPoint} {ops : List DiskOp}
    (h : recoveryChunk cfg idx chunks chunkId points = .ok (idx', ops)) :
    RecoversTo idx chunks chunkId points idx' ops := by
  unfold recoveryChunk at h
  split at h
  · next hnil =>
    obtain ⟨rfl, rfl⟩ := Prod.mk.inj (Except.ok.inj h)
    exact .nothing (List.isEmpty_iff.mp hnil)
  · next hne =>
    have hdata : ((Memtable.new cfg.memtableFlushThresholdBytes).insertAll points).drain.1 =
        SeriesData.insertPoints ∅ points := Memtable.entries_insertAll _ points
    simp only [hdata] at h
    split at h
    · cases h
    · next bytes result hw =>
      split at h
      · cases h
      · next hnew =>
        obtain ⟨rfl, rfl⟩ := Prod.mk.inj (Except.ok.inj h)
        exact .chunk (fun hnil => hne (List.isEmpty_iff.mpr hnil)) hw hnew

/-- A successful turn: the log is replayed, the chunk written, the log opened. -/
theorem openShard_ok {cfg : StorageConfig} {i : Nat} {idx idx' : ChunkIndex} {disk : Disk}
    {chunkId : ChunkId} {writer : WalWriter} {ops : List DiskOp}
    (h : openShard cfg i idx disk chunkId = .ok (idx', writer, ops)) :
    ∃ r chunkOps, recover (disk.wal i) (idx.watermark i) = .ok r ∧
      RecoversTo idx disk.chunks chunkId r.points idx' chunkOps ∧
      writer = (openWalShard cfg (disk.wal i) (idx.watermark i) r).1 ∧
      ops = chunkOps ++ (openWalShard cfg (disk.wal i) (idx.watermark i) r).2.map (.wal i) := by
  unfold openShard at h
  split at h
  · cases h
  · next r hr =>
    split at h
    · cases h
    · next idx'' chunkOps hchunk =>
      obtain ⟨rfl, hrest⟩ := Prod.mk.inj (Except.ok.inj h)
      obtain ⟨rfl, rfl⟩ := Prod.mk.inj hrest
      exact ⟨r, chunkOps, hr, recoversTo_of_recoveryChunk hchunk, rfl, rfl⟩

theorem openShard_of_recoversTo {cfg : StorageConfig} {i : Nat} {idx idx' : ChunkIndex} {d : Disk}
    {chunkId : ChunkId} {r : RecoveryResult} {ops : List DiskOp}
    (hr : recover (d.wal i) (idx.watermark i) = .ok r)
    (hrec : RecoversTo idx d.chunks chunkId r.points idx' ops) :
    openShard cfg i idx d chunkId =
      .ok (idx', (openWalShard cfg (d.wal i) (idx.watermark i) r).1,
        ops ++ (openWalShard cfg (d.wal i) (idx.watermark i) r).2.map (.wal i)) := by
  have hchunk : recoveryChunk cfg idx d.chunks chunkId r.points = .ok (idx', ops) := by
    cases hrec with
    | nothing hnil => rw [recoveryChunk, hnil]; rfl
    | chunk hne hw hnew =>
      have hdata : ((Memtable.new cfg.memtableFlushThresholdBytes).insertAll r.points).drain.1 =
          SeriesData.insertPoints ∅ r.points := Memtable.entries_insertAll _ r.points
      rw [recoveryChunk, if_neg fun hnil => hne (List.isEmpty_iff.mp hnil)]
      simp only [hdata, hw, if_neg hnew]
  rw [openShard, hr]
  simp only [hchunk]

/-- The loop over the shards, when it succeeds. -/
inductive OpensShards (cfg : StorageConfig) (chunkIds : Nat → ChunkId) :
    List Nat → ChunkIndex → Disk → ChunkIndex → List WalWriter → List DiskOp → Prop
  | nil {idx : ChunkIndex} {disk : Disk} : OpensShards cfg chunkIds [] idx disk idx [] []
  | cons {i : Nat} {shards : List Nat} {idx idx' idx'' : ChunkIndex} {disk : Disk}
      {writer : WalWriter} {wals : List WalWriter} {ops ops' : List DiskOp}
      (hturn : openShard cfg i idx disk (chunkIds i) = .ok (idx', writer, ops))
      (hrest : OpensShards cfg chunkIds shards idx' (disk.run ops) idx'' wals ops') :
      OpensShards cfg chunkIds (i :: shards) idx disk idx'' (writer :: wals) (ops ++ ops')

theorem opensShards_of_ok {cfg : StorageConfig} {chunkIds : Nat → ChunkId} {shards : List Nat}
    {idx idx' : ChunkIndex} {disk : Disk} {wals : List WalWriter} {ops : List DiskOp}
    (h : openShards cfg chunkIds shards idx disk = (.ok (idx', wals), ops)) :
    OpensShards cfg chunkIds shards idx disk idx' wals ops := by
  induction shards generalizing idx disk wals ops with
  | nil =>
    obtain ⟨hok, rfl⟩ := Prod.mk.inj h
    obtain ⟨rfl, rfl⟩ := Prod.mk.inj (Except.ok.inj hok)
    exact .nil
  | cons i shards ih =>
    rw [openShards] at h
    split at h
    · cases h
    · next idx₁ writer ops₁ hturn =>
      split at h
      · cases h
      · next idx₂ wals₂ ops₂ hrest =>
        obtain ⟨hok, rfl⟩ := Prod.mk.inj h
        obtain ⟨rfl, rfl⟩ := Prod.mk.inj (Except.ok.inj hok)
        exact .cons hturn (ih hrest)

/-- The index `open` starts from. -/
def Disk.loadedIndex (d : Disk) : ChunkIndex := (loadIndex d.snapshot).getD .new

theorem openStore_ok {cfg : StorageConfig} {chunkIds : Nat → ChunkId} {d : Disk} {s : Server}
    (h : (openStore cfg chunkIds d).1 = .ok s) :
    ∃ idx wals, OpensShards cfg chunkIds (List.range cfg.numShards) d.loadedIndex d idx wals
        (openStore cfg chunkIds d).2 ∧
      s = .start cfg (d.run (openStore cfg chunkIds d).2) idx wals := by
  cases hshards : openShards cfg chunkIds (List.range cfg.numShards) d.loadedIndex d with
  | mk out ops =>
    simp only [Disk.loadedIndex] at hshards
    simp only [openStore, hshards] at h ⊢
    cases out with
    | error e => cases h
    | ok opened =>
      exact ⟨opened.1, opened.2, opensShards_of_ok hshards, (Except.ok.inj h).symm⟩

/-! ## What a turn leaves alone -/

omit [Crates] in
@[simp] theorem ChunkIndex.shardWatermarks_registerAll [Crates] (idx : ChunkIndex)
    (chunkMeta : ChunkMeta) (series : List SeriesWriteResult) :
    (idx.registerAll chunkMeta series).shardWatermarks = idx.shardWatermarks := by
  induction series generalizing idx with
  | nil => rfl
  | cons s series ih => exact ih _

theorem RecoversTo.watermark {idx idx' : ChunkIndex} {chunks : ChunkDir} {chunkId : ChunkId}
    {points : List DataPoint} {ops : List DiskOp}
    (h : RecoversTo idx chunks chunkId points idx' ops) (i : Nat) :
    idx'.watermark i = idx.watermark i := by
  cases h with
  | nothing _ => rfl
  | chunk _ _ _ => rw [ChunkIndex.watermark, ChunkIndex.shardWatermarks_registerAll]; rfl

theorem RecoversTo.wal {idx idx' : ChunkIndex} {chunks : ChunkDir} {chunkId : ChunkId}
    {points : List DataPoint} {ops : List DiskOp}
    (h : RecoversTo idx chunks chunkId points idx' ops) (d : Disk) : (d.run ops).wal = d.wal := by
  cases h <;> rfl

omit [Crates] in
theorem run_map_wal (d : Disk) (i : Nat) (ops : List WalOp) :
    d.run (ops.map (.wal i)) = d.runWal i ops := by
  induction ops generalizing d with
  | nil => simp [Disk.runWal]
  | cons op ops ih =>
    rw [List.map_cons, Disk.run_cons, ih]
    simp [Disk.runWal, Disk.apply]

omit [Crates] in
theorem Disk.wal_runWal (d : Disk) (i : Nat) (ops : List WalOp) (j : Nat) :
    (d.runWal i ops).wal j = if j = i then (d.wal i).run ops else d.wal j := by
  show Function.update d.wal i ((d.wal i).run ops) j = _
  split
  · next hj => rw [hj, Function.update_self]
  · next hj => rw [Function.update_of_ne hj]

/-- The turn of a shard changes the log of the shard. -/
theorem RecoversTo.wal_turn {idx idx' : ChunkIndex} {chunks : ChunkDir} {chunkId : ChunkId}
    {points : List DataPoint} {ops : List DiskOp}
    (h : RecoversTo idx chunks chunkId points idx' ops) (d : Disk) (i : Nat) (walOps : List WalOp)
    (j : Nat) : (d.run (ops ++ walOps.map (.wal i))).wal j =
      if j = i then (d.wal i).run walOps else d.wal j := by
  rw [Disk.run_append, run_map_wal, Disk.wal_runWal, h.wal d]

/-- What the loop leaves alone. -/
theorem OpensShards.keeps {cfg : StorageConfig} {chunkIds : Nat → ChunkId} {shards : List Nat}
    {idx idx' : ChunkIndex} {d : Disk} {wals : List WalWriter} {ops : List DiskOp}
    (h : OpensShards cfg chunkIds shards idx d idx' wals ops) :
    (∀ j, j ∉ shards → (d.run ops).wal j = d.wal j) ∧ (d.run ops).snapshot = d.snapshot ∧
      ∀ j, idx'.watermark j = idx.watermark j := by
  induction h with
  | nil => exact ⟨fun _ _ => rfl, rfl, fun _ => rfl⟩
  | @cons i shards idx idx' idx'' d writer wals ops ops' hturn hrest ih =>
    obtain ⟨r, chunkOps, -, hchunk, -, rfl⟩ := openShard_ok hturn
    obtain ⟨hwal, hsnapshot, hwatermark⟩ := ih
    rw [Disk.run_append]
    refine ⟨fun j hj => ?_, hsnapshot.trans ?_, fun j => (hwatermark j).trans (hchunk.watermark j)⟩
    · obtain ⟨hne, hj⟩ := not_or.mp (mt List.mem_cons.mpr hj)
      rw [hwal j hj, hchunk.wal_turn, if_neg hne]
    · rw [Disk.run_append, run_map_wal]
      cases hchunk <;> rfl

/-- The turn of one shard among the others. -/
theorem OpensShards.shard {cfg : StorageConfig} {chunkIds : Nat → ChunkId} {shards : List Nat}
    {idx idx' : ChunkIndex} {d : Disk} {wals : List WalWriter} {ops : List DiskOp}
    (h : OpensShards cfg chunkIds shards idx d idx' wals ops) (hnodup : shards.Nodup) {k i : Nat}
    (hk : shards[k]? = some i) : ∃ r, recover (d.wal i) (idx.watermark i) = .ok r ∧
      wals[k]? = some (openWalShard cfg (d.wal i) (idx.watermark i) r).1 ∧
      (d.run ops).wal i = (d.wal i).run (openWalShard cfg (d.wal i) (idx.watermark i) r).2 := by
  induction h generalizing k with
  | nil => cases hk
  | @cons j shards idx idx' idx'' d writer wals ops ops' hturn hrest ih =>
    obtain ⟨hj, hnodup⟩ := List.nodup_cons.mp hnodup
    obtain ⟨r, chunkOps, hr, hchunk, rfl, rfl⟩ := openShard_ok hturn
    cases k with
    | zero =>
      obtain rfl : j = i := Option.some.inj hk
      refine ⟨r, hr, rfl, ?_⟩
      rw [Disk.run_append, hrest.keeps.1 j hj, hchunk.wal_turn, if_pos rfl]
    | succ k =>
      have hk : shards[k]? = some i := hk
      have hne : i ≠ j := fun heq => hj (heq ▸ List.mem_of_getElem? hk)
      obtain ⟨r', hr', hwriter, hrun⟩ := ih hnodup hk
      rw [hchunk.wal_turn, if_neg hne, hchunk.watermark] at hr' hwriter
      rw [hchunk.wal_turn, if_neg hne, hchunk.watermark] at hrun
      exact ⟨r', hr', hwriter, by rw [Disk.run_append, hrun]⟩

/-! ## Opening a log -/

omit [Crates] in
/-- Files that are only created and removed. -/
theorem files_of_creates {dir : WalDir} {ops : List WalOp}
    (hops : ∀ op ∈ ops, ∃ seg, op = .create seg ∨ op = .remove seg) {seg : Nat} {bytes : Bytes}
    (h : (dir.run ops)[seg]? = some bytes) : bytes = [] ∨ dir[seg]? = some bytes := by
  induction ops generalizing dir with
  | nil => exact .inr h
  | cons op ops ih =>
    rcases ih (fun op hop => hops op (by simp [hop])) h with hnil | hget
    · exact .inl hnil
    · obtain ⟨seg', rfl | rfl⟩ := hops op (by simp)
      · rw [WalDir.apply] at hget
        split at hget
        · exact .inr hget
        · rw [TreeMap.getElem?_insert_eq] at hget
          split at hget
          · exact .inl (Option.some.inj hget).symm
          · exact .inr hget
      · rw [WalDir.apply, TreeMap.getElem?_erase_eq] at hget
        split at hget
        · cases hget
        · exact .inr hget

omit [Crates] in
/-- What `open` does with the log of a shard. -/
theorem openWalShard_spec (cfg : StorageConfig) (dir : WalDir) (w : Nat) (r : RecoveryResult) :
    (openWalShard cfg dir w r).1.file = (openWalShard cfg dir w r).1.currentSegment ∧
      (openWalShard cfg dir w r).1.currentSeq = r.lastSequence ∧
      (∀ p ∈ (openWalShard cfg dir w r).1.completedSegments,
        p.1 < (openWalShard cfg dir w r).1.currentSegment) ∧
      ∀ op ∈ (openWalShard cfg dir w r).2, ∃ seg, op = .create seg ∨ op = .remove seg := by
  have hcompleted : ∀ p ∈ (WalWriter.openWal dir cfg.walMaxSegmentBytes r.lastSequence).1.completedSegments,
      p.1 < (highestSegmentNumber dir).getD 1 := by
    intro p hp
    obtain ⟨n, hn, rfl⟩ := List.mem_map.mp hp
    obtain ⟨k, hk, rfl⟩ := List.mem_range'.mp hn
    show 1 + 1 * k < _
    omega
  unfold openWalShard
  dsimp only
  split
  · refine ⟨rfl, rfl, fun p hp => ?_, fun op hop => ?_⟩
    · rcases List.mem_append.mp (List.mem_of_mem_filter hp) with hp | hp
      · exact Nat.lt_succ_of_lt (hcompleted p hp)
      · rw [List.mem_singleton.mp hp]
        exact Nat.lt_succ_self _
    · rcases List.mem_append.mp hop with hop | hop
      · rcases List.mem_append.mp hop with hop | hop
        · exact ⟨_, .inl (List.mem_singleton.mp hop)⟩
        · exact ⟨_, .inl (List.mem_singleton.mp hop)⟩
      · obtain ⟨seg, -, rfl⟩ := List.mem_map.mp hop
        exact ⟨seg, .inr rfl⟩
  · refine ⟨rfl, rfl, fun p hp => hcompleted p (List.mem_of_mem_filter hp), fun op hop => ?_⟩
    rcases List.mem_append.mp hop with hop | hop
    · rw [List.append_nil] at hop
      exact ⟨_, .inl (List.mem_singleton.mp hop)⟩
    · obtain ⟨seg, -, rfl⟩ := List.mem_map.mp hop
      exact ⟨seg, .inr rfl⟩

/-! ## Points served -/

/-- The index leads to chunks, whose files are in the directory. -/
structure StoreServes (U : SeriesKey → Prop) (idx : ChunkIndex) (chunks : ChunkDir)
    (cs : List Chunk) : Prop where
  sound : IndexSound U idx cs
  onDisk : ∀ c ∈ cs, OnDisk chunks c

/-- What the recovery of `points` changes: these are served, and of the
others those whose slot none of them takes. -/
structure ServesAlso (points : List DataPoint) (idx : ChunkIndex) (cs : List Chunk)
    (idx' : ChunkIndex) (cs' : List Chunk) : Prop where
  new : ∀ p ∈ points, Served idx' cs' p
  old : ∀ p t, ServedAt idx cs p t → (∀ q ∈ points, q.slot ≠ (p.key, t)) → ServedAt idx' cs' p t
  only : ∀ p, Served idx' cs' p → p ∈ points ∨ Served idx cs p

namespace ServesAlso

variable {points points' : List DataPoint} {idx idx' idx'' : ChunkIndex} {cs cs' cs'' : List Chunk}

theorem refl (idx : ChunkIndex) (cs : List Chunk) : ServesAlso [] idx cs idx cs where
  new := by simp
  old _ _ hp _ := hp
  only _ hp := .inr hp

/-- Recovered points of other series hide none of the earlier ones. -/
theorem trans (h : ServesAlso points idx cs idx' cs') (h' : ServesAlso points' idx' cs' idx'' cs'')
    (hkeys : ∀ p ∈ points, ∀ q ∈ points', p.key ≠ q.key) :
    ServesAlso (points ++ points') idx cs idx'' cs'' where
  new p hp := by
    rcases List.mem_append.mp hp with hp | hp
    · obtain ⟨t, hserved⟩ := h.new p hp
      refine ⟨t, h'.old p t hserved fun q hq hslot => ?_⟩
      exact hkeys p hp q hq (congrArg Prod.fst hslot).symm
    · exact h'.new p hp
  old p t hp hfree :=
    h'.old p t (h.old p t hp fun q hq => hfree q (by simp [hq])) fun q hq => hfree q (by simp [hq])
  only p hp := by
    rcases h'.only p hp with hp | hp
    · exact .inl (by simp [hp])
    · rcases h.only p hp with hp | hp
      · exact .inl (by simp [hp])
      · exact .inr hp

end ServesAlso

section Serves

variable {U : SeriesKey → Prop} (hU : KeysOk U)
include hU

omit hU in
/-- A recovery chunk holds the last point of every slot, of series in use. -/
theorem exists_recoveryChunk {chunkId : ChunkId} {points : List DataPoint} {bytes : Bytes}
    {result : ChunkWriteResult}
    (hw : ChunkWriter.write chunkId (SeriesData.insertPoints ∅ points) = .ok (bytes, result))
    (hkeys : ∀ p ∈ points, U p.key) :
    ∃ c : Chunk, c.id = chunkId ∧ c.data = SeriesData.insertPoints ∅ points ∧
      (∀ p, p ∈ c.points ↔ LastWrites.IsLast DataPoint.slot points p) ∧
      ∀ kp ∈ c.data.toList, U kp.1 := by
  let c : Chunk := ⟨chunkId, SeriesData.insertPoints ∅ points, nonempty_of_write hw,
    SeriesData.wf_empty.insertPoints points⟩
  have hpoints : ∀ p, p ∈ c.points ↔ LastWrites.IsLast DataPoint.slot points p :=
    fun p => SeriesData.mem_insertPoints_empty
  refine ⟨c, rfl, rfl, hpoints, fun kp hkp => ?_⟩
  obtain ⟨p, hp, hslot⟩ := exists_point_at_start c.wf hkp
  have hkey : p.key = kp.1 := congrArg Prod.fst hslot
  exact hkey ▸ hkeys p ((hpoints p).mp hp).mem

/-- **A turn** serves the points it replayed. -/
theorem StoreServes.recover {idx idx' : ChunkIndex} {d : Disk} {cs : List Chunk}
    (h : StoreServes U idx d.chunks cs) {chunkId : ChunkId} {points : List DataPoint}
    {ops : List DiskOp} (hrec : RecoversTo idx d.chunks chunkId points idx' ops)
    (hkeys : ∀ p ∈ points, U p.key)
    (hagree : ∀ p ∈ points, ∀ q ∈ points, p.slot = q.slot → p = q)
    (hfit : (SeriesData.insertPoints ∅ points).Fits) :
    ∃ cs', StoreServes U idx' (d.run ops).chunks cs' ∧ ServesAlso points idx cs idx' cs' := by
  cases hrec with
  | nothing hnil => exact ⟨cs, h, hnil ▸ .refl idx cs⟩
  | @chunk bytes result hne hw hnew =>
    obtain ⟨c, rfl, hdata, hlast, huse⟩ := exists_recoveryChunk hw hkeys
    rw [← hdata] at hw hfit
    have hpoints : ∀ p, p ∈ c.points ↔ p ∈ points := fun p => (hlast p).trans
      ⟨LastWrites.IsLast.mem, fun hp => LastWrites.isLast_of_unique hp fun q hq => hagree q hq p hp⟩
    have hfresh := id_ne_of_onDisk h.onDisk hnew
    refine ⟨c :: cs, ⟨h.sound.register hU.inj hw huse, onDisk_cons h.onDisk hnew hfit hw⟩, ?_⟩
    exact
      { new := fun p hp => IndexSound.served_new hU.inj hw huse ((hpoints p).mpr hp)
        old := fun p t hp hfree => h.sound.servedAt_old hU.inj hw huse hp fun q hq =>
          hfree q ((hpoints q).mp hq)
        only := by
          rintro p ⟨t, hp⟩
          rcases IndexSound.served_register hw hfresh hp with hp | hp
          · exact .inl ((hpoints p).mp hp)
          · exact .inr ⟨t, hp⟩ }

/-- What the logs hold above the watermarks of the snapshot: the points of
every shard, in its own series. -/
structure LogsHold (U : SeriesKey → Prop) (cfg : StorageConfig) (idx : ChunkIndex) (d : Disk)
    (replayed : Nat → List DataPoint) (shards : List Nat) : Prop where
  recover : ∀ i ∈ shards, ∀ r, Micius.recover (d.wal i) (idx.watermark i) = .ok r →
    r.points = replayed i
  routed : ∀ i ∈ shards, ∀ p ∈ replayed i, shardIndex p cfg.numShards = i
  keys : ∀ i ∈ shards, ∀ p ∈ replayed i, U p.key
  agree : ∀ i ∈ shards, ∀ p ∈ replayed i, ∀ q ∈ replayed i, p.slot = q.slot → p = q
  fits : ∀ i ∈ shards, (SeriesData.insertPoints ∅ (replayed i)).Fits

omit hU in
/-- The logs of the other shards after a turn. -/
theorem LogsHold.turn {cfg : StorageConfig} {idx idx' : ChunkIndex} {d : Disk}
    {replayed : Nat → List DataPoint} {i : Nat} {shards : List Nat}
    (h : LogsHold U cfg idx d replayed (i :: shards)) (hi : i ∉ shards) {chunkId : ChunkId}
    {points : List DataPoint} {chunkOps : List DiskOp}
    (hrec : RecoversTo idx d.chunks chunkId points idx' chunkOps) (walOps : List WalOp) :
    LogsHold U cfg idx' (d.run (chunkOps ++ walOps.map (.wal i))) replayed shards where
  recover j hj r hr := by
    have hne : j ≠ i := by
      rintro rfl
      exact hi hj
    have hwal : (d.run (chunkOps ++ walOps.map (.wal i))).wal j = d.wal j := by
      rw [Disk.run_append, run_map_wal]
      show Function.update _ i _ j = _
      rw [Function.update_of_ne hne, hrec.wal]
    rw [hwal, hrec.watermark] at hr
    exact h.recover j (by simp [hj]) r hr
  routed j hj := h.routed j (by simp [hj])
  keys j hj := h.keys j (by simp [hj])
  agree j hj := h.agree j (by simp [hj])
  fits j hj := h.fits j (by simp [hj])

/-- **The loop over the shards** serves what the logs hold. -/
theorem OpensShards.serves {cfg : StorageConfig} {chunkIds : Nat → ChunkId} {shards : List Nat}
    {idx idx' : ChunkIndex} {d : Disk} {wals : List WalWriter} {ops : List DiskOp}
    (hopens : OpensShards cfg chunkIds shards idx d idx' wals ops) (hnodup : shards.Nodup)
    {replayed : Nat → List DataPoint} (hlogs : LogsHold U cfg idx d replayed shards)
    {cs : List Chunk} (h : StoreServes U idx d.chunks cs) :
    ∃ cs', StoreServes U idx' (d.run ops).chunks cs' ∧
      ServesAlso (shards.flatMap replayed) idx cs idx' cs' := by
  induction hopens generalizing cs with
  | nil => exact ⟨cs, h, .refl _ cs⟩
  | @cons i shards idx idx' idx'' d writer wals ops ops' hturn hrest ih =>
    obtain ⟨hi, hnodup⟩ := List.nodup_cons.mp hnodup
    obtain ⟨r, chunkOps, hr, hrec, -, rfl⟩ := openShard_ok hturn
    have hpoints := hlogs.recover i (by simp) r hr
    rw [hpoints] at hrec
    obtain ⟨cs₁, h₁, halso⟩ := h.recover hU hrec (hlogs.keys i (by simp))
      (hlogs.agree i (by simp)) (hlogs.fits i (by simp))
    generalize hwal : (openWalShard cfg (d.wal i) (idx.watermark i) r).2 = walOps at *
    have hchunks : (d.run (chunkOps ++ walOps.map (.wal i))).chunks = (d.run chunkOps).chunks := by
      rw [Disk.run_append, run_map_wal]
      rfl
    rw [← hchunks] at h₁
    obtain ⟨cs₂, h₂, halso₂⟩ := ih hnodup (hlogs.turn hi hrec walOps) h₁
    rw [Disk.run_append]
    refine ⟨cs₂, h₂, halso.trans halso₂ fun p hp q hq hkey => ?_⟩
    obtain ⟨j, hj, hq⟩ := List.mem_flatMap.mp hq
    have hsame := shardIndex_of_key hkey cfg.numShards
    rw [hlogs.routed i (by simp) p hp, hlogs.routed j (by simp [hj]) q hq] at hsame
    exact hi (hsame ▸ hj)

/-- **What `open` serves**: the chunks of the snapshot and the logs. -/
theorem openStore_serves {cfg : StorageConfig} {chunkIds : Nat → ChunkId} {d : Disk} {s : Server}
    (hopen : (openStore cfg chunkIds d).1 = .ok s) {cs : List Chunk}
    (h : StoreServes U d.loadedIndex d.chunks cs) {replayed : Nat → List DataPoint}
    (hlogs : LogsHold U cfg d.loadedIndex d replayed (List.range cfg.numShards)) :
    ∃ cs', StoreServes U s.index s.disk.chunks cs' ∧
      ServesAlso ((List.range cfg.numShards).flatMap replayed) d.loadedIndex cs s.index cs' := by
  obtain ⟨idx, wals, hopens, rfl⟩ := openStore_ok hopen
  exact hopens.serves hU List.nodup_range hlogs h

end Serves

/-- The memtables of a server that was just opened are empty. -/
theorem memPoints_of_open {cfg : StorageConfig} {chunkIds : Nat → ChunkId} {d : Disk} {s : Server}
    (hopen : (openStore cfg chunkIds d).1 = .ok s) :
    memPoints cfg.numShards s.memtables = [] := by
  obtain ⟨idx, wals, -, rfl⟩ := openStore_ok hopen
  rw [memPoints, List.flatMap_eq_nil_iff]
  intro i _
  exact SeriesData.points_empty

/-- **A query after `open`** returns the selected points that are served. -/
theorem StoreServes.mem_query (hlaw : Crates.LawfulLz4) {U : SeriesKey → Prop} (hU : KeysOk U)
    {cfg : StorageConfig} {s : Server} {cs : List Chunk}
    (h : StoreServes U s.index s.disk.chunks cs) (hmem : memPoints cfg.numShards s.memtables = [])
    (q : Query) {r : QueryResponse} : r ∈ s.query cfg q ↔
      ∃ p, Served s.index cs p ∧ q.selects p = true ∧ p.response = r := by
  rw [Server.query, query, flatMap_scanMemtable, hmem]
  exact h.sound.mem_queryChunks hlaw hU q h.onDisk

end Micius

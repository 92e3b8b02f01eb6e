import Micius.Server.OpenTwice
import Micius.Server.Retention

/-!
# What `open` does to the files it finds

Whatever bytes the files hold, whether `open` succeeds or gives up at some
shard, and wherever it is interrupted: it adds chunk files and segments, and
the only file it deletes is the highest segment of a shard.
-/

namespace Micius

section

variable [Crates]

/-! ## The log of a shard -/

omit [Crates] in
/-- Creating segments changes no segment that is there. -/
theorem WalDir.getElem?_creates {dir : WalDir} {ops : List WalOp}
    (hops : ∀ op ∈ ops, ∃ n, op = .create n) {seg : Nat} {bytes : Bytes}
    (h : dir[seg]? = some bytes) : (dir.run ops)[seg]? = some bytes := by
  induction ops generalizing dir with
  | nil => exact h
  | cons op ops ih =>
    obtain ⟨n, rfl⟩ := hops op List.mem_cons_self
    refine ih (fun op hop => hops op (List.mem_cons_of_mem _ hop)) ?_
    rw [WalDir.getElem?_create]
    split
    · next heq => rw [← heq, h, Option.getD_some]
    · exact h

omit [Crates] in
/-- A turn creates segments and then deletes at most the highest one. -/
theorem openWalShard_ops (cfg : StorageConfig) (dir : WalDir) {w : Nat} {r : RecoveryResult}
    (hw : w < u64Max) (hr : r.lastSequence < u64Max) :
    ∃ (creates : List WalOp) (segs : List Nat),
      (openWalShard cfg dir w r).2 = creates ++ segs.map WalOp.remove ∧
      (∀ op ∈ creates, ∃ n, op = .create n) ∧ ∀ seg ∈ segs, seg = dir.last := by
  have hold : ∀ p ∈
      (WalWriter.openWal dir cfg.walMaxSegmentBytes r.lastSequence).1.completedSegments,
      p.2 = u64Max := by
    intro p hp
    obtain ⟨n, -, rfl⟩ := List.mem_map.mp hp
    rfl
  have hthreshold : (if r.points.isEmpty then w else r.lastSequence) < u64Max := by
    split <;> assumption
  unfold openWalShard
  dsimp only
  split
  · refine ⟨_, _, rfl, fun op hop => ?_, fun seg hseg => ?_⟩
    · rcases List.mem_append.mp hop with hop | hop
      · exact ⟨_, List.mem_singleton.mp hop⟩
      · exact ⟨_, List.mem_singleton.mp hop⟩
    · obtain ⟨p, hp, rfl⟩ := List.mem_map.mp hseg
      obtain ⟨hp, hle⟩ := List.mem_filter.mp hp
      rcases List.mem_append.mp hp with hp | hp
      · have := hold p hp
        have := of_decide_eq_true hle
        omega
      · rw [List.mem_singleton.mp hp]
        rfl
  · refine ⟨_, _, rfl, fun op hop => ?_, fun seg hseg => ?_⟩
    · rw [List.append_nil] at hop
      exact ⟨_, List.mem_singleton.mp hop⟩
    · obtain ⟨p, hp, rfl⟩ := List.mem_map.mp hseg
      obtain ⟨hp, hle⟩ := List.mem_filter.mp hp
      have := hold p hp
      have := of_decide_eq_true hle
      omega

omit [Crates] in
/-- A turn that is interrupted leaves every segment as it was, or has deleted
the highest one. -/
theorem getElem?_openWalShard_take {cfg : StorageConfig} {dir : WalDir} {w : Nat}
    {r : RecoveryResult} (hw : w < u64Max) (hr : r.lastSequence < u64Max) (n : Nat) {seg : Nat}
    {bytes : Bytes} (h : dir[seg]? = some bytes) :
    (dir.run ((openWalShard cfg dir w r).2.take n))[seg]? = some bytes ∨
      seg = dir.last ∧ (dir.run ((openWalShard cfg dir w r).2.take n))[seg]? = none := by
  obtain ⟨creates, segs, hops, hcreates, hsegs⟩ := openWalShard_ops cfg dir hw hr
  rw [hops, List.take_append, ← List.map_take, WalDir.run_append, WalDir.getElem?_removes]
  split
  · next hmem => exact .inr ⟨hsegs seg (List.mem_of_mem_take hmem), rfl⟩
  · exact .inl (WalDir.getElem?_creates (fun op hop => hcreates op (List.mem_of_mem_take hop)) h)

/-! ## The loop over the shards -/

/-- An operation on a log, or the write of a chunk file that is not there. -/
inductive DiskOp.Adds (chunks : ChunkDir) : DiskOp → Prop
  | wal (i : Nat) (op : WalOp) : Adds chunks (.wal i op)
  | chunk {chunkId : ChunkId} (bytes : Bytes) (hnew : chunkId ∉ chunks) :
      Adds chunks (.writeChunk chunkId bytes)

omit [Crates] in
theorem DiskOp.Adds.mono {chunks chunks' : ChunkDir}
    (hsub : ∀ path : ChunkPath, path ∈ chunks → path ∈ chunks') {op : DiskOp}
    (h : op.Adds chunks') : op.Adds chunks := by
  cases h with
  | wal i op => exact .wal i op
  | chunk bytes hnew => exact .chunk bytes fun hmem => hnew (hsub _ hmem)

omit [Crates] in
/-- Such operations leave the snapshot and the chunk files as they were. -/
theorem Disk.run_adds {d₀ : Disk} {ops : List DiskOp} (hops : ∀ op ∈ ops, op.Adds d₀.chunks)
    {d : Disk} (hsnapshot : d.snapshot = d₀.snapshot)
    (hchunks : ∀ (c : ChunkId) (bytes : Bytes), d₀.chunks[c]? = some bytes →
      d.chunks[c]? = some bytes) :
    (d.run ops).snapshot = d₀.snapshot ∧
      ∀ (c : ChunkId) (bytes : Bytes), d₀.chunks[c]? = some bytes →
        (d.run ops).chunks[c]? = some bytes := by
  induction ops generalizing d with
  | nil => exact ⟨hsnapshot, hchunks⟩
  | cons op ops ih =>
    have hrest := fun op' hop' => hops op' (List.mem_cons_of_mem op hop')
    rw [Disk.run_cons]
    cases hops op List.mem_cons_self with
    | wal i op => exact ih hrest hsnapshot hchunks
    | @chunk chunkId bytes hnew =>
      refine ih hrest hsnapshot fun c content hc => ?_
      have hne : c ≠ chunkId := by
        rintro rfl
        exact hnew (Std.ExtTreeMap.mem_iff_isSome_getElem?.mpr (by rw [hc]; rfl))
      change (d.chunks.insert chunkId bytes)[c]? = some content
      rw [TreeMap.getElem?_insert_eq, if_neg hne, hchunks c content hc]

/-- What a turn does to the files, log operations included. -/
theorem RecoversTo.adds {idx idx' : ChunkIndex} {chunks : ChunkDir} {chunkId : ChunkId}
    {points : List DataPoint} {ops : List DiskOp}
    (h : RecoversTo idx chunks chunkId points idx' ops) (i : Nat) (walOps : List WalOp) :
    ∀ op ∈ ops ++ walOps.map (DiskOp.wal i), op.Adds chunks := by
  intro op hop
  rcases List.mem_append.mp hop with hop | hop
  · cases h with
    | nothing hnil => exact absurd hop List.not_mem_nil
    | chunk hne hw hnew =>
      rw [List.mem_singleton.mp hop]
      exact .chunk _ hnew
  · obtain ⟨o, -, rfl⟩ := List.mem_map.mp hop
    exact .wal i o

/-- The log operations of a turn are those of its shard. -/
theorem RecoversTo.filterMap_onWal {idx idx' : ChunkIndex} {chunks : ChunkDir} {chunkId : ChunkId}
    {points : List DataPoint} {ops : List DiskOp}
    (h : RecoversTo idx chunks chunkId points idx' ops) (i j : Nat) (walOps : List WalOp) :
    (ops ++ walOps.map (DiskOp.wal i)).filterMap (DiskOp.onWal j) =
      if i = j then walOps else [] := by
  have hchunk : ops.filterMap (DiskOp.onWal j) = [] := by cases h <;> rfl
  rw [List.filterMap_append, hchunk, List.nil_append, List.filterMap_map]
  split
  · next heq =>
    exact (List.filterMap_congr fun op _ => if_pos heq).trans List.filterMap_some
  · next hne => exact List.filterMap_eq_nil_iff.mpr fun op _ => if_neg hne

/-- What the loop does on a disk, however far it gets. -/
structure Turns (cfg : StorageConfig) (idx : ChunkIndex) (d : Disk) (shards : List Nat)
    (ops : List DiskOp) : Prop where
  logs : ∀ i, ops.filterMap (DiskOp.onWal i) = [] ∨
    i ∈ shards ∧ ∃ r, recover (d.wal i) (idx.watermark i) = .ok r ∧
      ops.filterMap (DiskOp.onWal i) = (openWalShard cfg (d.wal i) (idx.watermark i) r).2
  adds : ∀ op ∈ ops, op.Adds d.chunks

theorem Turns.nil (cfg : StorageConfig) (idx : ChunkIndex) (d : Disk) (shards : List Nat) :
    Turns cfg idx d shards [] :=
  ⟨fun _ => .inl rfl, fun _ hop => absurd hop List.not_mem_nil⟩

/-- One more turn before the loop. -/
theorem Turns.cons {cfg : StorageConfig} {idx idx' : ChunkIndex} {d : Disk} {i : Nat}
    {shards : List Nat} (hi : i ∉ shards) {chunkId : ChunkId} {r : RecoveryResult}
    (hr : recover (d.wal i) (idx.watermark i) = .ok r) {chunkOps ops ops' : List DiskOp}
    (hchunk : RecoversTo idx d.chunks chunkId r.points idx' chunkOps)
    (hops : ops = chunkOps ++
      (openWalShard cfg (d.wal i) (idx.watermark i) r).2.map (DiskOp.wal i))
    (h : Turns cfg idx' (d.run ops) shards ops') :
    Turns cfg idx d (i :: shards) (ops ++ ops') := by
  subst hops
  refine ⟨fun j => ?_, fun op hop => ?_⟩
  · rw [List.filterMap_append, hchunk.filterMap_onWal]
    split
    · next heq =>
      subst heq
      rw [(h.logs i).resolve_right fun hmem => hi hmem.1, List.append_nil]
      exact .inr ⟨List.mem_cons_self, r, hr, rfl⟩
    · next hne =>
      -- the turn of another shard touches neither the log nor its watermark
      have hlog := h.logs j
      rw [hchunk.wal_turn, if_neg (Ne.symm hne), hchunk.watermark] at hlog
      rw [List.nil_append]
      exact hlog.imp id fun hj => ⟨List.mem_cons_of_mem i hj.1, hj.2⟩
  · have hadds := hchunk.adds i (openWalShard cfg (d.wal i) (idx.watermark i) r).2
    rcases List.mem_append.mp hop with hop | hop
    · exact hadds op hop
    · refine (h.adds op hop).mono fun path hmem => ?_
      obtain ⟨bytes, hbytes⟩ := Option.isSome_iff_exists.mp
        (Std.ExtTreeMap.mem_iff_isSome_getElem?.mp hmem)
      refine Std.ExtTreeMap.mem_iff_isSome_getElem?.mpr ?_
      rw [(Disk.run_adds hadds rfl fun _ _ hc => hc).2 path bytes hbytes]
      rfl

theorem turns_openShards (cfg : StorageConfig) (chunkIds : Nat → ChunkId) {shards : List Nat}
    (hnodup : shards.Nodup) (idx : ChunkIndex) (d : Disk) :
    Turns cfg idx d shards (openShards cfg chunkIds shards idx d).2 := by
  induction shards generalizing idx d with
  | nil => exact .nil ..
  | cons i shards ih =>
    obtain ⟨hi, hnodup⟩ := List.nodup_cons.mp hnodup
    cases hturn : openShard cfg i idx d (chunkIds i) with
    | error e =>
      rw [openShards, hturn]
      exact .nil ..
    | ok turn =>
      obtain ⟨idx', writer, ops⟩ := turn
      have hops : (openShards cfg chunkIds (i :: shards) idx d).2 =
          ops ++ (openShards cfg chunkIds shards idx' (d.run ops)).2 := by
        rw [openShards, hturn]
        dsimp only
        cases openShards cfg chunkIds shards idx' (d.run ops) with
        | mk out ops' => cases out <;> rfl
      obtain ⟨r, chunkOps, hr, hchunk, -, heq⟩ := openShard_ok hturn
      rw [hops]
      exact .cons hi hr hchunk heq (ih hnodup idx' (d.run ops))

/-- **`open` keeps what it finds.** On any files, up to any point of `open`,
also of one that fails: the snapshot and the chunk files are unchanged, and so
is every segment but the highest one of its shard, which is unchanged or
deleted. The sequence numbers are below `u64::MAX`. -/
theorem open_keeps_files (cfg : StorageConfig) (chunkIds : Nat → ChunkId) {d : Disk}
    (hlow : ∀ i < cfg.numShards, d.watermark i < u64Max ∧
      ∀ r, recover (d.wal i) (d.watermark i) = .ok r → r.lastSequence < u64Max)
    {d' : Disk} {n : Nat} (hcut : d.run ((openStore cfg chunkIds d).2.take n) = d') :
    d'.snapshot = d.snapshot ∧
      (∀ (c : ChunkId) (bytes : Bytes), d.chunks[c]? = some bytes →
        d'.chunks[c]? = some bytes) ∧
      ∀ (i seg : Nat) (bytes : Bytes), (d.wal i)[seg]? = some bytes →
        (d'.wal i)[seg]? = some bytes ∨
          highestSegmentNumber (d.wal i) = some seg ∧ (d'.wal i)[seg]? = none := by
  have hturns := turns_openShards cfg chunkIds
    (show (List.range cfg.numShards).Nodup from List.nodup_range) d.loadedIndex d
  rw [openStore_ops] at hcut
  subst hcut
  obtain ⟨hsnapshot, hchunks⟩ := Disk.run_adds
    (fun op hop => hturns.adds op (List.mem_of_mem_take hop)) rfl fun _ _ hc => hc
  refine ⟨hsnapshot, hchunks, fun i seg bytes hseg => ?_⟩
  have hlast : seg = (d.wal i).last → highestSegmentNumber (d.wal i) = some seg := by
    intro heq
    obtain ⟨highest, hhighest⟩ := exists_highest (Std.ExtTreeMap.mem_iff_isSome_getElem?.mpr
      (by rw [hseg]; rfl))
    rw [heq, WalDir.last, hhighest, Option.getD_some]
  have htaken := List.prefix_iff_eq_take.mp ((List.take_prefix n
    (openShards cfg chunkIds (List.range cfg.numShards) d.loadedIndex d).2).filterMap
      (DiskOp.onWal i))
  rw [Disk.wal_run, htaken]
  rcases hturns.logs i with hnil | ⟨hi, r, hr, hlog⟩
  · rw [hnil, List.take_nil]
    exact .inl hseg
  · obtain ⟨hwatermark, hlastSequence⟩ := hlow i (List.mem_range.mp hi)
    rw [hlog]
    exact (getElem?_openWalShard_take hwatermark (hlastSequence r hr) _ hseg).imp id
      fun h => ⟨hlast h.1, h.2⟩

end

section Example

attribute [local instance] Reference.crates

/-- The entry is in segment 1, and segment 2 is the empty highest one. Opening
deletes segment 2; segment 1 is there at every point. -/
theorem open_keeps_files_replayed : ∃ s tr,
    Runs.run (step smallSegments) (.fresh smallSegments) (appendSteps 0 (cpuPoint 5 7)) =
      some (s, tr) ∧
    ((s.disk.wal 0)[1]?).getD [] ≠ [] ∧
    2 ∉ (s.disk.run (openStore smallSegments (fun _ => 101) s.disk).2).wal 0 ∧
    ∀ n, ((s.disk.run ((openStore smallSegments (fun _ => 101) s.disk).2.take n)).wal 0)[1]? =
      (s.disk.wal 0)[1]? := by
  have hrun : ((Runs.run (step smallSegments) (.fresh smallSegments)
      (appendSteps 0 (cpuPoint 5 7))).any fun r =>
        decide (r.1.disk.watermark 0 < u64Max) &&
        (recover (r.1.disk.wal 0) (r.1.disk.watermark 0)).toOption.all
          (fun r => decide (r.lastSequence < u64Max)) &&
        decide (highestSegmentNumber (r.1.disk.wal 0) = some 2) &&
        decide (((r.1.disk.wal 0)[1]?).getD [] ≠ []) &&
        decide (2 ∉ (r.1.disk.run (openStore smallSegments (fun _ => 101) r.1.disk).2).wal 0)) =
      true := by decide +kernel
  obtain ⟨s, tr, hrun, hstate⟩ := Runs.exists_of_any hrun
  simp only [Bool.and_eq_true, decide_eq_true_eq] at hstate
  obtain ⟨⟨⟨⟨hwatermark, hrecovered⟩, hhighest⟩, hfirst⟩, hgone⟩ := hstate
  refine ⟨s, tr, hrun, hfirst, hgone, fun n => ?_⟩
  have hlow : ∀ i < smallSegments.numShards, s.disk.watermark i < u64Max ∧
      ∀ r, recover (s.disk.wal i) (s.disk.watermark i) = .ok r → r.lastSequence < u64Max := by
    intro i hi
    obtain rfl : i = 0 := Nat.lt_one_iff.mp hi
    refine ⟨hwatermark, fun r hr => ?_⟩
    rw [hr] at hrecovered
    exact of_decide_eq_true hrecovered
  cases hseg : (s.disk.wal 0)[1]? with
  | none => exact absurd (by rw [hseg]; rfl) hfirst
  | some bytes =>
    have hkept := (open_keeps_files smallSegments (fun _ => 101) hlow (n := n) rfl).2.2 0 1
      bytes hseg
    refine hkept.resolve_right fun h => ?_
    exact absurd (hhighest.symm.trans h.1) (by decide)

end Example

end Micius

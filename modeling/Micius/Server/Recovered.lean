import Micius.Server.Reopen

/-!
# What `open` recovers

If the index of the snapshot describes its chunks exactly, the logs can be
read and the clock gives new chunk ids, `open` succeeds. The index it leaves
describes the old chunks and one new chunk for every shard with entries,
which has the last value of every slot of the log.
-/

namespace Micius

variable [Crates]

/-- The store holds the chunks, and no two of their points have one slot. -/
structure StoreExact (U : SeriesKey → Prop) (s : ChunkStore) (cs : List Chunk) : Prop
    extends s.Holds U cs where
  distinct : Distinct (livePoints cs)

/-- What the logs hold above the watermarks. The points were routed to the
logs of `count` shards. -/
structure LogsReplay (U : SeriesKey → Prop) (count : Nat) (idx : ChunkIndex) (d : Disk)
    (replayed : Nat → List DataPoint) (shards : List Nat) : Prop where
  recover : ∀ i ∈ shards, ∃ r, Micius.recover (d.wal i) (idx.watermark i) = .ok r ∧
    r.points = replayed i
  routed : ∀ i ∈ shards, ∀ p ∈ replayed i, shardIndex p count = i
  keys : ∀ i ∈ shards, ∀ p ∈ replayed i, U p.key
  fits : ∀ i ∈ shards, (SeriesData.insertPoints ∅ (replayed i)).Fits

/-- The clock gives each shard a chunk id that is not in use. -/
structure IdsFree (chunkIds : Nat → ChunkId) (shards : List Nat) (chunks : ChunkDir) : Prop where
  distinct : (shards.map chunkIds).Nodup
  free : ∀ i ∈ shards, chunkIds i ∉ chunks

variable {U : SeriesKey → Prop}

/-! ## A turn -/

/-- A turn whose chunk id is free succeeds. -/
theorem exists_recoversTo (idx : ChunkIndex) {chunks : ChunkDir} {chunkId : ChunkId}
    (hfree : chunkId ∉ chunks) (points : List DataPoint) :
    ∃ idx' ops, RecoversTo idx chunks chunkId points idx' ops := by
  by_cases hnil : points = []
  · exact ⟨idx, [], .nothing hnil⟩
  · obtain ⟨encoded, -, hw⟩ := write_eq chunkId (nonempty_insertPoints hnil)
    exact ⟨_, _, .chunk hnil hw hfree⟩

/-- The only new file of a turn is its chunk. -/
theorem RecoversTo.mem_chunks {idx idx' : ChunkIndex} {d : Disk} {chunkId : ChunkId}
    {points : List DataPoint} {ops : List DiskOp}
    (h : RecoversTo idx d.chunks chunkId points idx' ops) {path : ChunkPath}
    (hpath : path ∈ (d.run ops).chunks) : path = chunkId ∨ path ∈ d.chunks := by
  cases h with
  | nothing _ => exact .inr hpath
  | chunk _ _ _ =>
    rcases Std.ExtTreeMap.mem_insert.mp hpath with heq | hmem
    · exact .inl (Std.LawfulEqCmp.eq_of_compare heq).symm
    · exact .inr hmem

theorem IdsFree.turn {chunkIds : Nat → ChunkId} {i : Nat} {shards : List Nat} {d : Disk}
    (h : IdsFree chunkIds (i :: shards) d.chunks) {idx idx' : ChunkIndex}
    {points : List DataPoint} {ops : List DiskOp}
    (hrec : RecoversTo idx d.chunks (chunkIds i) points idx' ops) :
    IdsFree chunkIds shards (d.run ops).chunks := by
  obtain ⟨hi, hdistinct⟩ := List.nodup_cons.mp h.distinct
  refine ⟨hdistinct, fun j hj hmem => ?_⟩
  rcases hrec.mem_chunks hmem with heq | hmem
  · exact hi (heq ▸ List.mem_map_of_mem hj)
  · exact h.free j (by simp [hj]) hmem

/-- The logs of the other shards after a turn. -/
theorem LogsReplay.turn {count : Nat} {idx idx' : ChunkIndex} {d : Disk}
    {replayed : Nat → List DataPoint} {i : Nat} {shards : List Nat}
    (h : LogsReplay U count idx d replayed (i :: shards)) (hi : i ∉ shards) {chunkId : ChunkId}
    {points : List DataPoint} {ops : List DiskOp}
    (hrec : RecoversTo idx d.chunks chunkId points idx' ops) (walOps : List WalOp) :
    LogsReplay U count idx' (d.run (ops ++ walOps.map (.wal i))) replayed shards where
  recover j hj := by
    have hne : j ≠ i := fun heq => hi (heq ▸ hj)
    rw [hrec.wal_turn, if_neg hne, hrec.watermark]
    exact h.recover j (by simp [hj])
  routed j hj := h.routed j (by simp [hj])
  keys j hj := h.keys j (by simp [hj])
  fits j hj := h.fits j (by simp [hj])

namespace StoreExact

/-- **A turn** adds the last value of every slot that it replays. -/
theorem recover (hU : KeysOk U) {idx idx' : ChunkIndex} {d : Disk} {cs : List Chunk}
    (h : StoreExact U ⟨idx, d.chunks⟩ cs) {chunkId : ChunkId} {points : List DataPoint}
    {ops : List DiskOp} (hrec : RecoversTo idx d.chunks chunkId points idx' ops)
    (hkeys : ∀ p ∈ points, U p.key)
    (hnew : ∀ p ∈ points, ∀ q ∈ livePoints cs, p.slot ≠ q.slot)
    (hfit : (SeriesData.insertPoints ∅ points).Fits) :
    ∃ cs', StoreExact U ⟨idx', (d.run ops).chunks⟩ cs' ∧ ∀ p, p ∈ livePoints cs' ↔
      LastWrites.IsLast DataPoint.slot points p ∨ p ∈ livePoints cs := by
  cases hrec with
  | nothing hnil =>
    refine ⟨cs, h, fun p => ⟨.inr, fun hp => hp.resolve_left fun hlast => ?_⟩⟩
    rw [hnil] at hlast
    cases hlast.mem
  | @chunk bytes result hne hw hfree =>
    obtain ⟨c, rfl, hdata, hpoints, huse⟩ := exists_recoveryChunk hw hkeys
    rw [← hdata] at hw hfit
    have hother : ∀ p ∈ c.points, ∀ q ∈ livePoints cs, p.slot ≠ q.slot :=
      fun p hp => hnew p ((hpoints p).mp hp).mem
    refine ⟨c :: cs, ⟨h.toHolds.register hU.inj huse hother hfit hfree hw,
      c.wf.distinct.append h.distinct hother⟩, fun p => ?_⟩
    show p ∈ c.points ++ livePoints cs ↔ _
    rw [List.mem_append, hpoints]

/-! ## The loop -/

/-- **The loop over the shards** succeeds and adds what the logs hold. -/
theorem openShards (hU : KeysOk U) (cfg : StorageConfig) {chunkIds : Nat → ChunkId}
    {shards : List Nat} (hnodup : shards.Nodup) {count : Nat} {idx : ChunkIndex} {d : Disk}
    {replayed : Nat → List DataPoint} (hlogs : LogsReplay U count idx d replayed shards)
    (hids : IdsFree chunkIds shards d.chunks) {cs : List Chunk}
    (h : StoreExact U ⟨idx, d.chunks⟩ cs)
    (hnew : ∀ i ∈ shards, ∀ p ∈ replayed i, ∀ q ∈ livePoints cs, p.slot ≠ q.slot) :
    ∃ idx' wals ops cs', openShards cfg chunkIds shards idx d = (.ok (idx', wals), ops) ∧
      StoreExact U ⟨idx', (d.run ops).chunks⟩ cs' ∧ ∀ p, p ∈ livePoints cs' ↔
        (∃ i ∈ shards, LastWrites.IsLast DataPoint.slot (replayed i) p) ∨ p ∈ livePoints cs := by
  induction shards generalizing idx d cs with
  | nil => exact ⟨idx, [], [], cs, rfl, h, by simp⟩
  | cons i shards ih =>
    obtain ⟨hi, hnodup⟩ := List.nodup_cons.mp hnodup
    obtain ⟨r, hr, hpoints⟩ := hlogs.recover i (by simp)
    obtain ⟨idx₁, ops, hrec⟩ := exists_recoversTo idx (hids.free i (by simp)) r.points
    obtain ⟨writer, walOps, hturn⟩ : ∃ (writer : WalWriter) (walOps : List WalOp),
        openShard cfg i idx d (chunkIds i) = .ok (idx₁, writer, ops ++ walOps.map (.wal i)) :=
      ⟨_, _, openShard_of_recoversTo hr hrec⟩
    obtain ⟨cs₁, h₁, hlive₁⟩ := h.recover hU hrec (hpoints ▸ hlogs.keys i (by simp))
      (hpoints ▸ hnew i (by simp)) (hpoints ▸ hlogs.fits i (by simp))
    have hids₁ := hids.turn hrec
    have hchunks : (d.run (ops ++ walOps.map (.wal i))).chunks = (d.run ops).chunks := by
      rw [Disk.run_append, run_map_wal]
      rfl
    rw [← hchunks] at h₁ hids₁
    have hnew₁ : ∀ j ∈ shards, ∀ p ∈ replayed j, ∀ q ∈ livePoints cs₁, p.slot ≠ q.slot := by
      intro j hj p hp q hq hslot
      rcases (hlive₁ q).mp hq with hlast | hq
      · -- points of two logs are of two series
        have hsame := shardIndex_of_key (congrArg Prod.fst hslot) count
        rw [hlogs.routed j (by simp [hj]) p hp, hlogs.routed i (by simp) q (hpoints ▸ hlast.mem)]
          at hsame
        exact hi (hsame ▸ hj)
      · exact hnew j (by simp [hj]) p hp q hq hslot
    obtain ⟨idx₂, wals, ops₂, cs₂, hrest, h₂, hlive₂⟩ :=
      ih hnodup (hlogs.turn hi hrec walOps) hids₁ h₁ hnew₁
    refine ⟨idx₂, writer :: wals, _ ++ ops₂, cs₂, ?_, by rw [Disk.run_append]; exact h₂, fun p => ?_⟩
    · simp only [Micius.openShards, hturn, hrest]
    · rw [hlive₂, hlive₁, hpoints, List.exists_mem_cons_iff, or_left_comm, or_assoc]

/-- **What `open` recovers.** -/
theorem openStore (hU : KeysOk U) (cfg : StorageConfig) {chunkIds : Nat → ChunkId} {d : Disk}
    {count : Nat} {replayed : Nat → List DataPoint}
    (hlogs : LogsReplay U count d.loadedIndex d replayed (List.range cfg.numShards))
    (hids : IdsFree chunkIds (List.range cfg.numShards) d.chunks) {cs : List Chunk}
    (h : StoreExact U ⟨d.loadedIndex, d.chunks⟩ cs)
    (hnew : ∀ i < cfg.numShards, ∀ p ∈ replayed i, ∀ q ∈ livePoints cs, p.slot ≠ q.slot) :
    ∃ s cs', (openStore cfg chunkIds d).1 = .ok s ∧ StoreExact U ⟨s.index, s.disk.chunks⟩ cs' ∧
      ∀ p, p ∈ livePoints cs' ↔
        (∃ i < cfg.numShards, LastWrites.IsLast DataPoint.slot (replayed i) p) ∨
          p ∈ livePoints cs := by
  obtain ⟨idx', wals, ops, cs', hopens, hexact, hlive⟩ := h.openShards hU cfg List.nodup_range hlogs
    hids fun i hi => hnew i (List.mem_range.mp hi)
  rw [Disk.loadedIndex] at hopens
  refine ⟨.start cfg (d.run ops) idx' wals, cs', ?_, hexact, fun p => ?_⟩
  · simp only [Micius.openStore, hopens]
  · rw [hlive]
    simp only [List.mem_range]

/-! ## Queries -/

variable {cfg : StorageConfig} {s : Server} {cs : List Chunk}

theorem key_in_use {store : ChunkStore} (h : StoreExact U store cs) {p : DataPoint}
    (hp : p ∈ livePoints cs) : U p.key := by
  obtain ⟨c, hc, hp⟩ := List.mem_flatMap.mp hp
  obtain ⟨kp, hkp, hp⟩ := List.mem_flatMap.mp hp
  rw [(key_of_mem_pointsOf hp).1]
  exact h.index.key_in_use hc hkp

section

variable (hlaw : Crates.LawfulLz4) (hU : KeysOk U) (h : StoreExact U ⟨s.index, s.disk.chunks⟩ cs)
  (hmem : memPoints cfg.numShards s.memtables = [])
include hlaw hU h hmem

theorem query_perm (q : Query) :
    (s.query cfg q).Perm (((livePoints cs).filter q.selects).map DataPoint.response) := by
  rw [Server.query, query, flatMap_scanMemtable, hmem]
  exact queryChunks_perm hlaw hU h.index q h.ids h.onDisk

/-- **A query after `open`** returns a point exactly if a chunk has it. -/
theorem mem_query {p : DataPoint} (hp : U p.key) :
    p.response ∈ s.query cfg (.all p.metricName) ↔ p ∈ livePoints cs := by
  rw [(h.query_perm hlaw hU hmem _).mem_iff, List.mem_map]
  constructor
  · rintro ⟨q, hq, heq⟩
    have hq := List.mem_of_mem_filter hq
    exact eq_of_response hU (h.key_in_use hq) hp heq ▸ hq
  · exact fun hmem => ⟨p, List.mem_filter.mpr ⟨hmem, Query.selects_all p⟩, rfl⟩

/-- It returns each point once. -/
theorem count_query {p : DataPoint} (hp : p ∈ livePoints cs) :
    (s.query cfg (.all p.metricName)).count p.response = 1 := by
  rw [(h.query_perm hlaw hU hmem _).count_eq]
  have hnodup : (((livePoints cs).filter (Query.all p.metricName).selects).map
      DataPoint.response).Nodup := by
    refine List.Nodup.map_on (fun q hq q' hq' heq => ?_) (h.distinct.of_map.filter _)
    exact eq_of_response hU (h.key_in_use (List.mem_of_mem_filter hq))
      (h.key_in_use (List.mem_of_mem_filter hq')) heq
  refine List.count_eq_one_of_mem hnodup (List.mem_map_of_mem ?_)
  exact List.mem_filter.mpr ⟨hp, Query.selects_all p⟩

end

end StoreExact

end Micius

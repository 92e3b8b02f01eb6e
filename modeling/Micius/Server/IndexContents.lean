import Micius.Server.IndexFiles

/-!
# The index describes its chunks

As long as chunks are registered apart, every chunk of `chunk_files` has for
each of its series an entry of its own in the time index and its key in the
registry, whatever points the chunks have in common. This is what a query
relies on when it collects the files it is going to read.
-/

namespace Micius

/-! ## Keys in use -/

/-- The keys of all points on their way to a chunk are in use. -/
structure KeysInUse (U : SeriesKey → Prop) (s : Server) : Prop where
  pending : ∀ p ∈ pendingPoints s.appends, U p.key
  memtables : ∀ i, ∀ p ∈ (s.memtables i).entries.points, U p.key
  drained : ∀ p ∈ s.sweeper.drainedPoints, U p.key

section

variable [Crates] {U : SeriesKey → Prop} {cfg : StorageConfig} {s s' : Server} {a : Action}
  {tr es : List Event}

omit [Crates] in
theorem KeysInUse.fresh (U : SeriesKey → Prop) (cfg : StorageConfig) :
    KeysInUse U (.fresh cfg) where
  pending := by simp [Server.fresh, Server.start, pendingPoints]
  memtables := by simp [Server.fresh, Server.start, Memtable.new, SeriesData.points_empty]
  drained := by simp [Server.fresh, Server.start, Sweeper.drainedPoints]

theorem KeysInUse.step (h : KeysInUse U s) (hstep : Step cfg s a s' es)
    (hkeys : ∀ p ∈ a.points, U p.key) : KeysInUse U s' := by
  have hmoved : ∀ {sweeper : Sweeper}, sweeper.drainedPoints = [] →
      ∀ p ∈ sweeper.drainedPoints, U p.key := by
    intro sweeper hnil p hp
    rw [hnil] at hp
    cases hp
  cases hstep with
  | @append points indexed hsorted =>
    refine { h with pending := fun p hp => ?_ }
    change p ∈ pendingPoints (s.appends ++ _) at hp
    rw [pendingPoints_append] at hp
    rcases List.mem_append.mp hp with hp | hp
    · exact h.pending p hp
    · refine hkeys p ((shardGroups_perm hsorted).mem_iff.mp ?_)
      simpa [pendingPoints] using hp
  | walCommit _ _ _ _ _ =>
    refine { h with pending := ?_ }
    show ∀ p ∈ pendingPoints (deliver s.appends _), U p.key
    rw [pendingPoints_deliver]
    exact h.pending
  | @memInsert k points g rest acked hk hall =>
    obtain ⟨calls, hcalls, hset⟩ := Bags.perm_flatMap_set
      (fun t : AppendTask => t.pending.flatMap Group.points) hk
    have hbefore : ∀ p ∈ (g :: rest).flatMap Group.points ++ calls, U p.key :=
      fun p hp => h.pending p (hcalls.mem_iff.mpr hp)
    rw [List.flatMap_cons] at hbefore
    refine { h with pending := fun p hp => ?_, memtables := fun i p hp => ?_ }
    · have hp := (hset ⟨points, rest, acked⟩).mem_iff.mp hp
      rw [List.append_assoc] at hbefore
      exact hbefore p (List.mem_append_right _ hp)
    · change p ∈ (Function.update s.memtables g.shard _ i).entries.points at hp
      by_cases hi : i = g.shard
      · subst hi
        rw [Function.update_self, Memtable.entries_insertAll] at hp
        rcases SeriesData.mem_insertPoints hp with hp | hp
        · exact hbefore p (by simp [hp])
        · exact h.memtables _ p hp
      · rw [Function.update_of_ne hi] at hp
        exact h.memtables i p hp
  | @ack k points hk =>
    obtain ⟨calls, hcalls, hset⟩ := Bags.perm_flatMap_set
      (fun t : AppendTask => t.pending.flatMap Group.points) hk
    refine { h with pending := fun p hp => h.pending p (hcalls.mem_iff.mpr ?_) }
    exact (hset ⟨points, [], true⟩).mem_iff.mp hp
  | @sweepDrain i hs hflush =>
    refine { h with memtables := fun j p hp => ?_, drained := h.memtables i }
    change p ∈ (Function.update s.memtables i _ j).entries.points at hp
    by_cases hj : j = i
    · subst hj
      rw [Function.update_self] at hp
      change p ∈ SeriesData.points ∅ at hp
      rw [SeriesData.points_empty] at hp
      cases hp
    · rw [Function.update_of_ne hj] at hp
      exact h.memtables j p hp
  | walDrain _ => exact { h with drained := hmoved rfl }
  | sweepSkip _ _ => exact { h with drained := hmoved rfl }
  | sweepWrite _ _ _ => exact { h with drained := hmoved rfl }
  | sweepFail _ _ => exact { h with drained := hmoved rfl }
  | sweepRegister _ _ => exact { h with drained := hmoved rfl }
  | sweepReadSequence _ => exact { h with drained := hmoved rfl }
  | sweepPublish _ => exact { h with drained := hmoved rfl }
  | sweepRequestDrain _ => exact { h with drained := hmoved rfl }
  | sweepDelete _ => exact { h with drained := hmoved rfl }
  | sweepDone _ => exact { h with drained := hmoved rfl }
  | _ => exact { h with }

/-! ## Described chunks -/

/-- The registry and the time index have every series of the chunk. -/
structure Described (U : SeriesKey → Prop) (idx : ChunkIndex) (c : Chunk) : Prop where
  keys : ∀ kp ∈ c.data.toList, U kp.1
  registered : ∀ kp ∈ c.data.toList, idx.seriesRegistry[kp.1.id]? = some kp.1
  entries : ∀ kp ∈ c.data.toList,
    idx.entryAt kp.1.id (firstTimestamp kp.2) = some (entryOf c.id kp.1 kp.2)

namespace Described

variable {idx : ChunkIndex} {c c' : Chunk} {bytes : Bytes} {result : ChunkWriteResult}

/-- A chunk that was just registered. -/
theorem new (hU : IdInjective U) (hw : ChunkWriter.write c.id c.data = .ok (bytes, result))
    (hkeys : ∀ kp ∈ c.data.toList, U kp.1) :
    Described U (idx.registerAll result.chunkMeta result.seriesResults) c where
  keys := hkeys
  registered kp hkp :=
    IndexOk.registered_registerAll hU hw hkeys (hkeys kp hkp) (.inl ⟨kp.2, hkp⟩)
  entries kp hkp := by
    rcases IndexOk.entryAt_chunk hw idx kp.1.id (firstTimestamp kp.2) with
      ⟨kp', hkp', hid, -, hentry⟩ | ⟨hnone, -⟩
    · have hkey : kp'.1 = kp.1 := hU _ _ (hkeys kp' hkp') (hkeys kp hkp) hid
      rw [hentry, hkey, points_eq_of_key_eq hkp' hkp hkey]
    · exact absurd ⟨rfl, rfl⟩ (hnone kp hkp)

/-- The others stay described when a chunk is registered in free slots. -/
theorem registerAll (h : Described U idx c') (hU : IdInjective U)
    (hw : ChunkWriter.write c.id c.data = .ok (bytes, result))
    (hkeys : ∀ kp ∈ c.data.toList, U kp.1) {exempt : List ChunkId}
    (hfree : SlotsFree idx result.seriesResults exempt) (hother : c'.id ∉ exempt) :
    Described U (idx.registerAll result.chunkMeta result.seriesResults) c' where
  keys := h.keys
  registered kp hkp :=
    IndexOk.registered_registerAll hU hw hkeys (h.keys kp hkp) (.inr (h.registered kp hkp))
  entries kp hkp := by
    rcases idx.entryAt_registerAll result.chunkMeta result.seriesResults kp.1.id
      (firstTimestamp kp.2) with ⟨r, hr, hid, hstart, -⟩ | ⟨-, hkeep⟩
    · have hentry := h.entries kp hkp
      rw [← hid, ← hstart] at hentry
      exact absurd (hfree r hr _ hentry) hother
    · rw [hkeep, h.entries kp hkp]

theorem deregisterAll (h : Described U idx c) {triples : List (SeriesId × ChunkId × Int64)}
    (hother : ∀ x ∈ triples, x.2.1 ≠ c.id) : Described U (idx.deregisterAll triples) c where
  keys := h.keys
  registered kp hkp := by
    rw [ChunkIndex.seriesRegistry_deregisterAll]
    exact h.registered kp hkp
  entries kp hkp := by
    rw [ChunkIndex.entryAt_deregisterAll, h.entries kp hkp, Option.filter_some, if_pos]
    exact decide_eq_true fun hx => hother _ hx rfl

end Described

/-- The file of a chunk is on disk, as it was written in the run. -/
def FileOf (chunks : ChunkDir) (tr : List Event) (c : Chunk) : Prop :=
  c.data.Fits ∧ ∃ bytes result, ChunkWriter.write c.id c.data = .ok (bytes, result) ∧
    chunks[c.id]? = some bytes ∧ .chunkWritten c.id bytes ∈ tr

namespace FileOf

variable {chunks : ChunkDir} {c : Chunk}

theorem later (h : FileOf chunks tr c) (es : List Event) : FileOf chunks (tr ++ es) c := by
  obtain ⟨hfit, bytes, result, hw, hget, hmem⟩ := h
  exact ⟨hfit, bytes, result, hw, hget, List.mem_append_left es hmem⟩

theorem mem_chunks (h : FileOf chunks tr c) : c.id ∈ chunks := by
  obtain ⟨-, bytes, result, -, hget, -⟩ := h
  exact Std.ExtTreeMap.mem_iff_isSome_getElem?.mpr (by rw [hget]; rfl)

theorem insert (h : FileOf chunks tr c) {path : ChunkPath} (hnew : path ∉ chunks)
    (bytes : Bytes) : FileOf (chunks.insert path bytes) tr c := by
  have hne : c.id ≠ path := by
    rintro rfl
    exact hnew h.mem_chunks
  obtain ⟨hfit, old, result, hw, hget, hmem⟩ := h
  exact ⟨hfit, old, result, hw, by rw [TreeMap.getElem?_insert_eq, if_neg hne, hget], hmem⟩

theorem erase (h : FileOf chunks tr c) {path : ChunkPath} (hne : c.id ≠ path) :
    FileOf (chunks.erase path) tr c := by
  obtain ⟨hfit, bytes, result, hw, hget, hmem⟩ := h
  exact ⟨hfit, bytes, result, hw, by rw [TreeMap.getElem?_erase_eq, if_neg hne, hget], hmem⟩

end FileOf

/-- A chunk in the hands of a task: written, with keys in use. -/
def Carried (U : SeriesKey → Prop) (chunks : ChunkDir) (tr : List Event)
    (result : ChunkWriteResult) : Prop :=
  ∃ (c : Chunk) (bytes : Bytes), ChunkWriter.write c.id c.data = .ok (bytes, result) ∧
    FileOf chunks tr c ∧ ∀ kp ∈ c.data.toList, U kp.1

theorem Carried.later {chunks : ChunkDir} {result : ChunkWriteResult}
    (h : Carried U chunks tr result) (es : List Event) : Carried U chunks (tr ++ es) result := by
  obtain ⟨c, bytes, hw, hfile, hkeys⟩ := h
  exact ⟨c, bytes, hw, hfile.later es, hkeys⟩

theorem Carried.insert {chunks : ChunkDir} {result : ChunkWriteResult}
    (h : Carried U chunks tr result) {path : ChunkPath} (hnew : path ∉ chunks) (bytes : Bytes) :
    Carried U (chunks.insert path bytes) tr result := by
  obtain ⟨c, old, hw, hfile, hkeys⟩ := h
  exact ⟨c, old, hw, hfile.insert hnew bytes, hkeys⟩

/-- **The index describes its chunks.** -/
structure IndexDescribed (U : SeriesKey → Prop) (s : Server) (tr : List Event) : Prop where
  inUse : KeysInUse U s
  chunks : ∀ c ∈ s.index.chunkFiles, ∃ ch : Chunk, ch.id = c ∧ FileOf s.disk.chunks tr ch ∧
    Described U s.index ch
  registry : ∀ sid key, s.index.seriesRegistry[sid]? = some key → key.id = sid ∧ U key
  tags : s.index.TagIndexOk
  sweep : ∀ i result, s.sweeper = .written i result → Carried U s.disk.chunks tr result
  merged : ∀ result ∈ s.compactor.result?, Carried U s.disk.chunks tr result

omit [Crates] in
theorem keys_of_points {data : SeriesData} (hwf : data.Wf) (h : ∀ p ∈ data.points, U p.key) :
    ∀ kp ∈ data.toList, U kp.1 := by
  intro kp hkp
  obtain ⟨p, hp, hslot⟩ := exists_point_at_start hwf hkp
  have hkey : p.key = kp.1 := congrArg Prod.fst hslot
  exact hkey ▸ h p hp

namespace IndexDescribed

theorem fresh (U : SeriesKey → Prop) (cfg : StorageConfig) : IndexDescribed U (.fresh cfg) [] where
  inUse := KeysInUse.fresh U cfg
  chunks := by simp [Server.fresh, Server.start, ChunkIndex.new]
  registry := by simp [Server.fresh, Server.start, ChunkIndex.new]
  tags := (IndexOk.new U).tags
  sweep := by simp [Server.fresh, Server.start]
  merged := by simp [Server.fresh, Server.start, Compactor.result?]

/-- More events. -/
theorem later (h : IndexDescribed U s tr) (es : List Event) : IndexDescribed U s (tr ++ es) :=
  { h with
    chunks := fun c hc =>
      have ⟨ch, hid, hfile, hdesc⟩ := h.chunks c hc
      ⟨ch, hid, hfile.later es, hdesc⟩
    sweep := fun i result hs => (h.sweep i result hs).later es
    merged := fun result hr => (h.merged result hr).later es }

/-- Writing a new chunk file. -/
theorem writeChunk (h : IndexDescribed U s tr) {c : ChunkId} (hnew : c ∉ s.disk.chunks)
    (bytes : Bytes) :
    IndexDescribed U { s with disk := s.disk.apply (.writeChunk c bytes) }
      (tr ++ [.chunkWritten c bytes]) := by
  have hkept : IndexDescribed U { s with disk := s.disk.apply (.writeChunk c bytes) } tr :=
    { inUse := { h.inUse with }
      chunks := fun c' hc' =>
        have ⟨ch, hid, hfile, hdesc⟩ := h.chunks c' hc'
        ⟨ch, hid, hfile.insert hnew bytes, hdesc⟩
      registry := h.registry
      tags := h.tags
      sweep := fun i result hs => (h.sweep i result hs).insert hnew bytes
      merged := fun result hr => (h.merged result hr).insert hnew bytes }
  exact hkept.later _

/-- The chunk just written is carried. -/
theorem carried_new {c : Chunk} {chunks : ChunkDir} {bytes : Bytes} {result : ChunkWriteResult}
    (hw : ChunkWriter.write c.id c.data = .ok (bytes, result)) (hfit : c.data.Fits)
    (hkeys : ∀ kp ∈ c.data.toList, U kp.1) :
    Carried U (chunks.insert c.id bytes) (tr ++ [.chunkWritten c.id bytes]) result :=
  ⟨c, bytes, hw, ⟨hfit, bytes, result, hw, by rw [TreeMap.getElem?_insert_eq, if_pos rfl],
    by simp⟩, hkeys⟩

/-- A carried chunk is registered in free slots: the index describes it and
the others that keep their entries. -/
theorem register (hU : IdInjective U) (h : IndexDescribed U s tr) {c : Chunk} {bytes : Bytes}
    {result : ChunkWriteResult} (hw : ChunkWriter.write c.id c.data = .ok (bytes, result))
    (hfile : FileOf s.disk.chunks tr c) (hkeys : ∀ kp ∈ c.data.toList, U kp.1)
    {exempt : List ChunkId} (hfree : SlotsFree s.index result.seriesResults exempt) :
    (∀ c' ∈ (s.index.registerAll result.chunkMeta result.seriesResults).chunkFiles,
      c' ∉ exempt → ∃ ch : Chunk, ch.id = c' ∧ FileOf s.disk.chunks tr ch ∧
        Described U (s.index.registerAll result.chunkMeta result.seriesResults) ch) ∧
    (∀ sid key, (s.index.registerAll result.chunkMeta result.seriesResults).seriesRegistry[sid]? =
      some key → key.id = sid ∧ U key) ∧
    (s.index.registerAll result.chunkMeta result.seriesResults).TagIndexOk := by
  have hseries : ∀ r ∈ result.seriesResults, U r.seriesKey := by
    intro r hr
    obtain ⟨kp, hkp, hkey, -⟩ := IndexOk.seriesResult_of_mem hw hr
    exact hkey ▸ hkeys kp hkp
  refine ⟨fun c' hc' hother => ?_,
    IndexOk.registerAll_tags hU hseries result.chunkMeta h.registry h.tags⟩
  rcases (IndexOk.mem_chunkFiles_chunk hw s.index c').mp hc' with rfl | hc'
  · exact ⟨c, rfl, hfile, .new hU hw hkeys⟩
  · obtain ⟨ch, rfl, hfile', hdesc⟩ := h.chunks c' hc'
    exact ⟨ch, rfl, hfile', hdesc.registerAll hU hw hkeys hfree hother⟩

/-- The sweep registers its chunk. -/
theorem sweepRegister (hU : IdInjective U) (h : IndexDescribed U s tr) {i : Nat}
    {result : ChunkWriteResult} (hs : s.sweeper = .written i result)
    (hfree : SlotsFree s.index result.seriesResults []) :
    IndexDescribed U
      { s with
        index := s.index.registerAll result.chunkMeta result.seriesResults
        sweeper := .registered i result } tr := by
  obtain ⟨c, bytes, hw, hfile, hkeys⟩ := h.sweep i result hs
  obtain ⟨hchunks, hreg, htags⟩ := h.register hU hw hfile hkeys hfree
  exact
    { inUse := { h.inUse with drained := by simp [Sweeper.drainedPoints] }
      chunks := fun c' hc' => hchunks c' hc' (by simp)
      registry := hreg
      tags := htags
      sweep := by simp
      merged := h.merged }

/-- The worker commits its merged chunk. -/
theorem compactCommit (hU : IdInjective U) (h : IndexDescribed U s tr) {group : MergeGroup}
    {result : ChunkWriteResult} {rest : List MergeGroup}
    (hc : s.compactor = .merged group result rest)
    (hfree : SlotsFree s.index result.seriesResults (group.chunks.map Prod.fst))
    (hown : ∀ x ∈ group.deregister, x.2.1 ∈ group.chunks.map Prod.fst)
    (hgone : ∀ c ∈ group.chunks.map Prod.fst, c ∉ (group.commit s.index result).chunkFiles) :
    IndexDescribed U
      { s with
        index := group.commit s.index result
        compactor := .deleting (group.chunks.map Prod.snd) rest } tr := by
  obtain ⟨c, bytes, hw, hfile, hkeys⟩ := h.merged result (by rw [hc]; rfl)
  obtain ⟨hchunks, hreg, htags⟩ := h.register hU hw hfile hkeys hfree
  exact
    { inUse := { h.inUse with }
      chunks := by
        intro c' hc'
        have hother : c' ∉ group.chunks.map Prod.fst := fun hmem => hgone c' hmem hc'
        have hregistered : c' ∈
            (s.index.registerAll result.chunkMeta result.seriesResults).chunkFiles := by
          obtain ⟨m, hm⟩ := Option.isSome_iff_exists.mp
            (Std.ExtTreeMap.mem_iff_isSome_getElem?.mp hc')
          have hget := ChunkIndex.chunkFiles_of_deregisterAll _ _ hm
          exact Std.ExtTreeMap.mem_iff_isSome_getElem?.mpr (by rw [hget]; rfl)
        obtain ⟨ch, rfl, hfile', hdesc⟩ := hchunks c' hregistered hother
        refine ⟨ch, rfl, hfile', hdesc.deregisterAll fun x hx heq => ?_⟩
        exact hother (heq ▸ hown x hx)
      registry := by
        show ∀ sid key, ((s.index.registerAll _ _).deregisterAll _).seriesRegistry[sid]? = _ → _
        rw [ChunkIndex.seriesRegistry_deregisterAll]
        exact hreg
      tags := htags.deregisterAll _
      sweep := h.sweep
      merged := by simp [Compactor.result?] }

/-- What a group reads has keys in use. -/
theorem keys_of_readGroup (hlaw : Crates.LawfulLz4) (hU : KeysOk U) (h : IndexDescribed U s tr)
    (hkept : IndexKept s tr) {group : MergeGroup} (hgroup : group ∈ s.compactor.groups)
    {points : List DataPoint} (hread : readGroup s.disk.chunks group.chunks = .ok points) :
    ∀ p ∈ points, U p.key := by
  intro p hp
  obtain ⟨x, hx, bytes, ps, hget, hps, hmem⟩ := mem_readGroup hread hp
  have hid : x.1 ∈ s.compactor.groupIds :=
    List.mem_flatMap.mpr ⟨group, hgroup, List.mem_map_of_mem hx⟩
  obtain ⟨ch, hch, ⟨hfit, bytes', result, hw, hget', -⟩, hdesc⟩ := h.chunks x.1 (hkept.held _ hid)
  rw [(hkept.groups group hgroup).paths x hx, ← hch, hget'] at hget
  obtain rfl := Option.some.inj hget
  rw [readChunk_written hlaw hfit.written hw fun kp hkp => hU.codec kp.1 (hdesc.keys kp hkp)] at hps
  obtain rfl := Except.ok.inj hps
  obtain ⟨vec, hvec, -⟩ := exists_series_of_point hmem
  exact hdesc.keys _ hvec

/-- **Every step** that registers apart keeps the index complete. -/
theorem step (hlaw : Crates.LawfulLz4) (hU : KeysOk U) (h : IndexDescribed U s tr)
    (hkept : IndexKept s tr) (hsweep : SweepOk cfg s) (hstep : Step cfg s a s' es)
    (hkept' : IndexKept s' (tr ++ es)) (happart : RegistersApart s a) (hsize : SizesFit s a)
    (hkeys : ∀ p ∈ a.points, U p.key) : IndexDescribed U s' (tr ++ es) := by
  have huse := h.inUse.step hstep hkeys
  cases hstep with
  | @sweepWrite chunkId i data bytes result hs hw hnew =>
    have hwf := hsweep.drained i data hs
    have hdata : ∀ kp ∈ data.toList, U kp.1 := by
      refine keys_of_points hwf fun p hp => h.inUse.drained p ?_
      rw [hs]
      exact hp
    refine { h.writeChunk hnew bytes with inUse := huse, sweep := ?_ }
    rintro j r ⟨⟩
    exact carried_new (c := ⟨chunkId, data, nonempty_of_write hw, hwf⟩) hw
      (hsize data (by simp [Server.chunkData, hs])) hdata
  | sweepRegister hs hlock =>
    refine .later (h.sweepRegister hU.inj hs (happart (_, []) ?_)) _
    simp [Server.registering, hs]
  | @compactMerge chunkId group rest bytes result hc hm hnew =>
    obtain ⟨points, hread, hw⟩ := write_of_mergeGroup hm
    have hwf : (SeriesData.insertPoints ∅ points).Wf := SeriesData.wf_empty.insertPoints points
    have hgroup : group ∈ s.compactor.groups := by
      rw [hc]
      exact List.mem_cons_self ..
    have hdata : ∀ kp ∈ (SeriesData.insertPoints ∅ points).toList, U kp.1 := by
      refine keys_of_points hwf fun p hp => ?_
      rcases SeriesData.mem_insertPoints hp with hp | hp
      · exact h.keys_of_readGroup hlaw hU hkept hgroup hread p hp
      · rw [SeriesData.points_empty] at hp
        cases hp
    refine { h.writeChunk hnew bytes with inUse := huse, merged := ?_ }
    rintro r ⟨⟩
    exact carried_new (c := ⟨chunkId, _, nonempty_of_write hw, hwf⟩) hw
      (hsize _ (by simp [Server.chunkData, hc, hread, Except.toOption])) hdata
  | @compactCommit group result rest hc hlock =>
    have hgroup := hkept.groups group (by rw [hc]; exact List.mem_cons_self ..)
    refine .later (h.compactCommit hU.inj hc (happart (result, group.chunks.map Prod.fst) ?_)
      hgroup.own fun c hc' => ?_) _
    · simp [Server.registering, hc]
    · refine (hkept'.removing c ?_).2
      show c ∈ group.chunks.map Prod.snd
      rwa [List.map_congr_left hgroup.paths]
  | @compactDelete path paths rest hc =>
    have hpath : path ∈ s.compactor.removing := by
      rw [hc]
      exact List.mem_cons_self ..
    have hgone := (hkept.removing path hpath).2
    refine .later { h with inUse := huse, chunks := ?_, sweep := ?_, merged := ?_ } _
    · intro c hc'
      obtain ⟨ch, hid, hfile, hdesc⟩ := h.chunks c hc'
      refine ⟨ch, hid, hfile.erase ?_, hdesc⟩
      rintro rfl
      exact hgone (hid ▸ hc')
    · intro i result hs
      obtain ⟨c, bytes, hw, hfile, hdata⟩ := h.sweep i result hs
      refine ⟨c, bytes, hw, hfile.erase ?_, hdata⟩
      rintro rfl
      have hapart := (hkept.sweep i result hs).1.apart
      rw [chunkId_of_write hw] at hapart
      exact hapart (List.mem_append_left _ hpath)
    · simp [Compactor.result?]
  | compactFind _ _ => exact .later { h with inUse := huse, merged := by simp [Compactor.result?] } _
  | compactFail _ _ => exact .later { h with inUse := huse, merged := by simp [Compactor.result?] } _
  | compactNext _ => exact .later { h with inUse := huse, merged := by simp [Compactor.result?] } _
  | compactEnd _ => exact .later { h with inUse := huse, merged := by simp [Compactor.result?] } _
  | walDrain _ => exact .later { h with inUse := huse, sweep := by simp } _
  | sweepDrain _ _ => exact .later { h with inUse := huse, sweep := by simp } _
  | sweepSkip _ _ => exact .later { h with inUse := huse, sweep := by simp } _
  | sweepFail _ _ => exact .later { h with inUse := huse, sweep := by simp } _
  | sweepReadSequence _ => exact .later { h with inUse := huse, sweep := by simp } _
  | sweepPublish _ => exact .later { h with inUse := huse, sweep := by simp } _
  | sweepRequestDrain _ => exact .later { h with inUse := huse, sweep := by simp } _
  | sweepDelete _ => exact .later { h with inUse := huse, sweep := by simp } _
  | sweepDone _ => exact .later { h with inUse := huse, sweep := by simp } _
  | _ => exact .later { h with inUse := huse } _

end IndexDescribed

end

end Micius

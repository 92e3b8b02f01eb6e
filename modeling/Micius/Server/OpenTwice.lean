import Micius.Server.Crash

/-!
# Opening a store twice

A crash or an error in the middle of `open` leaves the effect of a first part
of its operations on the disk. The chunk files among them are in no snapshot,
so the next `open` has to replay the log again: it serves the same points if
no segment with points above the watermark was deleted before.

The two runs write the same points under different chunk ids. `SameStore`
relates stores which differ in nothing else; queries do not see the ids.
-/

namespace Micius

section

variable [Crates]

/-! ## Stores up to chunk ids -/

omit [Crates] in
/-- The file that the index has for a chunk. -/
def ChunkIndex.fileOf (idx : ChunkIndex) (dir : ChunkDir) (chunkId : ChunkId) : Option Bytes :=
  (idx.chunkFiles[chunkId]?).bind fun m => dir[m.filePath]?

/-- The id is new to the index: no entry has it and no file has its path. -/
structure ChunkIndex.Unnamed (idx : ChunkIndex) (chunkId : ChunkId) : Prop where
  entries : ∀ sid t e, idx.entryAt sid t = some e → e.chunkId ≠ chunkId
  paths : ∀ (c : ChunkId) m, idx.chunkFiles[c]? = some m → m.filePath ≠ chunkId

/-- Files that are read alike. -/
def SameFile (bytes bytes' : Bytes) : Prop :=
  ∀ key lo hi, readSeries bytes key lo hi = readSeries bytes' key lo hi

/-- Entries of one series, over one range, whose files are read alike. -/
structure SameEntry (file file' : ChunkId → Option Bytes) (e e' : SeriesChunkEntry) : Prop where
  seriesId : e.seriesId = e'.seriesId
  timeEndNs : e.timeEndNs = e'.timeEndNs
  file : Option.Rel SameFile (file e.chunkId) (file' e'.chunkId)

/-- Two stores with the same series, whose entries stand at the same places
and lead to files that are read alike. -/
structure SameStore (idx : ChunkIndex) (dir : ChunkDir) (idx' : ChunkIndex) (dir' : ChunkDir) :
    Prop where
  registry : idx.seriesRegistry = idx'.seriesRegistry
  tags : idx.tagIndex = idx'.tagIndex
  entries : ∀ sid t, Option.Rel (SameEntry (idx.fileOf dir) (idx'.fileOf dir'))
    (idx.entryAt sid t) (idx'.entryAt sid t)

omit [Crates] in
theorem rel_symm {α β : Type} {R : α → β → Prop} {R' : β → α → Prop}
    (himp : ∀ a b, R a b → R' b a) {o : Option α} {o' : Option β} (h : Option.Rel R o o') :
    Option.Rel R' o' o := by
  cases h with
  | none => exact .none
  | some hr => exact .some (himp _ _ hr)

/-- What a query reads in a file, for a series with a key. -/
def readFile (q : Query) (seriesId : SeriesId) : Option Bytes → Option SeriesKey →
    List QueryResponse
  | some bytes, some key =>
    match readSeries bytes key q.timeStartNs q.timeEndNs with
    | .ok (some points) => points.map fun p => ⟨seriesId, p.timestampNs, p.value⟩
    | .ok none => []
    | .error _ => []
  | _, _ => []

theorem readEntry_scanIndex {q : Query} {idx : ChunkIndex} {dir : ChunkDir} {e : SeriesChunkEntry}
    (he : e ∈ (scanIndex q idx).chunks) : readEntry q dir (scanIndex q idx) e =
      readFile q e.seriesId (idx.fileOf dir e.chunkId) (idx.seriesRegistry[e.seriesId]?) := by
  rw [readEntry, paths_scanIndex he, keys_scanIndex he, ChunkIndex.fileOf]
  cases idx.chunkFiles[e.chunkId]? with
  | none => rfl
  | some m =>
    cases idx.seriesRegistry[e.seriesId]? with
    | none =>
      show [] = readFile q e.seriesId dir[m.filePath]? none
      cases dir[m.filePath]? <;> rfl
    | some key =>
      dsimp only [Option.map_some, Option.bind_some]
      cases dir[m.filePath]? <;> rfl

theorem readFile_of_same {q : Query} {sid : SeriesId} {file file' : Option Bytes}
    (h : Option.Rel SameFile file file') (key : Option SeriesKey) :
    readFile q sid file key = readFile q sid file' key := by
  cases h with
  | none => rfl
  | some hsame =>
    cases key with
    | none => rfl
    | some key => rw [readFile, readFile, hsame]

namespace SameStore

variable {idx idx' : ChunkIndex} {dir dir' : ChunkDir}

theorem symm (h : SameStore idx dir idx' dir') : SameStore idx' dir' idx dir where
  registry := h.registry.symm
  tags := h.tags.symm
  entries sid t := rel_symm (fun _ _ he => ⟨he.seriesId.symm, he.timeEndNs.symm,
    rel_symm (fun _ _ hf key lo hi => (hf key lo hi).symm) he.file⟩) (h.entries sid t)

theorem mem_of_mem (h : SameStore idx dir idx' dir') {q : Query} {r : QueryResponse}
    (hr : r ∈ queryChunks q idx dir) : r ∈ queryChunks q idx' dir' := by
  obtain ⟨e, he, hr⟩ := List.mem_flatMap.mp hr
  rw [readEntry_scanIndex he] at hr
  obtain ⟨sid, hsid, hprune⟩ := List.mem_flatMap.mp he
  obtain ⟨t, hget, hhi, hlo⟩ := ChunkIndex.mem_pruneChunks.mp hprune
  have hrel := h.entries sid t
  rw [hget] at hrel
  generalize hget' : idx'.entryAt sid t = o at hrel
  obtain ⟨hsame⟩ := hrel
  next e' =>
    have he' : e' ∈ (scanIndex q idx').chunks := by
      have hresolved := ChunkIndex.resolveSeries_congr h.registry h.tags q.metricName q.tags
      refine List.mem_flatMap.mpr ⟨sid, hresolved ▸ hsid, ?_⟩
      exact ChunkIndex.mem_pruneChunks.mpr ⟨t, hget', hhi, hsame.timeEndNs ▸ hlo⟩
    refine List.mem_flatMap.mpr ⟨e', he', ?_⟩
    rw [readEntry_scanIndex he', ← readFile_of_same hsame.file, ← h.registry, ← hsame.seriesId]
    exact hr

/-- **Queries** do not tell the stores apart. -/
theorem mem_queryChunks (h : SameStore idx dir idx' dir') {q : Query} {r : QueryResponse} :
    r ∈ queryChunks q idx dir ↔ r ∈ queryChunks q idx' dir' :=
  ⟨h.mem_of_mem, h.symm.mem_of_mem⟩

end SameStore

/-! ## One chunk under two ids -/

section Rename

variable (encoded : List EncodedSeries) (id id' : ChunkId) (chunkMeta chunkMeta' : ChunkMeta)

/-- A slot is taken under both ids, by the same series, or under none. -/
theorem entryAt_registerAll_ids (idx idx' : ChunkIndex) (sid : SeriesId) (t : Int64) :
    (∃ s ∈ encoded,
      (idx.registerAll chunkMeta (encoded.map (seriesResult id))).entryAt sid t =
        some (seriesResult id s).entry ∧
      (idx'.registerAll chunkMeta' (encoded.map (seriesResult id'))).entryAt sid t =
        some (seriesResult id' s).entry) ∨
    ((idx.registerAll chunkMeta (encoded.map (seriesResult id))).entryAt sid t =
        idx.entryAt sid t ∧
      (idx'.registerAll chunkMeta' (encoded.map (seriesResult id'))).entryAt sid t =
        idx'.entryAt sid t) := by
  induction encoded generalizing idx idx' with
  | nil => exact .inr ⟨rfl, rfl⟩
  | cons s encoded ih =>
    rw [List.map_cons, List.map_cons]
    rcases ih (idx.register (seriesResult id s).seriesKey (seriesResult id s).entry
        (seriesResult id s).stats chunkMeta)
      (idx'.register (seriesResult id' s).seriesKey (seriesResult id' s).entry
        (seriesResult id' s).stats chunkMeta') with ⟨s', hs', hget, hget'⟩ | ⟨hget, hget'⟩
    · exact .inl ⟨s', by simp [hs'], hget, hget'⟩
    · rw [ChunkIndex.entryAt_register] at hget hget'
      by_cases hslot : sid = s.key.id ∧ t = s.timeStartNs
      · refine .inl ⟨s, by simp, hget.trans (if_pos hslot), hget'.trans (if_pos hslot)⟩
      · exact .inr ⟨hget.trans (if_neg hslot), hget'.trans (if_neg hslot)⟩

theorem series_registerAll_ids {idx idx' : ChunkIndex}
    (hregistry : idx.seriesRegistry = idx'.seriesRegistry) (htags : idx.tagIndex = idx'.tagIndex) :
    (idx.registerAll chunkMeta (encoded.map (seriesResult id))).seriesRegistry =
        (idx'.registerAll chunkMeta' (encoded.map (seriesResult id'))).seriesRegistry ∧
      (idx.registerAll chunkMeta (encoded.map (seriesResult id))).tagIndex =
        (idx'.registerAll chunkMeta' (encoded.map (seriesResult id'))).tagIndex := by
  induction encoded generalizing idx idx' with
  | nil => exact ⟨hregistry, htags⟩
  | cons s encoded ih =>
    refine ih ?_ ?_
    · simp only [ChunkIndex.register, hregistry]
      rfl
    · simp only [ChunkIndex.register, hregistry, htags]
      rfl

end Rename

/-- The write of a chunk under another id. -/
theorem write_other_id {id : ChunkId} {data : SeriesData} {bytes : Bytes}
    {result : ChunkWriteResult} (hw : ChunkWriter.write id data = .ok (bytes, result))
    (id' : ChunkId) : ∃ (encoded : List EncodedSeries) (bytes' : Bytes),
      result = ⟨id, ⟨id, bytes.length⟩, encoded.map (seriesResult id)⟩ ∧
      ChunkWriter.write id' data =
        .ok (bytes', ⟨id', ⟨id', bytes'.length⟩, encoded.map (seriesResult id')⟩) := by
  unfold ChunkWriter.write at hw ⊢
  split at hw
  · cases hw
  · next hne =>
    rw [if_neg hne]
    split at hw
    · cases hw
    · next encoded henc =>
      obtain ⟨rfl, rfl⟩ := Prod.mk.inj (Except.ok.inj hw)
      exact ⟨encoded, _, rfl, rfl⟩

namespace ChunkIndex

variable {idx : ChunkIndex} {dir : ChunkDir} {id : ChunkId} {chunkMeta : ChunkMeta}
  {encoded : List EncodedSeries}

theorem chunkFiles_registerAll_id (c : ChunkId) :
    (idx.registerAll chunkMeta (encoded.map (seriesResult id))).chunkFiles[c]? =
      if c = id ∧ encoded ≠ [] then some chunkMeta else idx.chunkFiles[c]? := by
  have hid : ∀ s ∈ encoded.map (seriesResult id), s.entry.chunkId = id := by
    intro s hs
    obtain ⟨s', -, rfl⟩ := List.mem_map.mp hs
    rfl
  simp only [chunkFiles_registerAll chunkMeta _ idx hid, ne_eq, List.map_eq_nil_iff]

/-- The file of the chunk registered. -/
theorem fileOf_registerAll_self (hpath : chunkMeta.filePath = id) (hne : encoded ≠ [])
    (bytes : Bytes) : (idx.registerAll chunkMeta (encoded.map (seriesResult id))).fileOf
      (dir.insert id bytes) id = some bytes := by
  rw [fileOf, chunkFiles_registerAll_id, if_pos ⟨rfl, hne⟩, Option.bind_some, hpath]
  exact Std.ExtTreeMap.getElem?_insert_self

/-- The files of the other chunks. -/
theorem fileOf_registerAll_of_ne (hnew : idx.Unnamed id) {c : ChunkId} (hc : c ≠ id)
    (bytes : Bytes) : (idx.registerAll chunkMeta (encoded.map (seriesResult id))).fileOf
      (dir.insert id bytes) c = idx.fileOf dir c := by
  rw [fileOf, fileOf, chunkFiles_registerAll_id, if_neg fun h => hc h.1]
  cases hfile : idx.chunkFiles[c]? with
  | none => rfl
  | some m =>
    show (dir.insert id bytes)[m.filePath]? = dir[m.filePath]?
    rw [TreeMap.getElem?_insert_eq, if_neg (hnew.paths c m hfile)]

theorem Unnamed.registerAll {c : ChunkId} (h : idx.Unnamed c) (hpath : chunkMeta.filePath = id)
    (hc : id ≠ c) : (idx.registerAll chunkMeta (encoded.map (seriesResult id))).Unnamed c where
  entries sid t e he := by
    rcases entryAt_registerAll chunkMeta (encoded.map (seriesResult id)) idx sid t with
      ⟨s, hs, -, -, hget⟩ | ⟨-, hget⟩
    · obtain ⟨s', -, rfl⟩ := List.mem_map.mp hs
      rw [hget] at he
      rw [← Option.some.inj he]
      exact hc
    · exact h.entries sid t e (hget ▸ he)
  paths c' m hm := by
    rw [chunkFiles_registerAll_id] at hm
    split at hm
    · rw [← Option.some.inj hm, hpath]
      exact hc
    · exact h.paths c' m hm

end ChunkIndex

/-- **Registering the same data** under ids that are new to the stores. -/
theorem SameStore.register (hlaw : Crates.LawfulLz4) {idx idx' : ChunkIndex} {dir dir' : ChunkDir}
    (h : SameStore idx dir idx' dir') {id id' : ChunkId} (hnew : idx.Unnamed id)
    (hnew' : idx'.Unnamed id') {data : SeriesData} (hfit : data.Fits) {bytes bytes' : Bytes}
    {encoded : List EncodedSeries}
    (hw : ChunkWriter.write id data =
      .ok (bytes, ⟨id, ⟨id, bytes.length⟩, encoded.map (seriesResult id)⟩))
    (hw' : ChunkWriter.write id' data =
      .ok (bytes', ⟨id', ⟨id', bytes'.length⟩, encoded.map (seriesResult id')⟩)) :
    SameStore (idx.registerAll ⟨id, bytes.length⟩ (encoded.map (seriesResult id)))
      (dir.insert id bytes) (idx'.registerAll ⟨id', bytes'.length⟩ (encoded.map (seriesResult id')))
      (dir'.insert id' bytes') where
  registry := (series_registerAll_ids encoded id id' _ _ h.registry h.tags).1
  tags := (series_registerAll_ids encoded id id' _ _ h.registry h.tags).2
  entries sid t := by
    have hread : SameFile bytes bytes' := fun key lo hi =>
      (readSeries_written hlaw hfit.written hw key lo hi).trans
        (readSeries_written hlaw hfit.written hw' key lo hi).symm
    rcases entryAt_registerAll_ids encoded id id' ⟨id, bytes.length⟩ ⟨id', bytes'.length⟩ idx idx'
      sid t with ⟨s, hs, hget, hget'⟩ | ⟨hget, hget'⟩
    · rw [hget, hget']
      have hne : encoded ≠ [] := List.ne_nil_of_mem hs
      refine .some ⟨rfl, rfl, ?_⟩
      show Option.Rel SameFile (ChunkIndex.fileOf _ _ id) (ChunkIndex.fileOf _ _ id')
      rw [ChunkIndex.fileOf_registerAll_self rfl hne, ChunkIndex.fileOf_registerAll_self rfl hne]
      exact .some hread
    · have hold := h.entries sid t
      rw [hget, hget']
      cases he : idx.entryAt sid t with
      | none =>
        rw [he] at hold
        generalize idx'.entryAt sid t = o at hold ⊢
        cases hold
        exact .none
      | some e =>
        rw [he] at hold
        cases he' : idx'.entryAt sid t with
        | none =>
          rw [he'] at hold
          cases hold
        | some e' =>
          rw [he'] at hold
          obtain ⟨hsame⟩ := hold
          refine .some ⟨hsame.seriesId, hsame.timeEndNs, ?_⟩
          rw [ChunkIndex.fileOf_registerAll_of_ne hnew (hnew.entries _ _ _ he),
            ChunkIndex.fileOf_registerAll_of_ne hnew' (hnew'.entries _ _ _ he')]
          exact hsame.file

/-! ## The logs after a stop -/

/-- Deleting files without points above the watermark changes nothing for the
replay. -/
theorem flatMap_segmentPoints_run {dir : WalDir} {ops : List WalOp} {w : Nat}
    (hops : ∀ op ∈ ops, ∃ seg, op = .create seg ∨ op = .remove seg)
    (hkeep : ∀ seg, .remove seg ∈ ops → ∀ buf, dir[seg]? = some buf → segmentPoints w buf = []) :
    (dir.run ops).files.flatMap (segmentPoints w) = dir.files.flatMap (segmentPoints w) := by
  induction ops generalizing dir with
  | nil => rfl
  | cons op ops ih =>
    have hstep : (dir.apply op).files.flatMap (segmentPoints w) =
        dir.files.flatMap (segmentPoints w) := by
      simp only [WalDir.files, List.flatMap_map]
      obtain ⟨seg, rfl | rfl⟩ := hops op (by simp)
      · rw [WalDir.apply]
        split
        · rfl
        · next hnew =>
          exact TreeMap.flatMap_toList_insert (Std.ExtTreeMap.getElem?_eq_none hnew) rfl
      · exact TreeMap.flatMap_toList_erase dir fun buf hbuf => hkeep seg (by simp) buf hbuf
    rw [WalDir.run_cons, ih (fun op' hop' => hops op' (by simp [hop'])), hstep]
    intro seg hseg buf hbuf
    have hone : (dir.run [op])[seg]? = some buf := hbuf
    rcases files_of_creates (fun op' hop' => hops op' (by simp_all)) hone with rfl | hold
    · rfl
    · exact hkeep seg (by simp [hseg]) buf hold

theorem recover_run {dir : WalDir} {ops : List WalOp} {w : Nat} {r : RecoveryResult}
    (hops : ∀ op ∈ ops, ∃ seg, op = .create seg ∨ op = .remove seg)
    (hkeep : ∀ seg, .remove seg ∈ ops → ∀ buf, dir[seg]? = some buf → segmentPoints w buf = [])
    (hr : recover dir w = .ok r) :
    ∃ r', recover (dir.run ops) w = .ok r' ∧ r'.points = r.points := by
  obtain ⟨ps, hps, -⟩ := recover_ok_iff.mp hr
  have hparse := parseFiles_ok_iff.mp ⟨ps, hps⟩
  have hparse' : ∀ buf ∈ (dir.run ops).files, ∃ p, parseSegment buf (buf.length + 1) 0 = .ok p := by
    intro buf hbuf
    obtain ⟨x, hx, rfl⟩ := List.mem_map.mp hbuf
    rcases files_of_creates hops (Std.ExtTreeMap.mem_toList_iff_getElem?_eq_some.mp hx) with
      hnil | hold
    · rw [hnil]
      exact ⟨_, rfl⟩
    · exact hparse _ (List.mem_map.mpr
        ⟨x, Std.ExtTreeMap.mem_toList_iff_getElem?_eq_some.mpr hold, rfl⟩)
  obtain ⟨ps', hps'⟩ := parseFiles_ok_iff.mpr hparse'
  have hr' : recover (dir.run ops) w = .ok (.ofParsed w ps') :=
    recover_ok_iff.mpr ⟨ps', hps', rfl⟩
  exact ⟨_, hr', by rw [points_recover hr', points_recover hr, flatMap_segmentPoints_run hops hkeep]⟩

/-! ## The operations of `open` -/

/-- An operation of an `open` that uses the ids: a recovery chunk, a new
segment or the deletion of one. -/
inductive IsOpenOp (chunkIds : Nat → ChunkId) (shards : List Nat) : DiskOp → Prop
  | writeChunk {i : Nat} (hi : i ∈ shards) (bytes : Bytes) :
      IsOpenOp chunkIds shards (.writeChunk (chunkIds i) bytes)
  | create (i seg : Nat) : IsOpenOp chunkIds shards (.wal i (.create seg))
  | remove (i seg : Nat) : IsOpenOp chunkIds shards (.wal i (.remove seg))

theorem isOpenOp_of_openShard {cfg : StorageConfig} {chunkIds : Nat → ChunkId} {i : Nat}
    {shards : List Nat} (hi : i ∈ shards) {idx idx' : ChunkIndex} {d : Disk} {writer : WalWriter}
    {ops : List DiskOp} (h : openShard cfg i idx d (chunkIds i) = .ok (idx', writer, ops)) :
    ∀ op ∈ ops, IsOpenOp chunkIds shards op := by
  obtain ⟨r, chunkOps, -, hchunk, -, rfl⟩ := openShard_ok h
  intro op hop
  rcases List.mem_append.mp hop with hop | hop
  · cases hchunk with
    | nothing _ => cases hop
    | chunk _ _ _ =>
      rw [List.mem_singleton.mp hop]
      exact .writeChunk hi _
  · obtain ⟨walOp, hwal, rfl⟩ := List.mem_map.mp hop
    obtain ⟨seg, rfl | rfl⟩ := (openWalShard_spec cfg _ _ r).2.2.2 walOp hwal
    · exact .create i seg
    · exact .remove i seg

/-- Whether `open` succeeds or not. -/
theorem isOpenOp_of_openShards {cfg : StorageConfig} {chunkIds : Nat → ChunkId}
    {all shards : List Nat} (hall : ∀ i ∈ shards, i ∈ all) (idx : ChunkIndex) (d : Disk) :
    ∀ op ∈ (openShards cfg chunkIds shards idx d).2, IsOpenOp chunkIds all op := by
  induction shards generalizing idx d with
  | nil => simp [openShards]
  | cons i shards ih =>
    rw [openShards]
    split
    · simp
    · next idx' writer ops hturn =>
      have hrest := ih (fun j hj => hall j (by simp [hj])) idx' (d.run ops)
      have happend : ∀ op ∈ ops ++ (openShards cfg chunkIds shards idx' (d.run ops)).2,
          IsOpenOp chunkIds all op := by
        intro op hop
        rcases List.mem_append.mp hop with hop | hop
        · exact isOpenOp_of_openShard (hall i (by simp)) hturn op hop
        · exact hrest op hop
      split
      · next heq =>
        rw [heq] at happend
        exact happend
      · next heq =>
        rw [heq] at happend
        exact happend

theorem openStore_ops (cfg : StorageConfig) (chunkIds : Nat → ChunkId) (d : Disk) :
    (openStore cfg chunkIds d).2 =
      (openShards cfg chunkIds (List.range cfg.numShards) d.loadedIndex d).2 := by
  rw [openStore, Disk.loadedIndex]
  split
  · next heq => rw [heq]
  · next heq => rw [heq]

theorem isOpenOp_of_openStore {cfg : StorageConfig} {chunkIds : Nat → ChunkId} {d : Disk}
    {op : DiskOp} (hop : op ∈ (openStore cfg chunkIds d).2) :
    IsOpenOp chunkIds (List.range cfg.numShards) op := by
  rw [openStore_ops] at hop
  exact isOpenOp_of_openShards (fun i hi => hi) d.loadedIndex d op hop

omit [Crates] in
/-- What `open` does not touch. -/
theorem run_openOps {chunkIds : Nat → ChunkId} {shards : List Nat} {ops : List DiskOp}
    (hops : ∀ op ∈ ops, IsOpenOp chunkIds shards op) (d : Disk) :
    (d.run ops).snapshot = d.snapshot ∧ ∀ path, (∀ i ∈ shards, path ≠ chunkIds i) →
      (d.run ops).chunks[path]? = d.chunks[path]? := by
  induction ops generalizing d with
  | nil => exact ⟨rfl, fun _ _ => rfl⟩
  | cons op ops ih =>
    obtain ⟨hsnapshot, hchunks⟩ := ih (fun op' hop' => hops op' (by simp [hop'])) (d.apply op)
    cases hops op (by simp) with
    | @writeChunk i hi bytes =>
      refine ⟨hsnapshot, fun path hpath => (hchunks path hpath).trans ?_⟩
      exact (TreeMap.getElem?_insert_eq ..).trans (if_neg (hpath i hi))
    | create i seg => exact ⟨hsnapshot, hchunks⟩
    | remove i seg => exact ⟨hsnapshot, hchunks⟩

/-! ## The second `open` -/

/-- The ids of the recovery chunks are new to the index and differ. -/
structure NewIds (chunkIds : Nat → ChunkId) (shards : List Nat) (idx : ChunkIndex) : Prop where
  unnamed : ∀ i ∈ shards, idx.Unnamed (chunkIds i)
  inj : ∀ i ∈ shards, ∀ j ∈ shards, chunkIds i = chunkIds j → i = j

theorem NewIds.turn {chunkIds : Nat → ChunkId} {i : Nat} {shards : List Nat}
    {idx idx' : ChunkIndex} (h : NewIds chunkIds (i :: shards) idx) (hi : i ∉ shards)
    {chunks : ChunkDir} {points : List DataPoint} {ops : List DiskOp}
    (hrec : RecoversTo idx chunks (chunkIds i) points idx' ops) : NewIds chunkIds shards idx' where
  unnamed j hj := by
    have hj' : idx.Unnamed (chunkIds j) := h.unnamed j (by simp [hj])
    cases hrec with
    | nothing _ => exact hj'
    | chunk _ hw _ =>
      obtain ⟨encoded, bytes', rfl, -⟩ := write_other_id hw (chunkIds i)
      refine hj'.registerAll rfl fun heq => ?_
      exact hi (h.inj i (by simp) j (by simp [hj]) heq ▸ hj)
  inj j hj k hk := h.inj j (by simp [hj]) k (by simp [hk])

/-- The turn of a shard that replays the same points under another id. -/
theorem RecoversTo.same (hlaw : Crates.LawfulLz4) {idx idx' idx₁ : ChunkIndex} {d d' : Disk}
    {id id' : ChunkId} {points : List DataPoint} {ops : List DiskOp}
    (h : RecoversTo idx d.chunks id points idx₁ ops)
    (hsame : SameStore idx d.chunks idx' d'.chunks) (hnew : idx.Unnamed id)
    (hnew' : idx'.Unnamed id') (habsent : id' ∉ d'.chunks)
    (hfit : (SeriesData.insertPoints ∅ points).Fits) :
    ∃ idx₂ ops', RecoversTo idx' d'.chunks id' points idx₂ ops' ∧
      SameStore idx₁ (d.run ops).chunks idx₂ (d'.run ops').chunks := by
  cases h with
  | nothing hnil => exact ⟨idx', [], .nothing hnil, hsame⟩
  | chunk hne hw _ =>
    obtain ⟨encoded, bytes', rfl, hw'⟩ := write_other_id hw id'
    exact ⟨_, _, .chunk hne hw' habsent, hsame.register hlaw hnew hnew' hfit hw hw'⟩

/-- The logs of the second disk give the points of the first, and these fit
in a chunk. -/
def SameReplay (idx : ChunkIndex) (d : Disk) (idx' : ChunkIndex) (d' : Disk)
    (shards : List Nat) : Prop :=
  ∀ i ∈ shards, ∀ r, recover (d.wal i) (idx.watermark i) = .ok r →
    (SeriesData.insertPoints ∅ r.points).Fits ∧
      ∃ r', recover (d'.wal i) (idx'.watermark i) = .ok r' ∧ r'.points = r.points

/-- **The loop over the shards**, on a disk which gives the same points. -/
theorem OpensShards.same (hlaw : Crates.LawfulLz4) {cfg : StorageConfig} {ids ids' : Nat → ChunkId}
    {shards : List Nat} {idx idx₁ idx' : ChunkIndex} {d d' : Disk} {wals : List WalWriter}
    {ops : List DiskOp} (h : OpensShards cfg ids shards idx d idx₁ wals ops)
    (hnodup : shards.Nodup) (hsame : SameStore idx d.chunks idx' d'.chunks)
    (hreplay : SameReplay idx d idx' d' shards) (hnew : NewIds ids shards idx)
    (hnew' : NewIds ids' shards idx') (habsent : ∀ i ∈ shards, ids' i ∉ d'.chunks) :
    ∃ idx₂ wals' ops', openShards cfg ids' shards idx' d' = (.ok (idx₂, wals'), ops') ∧
      SameStore idx₁ (d.run ops).chunks idx₂ (d'.run ops').chunks := by
  induction h generalizing idx' d' with
  | nil => exact ⟨idx', [], [], rfl, hsame⟩
  | @cons i shards idx idx₁ idx₂ d writer wals ops restOps hturn hrest ih =>
    obtain ⟨hi, hnodup⟩ := List.nodup_cons.mp hnodup
    obtain ⟨r, chunkOps, hr, hrec, -, rfl⟩ := openShard_ok hturn
    obtain ⟨hfit, r', hr', hpoints⟩ := hreplay i (by simp) r hr
    obtain ⟨idx₁', chunkOps', hrec', hsame₁⟩ := hrec.same hlaw hsame (hnew.unnamed i (by simp))
      (hnew'.unnamed i (by simp)) (habsent i (by simp)) hfit
    obtain ⟨writer', walOps', hturn'⟩ : ∃ (writer' : WalWriter) (walOps' : List WalOp),
        openShard cfg i idx' d' (ids' i) = .ok (idx₁', writer', chunkOps' ++ walOps'.map (.wal i)) :=
      ⟨_, _, openShard_of_recoversTo hr' (hpoints ▸ hrec')⟩
    generalize (openWalShard cfg (d.wal i) (idx.watermark i) r).2 = walOps at *
    -- the operations on the log change no chunk
    have hchunks : ∀ (e : Disk) (ops : List DiskOp) (walOps : List WalOp),
        (e.run (ops ++ walOps.map (.wal i))).chunks = (e.run ops).chunks := by
      intro e ops walOps
      rw [Disk.run_append, run_map_wal]
      rfl
    have hreplay₁ : SameReplay idx₁ (d.run (chunkOps ++ walOps.map (.wal i))) idx₁'
        (d'.run (chunkOps' ++ walOps'.map (.wal i))) shards := by
      intro j hj
      have hne : j ≠ i := fun heq => hi (heq ▸ hj)
      rw [hrec.wal_turn, hrec'.wal_turn, if_neg hne, if_neg hne, hrec.watermark, hrec'.watermark]
      exact hreplay j (by simp [hj])
    have habsent₁ : ∀ j ∈ shards,
        ids' j ∉ (d'.run (chunkOps' ++ walOps'.map (.wal i))).chunks := by
      intro j hj hmem
      rw [hchunks] at hmem
      cases hrec' with
      | nothing _ => exact habsent j (by simp [hj]) hmem
      | chunk _ _ _ =>
        rcases Std.ExtTreeMap.mem_insert.mp hmem with hid | hmem
        · have hid := Std.LawfulEqCmp.eq_of_compare hid
          exact hi (hnew'.inj i (by simp) j (by simp [hj]) hid ▸ hj)
        · exact habsent j (by simp [hj]) hmem
    rw [← hchunks d chunkOps walOps, ← hchunks d' chunkOps' walOps'] at hsame₁
    obtain ⟨idx₂', wals', restOps', hrest', hsame₂⟩ := ih hnodup hsame₁ hreplay₁
      (hnew.turn hi hrec) (hnew'.turn hi hrec') habsent₁
    refine ⟨idx₂', writer' :: wals', (chunkOps' ++ walOps'.map (.wal i)) ++ restOps', ?_, ?_⟩
    · rw [openShards, hturn']
      simp only [hrest']
    · rw [Disk.run_append d _ restOps, Disk.run_append d' _ restOps']
      exact hsame₂

/-! ## Stops -/

/-- The disk when `open` stops after the operations `done`, by a crash or an
error; the file of a recovery chunk may be incomplete. -/
inductive StopsAfter (d : Disk) (ops done : List DiskOp) : Disk → Prop
  | between {rest : List DiskOp} (h : ops = done ++ rest) : StopsAfter d ops done (d.run done)
  | inChunk {path : ChunkPath} {bytes : Bytes} {rest : List DiskOp}
      (h : ops = done ++ .writeChunk path bytes :: rest) (written : Nat) :
      StopsAfter d ops done ((d.run done).apply (.writeChunk path (bytes.take written)))

/-- The operation does not delete a segment with points above the watermark. -/
def Disk.keepsReplayed (d : Disk) : DiskOp → Bool
  | .wal i (.remove seg) =>
    ((d.wal i)[seg]?).all fun buf => (segmentPoints (d.watermark i) buf).isEmpty
  | _ => true

namespace StopsAfter

variable {cfg : StorageConfig} {ids : Nat → ChunkId} {d d' : Disk} {done : List DiskOp}

theorem isOpenOp (h : StopsAfter d (openStore cfg ids d).2 done d') :
    ∀ op ∈ done, IsOpenOp ids (List.range cfg.numShards) op := by
  intro op hop
  have hmem : op ∈ (openStore cfg ids d).2 := by
    cases h with
    | between h => exact h ▸ List.mem_append_left _ hop
    | inChunk h _ => exact h ▸ List.mem_append_left _ hop
  exact isOpenOp_of_openStore hmem

theorem snapshot (h : StopsAfter d (openStore cfg ids d).2 done d') :
    d'.snapshot = d.snapshot := by
  have hrun := (run_openOps h.isOpenOp d).1
  cases h with
  | between _ => exact hrun
  | inChunk _ _ => exact hrun

theorem wal (h : StopsAfter d (openStore cfg ids d).2 done d') (i : Nat) :
    d'.wal i = (d.wal i).run (done.filterMap (DiskOp.onWal i)) := by
  rw [← Disk.wal_run]
  cases h <;> rfl

theorem chunks (h : StopsAfter d (openStore cfg ids d).2 done d') {path : ChunkPath}
    (hpath : ∀ i ∈ List.range cfg.numShards, path ≠ ids i) :
    d'.chunks[path]? = d.chunks[path]? := by
  have hrun := (run_openOps h.isOpenOp d).2 path hpath
  cases h with
  | between _ => exact hrun
  | @inChunk path' bytes rest h written =>
    have hop : IsOpenOp ids (List.range cfg.numShards) (.writeChunk path' bytes) :=
      isOpenOp_of_openStore (by rw [h]; simp)
    obtain ⟨hi, -⟩ := hop
    exact ((TreeMap.getElem?_insert_eq ..).trans (if_neg (hpath _ hi))).trans hrun

/-- The logs give the same points again. -/
theorem recover (h : StopsAfter d (openStore cfg ids d).2 done d')
    (hkeep : ∀ op ∈ done, d.keepsReplayed op = true) {i : Nat} {r : RecoveryResult}
    (hr : Micius.recover (d.wal i) (d.watermark i) = .ok r) :
    ∃ r', Micius.recover (d'.wal i) (d.watermark i) = .ok r' ∧ r'.points = r.points := by
  have hmem : ∀ op ∈ done.filterMap (DiskOp.onWal i), DiskOp.wal i op ∈ done := by
    intro op hop
    obtain ⟨diskOp, hdone, hon⟩ := List.mem_filterMap.mp hop
    cases diskOp with
    | wal j op' =>
      rw [DiskOp.onWal] at hon
      split at hon
      · next hj => exact hj ▸ Option.some.inj hon ▸ hdone
      · cases hon
    | _ => cases hon
  rw [h.wal]
  refine recover_run (fun op hop => ?_) (fun seg hseg buf hbuf => ?_) hr
  · cases h.isOpenOp _ (hmem op hop) with
    | create _ seg => exact ⟨seg, .inl rfl⟩
    | remove _ seg => exact ⟨seg, .inr rfl⟩
  · have hnil := hkeep _ (hmem _ hseg)
    rw [Disk.keepsReplayed, hbuf, Option.all_some] at hnil
    exact List.isEmpty_iff.mp hnil

end StopsAfter

/-- The index of the snapshot with files that are still there. -/
theorem SameStore.of_files {idx : ChunkIndex} {dir dir' : ChunkDir}
    (h : ∀ (c : ChunkId) m, idx.chunkFiles[c]? = some m → dir[m.filePath]? = dir'[m.filePath]?) :
    SameStore idx dir idx dir' where
  registry := rfl
  tags := rfl
  entries sid t := by
    cases idx.entryAt sid t with
    | none => exact .none
    | some e =>
      have hfile : idx.fileOf dir e.chunkId = idx.fileOf dir' e.chunkId := by
        rw [ChunkIndex.fileOf, ChunkIndex.fileOf]
        cases hm : idx.chunkFiles[e.chunkId]? with
        | none => rfl
        | some m => exact h e.chunkId m hm
      refine .some ⟨rfl, rfl, ?_⟩
      rw [hfile]
      cases idx.fileOf dir' e.chunkId with
      | none => exact .none
      | some bytes => exact .some fun _ _ _ => rfl

/-- A server that was just opened answers from its chunks. -/
theorem mem_query_of_open {cfg : StorageConfig} {ids : Nat → ChunkId} {d : Disk} {s : Server}
    (hopen : (openStore cfg ids d).1 = .ok s) {q : Query} {r : QueryResponse} :
    r ∈ s.query cfg q ↔ r ∈ queryChunks q s.index s.disk.chunks := by
  rw [Server.query, query, flatMap_scanMemtable, memPoints_of_open hopen]
  rfl

/-- **Opening a store again.** If none of the operations done before a stop
deletes a segment with points above the watermark of the snapshot, the second
`open` succeeds and answers every query as a first one without the stop. -/
theorem open_again (hlaw : Crates.LawfulLz4) {cfg : StorageConfig} {d d' : Disk}
    {ids ids₁ ids₂ : Nat → ChunkId} {done : List DiskOp} {s₁ : Server} (hfit : RecoveryFits cfg d)
    (hnew : NewIds ids (List.range cfg.numShards) d.loadedIndex)
    (hstop : StopsAfter d (openStore cfg ids d).2 done d')
    (hkeep : ∀ op ∈ done, d.keepsReplayed op = true)
    (hnew₁ : NewIds ids₁ (List.range cfg.numShards) d.loadedIndex)
    (hfirst : (openStore cfg ids₁ d).1 = .ok s₁)
    (hnew₂ : NewIds ids₂ (List.range cfg.numShards) d.loadedIndex)
    (habsent : ∀ i < cfg.numShards, ids₂ i ∉ d'.chunks) :
    ∃ s₂, (openStore cfg ids₂ d').1 = .ok s₂ ∧
      ∀ q r, r ∈ s₂.query cfg q ↔ r ∈ s₁.query cfg q := by
  have hindex : d'.loadedIndex = d.loadedIndex := by
    rw [Disk.loadedIndex, hstop.snapshot, Disk.loadedIndex]
  obtain ⟨idx₁, wals₁, hshards, rfl⟩ := openStore_ok hfirst
  have hsame : SameStore d.loadedIndex d.chunks d.loadedIndex d'.chunks :=
    SameStore.of_files fun c m hm =>
      (hstop.chunks fun i hi => (hnew.unnamed i hi).paths c m hm).symm
  have hreplay : SameReplay d.loadedIndex d d.loadedIndex d' (List.range cfg.numShards) :=
    fun i hi r hr => ⟨hfit i (List.mem_range.mp hi) r hr, hstop.recover hkeep hr⟩
  obtain ⟨idx₂, wals₂, ops₂, hopen, hsame₂⟩ := hshards.same hlaw List.nodup_range hsame hreplay
    hnew₁ hnew₂ fun i hi => habsent i (List.mem_range.mp hi)
  have hsecond : (openStore cfg ids₂ d').1 = .ok (.start cfg (d'.run ops₂) idx₂ wals₂) := by
    rw [openStore, ← Disk.loadedIndex, hindex, hopen]
  refine ⟨_, hsecond, fun q r => ?_⟩
  rw [mem_query_of_open hfirst, mem_query_of_open hsecond]
  exact hsame₂.mem_queryChunks.symm

end

/-! ## Two stops -/

section Example

attribute [local instance] Reference.crates

theorem newIds_of_no_snapshot {d : Disk} (h : d.snapshot = none) (id : ChunkId) :
    NewIds (fun _ => id) (List.range oneShard.numShards) d.loadedIndex := by
  have hnew : d.loadedIndex = .new := by
    rw [Disk.loadedIndex, h]
    rfl
  rw [hnew]
  constructor
  · intro i _
    constructor
    · rintro sid t e ⟨⟩
    · rintro c m ⟨⟩
  · intro i hi j hj _
    rw [show oneShard.numShards = 1 from rfl, List.mem_range] at hi hj
    omega

/-- A stop before the deletion: the recovery chunk is written and the segment
rotated. -/
theorem open_again_rotated : ∃ s tr s₁ s₂,
    Runs.run (step oneShard) (.fresh oneShard) (appendSteps 0 (cpuPoint 5 7)) = some (s, tr) ∧
    (openStore oneShard (fun _ => 101) s.disk).1 = .ok s₁ ∧
    (openStore oneShard (fun _ => 102)
      (s.disk.run ((openStore oneShard (fun _ => 100) s.disk).2.take 3))).1 = .ok s₂ ∧
    (cpuPoint 5 7).response ∈ s₁.query oneShard (.all "cpu") ∧
    ∀ q r, r ∈ s₂.query oneShard q ↔ r ∈ s₁.query oneShard q := by
  have hrun : ((Runs.run (step oneShard) (.fresh oneShard) (appendSteps 0 (cpuPoint 5 7))).any
      fun r => (openStore oneShard (fun _ => 101) r.1.disk).1.toOption.any fun s₁ =>
        r.1.disk.snapshot.isNone && recoveryFits oneShard r.1.disk &&
          ((openStore oneShard (fun _ => 100) r.1.disk).2.take 3).all r.1.disk.keepsReplayed &&
          !(r.1.disk.run ((openStore oneShard (fun _ => 100) r.1.disk).2.take 3)).chunks.contains
            102 &&
          decide ((cpuPoint 5 7).response ∈ s₁.query oneShard (.all "cpu"))) = true := by
    decide +kernel
  obtain ⟨s, tr, hrun, hstate⟩ := Runs.exists_of_any hrun
  obtain ⟨s₁, hfirst, hstate⟩ := Runs.exists_ok_of_any hstate
  simp only [Bool.and_eq_true, decide_eq_true_eq, Option.isNone_iff_eq_none, List.all_eq_true,
    Bool.not_eq_true'] at hstate
  obtain ⟨⟨⟨⟨hnone, hfit⟩, hkeep⟩, habsent⟩, hmem⟩ := hstate
  have hfree : ∀ i < oneShard.numShards,
      102 ∉ (s.disk.run ((openStore oneShard (fun _ => 100) s.disk).2.take 3)).chunks := by
    intro i _
    rw [Std.ExtTreeMap.mem_iff_contains, habsent]
    exact Bool.false_ne_true
  obtain ⟨s₂, hsecond, hall⟩ := open_again Reference.lawful.lz4 (recoveryFits_iff hfit)
    (newIds_of_no_snapshot hnone 100) (.between (List.take_append_drop 3 _).symm) hkeep
    (newIds_of_no_snapshot hnone 101) hfirst (newIds_of_no_snapshot hnone 102) hfree
  exact ⟨s, tr, s₁, s₂, hrun, hfirst, hsecond, hmem, hall⟩

/-- A stop after the deletion: the segment is gone and no snapshot names the
recovery chunk. -/
theorem open_again_loses : ∃ s tr s₁ s₂,
    Runs.run (step oneShard) (.fresh oneShard) (appendSteps 0 (cpuPoint 5 7)) = some (s, tr) ∧
    CrashImage oneShard s [] s.disk ∧
    (openStore oneShard (fun _ => 100) s.disk).1 = .ok s₁ ∧
    StopsAfter s.disk (openStore oneShard (fun _ => 100) s.disk).2
      (openStore oneShard (fun _ => 100) s.disk).2 s₁.disk ∧
    (openStore oneShard (fun _ => 101) s₁.disk).1 = .ok s₂ ∧
    (cpuPoint 5 7).response ∈ s₁.query oneShard (.all "cpu") ∧
    (cpuPoint 5 7).response ∉ s₂.query oneShard (.all "cpu") := by
  have hrun : ((Runs.run (step oneShard) (.fresh oneShard) (appendSteps 0 (cpuPoint 5 7))).any
      fun r => (openStore oneShard (fun _ => 100) r.1.disk).1.toOption.any fun s₁ =>
        decide ((cpuPoint 5 7).response ∈ s₁.query oneShard (.all "cpu")) &&
          (openStore oneShard (fun _ => 101) s₁.disk).1.toOption.any fun s₂ =>
            decide ((cpuPoint 5 7).response ∉ s₂.query oneShard (.all "cpu"))) = true := by
    decide +kernel
  obtain ⟨s, tr, hrun, hstate⟩ := Runs.exists_of_any hrun
  obtain ⟨s₁, hfirst, hstate⟩ := Runs.exists_ok_of_any hstate
  simp only [Bool.and_eq_true, decide_eq_true_eq] at hstate
  obtain ⟨hmem, hrest⟩ := hstate
  obtain ⟨s₂, hsecond, hlost⟩ := Runs.exists_ok_of_any hrest
  have hstop : StopsAfter s.disk (openStore oneShard (fun _ => 100) s.disk).2
      (openStore oneShard (fun _ => 100) s.disk).2 s₁.disk := by
    obtain ⟨idx, wals, -, rfl⟩ := openStore_ok hfirst
    exact .between (List.append_nil _).symm
  exact ⟨s, tr, s₁, s₂, hrun, .self oneShard s [], hfirst, hstop, hsecond, hmem,
    of_decide_eq_true hlost⟩

end Example

end Micius

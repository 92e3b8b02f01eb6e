import Micius.Server.RacingQuery

/-!
# Complete queries

A query takes the paths of its chunks from the index and reads the files
after it has released the lock. If every file is still there, as it was
registered, the stream has every matching point of every chunk that was in
the index; a file that a merge has deleted since is skipped without an error.
-/

namespace Micius

section

variable [Crates]

/-! ## Files are written once -/

/-- Every chunk file holds what was written under its name, and no name was
used twice. -/
structure WrittenOnce (s : Server) (tr : List Event) : Prop where
  once : (createdChunks tr).Nodup
  files : ∀ path bytes, s.disk.chunks[path]? = some bytes → .chunkWritten path bytes ∈ tr

namespace WrittenOnce

variable {cfg : StorageConfig} {s s' : Server} {a : Action} {tr es : List Event}

omit [Crates] in
theorem fresh (cfg : StorageConfig) : WrittenOnce (.fresh cfg) [] where
  once := List.nodup_nil
  files := by simp

omit [Crates] in
theorem later (h : WrittenOnce s tr) (hes : createdChunks es = []) : WrittenOnce s (tr ++ es) where
  once := by
    rw [createdChunks_append, hes, List.append_nil]
    exact h.once
  files path bytes hget := List.mem_append_left _ (h.files path bytes hget)

omit [Crates] in
theorem write (h : WrittenOnce s tr) {c : ChunkId} (hfresh : c ∉ createdChunks tr)
    (bytes : Bytes) :
    WrittenOnce { s with disk := s.disk.apply (.writeChunk c bytes) }
      (tr ++ [.chunkWritten c bytes]) where
  once := by
    rw [createdChunks_append]
    exact List.nodup_append.mpr ⟨h.once, List.nodup_singleton c, by
      rintro c' hc' _ hc rfl
      obtain rfl := List.mem_singleton.mp hc
      exact hfresh hc'⟩
  files path b hget := by
    change (s.disk.chunks.insert c bytes)[path]? = some b at hget
    rw [TreeMap.getElem?_insert_eq] at hget
    split at hget
    · next hpath =>
      obtain rfl := Option.some.inj hget
      simp [hpath]
    · exact List.mem_append_left _ (h.files path b hget)

theorem step (h : WrittenOnce s tr) (hfresh : FreshIds tr a) (hstep : Step cfg s a s' es) :
    WrittenOnce s' (tr ++ es) := by
  cases hstep with
  | walCommit _ _ _ _ _ => exact { h.later (createdChunks_committed _ _ _) with }
  | sweepWrite _ _ _ => exact { h.write (hfresh _ rfl) _ with }
  | compactMerge _ _ _ => exact { h.write (hfresh _ rfl) _ with }
  | @compactDelete path paths rest hc =>
    refine .later { h with files := fun path' bytes hget => ?_ } rfl
    change (s.disk.chunks.erase path)[path']? = some bytes at hget
    rw [TreeMap.getElem?_erase_eq] at hget
    split at hget
    · cases hget
    · exact h.files path' bytes hget
  | _ => exact { h.later rfl with }

omit [Crates] in
/-- What a file holds is what was written. -/
theorem eq_of_written (h : WrittenOnce s tr) {path : ChunkPath} {bytes bytes' : Bytes}
    (hget : s.disk.chunks[path]? = some bytes) (hwritten : .chunkWritten path bytes' ∈ tr) :
    bytes = bytes' := by
  have heq : Event.chunkWritten path bytes = .chunkWritten path bytes' :=
    Bags.eq_of_nodup_filterMap h.once (h.files path bytes hget) hwritten rfl rfl
  exact (Event.chunkWritten.inj heq).2

end WrittenOnce

/-! ## What a run has to respect -/

/-- Chunks are registered apart, keys are in use, sizes fit, and ids are fresh. -/
def ServesQueries (U : SeriesKey → Prop) (s : Server) (tr : List Event) (a : Action) : Prop :=
  RegistersApart s a ∧ (∀ p ∈ a.points, U p.key) ∧ SizesFit s a ∧ FreshIds tr a

instance decidableServesQueries (U : SeriesKey → Prop) [DecidablePred U] (s : Server)
    (tr : List Event) (a : Action) : Decidable (ServesQueries U s tr a) :=
  inferInstanceAs (Decidable (_ ∧ _ ∧ _ ∧ _))

omit [Crates] in
/-- Every file the query reads is still there, and no read fails. -/
def ReadsIntact (t : QuerySystem) : QueryAction → Prop
  | .readChunk => ∀ path ∈ t.task.nextPath, path ∈ t.server.disk.chunks
  | .readDamaged _ => False
  | _ => True

instance decidableReadsIntact (t : QuerySystem) (a : QueryAction) : Decidable (ReadsIntact t a) :=
  match a with
  | .readChunk => t.task.nextPath.decidableForallMem
  | .readDamaged _ => .isFalse id
  | .server _ | .scan | .readIndex => .isTrue trivial

instance decidableOnServer {P : Server → List Event → Action → Prop}
    [∀ s tr a, Decidable (P s tr a)] (t : QuerySystem) (tr : List QueryEvent) (a : QueryAction) :
    Decidable (OnServer P t tr a) :=
  match a with
  | .server a => inferInstanceAs (Decidable (P t.server (serverTrace tr) a))
  | .scan | .readIndex | .readChunk | .readDamaged _ => .isTrue trivial

/-! ## The invariant -/

/-- What holds of the server. -/
structure ServerOk (U : SeriesKey → Prop) (cfg : StorageConfig) (s : Server) (tr : List Event) :
    Prop where
  sweep : SweepOk cfg s
  kept : IndexKept s tr
  described : IndexDescribed U s tr
  written : WrittenOnce s tr

theorem ServerOk.fresh (U : SeriesKey → Prop) (cfg : StorageConfig) :
    ServerOk U cfg (.fresh cfg) [] :=
  ⟨SweepOk.fresh cfg, IndexKept.fresh cfg, IndexDescribed.fresh U cfg, WrittenOnce.fresh cfg⟩

theorem ServerOk.step (hlaw : Crates.LawfulLz4) {U : SeriesKey → Prop} (hU : KeysOk U)
    {cfg : StorageConfig} {s s' : Server} {a : Action} {tr es : List Event}
    (h : ServerOk U cfg s tr) (hok : ServesQueries U s tr a) (hstep : Step cfg s a s' es) :
    ServerOk U cfg s' (tr ++ es) := by
  obtain ⟨happart, hkeys, hsize, hfresh⟩ := hok
  have hkept := h.kept.step h.sweep hstep happart
  exact
    { sweep := h.sweep.step hstep
      kept := hkept
      described := h.described.step hlaw hU h.kept h.sweep hstep hkept happart hsize hkeys
      written := h.written.step hfresh hstep }

/-- The series of the chunk is streamed or still to be read. -/
structure Delivers (q : Query) (scan : IndexScan) (left : List SeriesChunkEntry)
    (out : List QueryResponse) (c : Chunk) (kp : SeriesKey × List (Int64 × F64)) : Prop where
  path : scan.paths[c.id]? = some c.id
  key : scan.keys[kp.1.id]? = some kp.1
  left : entryOf c.id kp.1 kp.2 ∈ left ∨
    ∀ p ∈ pointsBetween kp.1 q.timeStartNs q.timeEndNs kp.2, p.response ∈ out

/-- The query is on its way to deliver every chunk of the index it has read. -/
def Delivering (U : SeriesKey → Prop) (q : Query) (tr : List QueryEvent) (idx : ChunkIndex)
    (scan : IndexScan) (left : List SeriesChunkEntry) (out : List QueryResponse) : Prop :=
  ∀ c ∈ idx.chunkFiles, ∃ (ch : Chunk) (bytes : Bytes) (result : ChunkWriteResult),
    ch.id = c ∧ ch.data.Fits ∧ ChunkWriter.write ch.id ch.data = .ok (bytes, result) ∧
    .chunkWritten ch.id bytes ∈ serverTrace tr ∧ (∀ kp ∈ ch.data.toList, U kp.1) ∧
    ∀ kp ∈ ch.data.toList, q.wants kp = true → Delivers q scan left out ch kp

/-- What the query knows: nothing before it has read the index. -/
def QueryOk (U : SeriesKey → Prop) (q : Query) (t : QuerySystem) (tr : List QueryEvent) : Prop :=
  ∀ idx, .indexRead idx ∈ tr →
    ∃ scan left out, t.task = .reading scan left out ∧ Delivering U q tr idx scan left out

section

variable {U : SeriesKey → Prop} {cfg : StorageConfig} {q : Query} {tr : List QueryEvent}
  {idx : ChunkIndex} {scan : IndexScan} {left : List SeriesChunkEntry} {out : List QueryResponse}

theorem Delivering.later (h : Delivering U q tr idx scan left out) (es : List QueryEvent) :
    Delivering U q (tr ++ es) idx scan left out := by
  intro c hc
  obtain ⟨ch, bytes, result, hid, hfit, hw, hmem, hrest⟩ := h c hc
  refine ⟨ch, bytes, result, hid, hfit, hw, ?_, hrest⟩
  rw [serverTrace_append]
  exact List.mem_append_left _ hmem

/-- The index read finds every wanted series of every chunk. -/
theorem Delivering.start {s : Server} (h : ServerOk U cfg s (serverTrace tr))
    (out : List QueryResponse) :
    Delivering U q tr s.index (scanIndex q s.index) (scanIndex q s.index).chunks out := by
  intro c hc
  obtain ⟨ch, rfl, ⟨hfit, bytes, result, hw, -, hmem⟩, hdesc⟩ := h.described.chunks c hc
  refine ⟨ch, bytes, result, rfl, hfit, hw, hmem, hdesc.keys, fun kp hkp hwants => ?_⟩
  have hscan : entryOf ch.id kp.1 kp.2 ∈ (scanIndex q s.index).chunks := by
    simp only [Query.wants, Bool.and_eq_true, decide_eq_true_eq] at hwants
    obtain ⟨hmatch, hhi, hlo⟩ := hwants
    refine List.mem_flatMap.mpr ⟨kp.1.id, ?_, ?_⟩
    · exact (ChunkIndex.mem_resolveSeries h.described.tags).mpr
        ⟨kp.1, hdesc.registered kp hkp, hmatch⟩
    · exact ChunkIndex.mem_pruneChunks.mpr ⟨_, hdesc.entries kp hkp, hhi, hlo⟩
  refine ⟨(paths_scanIndex hscan).trans ?_, (keys_scanIndex hscan).trans (hdesc.registered kp hkp),
    .inl hscan⟩
  obtain ⟨m, hm⟩ := Option.isSome_iff_exists.mp (Std.ExtTreeMap.mem_iff_isSome_getElem?.mp hc)
  show (s.index.chunkFiles[ch.id]?).map ChunkMeta.filePath = some ch.id
  rw [hm, Option.map_some, (h.kept.index _ m hm).1]

/-- Reading an entry whose file is there. -/
theorem Delivering.read (hlaw : Crates.LawfulLz4) (hU : KeysOk U) {s : Server}
    (hwritten : WrittenOnce s (serverTrace tr)) {e : SeriesChunkEntry}
    (h : Delivering U q tr idx scan (e :: left) out)
    (hfile : ∀ path, scan.paths[e.chunkId]? = some path → path ∈ s.disk.chunks) :
    Delivering U q tr idx scan left (out ++ readEntry q s.disk.chunks scan e) := by
  intro c hc
  obtain ⟨ch, bytes, result, rfl, hfit, hw, hmem, hkeys, hdelivers⟩ := h c hc
  refine ⟨ch, bytes, result, rfl, hfit, hw, hmem, hkeys, fun kp hkp hwants => ?_⟩
  obtain ⟨hpath, hkey, hleft⟩ := hdelivers kp hkp hwants
  refine ⟨hpath, hkey, ?_⟩
  rcases hleft with hleft | hout
  · rcases List.mem_cons.mp hleft with rfl | hleft
    · -- the file is the one that was written for the chunk
      obtain ⟨found, hfound⟩ := Option.isSome_iff_exists.mp
        (Std.ExtTreeMap.mem_iff_isSome_getElem?.mp (hfile ch.id hpath))
      have hdisk : OnDisk s.disk.chunks ch :=
        ⟨hfit, bytes, result, hw, hwritten.eq_of_written hfound hmem ▸ hfound⟩
      refine .inr fun p hp => List.mem_append_right _ ?_
      rw [readEntry_of_scan hlaw hU q hdisk hkeys hkp hpath hkey]
      exact List.mem_map_of_mem hp
    · exact .inl hleft
  · exact .inr fun p hp => List.mem_append_left _ (hout p hp)

/-- **Every step** of the system with intact reads. -/
theorem QueryOk.step (hlaw : Crates.LawfulLz4) (hU : KeysOk U) {t t' : QuerySystem}
    {a : QueryAction} {es : List QueryEvent} (hserver : ServerOk U cfg t.server (serverTrace tr))
    (h : QueryOk U q t tr) (hstep : QueryStep cfg q t a t' es) (hintact : ReadsIntact t a) :
    QueryOk U q t' (tr ++ es) := by
  intro idx hidx
  cases hstep with
  | server hstep =>
    have hold : .indexRead idx ∈ tr := by
      rcases List.mem_append.mp hidx with hidx | hidx
      · exact hidx
      · simp at hidx
    obtain ⟨scan, left, out, ht, hdel⟩ := h idx hold
    exact ⟨scan, left, out, ht, hdel.later _⟩
  | scan ht _ =>
    have hold : .indexRead idx ∈ tr := by simpa using hidx
    obtain ⟨scan, left, out, ht', -⟩ := h idx hold
    rw [ht] at ht'
    cases ht'
  | readIndex ht =>
    rcases List.mem_append.mp hidx with hidx | hidx
    · obtain ⟨scan, left, out, ht', -⟩ := h idx hidx
      rw [ht] at ht'
      cases ht'
    · obtain rfl : idx = t.server.index := by simpa using hidx
      exact ⟨_, _, _, rfl, (Delivering.start hserver _).later _⟩
  | readChunk ht =>
    rw [List.append_nil] at hidx ⊢
    obtain ⟨scan, left, out, ht', hdel⟩ := h idx hidx
    rw [ht] at ht'
    cases ht'
    refine ⟨_, _, _, rfl, hdel.read hlaw hU hserver.written fun path hpath => ?_⟩
    refine hintact path ?_
    rw [ht]
    exact hpath
  | readDamaged _ => exact hintact.elim

end

/-- **Complete queries.** Open empty directories and run any interleaving of
the server's steps with one query, chunks registered apart. If every file
the query reads is still there and no read fails, then the finished stream
has every matching point of every chunk that was in `chunk_files` when the
query read the index. -/
theorem query_complete (hlaw : Crates.LawfulLz4) (cfg : StorageConfig) {U : SeriesKey → Prop}
    (hU : KeysOk U) (q : Query) (chunkIds : Nat → ChunkId) {s₀ : Server} {t : QuerySystem}
    (actions : List QueryAction) {tr : List QueryEvent}
    (hopen : (openStore cfg chunkIds .empty).1 = .ok s₀)
    (hsteps : Runs.Along (queryStep cfg q)
      (fun t tr a => OnServer (ServesQueries U) t tr a ∧ ReadsIntact t a)
      ⟨s₀, .scanning 0 []⟩ [] actions)
    (hrun : Runs.run (queryStep cfg q) ⟨s₀, .scanning 0 []⟩ actions = some (t, tr))
    {idx : ChunkIndex} (hindex : .indexRead idx ∈ tr) {scan : IndexScan}
    {out : List QueryResponse} (hdone : t.task = .reading scan [] out) :
    ∀ c ∈ idx.chunkFiles, ∃ bytes points, .server (.chunkWritten c bytes) ∈ tr ∧
      readChunk bytes = .ok points ∧ ∀ p ∈ points, q.selects p = true → p.response ∈ out := by
  obtain rfl := fresh_of_openStore hopen
  obtain ⟨-, hquery⟩ : ServerOk U cfg t.server (serverTrace ([] ++ tr)) ∧ QueryOk U q t ([] ++ tr) := by
    refine Runs.run_invariant
      (P := fun t tr a => OnServer (ServesQueries U) t tr a ∧ ReadsIntact t a)
      (I := fun t tr => ServerOk U cfg t.server (serverTrace tr) ∧ QueryOk U q t tr) ?_
      ⟨ServerOk.fresh U cfg, fun idx hidx => absurd hidx (by simp)⟩ hsteps hrun
    rintro t tr a t' es ⟨hserver, hquery⟩ ⟨hok, hintact⟩ hstep
    have hstep := queryStep_sound hstep
    exact ⟨hstep.server_invariant (fun h hok hstep => h.step hlaw hU hok hstep) hserver hok,
      hquery.step hlaw hU hserver hstep hintact⟩
  obtain ⟨scan', left, out', ht, hdel⟩ := hquery idx hindex
  rw [hdone] at ht
  cases ht
  intro c hc
  obtain ⟨ch, bytes, result, rfl, hfit, hw, hmem, hkeys, hdelivers⟩ := hdel c hc
  refine ⟨bytes, ch.points, mem_serverTrace.mp hmem,
    readChunk_written hlaw hfit.written hw fun kp hkp => hU.codec kp.1 (hkeys kp hkp), ?_⟩
  intro p hp hsel
  -- the point is in a wanted series of its chunk
  obtain ⟨vec, hvec, hin⟩ := exists_series_of_point hp
  simp only [Query.selects, Bool.and_eq_true, decide_eq_true_eq] at hsel
  obtain ⟨hmatch, hlo, hhi⟩ := hsel
  obtain ⟨hfirst, hlast⟩ := bounds_of_sorted (ch.wf _ hvec).2 _ hin
  have hwants : q.wants (p.key, vec) = true := by
    simp only [Query.wants, Bool.and_eq_true, decide_eq_true_eq]
    exact ⟨hmatch, Int64.le_trans hfirst hhi, Int64.le_trans hlo hlast⟩
  refine (hdelivers _ hvec hwants).left.resolve_left (by simp) p ?_
  rw [pointsBetween, mem_pointsOf, List.mem_filter]
  exact ⟨rfl, hin, by simp [hlo, hhi]⟩

end

/-! ## A query and a merge -/

/-- The stream of a query that is done. -/
def QueryTask.finished : QueryTask → Option (List QueryResponse)
  | reading _ [] out => some out
  | _ => none

theorem QueryTask.eq_of_finished {task : QueryTask} {out : List QueryResponse}
    (h : task.finished = some out) : ∃ scan, task = .reading scan [] out := by
  unfold finished at h
  split at h
  · next scan out' =>
    obtain rfl := Option.some.inj h
    exact ⟨scan, rfl⟩
  · cases h

/-- The index the query has read had the chunk. -/
def QueryEvent.readsIndexWith (c : ChunkId) : QueryEvent → Bool
  | indexRead idx => idx.chunkFiles.contains c
  | _ => false

theorem QueryEvent.exists_of_readsIndexWith {c : ChunkId} {tr : List QueryEvent}
    (h : tr.any (readsIndexWith c) = true) : ∃ idx, .indexRead idx ∈ tr ∧ c ∈ idx.chunkFiles := by
  obtain ⟨e, he, hread⟩ := List.any_eq_true.mp h
  cases e with
  | indexRead idx => exact ⟨idx, he, Std.ExtTreeMap.contains_iff_mem.mp hread⟩
  | _ => cases hread

section Example

attribute [local instance] Reference.crates

/-- The chunk was written with the point. -/
def QueryEvent.writesPoint (c : ChunkId) (p : DataPoint) : QueryEvent → Bool
  | server (.chunkWritten c' bytes) =>
    c' = c && match readChunk bytes with
      | .ok points => p ∈ points
      | .error _ => false
  | _ => false

theorem QueryEvent.exists_of_writesPoint {c : ChunkId} {p : DataPoint} {tr : List QueryEvent}
    (h : tr.any (writesPoint c p) = true) :
    ∃ bytes points, .server (.chunkWritten c bytes) ∈ tr ∧ readChunk bytes = .ok points ∧
      p ∈ points := by
  obtain ⟨e, he, hwrites⟩ := List.any_eq_true.mp h
  unfold writesPoint at hwrites
  split at hwrites
  · next c' bytes =>
    obtain ⟨hc, hread⟩ := (Bool.and_eq_true _ _).mp hwrites
    obtain rfl := of_decide_eq_true hc
    split at hread
    · next points hok => exact ⟨bytes, points, he, hok, of_decide_eq_true hread⟩
    · cases hread
  · cases hwrites

/-- A query reads the index, a merge replaces its two chunks, and the query
reads the old files before they are deleted. -/
def overtakenQuery : List QueryAction :=
  (twoChunks (cpuPoint 5 7) (cpuPoint 6 8)).map .server ++ [.scan, .readIndex] ++
    mergeSteps.map .server ++ [.readChunk, .readChunk] ++ deleteSteps.map .server

theorem query_complete_overtaken : ∃ t tr idx scan out,
    Runs.run (queryStep oneShard (.all "cpu")) ⟨.fresh oneShard, .scanning 0 []⟩ overtakenQuery =
      some (t, tr) ∧
    .indexRead idx ∈ tr ∧ 100 ∈ idx.chunkFiles ∧ t.task = .reading scan [] out ∧
    ∀ c ∈ idx.chunkFiles, ∃ bytes points, .server (.chunkWritten c bytes) ∈ tr ∧
      readChunk bytes = .ok points ∧
        ∀ p ∈ points, (Query.all "cpu").selects p = true → p.response ∈ out := by
  have hrun : ((Runs.run (queryStep oneShard (.all "cpu")) ⟨.fresh oneShard, .scanning 0 []⟩
      overtakenQuery).any fun r => r.1.task.finished.isSome ∧
        r.2.any (QueryEvent.readsIndexWith 100)) = true := by decide +kernel
  obtain ⟨t, tr, hrun, hstate⟩ := Runs.exists_of_any hrun
  obtain ⟨hfinished, hread⟩ := of_decide_eq_true hstate
  obtain ⟨out, hout⟩ := Option.isSome_iff_exists.mp hfinished
  obtain ⟨scan, hdone⟩ := QueryTask.eq_of_finished hout
  obtain ⟨idx, hindex, hchunk⟩ := QueryEvent.exists_of_readsIndexWith hread
  exact ⟨t, tr, idx, scan, out, hrun, hindex, hchunk, hdone,
    query_complete Reference.lawful.lz4 oneShard keysOk_cpu (.all "cpu") (fun _ => 0) overtakenQuery
      (openStore_empty oneShard _) (by decide +kernel) hrun hindex hdone⟩

/-- The same with the files deleted before the query reads them: the stream
ends without an error and without a point. -/
theorem query_misses_merged_chunks : ∃ t tr idx scan bytes points,
    (openStore oneShard (fun _ => 0) .empty).1 = .ok (.fresh oneShard) ∧
    Runs.run (queryStep oneShard (.all "cpu")) ⟨.fresh oneShard, .scanning 0 []⟩
      ((twoChunks (cpuPoint 5 7) (cpuPoint 6 8)).map .server ++ [.scan, .readIndex] ++
        mergeSteps.map .server ++ deleteSteps.map .server ++ [.readChunk, .readChunk]) =
          some (t, tr) ∧
    .indexRead idx ∈ tr ∧ 100 ∈ idx.chunkFiles ∧ .server (.chunkWritten 100 bytes) ∈ tr ∧
    readChunk bytes = .ok points ∧ cpuPoint 5 7 ∈ points ∧
    (Query.all "cpu").selects (cpuPoint 5 7) = true ∧ t.task = .reading scan [] [] := by
  have hrun : ((Runs.run (queryStep oneShard (.all "cpu")) ⟨.fresh oneShard, .scanning 0 []⟩
      ((twoChunks (cpuPoint 5 7) (cpuPoint 6 8)).map .server ++ [.scan, .readIndex] ++
        mergeSteps.map .server ++ deleteSteps.map .server ++ [.readChunk, .readChunk])).any
          fun r => r.1.task.finished = some [] ∧ r.2.any (QueryEvent.readsIndexWith 100) ∧
            r.2.any (QueryEvent.writesPoint 100 (cpuPoint 5 7))) = true := by decide +kernel
  obtain ⟨t, tr, hrun, hstate⟩ := Runs.exists_of_any hrun
  obtain ⟨hfinished, hread, hwrites⟩ := of_decide_eq_true hstate
  obtain ⟨scan, hdone⟩ := QueryTask.eq_of_finished hfinished
  obtain ⟨idx, hindex, hchunk⟩ := QueryEvent.exists_of_readsIndexWith hread
  obtain ⟨bytes, points, hwritten, hok, hp⟩ := QueryEvent.exists_of_writesPoint hwrites
  exact ⟨t, tr, idx, scan, bytes, points, openStore_empty oneShard _, hrun, hindex, hchunk,
    hwritten, hok, hp, by decide +kernel, hdone⟩

end Example

end Micius

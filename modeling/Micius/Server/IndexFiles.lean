import Micius.Server.Exactness

/-!
# The index and the chunk files

`merge_group` deletes the files of its group and removes from `chunk_files`
what its deregister list leads it to; that list is read off `time_index`.
The two agree as long as chunks enter the index in free slots: a chunk whose
entry is overwritten is found by no later merge, and keeps its place in
`chunk_files` when its file is deleted.
-/

namespace Micius

/-! ## Statistics and entries of the index -/

/-- The entries that registering the series overwrites belong to the given chunks. -/
def SlotsFree [Crates] (idx : ChunkIndex) (series : List SeriesWriteResult)
    (exempt : List ChunkId) : Prop :=
  ∀ r ∈ series, ∀ e ∈ idx.entryAt r.seriesKey.id r.entry.timeStartNs, e.chunkId ∈ exempt

instance decidableSlotsFree [Crates] (idx : ChunkIndex) (series : List SeriesWriteResult)
    (exempt : List ChunkId) : Decidable (SlotsFree idx series exempt) :=
  inferInstanceAs (Decidable (∀ r ∈ series,
    ∀ e ∈ idx.entryAt r.seriesKey.id r.entry.timeStartNs, e.chunkId ∈ exempt))

namespace ChunkIndex

/-- Every chunk with statistics for a series has an entry there, but for the
given chunks. -/
def StatsEntered (idx : ChunkIndex) (exempt : List ChunkId) : Prop :=
  ∀ c sid, (c, sid) ∈ idx.chunkStats → c ∉ exempt →
    ∃ t e, idx.entryAt sid t = some e ∧ e.chunkId = c

variable {idx : ChunkIndex} {exempt : List ChunkId}

theorem StatsEntered.registerAll [Crates] (h : idx.StatsEntered []) {c : Chunk} {bytes : Bytes}
    {result : ChunkWriteResult} (hw : ChunkWriter.write c.id c.data = .ok (bytes, result))
    (hfree : SlotsFree idx result.seriesResults exempt) :
    (idx.registerAll result.chunkMeta result.seriesResults).StatsEntered exempt := by
  intro c' sid hmem hexempt
  rcases (IndexOk.mem_chunkStats_chunk hw idx (c', sid)).mp hmem with hold | ⟨kp, hkp, hnew⟩
  · obtain ⟨t, e, hentry, rfl⟩ := h c' sid hold (by simp)
    rcases idx.entryAt_registerAll result.chunkMeta result.seriesResults sid t with
      ⟨r, hr, rfl, rfl, -⟩ | ⟨-, hkeep⟩
    · exact absurd (hfree r hr e hentry) hexempt
    · exact ⟨t, e, hkeep.trans hentry, rfl⟩
  · obtain ⟨rfl, rfl⟩ := Prod.mk.inj hnew
    rcases IndexOk.entryAt_chunk hw idx kp.1.id (firstTimestamp kp.2) with
      ⟨kp', -, -, -, hentry⟩ | ⟨hnone, -⟩
    · exact ⟨_, _, hentry, rfl⟩
    · exact absurd ⟨rfl, rfl⟩ (hnone kp hkp)

theorem StatsEntered.deregisterAll (h : idx.StatsEntered exempt)
    {triples : List (SeriesId × ChunkId × Int64)} (hmem : ∀ x ∈ triples, x.2.1 ∈ exempt)
    (hall : ∀ c ∈ exempt, ∀ sid, (c, sid) ∈ idx.chunkStats → ∃ t, (sid, c, t) ∈ triples) :
    (idx.deregisterAll triples).StatsEntered [] := by
  intro c sid hstats _
  obtain ⟨hold, hnot⟩ := (idx.mem_chunkStats_deregisterAll triples (c, sid)).mp hstats
  have hexempt : c ∉ exempt := by
    intro hc
    obtain ⟨t, ht⟩ := hall c hc sid hold
    exact hnot _ ht rfl
  obtain ⟨t, e, hentry, rfl⟩ := h c sid hold hexempt
  refine ⟨t, e, ?_, rfl⟩
  rw [entryAt_deregisterAll, hentry, Option.filter_some, if_pos]
  exact decide_eq_true fun hx => hexempt (hmem _ hx)

/-- A chunk whose statistics are all deregistered loses its file. -/
theorem not_mem_chunkFiles_deregisterAll (href : idx.FilesReferenced)
    {triples : List (SeriesId × ChunkId × Int64)} {c : ChunkId}
    (hall : ∀ sid, (c, sid) ∈ idx.chunkStats → ∃ t, (sid, c, t) ∈ triples) :
    c ∉ (idx.deregisterAll triples).chunkFiles := by
  intro hc
  obtain ⟨m, hm⟩ := Option.isSome_iff_exists.mp (Std.ExtTreeMap.mem_iff_isSome_getElem?.mp hc)
  obtain ⟨sid, hstats⟩ := href.deregisterAll triples c m hm
  obtain ⟨hold, hnot⟩ := (idx.mem_chunkStats_deregisterAll triples (c, sid)).mp hstats
  obtain ⟨t, ht⟩ := hall sid hold
  exact hnot _ ht rfl

end ChunkIndex

/-! ## What a run has to respect -/

/-- The chunk an action enters into the index, and the chunks whose entries
it may replace. -/
def Server.registering (s : Server) : Action → Option (ChunkWriteResult × List ChunkId)
  | .sweepRegister =>
    match s.sweeper with
    | .written _ result => some (result, [])
    | _ => none
  | .compactCommit =>
    match s.compactor with
    | .merged group result _ => some (result, group.chunks.map Prod.fst)
    | _ => none
  | _ => none

/-- A chunk enters the index in free slots; that of a merge may also take
those of its group. -/
def RegistersApart [Crates] (s : Server) (a : Action) : Prop :=
  ∀ r ∈ s.registering a, SlotsFree s.index r.1.seriesResults r.2

instance decidableRegistersApart [Crates] (s : Server) (a : Action) :
    Decidable (RegistersApart s a) :=
  inferInstanceAs (Decidable (∀ r ∈ s.registering a, SlotsFree s.index r.1.seriesResults r.2))

/-! ## The invariant -/

/-- The file of a chunk is on disk, as it was written. -/
def Stored (chunks : ChunkDir) (tr : List Event) (c : ChunkId) : Prop :=
  ∃ bytes, chunks[c]? = some bytes ∧ .chunkWritten c bytes ∈ tr

namespace Stored

variable {chunks : ChunkDir} {tr : List Event} {c : ChunkId}

theorem later (h : Stored chunks tr c) (es : List Event) : Stored chunks (tr ++ es) c := by
  obtain ⟨bytes, hget, hmem⟩ := h
  exact ⟨bytes, hget, List.mem_append_left es hmem⟩

theorem mem_chunks (h : Stored chunks tr c) : c ∈ chunks := by
  obtain ⟨bytes, hget, -⟩ := h
  exact Std.ExtTreeMap.mem_iff_isSome_getElem?.mpr (by rw [hget]; rfl)

theorem insert (h : Stored chunks tr c) {path : ChunkPath} (hnew : path ∉ chunks) (bytes : Bytes) :
    Stored (chunks.insert path bytes) tr c := by
  have hne : c ≠ path := by
    rintro rfl
    exact hnew h.mem_chunks
  obtain ⟨old, hget, hmem⟩ := h
  exact ⟨old, by rw [TreeMap.getElem?_insert_eq, if_neg hne, hget], hmem⟩

theorem erase (h : Stored chunks tr c) {path : ChunkPath} (hne : c ≠ path) :
    Stored (chunks.erase path) tr c := by
  obtain ⟨bytes, hget, hmem⟩ := h
  exact ⟨bytes, by rw [TreeMap.getElem?_erase_eq, if_neg hne, hget], hmem⟩

theorem new (chunks : ChunkDir) (tr : List Event) (c : ChunkId) (bytes : Bytes) :
    Stored (chunks.insert c bytes) (tr ++ [.chunkWritten c bytes]) c :=
  ⟨bytes, by rw [TreeMap.getElem?_insert_eq, if_pos rfl], by simp⟩

end Stored

namespace Compactor

/-- The groups still to be merged or committed. -/
def groups : Compactor → List MergeGroup
  | idle => []
  | merging groups => groups
  | merged group _ rest => group :: rest
  | deleting _ rest => rest

/-- The files still to be deleted. -/
def removing : Compactor → List ChunkPath
  | deleting paths _ => paths
  | _ => []

/-- The merged chunk that is not yet in the index. -/
def result? : Compactor → Option ChunkWriteResult
  | merged _ result _ => some result
  | _ => none

/-- The chunks of the groups. -/
def groupIds (compactor : Compactor) : List ChunkId :=
  compactor.groups.flatMap fun group => group.chunks.map Prod.fst

/-- The old chunks the worker still works on. -/
def oldIds (compactor : Compactor) : List ChunkId := compactor.removing ++ compactor.groupIds

end Compactor

/-- The group's chunks can be deregistered completely. -/
structure MergeGroup.Complete (group : MergeGroup) (idx : ChunkIndex) : Prop where
  paths : ∀ x ∈ group.chunks, x.2 = x.1
  own : ∀ x ∈ group.deregister, x.2.1 ∈ group.chunks.map Prod.fst
  all : ∀ c ∈ group.chunks.map Prod.fst, ∀ sid, (c, sid) ∈ idx.chunkStats →
    ∃ t, (sid, c, t) ∈ group.deregister

section

variable [Crates]

/-- A chunk that is written and not yet in the index. -/
structure InFlight (chunks : ChunkDir) (idx : ChunkIndex) (oldIds : List ChunkId)
    (tr : List Event) (result : ChunkWriteResult) : Prop where
  chunk : ∃ (c : Chunk) (bytes : Bytes), ChunkWriter.write c.id c.data = .ok (bytes, result)
  stored : Stored chunks tr result.chunkId
  absent : result.chunkId ∉ idx.chunkFiles
  apart : result.chunkId ∉ oldIds

/-- The files of the index and of the tasks. -/
structure IndexKept (s : Server) (tr : List Event) : Prop where
  index : ∀ c m, s.index.chunkFiles[c]? = some m → m.filePath = c ∧ Stored s.disk.chunks tr c
  referenced : s.index.FilesReferenced
  entered : s.index.StatsEntered []
  sweep : ∀ i result, s.sweeper = .written i result →
    InFlight s.disk.chunks s.index s.compactor.oldIds tr result ∧
      ∀ r ∈ s.compactor.result?, r.chunkId ≠ result.chunkId
  merged : ∀ result ∈ s.compactor.result?,
    InFlight s.disk.chunks s.index s.compactor.oldIds tr result
  groups : ∀ group ∈ s.compactor.groups, group.Complete s.index
  /-- The groups share no chunk, and their chunks are still in the index. -/
  apart : s.compactor.groupIds.Nodup
  held : ∀ c ∈ s.compactor.groupIds, c ∈ s.index.chunkFiles
  /-- Files about to be deleted are on disk and not in the index. -/
  removing : ∀ path ∈ s.compactor.removing, path ∈ s.disk.chunks ∧ path ∉ s.index.chunkFiles
  once : s.compactor.removing.Nodup

namespace IndexKept

variable {cfg : StorageConfig} {s s' : Server} {tr es : List Event}

theorem fresh (cfg : StorageConfig) : IndexKept (.fresh cfg) [] where
  index := by simp [Server.fresh, Server.start, ChunkIndex.new]
  referenced := by simp [Server.fresh, Server.start, ChunkIndex.new, ChunkIndex.FilesReferenced]
  entered := by simp [Server.fresh, Server.start, ChunkIndex.new, ChunkIndex.StatsEntered]
  sweep := by simp [Server.fresh, Server.start]
  merged := by simp [Server.fresh, Server.start, Compactor.result?]
  groups := by simp [Server.fresh, Server.start, Compactor.groups]
  apart := List.nodup_nil
  held := by simp [Server.fresh, Server.start, Compactor.groupIds, Compactor.groups]
  removing := by simp [Server.fresh, Server.start, Compactor.removing]
  once := List.nodup_nil

/-- The files of the index are on disk. -/
theorem onDisk_of_index (h : IndexKept s tr) {c : ChunkId} (hc : c ∈ s.index.chunkFiles) :
    c ∈ s.disk.chunks := by
  obtain ⟨m, hm⟩ := Option.isSome_iff_exists.mp (Std.ExtTreeMap.mem_iff_isSome_getElem?.mp hc)
  exact (h.index c m hm).2.mem_chunks

/-- So are those the worker still works on. -/
theorem onDisk_of_oldIds (h : IndexKept s tr) {c : ChunkId} (hc : c ∈ s.compactor.oldIds) :
    c ∈ s.disk.chunks := by
  rcases List.mem_append.mp hc with hc | hc
  · exact (h.removing c hc).1
  · exact h.onDisk_of_index (h.held c hc)

/-- More events. -/
theorem later (h : IndexKept s tr) (es : List Event) : IndexKept s (tr ++ es) where
  index c m hm := ⟨(h.index c m hm).1, (h.index c m hm).2.later es⟩
  referenced := h.referenced
  entered := h.entered
  sweep i result hs :=
    have ⟨hfl, hne⟩ := h.sweep i result hs
    ⟨{ hfl with stored := hfl.stored.later es }, hne⟩
  merged result hr :=
    have hfl := h.merged result hr
    { hfl with stored := hfl.stored.later es }
  groups := h.groups
  apart := h.apart
  held := h.held
  removing := h.removing
  once := h.once

/-- Writing a new chunk file. -/
theorem writeChunk (h : IndexKept s tr) {c : ChunkId} (hnew : c ∉ s.disk.chunks) (bytes : Bytes) :
    IndexKept { s with disk := s.disk.apply (.writeChunk c bytes) }
      (tr ++ [.chunkWritten c bytes]) := by
  have hkept : IndexKept { s with disk := s.disk.apply (.writeChunk c bytes) } tr :=
    { h with
      index := fun c' m hm => ⟨(h.index c' m hm).1, (h.index c' m hm).2.insert hnew bytes⟩
      sweep := fun i result hs =>
        have ⟨hfl, hne⟩ := h.sweep i result hs
        ⟨{ hfl with stored := hfl.stored.insert hnew bytes }, hne⟩
      merged := fun result hr =>
        have hfl := h.merged result hr
        { hfl with stored := hfl.stored.insert hnew bytes }
      removing := fun path hp =>
        ⟨Std.ExtTreeMap.mem_insert.mpr (.inr (h.removing path hp).1), (h.removing path hp).2⟩ }
  exact hkept.later _

/-- The chunk just written is in flight. -/
theorem inFlight_new (h : IndexKept s tr) {c : ChunkId} (hnew : c ∉ s.disk.chunks)
    {bytes : Bytes} {result : ChunkWriteResult} (hid : result.chunkId = c)
    (hchunk : ∃ (c : Chunk) (bytes : Bytes), ChunkWriter.write c.id c.data = .ok (bytes, result)) :
    InFlight (s.disk.chunks.insert c bytes) s.index s.compactor.oldIds
      (tr ++ [.chunkWritten c bytes]) result where
  chunk := hchunk
  stored := hid ▸ Stored.new s.disk.chunks tr c bytes
  absent := by
    rw [hid]
    exact fun hc => hnew (h.onDisk_of_index hc)
  apart := by
    rw [hid]
    exact fun hc => hnew (h.onDisk_of_oldIds hc)

/-- The sweep writes its chunk. -/
theorem sweepWrite (h : IndexKept s tr) (hsweep : SweepOk cfg s) {c : ChunkId}
    (hnew : c ∉ s.disk.chunks) {i : Nat} {data : SeriesData}
    {bytes : Bytes} {result : ChunkWriteResult} (hs : s.sweeper = .drained i data)
    (hw : ChunkWriter.write c data = .ok (bytes, result)) :
    IndexKept { s with disk := s.disk.apply (.writeChunk c bytes), sweeper := .written i result }
      (tr ++ [.chunkWritten c bytes]) := by
  refine { h.writeChunk hnew bytes with sweep := ?_ }
  rintro j r ⟨⟩
  refine ⟨h.inFlight_new hnew (chunkId_of_write hw)
    ⟨⟨c, data, nonempty_of_write hw, hsweep.drained i data hs⟩, bytes, hw⟩, fun r hr => ?_⟩
  rw [chunkId_of_write hw]
  rintro rfl
  exact hnew (h.merged r hr).stored.mem_chunks

/-- The sweep registers its chunk in free slots. -/
theorem sweepRegister (h : IndexKept s tr) {i : Nat} {result : ChunkWriteResult}
    (hs : s.sweeper = .written i result) (hfree : SlotsFree s.index result.seriesResults []) :
    IndexKept { s with
      index := s.index.registerAll result.chunkMeta result.seriesResults
      sweeper := .registered i result } tr := by
  obtain ⟨⟨⟨c, bytes, hw⟩, hstored, habsent, hapart⟩, hne⟩ := h.sweep i result hs
  rw [chunkId_of_write hw] at hstored habsent hapart hne
  have hfiles := IndexOk.mem_chunkFiles_chunk hw s.index
  exact
    { h with
      index := by
        intro c' m hm
        rw [IndexOk.chunkFiles_chunk hw] at hm
        split at hm
        · next hc =>
          obtain rfl := Option.some.inj hm
          exact ⟨hc.symm, hc ▸ hstored⟩
        · exact h.index c' m hm
      referenced := h.referenced.registerAll _ _
      entered := h.entered.registerAll hw hfree
      sweep := by simp
      merged := fun r hr =>
        { h.merged r hr with
          absent := fun hc => ((hfiles _).mp hc).elim (hne r hr) (h.merged r hr).absent }
      groups := by
        intro group hg
        refine { h.groups group hg with all := fun c' hc' sid hstats => ?_ }
        rcases (IndexOk.mem_chunkStats_chunk hw s.index (c', sid)).mp hstats with hold | ⟨kp, -, hnew⟩
        · exact (h.groups group hg).all c' hc' sid hold
        · -- the new chunk is in no group
          obtain ⟨rfl, -⟩ := Prod.mk.inj hnew
          exact absurd (List.mem_append_right _ (List.mem_flatMap.mpr ⟨group, hg, hc'⟩)) hapart
      held := fun c' hc' => (hfiles c').mpr (.inr (h.held c' hc'))
      removing := by
        intro path hp
        refine ⟨(h.removing path hp).1, fun hc => ?_⟩
        rcases (hfiles path).mp hc with rfl | hc
        · exact hapart (List.mem_append_left _ hp)
        · exact (h.removing path hp).2 hc }

/-- The worker picks its groups. -/
theorem compactFind (h : IndexKept s tr) {files : List (ChunkId × ChunkMeta)}
    (hfiles : files.Perm s.index.chunkFiles.toList) :
    IndexKept
      { s with compactor := .merging (findCandidates cfg.compaction s.index files) } tr := by
  obtain ⟨kept, hkept, hchunks⟩ := candidates_sublist cfg.compaction hfiles
  -- the chunks of the groups are files of the index
  have hindexed : ∀ group ∈ findCandidates cfg.compaction s.index files, ∀ x ∈ group.chunks,
      x.2 = x.1 ∧ x.1 ∈ s.index.chunkFiles := by
    intro group hg x hx
    have hmem : x ∈ kept.map fun f => (f.1, f.2.filePath) :=
      hchunks ▸ List.mem_flatMap.mpr ⟨group, hg, hx⟩
    obtain ⟨f, hf, rfl⟩ := List.mem_map.mp hmem
    have hget := Std.ExtTreeMap.mem_toList_iff_getElem?_eq_some.mp (hkept.subset hf)
    exact ⟨(h.index f.1 f.2 hget).1,
      Std.ExtTreeMap.mem_iff_isSome_getElem?.mpr (by rw [hget]; rfl)⟩
  have hold : ∀ c ∈ (Compactor.merging (findCandidates cfg.compaction s.index files)).groupIds,
      c ∈ s.index.chunkFiles := by
    intro c hc
    obtain ⟨group, hg, hc⟩ := List.mem_flatMap.mp hc
    obtain ⟨x, hx, rfl⟩ := List.mem_map.mp hc
    exact (hindexed group hg x hx).2
  exact
    { h with
      sweep := by
        intro i result hs
        have ⟨hfl, _⟩ := h.sweep i result hs
        exact ⟨{ hfl with apart := fun hc => hfl.absent (hold _ hc) }, by simp [Compactor.result?]⟩
      merged := by simp [Compactor.result?]
      groups := by
        intro group hg
        refine ⟨fun x hx => (hindexed group hg x hx).1, ?_, fun c hc sid hstats => ?_⟩
        · rintro ⟨sid, c, t⟩ hx
          rw [deregister_of_mem hg, mem_deregisterList] at hx
          exact hx.1
        · obtain ⟨t, e, hentry, rfl⟩ := h.entered c sid hstats (by simp)
          exact ⟨t, by
            rw [deregister_of_mem hg, mem_deregisterList]
            exact ⟨hc, e, hentry, rfl⟩⟩
      apart := nodup_candidates cfg.compaction hfiles
      held := hold
      removing := by simp [Compactor.removing]
      once := List.nodup_nil }

/-- The worker moves on with fewer old chunks and no chunk of its own. -/
theorem compactorMoves (h : IndexKept s tr) {compactor : Compactor}
    (hresult : compactor.result? = none) (hgroups : compactor.groups.Sublist s.compactor.groups)
    (hremoving : compactor.removing.Sublist s.compactor.removing) :
    IndexKept { s with compactor := compactor } tr := by
  have hids : compactor.groupIds ⊆ s.compactor.groupIds := by
    intro c hc
    obtain ⟨group, hg, hc⟩ := List.mem_flatMap.mp hc
    exact List.mem_flatMap.mpr ⟨group, hgroups.subset hg, hc⟩
  have hold : compactor.oldIds ⊆ s.compactor.oldIds := by
    intro c hc
    rcases List.mem_append.mp hc with hc | hc
    · exact List.mem_append_left _ (hremoving.subset hc)
    · exact List.mem_append_right _ (hids hc)
  exact
    { h with
      sweep := by
        intro i result hs
        have ⟨hfl, _⟩ := h.sweep i result hs
        exact ⟨{ hfl with apart := fun hc => hfl.apart (hold hc) }, by simp [hresult]⟩
      merged := by simp [hresult]
      groups := fun group hg => h.groups group (hgroups.subset hg)
      apart := by
        have hnodup := h.apart
        rw [Compactor.groupIds, List.flatMap_def] at hnodup ⊢
        exact hnodup.sublist (hgroups.map _).flatten
      held := fun c hc => h.held c (hids hc)
      removing := fun path hp => h.removing path (hremoving.subset hp)
      once := h.once.sublist hremoving }

/-- The worker gives up, or is done. -/
theorem compactIdle (h : IndexKept s tr) : IndexKept { s with compactor := .idle } tr :=
  have hgroups : Compactor.idle.groups.Sublist s.compactor.groups := List.nil_sublist _
  have hremoving : Compactor.idle.removing.Sublist s.compactor.removing := List.nil_sublist _
  h.compactorMoves rfl hgroups hremoving

/-- The worker writes its merged chunk. -/
theorem compactMerge (h : IndexKept s tr) {c : ChunkId} (hnew : c ∉ s.disk.chunks)
    {group : MergeGroup} {rest : List MergeGroup} {bytes : Bytes}
    {result : ChunkWriteResult} (hc : s.compactor = .merging (group :: rest))
    (hm : mergeGroup s.disk.chunks c group = .ok (bytes, result)) :
    IndexKept
      { s with
        disk := s.disk.apply (.writeChunk c bytes)
        compactor := .merged group result rest }
      (tr ++ [.chunkWritten c bytes]) := by
  obtain ⟨points, -, hw⟩ := write_of_mergeGroup hm
  have hwf : (SeriesData.insertPoints ∅ points).Wf := SeriesData.wf_empty.insertPoints points
  have hwritten := h.writeChunk hnew bytes
  have hold : (Compactor.merged group result rest).oldIds = s.compactor.oldIds := by
    rw [hc]
    rfl
  exact
    { hwritten with
      sweep := by
        intro i r hs
        have ⟨hfl, _⟩ := hwritten.sweep i r hs
        refine ⟨{ hfl with apart := hold ▸ hfl.apart }, ?_⟩
        rintro r' ⟨⟩ heq
        rw [chunkId_of_write hw] at heq
        exact hnew (heq ▸ (h.sweep i r hs).1.stored.mem_chunks)
      merged := by
        rintro r ⟨⟩
        rw [show (Compactor.merged group result rest).oldIds = s.compactor.oldIds from hold]
        exact h.inFlight_new hnew (chunkId_of_write hw)
          ⟨⟨c, _, nonempty_of_write hw, hwf⟩, bytes, hw⟩
      groups := fun g hg => h.groups g (by rw [hc]; exact hg)
      apart := by
        have hnodup := h.apart
        rw [hc] at hnodup
        exact hnodup
      held := fun c' hc' => h.held c' (by rw [hc]; exact hc')
      removing := by simp [Compactor.removing]
      once := List.nodup_nil }

/-- The index update of a merge. -/
theorem compactCommit (h : IndexKept s tr) {group : MergeGroup} {result : ChunkWriteResult}
    {rest : List MergeGroup} (hc : s.compactor = .merged group result rest)
    (hfree : SlotsFree s.index result.seriesResults (group.chunks.map Prod.fst)) :
    IndexKept
      { s with
        index := group.commit s.index result
        compactor := .deleting (group.chunks.map Prod.snd) rest }
      (tr ++ [.compacted (group.chunks.map Prod.fst)]) := by
  obtain ⟨⟨c, bytes, hw⟩, hstored, habsent, hapart⟩ := h.merged result (by rw [hc]; rfl)
  rw [chunkId_of_write hw] at hstored habsent hapart
  have hgroup := h.groups group (by rw [hc]; exact List.mem_cons_self ..)
  have hpaths : group.chunks.map Prod.snd = group.chunks.map Prod.fst :=
    List.map_congr_left hgroup.paths
  have hold : (Compactor.deleting (group.chunks.map Prod.snd) rest).oldIds = s.compactor.oldIds := by
    rw [hc, Compactor.oldIds, Compactor.oldIds, Compactor.removing, hpaths]
    rfl
  -- statistics of an old chunk are those from before the update
  have hstats : ∀ c' ∈ s.compactor.oldIds, ∀ sid, (c', sid) ∈
      (s.index.registerAll result.chunkMeta result.seriesResults).chunkStats →
        (c', sid) ∈ s.index.chunkStats := by
    intro c' hc' sid hmem
    rcases (IndexOk.mem_chunkStats_chunk hw s.index (c', sid)).mp hmem with hmem | ⟨kp, -, hnew⟩
    · exact hmem
    · obtain ⟨rfl, -⟩ := Prod.mk.inj hnew
      exact absurd hc' hapart
  have hids : ∀ c' ∈ group.chunks.map Prod.fst, c' ∈ s.compactor.oldIds := by
    intro c' hc'
    rw [hc]
    exact List.mem_append_right _ (List.mem_append_left _ hc')
  have hall : ∀ c' ∈ group.chunks.map Prod.fst, ∀ sid, (c', sid) ∈
      (s.index.registerAll result.chunkMeta result.seriesResults).chunkStats →
        ∃ t, (sid, c', t) ∈ group.deregister :=
    fun c' hc' sid hmem => hgroup.all c' hc' sid (hstats c' (hids c' hc') sid hmem)
  -- files of the index are the merged one and old ones that are not of the group
  have hfiles : ∀ c' m, (group.commit s.index result).chunkFiles[c']? = some m →
      (c' = c.id ∧ m.filePath = c.id) ∨ s.index.chunkFiles[c']? = some m := by
    intro c' m hm
    have hm := ChunkIndex.chunkFiles_of_deregisterAll _ _ hm
    rw [IndexOk.chunkFiles_chunk hw] at hm
    split at hm
    · next hc' =>
      obtain rfl := Option.some.inj hm
      exact .inl ⟨hc', rfl⟩
    · exact .inr hm
  have href := h.referenced.registerAll result.chunkMeta result.seriesResults
  exact
    { index := by
        intro c' m hm
        rcases hfiles c' m hm with ⟨rfl, hpath⟩ | hm
        · exact ⟨hpath, hstored.later _⟩
        · exact ⟨(h.index c' m hm).1, (h.index c' m hm).2.later _⟩
      referenced := href.deregisterAll group.deregister
      entered := (h.entered.registerAll hw hfree).deregisterAll hgroup.own hall
      sweep := by
        intro i r hs
        obtain ⟨hfl, hne⟩ := h.sweep i r hs
        refine ⟨⟨hfl.chunk, hfl.stored.later _, fun hmem => ?_, hold ▸ hfl.apart⟩,
          by simp [Compactor.result?]⟩
        obtain ⟨m, hm⟩ := Option.isSome_iff_exists.mp
          (Std.ExtTreeMap.mem_iff_isSome_getElem?.mp hmem)
        rcases hfiles _ m hm with ⟨heq, -⟩ | hm
        · refine hne result (by rw [hc]; rfl) ?_
          rw [chunkId_of_write hw, heq]
        · exact hfl.absent (Std.ExtTreeMap.mem_iff_isSome_getElem?.mpr (by rw [hm]; rfl))
      merged := by simp [Compactor.result?]
      groups := by
        intro g hg
        have hg' : g ∈ s.compactor.groups := by
          rw [hc]
          exact List.mem_cons_of_mem _ hg
        refine { h.groups g hg' with all := fun c' hc' sid hmem => ?_ }
        refine (h.groups g hg').all c' hc' sid (hstats c' ?_ sid
          ((ChunkIndex.mem_chunkStats_deregisterAll ..).mp hmem).1)
        exact List.mem_append_right _ (List.mem_flatMap.mpr ⟨g, hg', hc'⟩)
      apart := by
        have hnodup := h.apart
        rw [hc] at hnodup
        exact (List.nodup_append.mp hnodup).2.1
      held := by
        intro c' hc'
        have hnodup := h.apart
        have hmem := h.held c'
        rw [hc] at hnodup hmem
        -- the group has none of the chunks of the later groups
        have hother : ∀ x ∈ group.deregister, x.2.1 ≠ c' := by
          rintro x hx rfl
          exact (List.nodup_append.mp hnodup).2.2 _ (hgroup.own x hx) _ hc' rfl
        have hkept := ChunkIndex.chunkFiles_deregisterAll_of_not_mem
          (s.index.registerAll result.chunkMeta result.seriesResults) group.deregister hother
        show c' ∈ ((s.index.registerAll result.chunkMeta result.seriesResults).deregisterAll
          group.deregister).chunkFiles
        rw [Std.ExtTreeMap.mem_iff_isSome_getElem?, hkept, ← Std.ExtTreeMap.mem_iff_isSome_getElem?,
          IndexOk.mem_chunkFiles_chunk hw]
        exact .inr (hmem (List.mem_append_right _ hc'))
      removing := by
        intro path hp
        change path ∈ group.chunks.map Prod.snd at hp
        rw [hpaths] at hp
        exact ⟨h.onDisk_of_oldIds (hids path hp),
          ChunkIndex.not_mem_chunkFiles_deregisterAll href (hall path hp)⟩
      once := by
        have hnodup := h.apart
        rw [hc] at hnodup
        show (group.chunks.map Prod.snd).Nodup
        rw [hpaths]
        exact (List.nodup_append.mp hnodup).1 }

/-- Deleting an old file. -/
theorem compactDelete (h : IndexKept s tr) {path : ChunkPath} {paths : List ChunkPath}
    {rest : List MergeGroup} (hc : s.compactor = .deleting (path :: paths) rest) :
    IndexKept
      { s with
        disk := s.disk.apply (.removeChunk path)
        compactor := .deleting paths rest } tr := by
  have hremoving : s.compactor.removing = path :: paths := by
    rw [hc]
    rfl
  have hpath : path ∈ s.compactor.removing := by
    rw [hremoving]
    exact List.mem_cons_self ..
  have hmoved : IndexKept { s with compactor := .deleting paths rest } tr :=
    h.compactorMoves rfl (by rw [hc]; exact .refl _) (by rw [hremoving]; exact List.sublist_cons_self ..)
  exact
    { hmoved with
      index := by
        intro c m hm
        refine ⟨(h.index c m hm).1, (h.index c m hm).2.erase ?_⟩
        rintro rfl
        exact (h.removing c hpath).2 (Std.ExtTreeMap.mem_iff_isSome_getElem?.mpr (by rw [hm]; rfl))
      sweep := by
        intro i r hs
        obtain ⟨hfl, hne⟩ := hmoved.sweep i r hs
        refine ⟨{ hfl with stored := hfl.stored.erase ?_ }, hne⟩
        intro heq
        exact (h.sweep i r hs).1.apart (List.mem_append_left _ (heq ▸ hpath))
      merged := by simp [Compactor.result?]
      removing := by
        intro p hp
        have honce := h.once
        rw [hremoving] at honce
        have hne : compare path p ≠ .eq := by
          rw [Ne, Std.LawfulEqCmp.compare_eq_iff_eq]
          rintro rfl
          exact (List.nodup_cons.mp honce).1 hp
        exact ⟨Std.ExtTreeMap.mem_erase.mpr ⟨hne, (hmoved.removing p hp).1⟩,
          (hmoved.removing p hp).2⟩ }

/-- **Every step** that registers apart keeps the files of the index. -/
theorem step (h : IndexKept s tr) (hsweep : SweepOk cfg s) {a : Action}
    (hstep : Step cfg s a s' es) (happart : RegistersApart s a) : IndexKept s' (tr ++ es) := by
  cases hstep with
  | sweepWrite hs hw hnew => exact h.sweepWrite hsweep hnew hs hw
  | sweepRegister hs hlock =>
    refine .later (h.sweepRegister hs (happart (_, []) ?_)) _
    simp [Server.registering, hs]
  | compactFind hc hfiles => exact .later (h.compactFind hfiles) _
  | compactMerge hc hm hnew => exact h.compactMerge hnew hc hm
  | compactFail hc hm => exact .later h.compactIdle _
  | @compactCommit group result rest hc hlock =>
    refine h.compactCommit hc (happart (result, group.chunks.map Prod.fst) ?_)
    simp [Server.registering, hc]
  | compactDelete hc => exact .later (h.compactDelete hc) _
  | compactNext hc =>
    exact .later (h.compactorMoves rfl (by rw [hc]; exact .refl _) (by rw [hc]; exact .refl _)) _
  | compactEnd hc => exact .later h.compactIdle _
  | walDrain _ => exact { h.later _ with sweep := by simp }
  | sweepDrain _ _ => exact { h.later _ with sweep := by simp }
  | sweepSkip _ _ => exact { h.later _ with sweep := by simp }
  | sweepFail _ _ => exact { h.later _ with sweep := by simp }
  | sweepReadSequence _ => exact { h.later _ with sweep := by simp }
  | sweepPublish _ => exact { h.later _ with sweep := by simp }
  | sweepRequestDrain _ => exact { h.later _ with sweep := by simp }
  | sweepDelete _ => exact { h.later _ with sweep := by simp }
  | sweepDone _ => exact { h.later _ with sweep := by simp }
  | _ => exact { h.later _ with }

end IndexKept

/-- **No dead chunks.** Open empty directories and run any interleaving of the
server's steps in which chunks are registered apart. Then every chunk of
`chunk_files` has an entry in the time index and its file on disk, and no
merge fails because a file of its group is missing. -/
theorem index_keeps_no_dead_chunk (cfg : StorageConfig) (chunkIds : Nat → ChunkId) {s₀ s : Server}
    (actions : List Action) {tr : List Event}
    (hopen : (openStore cfg chunkIds .empty).1 = .ok s₀)
    (hsteps : Runs.Along (step cfg) (fun s _ a => RegistersApart s a) s₀ [] actions)
    (hrun : Runs.run (step cfg) s₀ actions = some (s, tr)) :
    (∀ c m, s.index.chunkFiles[c]? = some m →
      (∃ sid t e, s.index.entryAt sid t = some e ∧ e.chunkId = c) ∧
        m.filePath ∈ s.disk.chunks) ∧
    ∀ group ∈ s.compactor.groups, ∀ chunkId path,
      mergeGroup s.disk.chunks chunkId group ≠ .error (.notFound path) := by
  obtain rfl := fresh_of_openStore hopen
  obtain ⟨-, h⟩ : SweepOk cfg s ∧ IndexKept s ([] ++ tr) := by
    refine Runs.run_invariant (P := fun s _ a => RegistersApart s a)
      (I := fun s tr => SweepOk cfg s ∧ IndexKept s tr) ?_
      ⟨SweepOk.fresh cfg, IndexKept.fresh cfg⟩ hsteps hrun
    rintro s s' tr a es ⟨hsweep, hindex⟩ happart hstep
    have hstep := step_sound hstep
    exact ⟨hsweep.step hstep, hindex.step hsweep hstep happart⟩
  constructor
  · intro c m hm
    obtain ⟨hpath, hstored⟩ := h.index c m hm
    obtain ⟨sid, hstats⟩ := h.referenced c m hm
    obtain ⟨t, e, hentry, he⟩ := h.entered c sid hstats (by simp)
    exact ⟨⟨sid, t, e, hentry, he⟩, hpath ▸ hstored.mem_chunks⟩
  · intro group hg chunkId path hmerge
    obtain ⟨x, hx, hmiss⟩ := missing_of_mergeGroup hmerge
    have hid : x.1 ∈ s.compactor.groupIds :=
      List.mem_flatMap.mpr ⟨group, hg, List.mem_map.mpr ⟨x, hx, rfl⟩⟩
    rw [(h.groups group hg).paths x hx] at hmiss
    exact hmiss (h.onDisk_of_index (h.held x.1 hid))

end

/-! ## Runs with a merge -/

/-- Two appends with a sweep after each. -/
def twoChunks (p q : DataPoint) : List Action :=
  appendSteps 0 p ++ sweepSteps 100 0 ++ appendSteps 1 q ++ sweepSteps 101 0

/-- A merge of the two chunks, up to the index update. -/
def mergeSteps : List Action :=
  [.compactFind [(100, ⟨100, 187⟩), (101, ⟨101, 187⟩)], .compactMerge 102, .compactCommit]

/-- The rest of its cycle, in which the two files are deleted. -/
def deleteSteps : List Action := [.compactDelete, .compactDelete, .compactDelete, .compactEnd]

section Example

attribute [local instance] Reference.crates

/-- A cycle of compaction, one more chunk and the candidates of the next cycle. -/
def mergedTwice : List Action :=
  twoChunks (cpuPoint 5 7) (cpuPoint 6 8) ++ mergeSteps ++ deleteSteps ++
    appendSteps 2 (cpuPoint 7 9) ++ sweepSteps 103 0 ++
    [.compactFind [(102, ⟨102, 205⟩), (103, ⟨103, 187⟩)]]

theorem index_keeps_no_dead_chunk_mergedTwice : ∃ s tr,
    Runs.run (step oneShard) (.fresh oneShard) mergedTwice = some (s, tr) ∧
    s.index.chunkFiles.size = 2 ∧ s.compactor.groups.length = 1 ∧
    (∀ c m, s.index.chunkFiles[c]? = some m →
      (∃ sid t e, s.index.entryAt sid t = some e ∧ e.chunkId = c) ∧
        m.filePath ∈ s.disk.chunks) ∧
    ∀ group ∈ s.compactor.groups, ∀ chunkId path,
      mergeGroup s.disk.chunks chunkId group ≠ .error (.notFound path) := by
  have hrun : ((Runs.run (step oneShard) (.fresh oneShard) mergedTwice).any fun r =>
      r.1.index.chunkFiles.size = 2 ∧ r.1.compactor.groups.length = 1) = true := by decide +kernel
  obtain ⟨s, tr, hrun, hstate⟩ := Runs.exists_of_any hrun
  obtain ⟨hfiles, hgroups⟩ := of_decide_eq_true hstate
  exact ⟨s, tr, hrun, hfiles, hgroups,
    index_keeps_no_dead_chunk oneShard (fun _ => 0) mergedTwice (openStore_empty oneShard _)
      (by decide +kernel) hrun⟩

/-- The next merge fails because the file is missing. -/
def Server.mergeMisses (s : Server) (path : ChunkPath) : Bool :=
  s.compactor.groups.any fun group =>
    match mergeGroup s.disk.chunks 104 group with
    | .error (.notFound p) => p = path
    | _ => false

theorem Server.exists_of_mergeMisses {s : Server} {path : ChunkPath}
    (h : s.mergeMisses path = true) :
    ∃ group ∈ s.compactor.groups, mergeGroup s.disk.chunks 104 group = .error (.notFound path) := by
  obtain ⟨group, hg, hmerge⟩ := List.any_eq_true.mp h
  refine ⟨group, hg, ?_⟩
  split at hmerge
  · next hget => rw [hget, of_decide_eq_true hmerge]
  · cases hmerge

/-- Two values for one series and timestamp: the entry of the second chunk
replaces that of the first, whose file the merge deletes without leaving
`chunk_files`. The next cycle takes it as a candidate and fails. -/
theorem merge_keeps_dead_chunk : ∃ s tr,
    (openStore oneShard (fun _ => 0) .empty).1 = .ok (.fresh oneShard) ∧
    Runs.run (step oneShard) (.fresh oneShard)
      (twoChunks (cpuPoint 5 7) (cpuPoint 5 8) ++ mergeSteps ++ deleteSteps ++
        [.compactFind [(100, ⟨100, 187⟩), (102, ⟨102, 187⟩)]]) = some (s, tr) ∧
    100 ∈ s.index.chunkFiles ∧ 100 ∉ s.disk.chunks ∧
    (∀ sid t e, s.index.entryAt sid t = some e → e.chunkId ≠ 100) ∧
    ∃ group ∈ s.compactor.groups, mergeGroup s.disk.chunks 104 group = .error (.notFound 100) := by
  have hrun : ((Runs.run (step oneShard) (.fresh oneShard)
      (twoChunks (cpuPoint 5 7) (cpuPoint 5 8) ++ mergeSteps ++ deleteSteps ++
        [.compactFind [(100, ⟨100, 187⟩), (102, ⟨102, 187⟩)]])).any fun r =>
      100 ∈ r.1.index.chunkFiles ∧ 100 ∉ r.1.disk.chunks ∧
        deregisterList r.1.index [100] = [] ∧ r.1.mergeMisses 100) = true := by decide +kernel
  obtain ⟨s, tr, hrun, hstate⟩ := Runs.exists_of_any hrun
  obtain ⟨hkept, hgone, hentries, hmerge⟩ := of_decide_eq_true hstate
  refine ⟨s, tr, openStore_empty oneShard _, hrun, hkept, hgone, ?_,
    Server.exists_of_mergeMisses hmerge⟩
  intro sid t e hentry he
  have hmem : (sid, 100, t) ∈ deregisterList s.index [100] :=
    mem_deregisterList.mpr ⟨by simp, e, hentry, he⟩
  rw [hentries] at hmem
  cases hmem

end Example

end Micius

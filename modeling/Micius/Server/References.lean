import Micius.Lib.Runs
import Micius.Reference.Instance
import Micius.Server.Query

/-!
# The references of the index

Five maps of the index are updated one by one. `deregister` removes
statistics whether or not the entry is still the chunk's, and drops a file
when no statistics name it; a merge applies triples that an earlier scan
collected. With fresh chunk ids a chunk has one entry for a series, under one
start, so what is removed is never what an entry still refers to, and a query
finds a path and a key for every entry it reads.
-/

namespace Micius

section

variable [Crates]

/-- `ChunkWriter::write` returned the result, for series in timestamp order. -/
def Written (U : SeriesKey → Prop) (chunkId : ChunkId) (result : ChunkWriteResult) : Prop :=
  ∃ data bytes, ChunkWriter.write chunkId data = .ok (bytes, result) ∧
    ∀ kp ∈ data.toList, U kp.1 ∧ kp.2.Pairwise fun p q => p.1 < q.1

/-- The index is reached by registering written chunks with new ids and by
committing merges. `past` holds the indexes on the way: the group of a merge
was found in one of them. -/
inductive IndexGrows (U : SeriesKey → Prop) : List ChunkIndex → List ChunkId → ChunkIndex → Prop
  | new : IndexGrows U [.new] [] .new
  | flush {past : List ChunkIndex} {ids : List ChunkId} {idx : ChunkIndex} {chunkId : ChunkId}
      {result : ChunkWriteResult} (h : IndexGrows U past ids idx) (hid : chunkId ∉ ids)
      (hw : Written U chunkId result) :
      IndexGrows U (idx.registerAll result.chunkMeta result.seriesResults :: past) (chunkId :: ids)
        (idx.registerAll result.chunkMeta result.seriesResults)
  | commit {past : List ChunkIndex} {ids : List ChunkId} {idx scanned : ChunkIndex}
      {chunkId : ChunkId} {result : ChunkWriteResult} (h : IndexGrows U past ids idx)
      (hid : chunkId ∉ ids) (hw : Written U chunkId result) {cfg : CompactionConfig}
      {files : List (ChunkId × ChunkMeta)} {group : MergeGroup} (hscan : scanned ∈ past)
      (hgroup : group ∈ findCandidates cfg scanned files) :
      IndexGrows U (group.commit idx result :: past) (chunkId :: ids) (group.commit idx result)

/-! ## Written series -/

namespace Written

variable {U : SeriesKey → Prop} {chunkId : ChunkId} {result : ChunkWriteResult}
  (h : Written U chunkId result)
include h

theorem series {s : SeriesWriteResult} (hs : s ∈ result.seriesResults) :
    s.entry.chunkId = chunkId ∧ s.entry.seriesId = s.seriesKey.id ∧
      s.entry.timeStartNs ≤ s.entry.timeEndNs ∧ U s.seriesKey := by
  obtain ⟨data, bytes, hw, hdata⟩ := h
  obtain ⟨kp, hkp, hkey, hentry⟩ := exists_of_mem_left (write_result hw).2 s hs
  obtain ⟨hkp, hne⟩ := List.mem_filter.mp hkp
  obtain ⟨p, hp⟩ := List.exists_mem_of_ne_nil kp.2 (by simpa using hne)
  obtain ⟨hfirst, hlast⟩ := bounds_of_sorted (hdata kp hkp).2 p hp
  rw [hentry, hkey]
  exact ⟨rfl, rfl, Int64.le_trans hfirst hlast, (hdata kp hkp).1⟩

/-- A chunk has one result for a series. -/
theorem unique (hU : IdInjective U) {s s' : SeriesWriteResult} (hs : s ∈ result.seriesResults)
    (hs' : s' ∈ result.seriesResults) (hid : s.seriesKey.id = s'.seriesKey.id) :
    s.entry = s'.entry := by
  have hkeys := hU _ _ (h.series hs).2.2.2 (h.series hs').2.2.2 hid
  obtain ⟨data, bytes, hw, hdata⟩ := h
  obtain ⟨kp, hkp, hkey, hentry⟩ := exists_of_mem_left (write_result hw).2 s hs
  obtain ⟨kp', hkp', hkey', hentry'⟩ := exists_of_mem_left (write_result hw).2 s' hs'
  have heq : kp.1 = kp'.1 := hkey.symm.trans (hkeys.trans hkey')
  rw [hentry, hentry', heq,
    points_eq_of_key_eq (List.mem_of_mem_filter hkp) (List.mem_of_mem_filter hkp') heq]

end Written

/-! ## Entries and what they refer to -/

omit [Crates] in
/-- The entry stands under its own series and start, and what it refers to is
in the index. -/
structure EntryOk (idx : ChunkIndex) (sid : SeriesId) (t : Int64) (e : SeriesChunkEntry) : Prop where
  seriesId : e.seriesId = sid
  start : e.timeStartNs = t
  ordered : e.timeStartNs ≤ e.timeEndNs
  stats : (e.chunkId, e.seriesId) ∈ idx.chunkStats
  file : e.chunkId ∈ idx.chunkFiles
  registry : e.seriesId ∈ idx.seriesRegistry

section

variable {U : SeriesKey → Prop} {chunkId : ChunkId} {result : ChunkWriteResult} {idx : ChunkIndex}
  {sid : SeriesId} {t : Int64} {e : SeriesChunkEntry}

theorem Written.mem_chunkFiles (hw : Written U chunkId result) {c : ChunkId} :
    c ∈ (idx.registerAll result.chunkMeta result.seriesResults).chunkFiles ↔
      c = chunkId ∧ result.seriesResults ≠ [] ∨ c ∈ idx.chunkFiles := by
  rw [Std.ExtTreeMap.mem_iff_isSome_getElem?, ChunkIndex.chunkFiles_registerAll _ _ _
    fun s hs => (hw.series hs).1, Std.ExtTreeMap.mem_iff_isSome_getElem?]
  split
  · next h => simp [h]
  · next h => simp [h]

theorem mem_seriesRegistry_registerAll {chunkMeta : ChunkMeta} {series : List SeriesWriteResult}
    (h : sid ∈ idx.seriesRegistry ∨ ∃ s ∈ series, s.seriesKey.id = sid) :
    sid ∈ (idx.registerAll chunkMeta series).seriesRegistry := by
  rw [Std.ExtTreeMap.mem_iff_isSome_getElem?]
  rcases idx.seriesRegistry_registerAll chunkMeta series sid with ⟨s, hs, -, hget⟩ | ⟨hnone, hget⟩
  · rw [hget]
    rfl
  · rw [hget, ← Std.ExtTreeMap.mem_iff_isSome_getElem?]
    rcases h with h | ⟨s, hs, hid⟩
    · exact h
    · exact absurd hid (hnone s hs)

/-- Registering keeps what an entry refers to. -/
theorem EntryOk.registerAll (h : EntryOk idx sid t e) (hw : Written U chunkId result) :
    EntryOk (idx.registerAll result.chunkMeta result.seriesResults) sid t e where
  seriesId := h.seriesId
  start := h.start
  ordered := h.ordered
  stats := (ChunkIndex.mem_chunkStats_registerAll ..).mpr (.inl h.stats)
  file := hw.mem_chunkFiles.mpr (.inr h.file)
  registry := mem_seriesRegistry_registerAll (.inl h.registry)

/-- A registered entry has what it refers to. -/
theorem Written.entryOk (hw : Written U chunkId result) (idx : ChunkIndex) {s : SeriesWriteResult}
    (hs : s ∈ result.seriesResults) :
    EntryOk (idx.registerAll result.chunkMeta result.seriesResults) s.seriesKey.id
      s.entry.timeStartNs s.entry := by
  obtain ⟨hchunk, hseries, hordered, -⟩ := hw.series hs
  refine ⟨hseries, rfl, hordered, ?_, ?_, ?_⟩
  · rw [hseries]
    exact (ChunkIndex.mem_chunkStats_registerAll ..).mpr (.inr ⟨s, hs, rfl⟩)
  · exact hw.mem_chunkFiles.mpr (.inl ⟨hchunk, List.ne_nil_of_mem hs⟩)
  · rw [hseries]
    exact mem_seriesRegistry_registerAll (.inr ⟨s, hs, rfl⟩)

omit [Crates] in
/-- A chunk keeps its file with one of its statistics. -/
theorem mem_chunkFiles_deregisterAll {c : ChunkId} {triples : List (SeriesId × ChunkId × Int64)}
    (hc : c ∈ idx.chunkFiles) (hstats : (c, sid) ∈ (idx.deregisterAll triples).chunkStats) :
    c ∈ (idx.deregisterAll triples).chunkFiles := by
  induction triples generalizing idx with
  | nil => exact hc
  | cons x triples ih =>
    refine ih ?_ hstats
    obtain ⟨hkept, -⟩ := (ChunkIndex.mem_chunkStats_deregisterAll _ triples _).mp hstats
    obtain ⟨hne, hkept⟩ := (ChunkIndex.mem_chunkStats_deregister ..).mp hkept
    obtain ⟨m, hm⟩ := Option.isSome_iff_exists.mp (Std.ExtTreeMap.mem_iff_isSome_getElem?.mp hc)
    rw [Std.ExtTreeMap.mem_iff_isSome_getElem?,
      (ChunkIndex.chunkFiles_deregister idx x.1 x.2.1 x.2.2 c m).mpr ⟨hm, fun heq => ?_⟩]
    · rfl
    · refine ⟨sid, fun hsid => hne ?_, heq ▸ hkept⟩
      rw [heq, hsid]

omit [Crates] in
/-- Deregistering keeps what an entry refers to, unless it lists the chunk
for the series: then it lists the entry's own start. -/
theorem EntryOk.deregisterAll (h : EntryOk idx sid t e)
    {triples : List (SeriesId × ChunkId × Int64)} (hkeep : (sid, e.chunkId, t) ∉ triples)
    (hstart : ∀ t', (sid, e.chunkId, t') ∈ triples → t' = t) :
    EntryOk (idx.deregisterAll triples) sid t e := by
  have hstats : (e.chunkId, e.seriesId) ∈ (idx.deregisterAll triples).chunkStats := by
    refine (ChunkIndex.mem_chunkStats_deregisterAll ..).mpr ⟨h.stats, ?_⟩
    rintro ⟨sid', c, t'⟩ hx heq
    obtain ⟨rfl, rfl⟩ := Prod.mk.inj heq
    rw [h.seriesId] at hx
    exact hkeep (hstart t' hx ▸ hx)
  refine ⟨h.seriesId, h.start, h.ordered, hstats, mem_chunkFiles_deregisterAll h.file hstats, ?_⟩
  rw [ChunkIndex.seriesRegistry_deregisterAll]
  exact h.registry

end

/-! ## The invariant -/

/-- Every entry has what it refers to, chunk ids in use are known, and over
all indexes on the way a chunk has one start for a series. -/
structure Referenced (past : List ChunkIndex) (ids : List ChunkId) (idx : ChunkIndex) : Prop where
  current : idx ∈ past
  entries : ∀ sid t e, idx.entryAt sid t = some e → EntryOk idx sid t e
  used : ∀ scanned ∈ past, ∀ sid t e, scanned.entryAt sid t = some e → e.chunkId ∈ ids
  starts : ∀ scanned ∈ past, ∀ scanned' ∈ past, ∀ sid t t' e e', scanned.entryAt sid t = some e →
    scanned'.entryAt sid t' = some e' → e.chunkId = e'.chunkId → t = t'

namespace Referenced

variable {U : SeriesKey → Prop} {past : List ChunkIndex} {ids : List ChunkId} {idx : ChunkIndex}

omit [Crates] in
theorem new : Referenced [.new] [] .new := by
  have hnone : ∀ sid t, ChunkIndex.new.entryAt sid t = none := fun sid t => by
    simp [ChunkIndex.entryAt, ChunkIndex.new]
  constructor <;> simp [hnone]

theorem register (hU : IdInjective U) (h : Referenced past ids idx) {chunkId : ChunkId}
    {result : ChunkWriteResult} (hid : chunkId ∉ ids) (hw : Written U chunkId result) :
    Referenced (idx.registerAll result.chunkMeta result.seriesResults :: past) (chunkId :: ids)
      (idx.registerAll result.chunkMeta result.seriesResults) := by
  -- an entry is one of the new chunk, or one of the indexes before
  have hsplit : ∀ scanned ∈ idx.registerAll result.chunkMeta result.seriesResults :: past,
      ∀ sid t e, scanned.entryAt sid t = some e →
        (∃ s ∈ result.seriesResults, s.seriesKey.id = sid ∧ s.entry.timeStartNs = t ∧
          e = s.entry) ∨ ∃ before ∈ past, before.entryAt sid t = some e := by
    intro scanned hscanned sid t e he
    rcases List.mem_cons.mp hscanned with rfl | hscanned
    · rcases idx.entryAt_registerAll result.chunkMeta result.seriesResults sid t with
        ⟨s, hs, hsid, ht, hget⟩ | ⟨-, hget⟩
      · exact .inl ⟨s, hs, hsid, ht, Option.some.inj (he.symm.trans hget)⟩
      · exact .inr ⟨idx, h.current, hget.symm.trans he⟩
    · exact .inr ⟨scanned, hscanned, he⟩
  constructor
  case current => exact List.mem_cons_self ..
  case entries =>
    intro sid t e he
    rcases idx.entryAt_registerAll result.chunkMeta result.seriesResults sid t with
      ⟨s, hs, rfl, rfl, hget⟩ | ⟨-, hget⟩
    · obtain rfl := Option.some.inj (he.symm.trans hget)
      exact hw.entryOk idx hs
    · exact (h.entries sid t e (hget.symm.trans he)).registerAll hw
  case used =>
    intro scanned hscanned sid t e he
    rcases hsplit scanned hscanned sid t e he with ⟨s, hs, -, -, rfl⟩ | ⟨before, hbefore, he⟩
    · rw [(hw.series hs).1]
      exact List.mem_cons_self ..
    · exact List.mem_cons_of_mem _ (h.used before hbefore sid t e he)
  case starts =>
    intro scanned hscanned scanned' hscanned' sid t t' e e' he he' hchunk
    rcases hsplit scanned hscanned sid t e he with ⟨s, hs, hsid, rfl, rfl⟩ | ⟨before, hbefore, he⟩
    · rcases hsplit scanned' hscanned' sid t' e' he' with
        ⟨s', hs', hsid', rfl, rfl⟩ | ⟨before', hbefore', he'⟩
      · rw [hw.unique hU hs hs' (hsid.trans hsid'.symm)]
      · rw [(hw.series hs).1] at hchunk
        exact absurd (hchunk ▸ h.used before' hbefore' sid t' e' he') hid
    · rcases hsplit scanned' hscanned' sid t' e' he' with
        ⟨s', hs', -, rfl, rfl⟩ | ⟨before', hbefore', he'⟩
      · rw [(hw.series hs').1] at hchunk
        exact absurd (hchunk ▸ h.used before hbefore sid t e he) hid
      · exact h.starts before hbefore before' hbefore' sid t t' e e' he he' hchunk

omit [Crates] in
theorem deregister (h : Referenced past ids idx) {triples : List (SeriesId × ChunkId × Int64)}
    (htriples : ∀ sid c t, (sid, c, t) ∈ triples →
      ∃ scanned ∈ past, ∃ e, scanned.entryAt sid t = some e ∧ e.chunkId = c) :
    Referenced (idx.deregisterAll triples :: past) ids (idx.deregisterAll triples) := by
  have hkept : ∀ {sid t e}, (idx.deregisterAll triples).entryAt sid t = some e →
      idx.entryAt sid t = some e ∧ (sid, e.chunkId, t) ∉ triples := by
    intro sid t e he
    rw [ChunkIndex.entryAt_deregisterAll, Option.filter_eq_some_iff, decide_eq_true_eq] at he
    exact he
  have hbefore : ∀ scanned ∈ idx.deregisterAll triples :: past, ∀ sid t e,
      scanned.entryAt sid t = some e → ∃ before ∈ past, before.entryAt sid t = some e := by
    intro scanned hscanned sid t e he
    rcases List.mem_cons.mp hscanned with rfl | hscanned
    · exact ⟨idx, h.current, (hkept he).1⟩
    · exact ⟨scanned, hscanned, he⟩
  constructor
  case current => exact List.mem_cons_self ..
  case entries =>
    intro sid t e he
    obtain ⟨he, hnot⟩ := hkept he
    refine (h.entries sid t e he).deregisterAll hnot fun t' ht' => ?_
    obtain ⟨scanned, hscanned, e', he', hchunk⟩ := htriples sid e.chunkId t' ht'
    exact h.starts scanned hscanned idx h.current sid t' t e' e he' he hchunk
  case used =>
    intro scanned hscanned sid t e he
    obtain ⟨before, hmem, he⟩ := hbefore scanned hscanned sid t e he
    exact h.used before hmem sid t e he
  case starts =>
    intro scanned hscanned scanned' hscanned' sid t t' e e' he he' hchunk
    obtain ⟨before, hmem, he⟩ := hbefore scanned hscanned sid t e he
    obtain ⟨before', hmem', he'⟩ := hbefore scanned' hscanned' sid t' e' he'
    exact h.starts before hmem before' hmem' sid t t' e e' he he' hchunk

omit [Crates] in
/-- Indexes on the way may be forgotten. -/
theorem forget (h : Referenced past ids idx) {kept : List ChunkIndex} (hsub : ∀ i ∈ kept, i ∈ past)
    (hcurrent : idx ∈ kept) : Referenced kept ids idx :=
  ⟨hcurrent, h.entries, fun i hi => h.used i (hsub i hi),
    fun i hi i' hi' => h.starts i (hsub i hi) i' (hsub i' hi')⟩

theorem commit (hU : IdInjective U) (h : Referenced past ids idx) {chunkId : ChunkId}
    {result : ChunkWriteResult} (hid : chunkId ∉ ids) (hw : Written U chunkId result)
    {cfg : CompactionConfig} {scanned : ChunkIndex} {files : List (ChunkId × ChunkMeta)}
    {group : MergeGroup} (hscan : scanned ∈ past)
    (hgroup : group ∈ findCandidates cfg scanned files) :
    Referenced (group.commit idx result :: past) (chunkId :: ids) (group.commit idx result) := by
  have htriples : ∀ sid c t, (sid, c, t) ∈ group.deregister → ∃ before ∈
      idx.registerAll result.chunkMeta result.seriesResults :: past,
        ∃ e, before.entryAt sid t = some e ∧ e.chunkId = c := by
    intro sid c t hx
    rw [deregister_of_mem hgroup, mem_deregisterList] at hx
    exact ⟨scanned, List.mem_cons_of_mem _ hscan, hx.2⟩
  refine ((h.register hU hid hw).deregister htriples).forget (fun i hi => ?_)
    (List.mem_cons_self ..)
  rcases List.mem_cons.mp hi with rfl | hi
  · exact List.mem_cons_self ..
  · exact List.mem_cons_of_mem _ (List.mem_cons_of_mem _ hi)

end Referenced

theorem IndexGrows.referenced {U : SeriesKey → Prop} (hU : IdInjective U) {past : List ChunkIndex}
    {ids : List ChunkId} {idx : ChunkIndex} (h : IndexGrows U past ids idx) :
    Referenced past ids idx := by
  induction h with
  | new => exact .new
  | flush h hid hw ih => exact ih.register hU hid hw
  | commit h hid hw hscan hgroup ih => exact ih.commit hU hid hw hscan hgroup

/-- **References never dangle.** In every index reached by registering
written chunks and committing merges, however old the scan a merge was
planned from, every entry of `time_index` stands under its own keys and has
its statistics, its file and its series; a query finds the path and the key
of every entry it reads. -/
theorem references_never_dangle {U : SeriesKey → Prop} (hU : IdInjective U)
    {past : List ChunkIndex} {ids : List ChunkId} {idx : ChunkIndex}
    (h : IndexGrows U past ids idx) :
    (∀ sid t e, idx.entryAt sid t = some e →
      e.seriesId = sid ∧ e.timeStartNs = t ∧ e.timeStartNs ≤ e.timeEndNs ∧
      (e.chunkId, e.seriesId) ∈ idx.chunkStats ∧ e.chunkId ∈ idx.chunkFiles ∧
      e.seriesId ∈ idx.seriesRegistry) ∧
    ∀ q, ∀ e ∈ (scanIndex q idx).chunks,
      e.chunkId ∈ (scanIndex q idx).paths ∧ e.seriesId ∈ (scanIndex q idx).keys := by
  have href := h.referenced hU
  refine ⟨fun sid t e he => ?_, fun q e he => ?_⟩
  · have hok := href.entries sid t e he
    exact ⟨hok.seriesId, hok.start, hok.ordered, hok.stats, hok.file, hok.registry⟩
  · obtain ⟨sid, -, hprune⟩ := List.mem_flatMap.mp he
    obtain ⟨t, hentry, -, -⟩ := ChunkIndex.mem_pruneChunks.mp hprune
    have hok := href.entries sid t e hentry
    rw [Std.ExtTreeMap.mem_iff_isSome_getElem?, Std.ExtTreeMap.mem_iff_isSome_getElem?,
      paths_scanIndex he, keys_scanIndex he, Option.isSome_map]
    exact ⟨Std.ExtTreeMap.mem_iff_isSome_getElem?.mp hok.file,
      Std.ExtTreeMap.mem_iff_isSome_getElem?.mp hok.registry⟩

end

section Example

attribute [local instance] Reference.crates

/-- Points of the series `cpu` at the given times. -/
def cpuData (points : List (Int64 × F64)) : SeriesData := (∅ : SeriesData).insert ⟨"cpu", ∅⟩ points

theorem written_cpu {chunkId : ChunkId} {points : List (Int64 × F64)} {r : Bytes × ChunkWriteResult}
    (hw : ChunkWriter.write chunkId (cpuData points) = .ok r)
    (hsorted : points.Pairwise fun p q => p.1 < q.1) :
    Written (· = ⟨"cpu", ∅⟩) chunkId r.2 := by
  refine ⟨_, r.1, hw, fun kp hkp => ?_⟩
  have hget := Std.ExtTreeMap.mem_toList_iff_getElem?_eq_some.mp hkp
  rw [cpuData, TreeMap.getElem?_insert_eq] at hget
  split at hget
  · next hkey => exact ⟨hkey, Option.some.inj hget ▸ hsorted⟩
  · simp at hget

/-- A second chunk takes the slot of the first one between the scan and the
commit of a merge. -/
theorem references_never_dangle_stale : ∃ past idx,
    IndexGrows (· = ⟨"cpu", ∅⟩) past [102, 101, 100] idx ∧
      ∀ sid t e, idx.entryAt sid t = some e → (e.chunkId, e.seriesId) ∈ idx.chunkStats := by
  obtain ⟨first, hfirst, hscan⟩ := Runs.exists_ok_of_any
    (o := ChunkWriter.write 100 (cpuData [(5, ⟨1⟩), (6, ⟨2⟩)]))
    (f := fun r => (findCandidates ⟨1, fun _ _ => true⟩
      (ChunkIndex.new.registerAll r.2.chunkMeta r.2.seriesResults) [(100, ⟨100, 187⟩)]).length = 1)
    (by decide +kernel)
  obtain ⟨second, hsecond, -⟩ := Runs.exists_ok_of_any
    (o := ChunkWriter.write 101 (cpuData [(5, ⟨9⟩)])) (f := fun _ => true) (by decide +kernel)
  obtain ⟨merged, hmerged, -⟩ := Runs.exists_ok_of_any
    (o := ChunkWriter.write 102 (cpuData [(5, ⟨1⟩), (6, ⟨2⟩)])) (f := fun _ => true)
    (by decide +kernel)
  obtain ⟨group, hgroup⟩ := List.length_eq_one_iff.mp (of_decide_eq_true hscan)
  have hgrows := ((IndexGrows.new.flush (by decide)
    (written_cpu hfirst (by decide))).flush (by decide)
    (written_cpu hsecond (by decide))).commit (by decide)
    (written_cpu hmerged (by decide)) (List.mem_cons_of_mem _ (List.mem_cons_self ..))
    (hgroup ▸ List.mem_singleton_self group)
  refine ⟨_, _, hgrows, fun sid t e he => ?_⟩
  have hids : IdInjective (· = (⟨"cpu", ∅⟩ : SeriesKey)) := fun k k' hk hk' _ => hk.trans hk'.symm
  exact ((references_never_dangle hids hgrows).1 sid t e he).2.2.2.1

end Example

end Micius

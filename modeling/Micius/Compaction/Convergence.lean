import Mathlib.Data.List.Permutation
import Mathlib.Data.List.Sublists
import Micius.Compaction.Outcomes
import Micius.Compaction.Tiers

/-!
# What a compaction cycle reports, and that cycles come to an end

`compact_once` counts the chunks it merged and the bytes it freed. On a store
that holds its chunks these are the changes of `chunk_files`: every candidate
leaves it, and one merged chunk comes in for each group. With a threshold of at
least two every cycle that finds candidates makes the number of files smaller,
so cycles without new flushes soon find none.
-/

namespace Micius

/-- `CompactionResult`. -/
structure CompactionResult where
  chunksMerged : Nat
  bytesFreed : Nat
  deriving DecidableEq

section Model

variable [Crates]

/-- The loop of `compact_once` with its two counters, `new_bytes: u64` and
`chunks_merged: usize`. -/
def mergeCounted (io : Nat → MergeIo) : List MergeGroup → ChunkStore → Nat → Nat →
    Except CycleError (Nat × Nat) × ChunkStore
  | [], s, newBytes, chunksMerged => (.ok (newBytes, chunksMerged), s)
  | group :: groups, s, newBytes, chunksMerged =>
    match (io 0).mergeGroupResult group s with
    | (.error e, s') => (.error e, s')
    | (.ok result, s') =>
      mergeCounted (fun k => io (k + 1)) groups s'
        ((newBytes + result.chunkMeta.fileSize) % 2 ^ 64)
        ((chunksMerged + group.chunks.length) % 2 ^ 64)

/-- `compact_once` with its result. -/
def compactOnceResult (cfg : CompactionConfig) (io : Nat → MergeIo)
    (files : List (ChunkId × ChunkMeta)) (s : ChunkStore) :
    Except CycleError CompactionResult × ChunkStore :=
  let candidates := findCandidates cfg s.index files
  let oldBytes := oldBytes s.index candidates
  if candidates.isEmpty then (.ok ⟨0, 0⟩, s)
  else
    match mergeCounted io candidates s 0 0 with
    | (.error e, s') => (.error e, s')
    | (.ok (newBytes, chunksMerged), s') =>
      (.ok ⟨chunksMerged % 2 ^ 32, oldBytes - newBytes⟩, s')

/-! ## The counters change nothing -/

theorem mergeGroups_eq (io : Nat → MergeIo) (groups : List MergeGroup) (s : ChunkStore)
    (newBytes chunksMerged : Nat) :
    mergeGroups io groups s =
      ((mergeCounted io groups s newBytes chunksMerged).1.map fun _ => (),
        (mergeCounted io groups s newBytes chunksMerged).2) := by
  induction groups generalizing io s newBytes chunksMerged with
  | nil => rfl
  | cons group groups ih =>
    rw [mergeGroups, mergeCounted, mergeGroup_eq]
    cases (io 0).mergeGroupResult group s with
    | mk outcome s' =>
      cases outcome with
      | error e => rfl
      | ok result => exact ih ..

/-- The cycle of `compactOnce`, with its result. -/
theorem compactOnce_eq (cfg : CompactionConfig) (io : Nat → MergeIo)
    (files : List (ChunkId × ChunkMeta)) (s : ChunkStore) :
    compactOnce cfg io files s = ((compactOnceResult cfg io files s).1.map fun _ => (),
      (compactOnceResult cfg io files s).2) := by
  rw [compactOnce, compactOnceResult, mergeGroups_eq io _ s 0 0]
  split
  · next hempty =>
    rw [List.isEmpty_iff.mp hempty]
    rfl
  · cases mergeCounted io (findCandidates cfg s.index files) s 0 0 with
    | mk outcome s' => cases outcome <;> rfl

end Model

/-! ## The files of the index -/

section

variable [Crates] {U : SeriesKey → Prop} {points : List DataPoint} {s s' : ChunkStore}
  {live : List Chunk} {group : MergeGroup} {groups : List MergeGroup}

/-- The files that the index names. -/
def ChunkStore.files (s : ChunkStore) : List (ChunkId × ChunkMeta) := s.index.chunkFiles.toList

omit [Crates] in
theorem ChunkStore.mem_files {f : ChunkId × ChunkMeta} :
    f ∈ s.files ↔ s.index.chunkFiles[f.1]? = some f.2 :=
  Std.ExtTreeMap.mem_toList_iff_getElem?_eq_some

/-- The entries that a group deregisters are of its chunks. -/
theorem GroupOk.ids_of_deregister {cs : List Chunk} (h : GroupOk live group cs)
    {t : SeriesId × ChunkId × Int64} (ht : t ∈ group.deregister) : t.2.1 ∈ group.ids := by
  obtain ⟨c, hc, hid, -⟩ := (h.deregister t.1 t.2.1 t.2.2).mp ht
  rw [MergeGroup.ids, h.chunks, List.map_map]
  exact List.mem_map.mpr ⟨c, hc, hid⟩

/-- Committing a merge takes the files of its group out of the index and puts
the merged one in. -/
theorem CycleOk.files_merged (hlaw : Crates.LawfulLz4) (hU : KeysOk U) (hdist : Distinct points)
    (h : CycleOk U points s live (group :: groups)) {io : MergeIo} (hnoticed : io.Noticed group s)
    {bytes : Bytes} {result : ChunkWriteResult} (hmerged : MergedBy io group s s' bytes result) :
    (∃ live', CycleOk U points s' live' groups) ∧
      s'.files.Perm ((io.chunkId, ⟨io.chunkId, bytes.length⟩) ::
        s.files.filter fun f => f.1 ∉ group.ids) := by
  obtain ⟨cs, hgroup, hfit⟩ := h.fits group (by simp)
  have hdisk : ∀ c ∈ cs, OnDisk s.dir c := fun c hc => h.holds.onDisk c (hgroup.live c hc)
  have hkeys : ∀ c ∈ cs, ∀ kp ∈ c.data.toList, U kp.1 :=
    fun c hc kp hkp => h.holds.index.key_in_use (hgroup.live c hc) hkp
  have hne : cs ≠ [] := by
    rintro rfl
    have hmerge := hmerged.merge
    simp only [Micius.mergeGroup, hgroup.chunks, List.map_nil, readGroup, bind, Except.bind]
      at hmerge
    cases hmerge
  have hdistinct : Distinct (livePoints cs) :=
    ((hdist.of_perm h.points.symm).of_perm (h.pending.split h.holds.ids hgroup)).sublist
      (List.sublist_append_left ..)
  obtain ⟨m, bytes', result', hid, hdata, hpoints, hw, hmerge⟩ :=
    mergeGroup_chunks hlaw hU hdisk hkeys hgroup.chunks hne hdistinct io.chunkId
  obtain ⟨rfl, rfl⟩ := Prod.mk.inj (Except.ok.inj (hmerged.merge.symm.trans hmerge))
  have hnew : m.id ∉ s.dir := hid ▸ hmerged.fresh
  have hcommit := h.commit hU.inj hdist hgroup hw hpoints (hdata ▸ hfit) hnew io.deletable
  have hstore : s' = ⟨group.commit s.index result,
      deleteFiles io.deletable (group.chunks.map Prod.snd) (s.dir.insert m.id bytes)⟩ := by
    have hdir := hmerged.dir
    rw [(WriteIo.written_of_returnsOk hmerged.returnsOk (hnoticed _ _ hmerge)).2] at hdir
    obtain ⟨idx, dir⟩ := s'
    rw [hid]
    exact congrArg₂ ChunkStore.mk hmerged.index hdir
  rw [← hstore] at hcommit
  refine ⟨⟨_, hcommit⟩, ?_⟩
  rw [← hid]
  have hreg := IndexOk.chunkFiles_chunk hw s.index
  have hlive : ∀ f ∈ s.files, f.1 ∈ s.dir := by
    intro f hf
    obtain ⟨c, hc, hcid, -⟩ := h.holds.exists_file (ChunkStore.mem_files.mp hf)
    exact hcid ▸ h.holds.mem_dir hc
  have hout : m.id ∉ group.ids := by
    rw [MergeGroup.ids, hgroup.chunks, List.map_map]
    intro hmem
    obtain ⟨c, hc, heq⟩ := List.mem_map.mp hmem
    exact hnew ((show c.id = m.id from heq) ▸ h.holds.mem_dir (hgroup.live c hc))
  -- a file stays exactly if its chunk is not in the group
  have hkept : ∀ c, c ∉ group.ids → s'.index.chunkFiles[c]? =
      (s.index.registerAll result.chunkMeta result.seriesResults).chunkFiles[c]? := by
    intro c hc
    rw [hmerged.index, MergeGroup.commit, ChunkIndex.chunkFiles_deregisterAll_of_not_mem]
    exact fun t ht heq => hc (heq ▸ hgroup.ids_of_deregister ht)
  have hgone : ∀ c ∈ group.ids, s'.index.chunkFiles[c]? = none := by
    intro c hc
    by_contra hsome
    have hmem : c ∈ s'.index.chunkFiles :=
      Std.ExtTreeMap.mem_iff_isSome_getElem?.mpr (Option.isSome_iff_ne_none.mpr hsome)
    obtain ⟨c', hc', heq⟩ := (hcommit.holds.index.files c).mp hmem
    rcases List.mem_cons.mp hc' with rfl | hc'
    · exact hout (heq ▸ hc)
    · exact of_decide_eq_true (List.mem_filter.mp hc').2 (heq ▸ hc)
  refine (List.perm_ext_iff_of_nodup (TreeMap.nodup_toList _) ?_).mpr fun f => ?_
  · refine List.nodup_cons.mpr ⟨fun hmem => ?_, (TreeMap.nodup_toList _).filter _⟩
    exact hnew (hlive _ (List.mem_filter.mp hmem).1)
  · rw [Std.ExtTreeMap.mem_toList_iff_getElem?_eq_some, List.mem_cons, List.mem_filter,
      ChunkStore.mem_files, decide_eq_true_eq]
    by_cases hf : f.1 ∈ group.ids
    · rw [hgone f.1 hf]
      refine ⟨fun hsome => (Option.some_ne_none _ hsome.symm).elim, ?_⟩
      rintro (rfl | hfile)
      · exact (hout hf).elim
      · exact (hfile.2 hf).elim
    · rw [hkept f.1 hf, hreg]
      by_cases hm : f.1 = m.id
      · rw [if_pos hm]
        constructor
        · exact fun heq => .inl (Prod.ext hm (Option.some.inj heq).symm)
        · rintro (rfl | hfile)
          · rfl
          · exact (hnew (hm ▸ hlive f (ChunkStore.mem_files.mpr hfile.1))).elim
      · rw [if_neg hm]
        constructor
        · exact fun heq => .inr ⟨heq, hf⟩
        · rintro (rfl | hfile)
          · exact (hm rfl).elim
          · exact hfile.1

/-- **The files after the groups are merged**: those of no group, and one new
file for each group. -/
theorem CycleOk.files_mergeCounted (hlaw : Crates.LawfulLz4) (hU : KeysOk U)
    (hdist : Distinct points)
    (h : CycleOk U points s live groups) {io : Nat → MergeIo} (hnoticed : MergesNoticed io groups s)
    {newBytes chunksMerged : Nat} {counts : Nat × Nat} (hbytes : newBytes < 2 ^ 64)
    (hcount : chunksMerged < 2 ^ 64)
    (hok : mergeCounted io groups s newBytes chunksMerged = (.ok counts, s')) :
    ∃ (live' : List Chunk) (merged : List (ChunkId × ChunkMeta)),
      CycleOk U points s' live' [] ∧
      merged.length = groups.length ∧
      s'.files.Perm (merged ++ s.files.filter fun f => f.1 ∉ groups.flatMap MergeGroup.ids) ∧
      counts.1 = (newBytes + (merged.map fun f => f.2.fileSize).sum) % 2 ^ 64 ∧
      counts.2 = (chunksMerged + (groups.flatMap MergeGroup.ids).length) % 2 ^ 64 := by
  induction groups generalizing s live io newBytes chunksMerged with
  | nil =>
    obtain ⟨hcounts, rfl⟩ := Prod.mk.inj hok
    obtain rfl := Except.ok.inj hcounts
    exact ⟨live, [], h, rfl, by simp, (Nat.mod_eq_of_lt hbytes).symm, (Nat.mod_eq_of_lt hcount).symm⟩
  | cons group groups ih =>
    rw [mergeCounted] at hok
    obtain ⟨e, s₁, hout, -⟩ | ⟨s₁, bytes, result, hout, hmerged⟩ := merge_outcome (io 0) group s
    · rw [hout] at hok
      cases (Prod.mk.inj hok).1
    · rw [hout] at hok
      obtain ⟨hfirst, hrest⟩ := hnoticed.of_cons
      rw [mergeGroup_eq, hout] at hrest
      obtain ⟨⟨live₁, h₁⟩, hfiles⟩ := h.files_merged hlaw hU hdist hfirst hmerged
      obtain ⟨live', merged, hend, hlen, hperm, hbytes, hcount⟩ := ih h₁ (hrest rfl)
        (Nat.mod_lt _ (Nat.two_pow_pos 64)) (Nat.mod_lt _ (Nat.two_pow_pos 64)) hok
      obtain ⟨m, hid, hw, -⟩ := exists_merged_chunk hmerged.merge
      refine ⟨live', merged ++ [((io 0).chunkId, ⟨(io 0).chunkId, bytes.length⟩)], hend,
        by simp [hlen], ?_, ?_, ?_⟩
      · -- the merged file is in none of the groups to come
        have hfresh : (io 0).chunkId ∉ groups.flatMap MergeGroup.ids := by
          intro hmem
          obtain ⟨g, hg, hgid⟩ := List.mem_flatMap.mp hmem
          obtain ⟨cs, hcs⟩ := h.pending.group g (List.mem_cons_of_mem group hg)
          rw [MergeGroup.ids, hcs.chunks, List.map_map] at hgid
          obtain ⟨c, hc, heq⟩ := List.mem_map.mp hgid
          exact hmerged.fresh ((show c.id = (io 0).chunkId from heq) ▸
            h.holds.mem_dir (hcs.live c hc))
        have hfilter := hfiles.filter fun f => decide (f.1 ∉ groups.flatMap MergeGroup.ids)
        rw [List.filter_cons_of_pos (by simpa using hfresh), List.filter_filter] at hfilter
        refine hperm.trans ((hfilter.append_left merged).trans (.of_eq ?_))
        rw [List.append_assoc, List.singleton_append]
        congr 2
        refine List.filter_congr fun f _ => ?_
        simp [List.flatMap_cons, Bool.and_comm]
      · rw [hbytes, (write_result hw).1, List.map_append, List.sum_append]
        simp only [List.map_cons, List.map_nil, List.sum_cons, List.sum_nil]
        omega
      · rw [hcount, List.flatMap_cons, List.length_append, MergeGroup.ids, List.length_map]
        omega

/-- The bytes of the files that the index names. -/
def ChunkStore.fileBytes (s : ChunkStore) : Nat := (s.files.map fun f => f.2.fileSize).sum

omit [Crates] in
/-- The files of the candidates, and the others. -/
theorem files_split (s : ChunkStore) (ids : List ChunkId) :
    s.files.Perm ((s.files.filter fun f => f.1 ∈ ids) ++ s.files.filter fun f => f.1 ∉ ids) := by
  have hsplit := List.filter_append_perm (fun f : ChunkId × ChunkMeta => decide (f.1 ∈ ids)) s.files
  simpa only [decide_not] using hsplit.symm

omit [Crates] in
/-- As many files as there are candidates. -/
theorem length_candidates (cfg : CompactionConfig) {files : List (ChunkId × ChunkMeta)}
    (hfiles : files.Perm s.index.chunkFiles.toList) :
    (s.files.filter fun f =>
      f.1 ∈ (findCandidates cfg s.index files).flatMap MergeGroup.ids).length =
        ((findCandidates cfg s.index files).flatMap MergeGroup.ids).length := by
  obtain ⟨kept, hkept, hchunks⟩ := candidates_sublist cfg hfiles
  have hids : (findCandidates cfg s.index files).flatMap MergeGroup.ids = kept.map Prod.fst := by
    have hmap := congrArg (List.map Prod.fst) hchunks
    rwa [List.map_flatMap, List.map_map] at hmap
  have hnodup := nodup_candidates cfg hfiles
  change ((findCandidates cfg s.index files).flatMap MergeGroup.ids).Nodup at hnodup
  rw [← List.length_map Prod.fst]
  refine List.Perm.length_eq ((List.perm_ext_iff_of_nodup ?_ hnodup).mpr fun id => ?_)
  · exact (TreeMap.nodup_keys s.index.chunkFiles).sublist (List.filter_sublist.map _)
  · rw [List.mem_map]
    constructor
    · rintro ⟨f, hf, rfl⟩
      exact of_decide_eq_true (List.mem_filter.mp hf).2
    · intro hid
      have hmem := hid
      rw [hids] at hmem
      obtain ⟨f, hf, rfl⟩ := List.mem_map.mp hmem
      exact ⟨f, List.mem_filter.mpr ⟨hkept.subset hf, decide_eq_true hid⟩, rfl⟩

omit [Crates] in
/-- The files of the candidates leave `chunk_files`, and the merged ones come in. -/
theorem length_files_merged (cfg : CompactionConfig) {files : List (ChunkId × ChunkMeta)}
    (hfiles : files.Perm s.index.chunkFiles.toList) {merged : List (ChunkId × ChunkMeta)}
    (hperm : s'.files.Perm (merged ++ s.files.filter fun f =>
      f.1 ∉ (findCandidates cfg s.index files).flatMap MergeGroup.ids)) :
    ((findCandidates cfg s.index files).flatMap MergeGroup.ids).length + s'.files.length =
      s.files.length + merged.length := by
  have hlength := (files_split s
    ((findCandidates cfg s.index files).flatMap MergeGroup.ids)).length_eq
  have hlength' := hperm.length_eq
  rw [List.length_append] at hlength hlength'
  rw [length_candidates cfg hfiles] at hlength
  omega

/-! ## A cycle that succeeds -/

section

variable (hlaw : Crates.LawfulLz4) (hU : KeysOk U) (hstore : s.Holds U live)
  (hdist : Distinct (livePoints live)) (cfg : CompactionConfig)
  {files : List (ChunkId × ChunkMeta)} (hfiles : files.Perm s.index.chunkFiles.toList)
  (hfit : ∀ group ∈ findCandidates cfg s.index files, ∀ points,
    readGroup s.dir group.chunks = .ok points → (SeriesData.insertPoints ∅ points).Fits)
include hlaw hU hstore hdist hfiles hfit

theorem cycle_result {io : Nat → MergeIo}
    (hnoticed : MergesNoticed io (findCandidates cfg s.index files) s) {result : CompactionResult}
    (hok : compactOnceResult cfg io files s = (.ok result, s')) :
    ∃ (live' : List Chunk) (merged : List (ChunkId × ChunkMeta)),
      s'.Holds U live' ∧ (livePoints live').Perm (livePoints live) ∧
      merged.length = (findCandidates cfg s.index files).length ∧
      s'.files.Perm (merged ++ s.files.filter fun f =>
        f.1 ∉ (findCandidates cfg s.index files).flatMap MergeGroup.ids) ∧
      result.chunksMerged =
        ((findCandidates cfg s.index files).flatMap MergeGroup.ids).length % 2 ^ 64 % 2 ^ 32 ∧
      result.bytesFreed = oldBytes s.index (findCandidates cfg s.index files) -
        (merged.map fun f => f.2.fileSize).sum % 2 ^ 64 := by
  have hstart := cycleOk_candidates hlaw hU hstore cfg hfiles hfit
  rw [compactOnceResult] at hok
  split at hok
  · next hempty =>
    obtain ⟨hresult, rfl⟩ := Prod.mk.inj hok
    obtain rfl := Except.ok.inj hresult
    rw [List.isEmpty_iff.mp hempty]
    exact ⟨live, [], hstore, .refl _, rfl, by simp, rfl, rfl⟩
  · cases hcounted : mergeCounted io (findCandidates cfg s.index files) s 0 0 with
    | mk outcome s₁ =>
      rw [hcounted] at hok
      cases outcome with
      | error e => cases (Prod.mk.inj hok).1
      | ok counts =>
        obtain ⟨hresult, rfl⟩ := Prod.mk.inj hok
        obtain rfl := Except.ok.inj hresult
        obtain ⟨live', merged, hend, hlen, hperm, hbytes, hcount⟩ :=
          hstart.files_mergeCounted hlaw hU hdist hnoticed (Nat.two_pow_pos 64)
            (Nat.two_pow_pos 64) hcounted
        refine ⟨live', merged, hend.holds, hend.points, hlen, hperm, ?_, ?_⟩
        · rw [← Nat.zero_add ((List.flatMap _ _).length), ← hcount]
        · rw [← Nat.zero_add (List.sum _), ← hbytes]

/-- **A cycle reports what it did**, if no merged file is cut short without an
error. `chunks_merged` is the number of files that left `chunk_files`, where one
file came in for each group, and `bytes_freed` is what the files of the index
have become smaller by, or nothing. -/
theorem compaction_reports_changes {io : Nat → MergeIo}
    (hnoticed : MergesNoticed io (findCandidates cfg s.index files) s) {result : CompactionResult}
    (hok : compactOnceResult cfg io files s = (.ok result, s'))
    (hcount : s.files.length < 2 ^ 32) (hbytes : s.fileBytes < 2 ^ 64)
    (hbytes' : s'.fileBytes < 2 ^ 64) :
    result.chunksMerged + s'.files.length =
        s.files.length + (findCandidates cfg s.index files).length ∧
      result.bytesFreed = s.fileBytes - s'.fileBytes := by
  obtain ⟨live', merged, -, -, hlen, hperm, hmerged, hfreed⟩ :=
    cycle_result hlaw hU hstore hdist cfg hfiles hfit hnoticed hok
  constructor
  · have hnum : ((findCandidates cfg s.index files).flatMap MergeGroup.ids).length ≤
        s.files.length := length_candidates cfg hfiles ▸ List.length_filter_le ..
    rw [hmerged, Nat.mod_eq_of_lt (by omega), Nat.mod_eq_of_lt (by omega),
      length_files_merged cfg hfiles hperm, hlen]
  · have hsplit := files_split s ((findCandidates cfg s.index files).flatMap MergeGroup.ids)
    have hsum := (hsplit.map fun f => f.2.fileSize).sum_nat
    have hsum' := (hperm.map fun f => f.2.fileSize).sum_nat
    rw [List.map_append, List.sum_append] at hsum hsum'
    rw [hfreed, oldBytes_candidates hfiles]
    rw [ChunkStore.fileBytes] at hbytes hbytes'
    rw [ChunkStore.fileBytes, ChunkStore.fileBytes]
    change _ % 2 ^ 64 - _ = _
    rw [Nat.mod_eq_of_lt, Nat.mod_eq_of_lt (by omega)]
    · change (s.files.filter _ |>.map _).sum - _ = _
      omega
    · change (s.files.filter _ |>.map _).sum < _
      omega

end

/-! ## Cycle after cycle -/

omit [Crates] in
theorem le_length_of_candidate {cfg : CompactionConfig} {idx : ChunkIndex}
    {files : List (ChunkId × ChunkMeta)} (h : group ∈ findCandidates cfg idx files) :
    cfg.minThreshold ≤ group.ids.length := by
  obtain ⟨-, hzero⟩ | ⟨run, -, hlen, hchunks⟩ := run_of_candidate h
  · omega
  · rwa [MergeGroup.ids, hchunks, runChunks, List.map_map, List.length_map]

omit [Crates] in
/-- Groups of at least two chunks have more chunks than there are groups. -/
theorem two_mul_length_le {groups : List MergeGroup} (h : ∀ g ∈ groups, 2 ≤ g.ids.length) :
    2 * groups.length ≤ (groups.flatMap MergeGroup.ids).length := by
  induction groups with
  | nil => exact Nat.le_refl _
  | cons group groups ih =>
    have := h group (by simp)
    have := ih fun g hg => h g (by simp [hg])
    rw [List.flatMap_cons, List.length_append, List.length_cons]
    omega

/-- Consecutive cycles, each of which finds candidates and succeeds, without a
merged file that is cut short. -/
inductive Cycles (cfg : CompactionConfig) : Nat → ChunkStore → ChunkStore → Prop
  | none (s : ChunkStore) : Cycles cfg 0 s s
  | next {n : Nat} {s s₁ s' : ChunkStore} (io : Nat → MergeIo)
      (files : List (ChunkId × ChunkMeta)) (hfiles : files.Perm s.index.chunkFiles.toList)
      (hfound : findCandidates cfg s.index files ≠ [])
      (hnoticed : MergesNoticed io (findCandidates cfg s.index files) s)
      (hok : compactOnce cfg io files s = (.ok (), s₁)) (hrest : Cycles cfg n s₁ s') :
      Cycles cfg (n + 1) s s'

/-- What the group of a store reads is part of what the store holds. -/
theorem points_of_candidate (hlaw : Crates.LawfulLz4) (hU : KeysOk U) (hstore : s.Holds U live)
    (cfg : CompactionConfig) {files : List (ChunkId × ChunkMeta)}
    (hfiles : files.Perm s.index.chunkFiles.toList)
    (hgroup : group ∈ findCandidates cfg s.index files) {ps : List DataPoint}
    (hread : readGroup s.dir group.chunks = .ok ps) : ps.Subperm (livePoints live) := by
  have hgroups := hstore.index.candidates hstore.ids cfg hfiles
  obtain ⟨cs, hcs⟩ := hgroups.group group hgroup
  have hsingle : GroupsOk live [group] := by
    refine ⟨fun g hg => ⟨cs, (List.mem_singleton.mp hg).symm ▸ hcs⟩, ?_⟩
    have hmem : group.chunks.map Prod.fst ∈ (findCandidates cfg s.index files).map fun g =>
        g.chunks.map Prod.fst := List.mem_map.mpr ⟨group, hgroup, rfl⟩
    have hnodup := hgroups.nodup
    rw [List.flatMap_def] at hnodup
    rw [List.flatMap_singleton]
    exact hnodup.sublist (List.sublist_flatten_of_mem hmem)
  rw [hcs.chunks, readGroup_chunks hlaw hU (fun c hc => hstore.onDisk c (hcs.live c hc))
    fun c hc kp hkp => hstore.index.key_in_use (hcs.live c hc) hkp] at hread
  obtain rfl := Except.ok.inj hread
  exact (List.sublist_append_left ..).subperm.trans
    (hsingle.split hstore.ids hcs).symm.subperm

/-- **Compaction comes to an end.** With a threshold of at least two, every
cycle that finds candidates and succeeds makes the number of files smaller. So
there are fewer such cycles in a row than files, whatever sizes the merged files
have; and the store holds the points it held. -/
theorem compaction_converges (hlaw : Crates.LawfulLz4) (hU : KeysOk U) {cfg : CompactionConfig}
    (hthreshold : 2 ≤ cfg.minThreshold) {n : Nat} (hcycles : Cycles cfg n s s')
    (hstore : s.Holds U live) (hdist : Distinct (livePoints live))
    (hfits : ∀ ps : List DataPoint, ps.Subperm (livePoints live) →
      (SeriesData.insertPoints ∅ ps).Fits) :
    n + s'.files.length ≤ s.files.length ∧
      ∃ live', s'.Holds U live' ∧ (livePoints live').Perm (livePoints live) := by
  induction hcycles generalizing live with
  | none s => exact ⟨by omega, live, hstore, .refl _⟩
  | @next n s s₁ s' io files hfiles hfound hnoticed hok hrest ih =>
    rw [compactOnce_eq] at hok
    cases hresult : compactOnceResult cfg io files s with
    | mk outcome s₂ =>
      rw [hresult] at hok
      cases outcome with
      | error e => cases (Prod.mk.inj hok).1
      | ok result =>
        obtain rfl : s₂ = s₁ := (Prod.mk.inj hok).2
        obtain ⟨live₁, merged, hstore₁, hpoints, hlen, hperm, -, -⟩ :=
          cycle_result hlaw hU hstore hdist cfg hfiles (fun g hg ps hread =>
            hfits ps (points_of_candidate hlaw hU hstore cfg hfiles hg hread)) hnoticed hresult
        obtain ⟨hle, live', hstore', hpoints'⟩ := ih hstore₁ (hdist.of_perm hpoints.symm)
          fun ps hps => hfits ps (hps.trans hpoints.subperm)
        refine ⟨?_, live', hstore', hpoints'.trans hpoints⟩
        have htwo : 2 * (findCandidates cfg s.index files).length ≤
            ((findCandidates cfg s.index files).flatMap MergeGroup.ids).length :=
          two_mul_length_le fun g hg => hthreshold.trans (le_length_of_candidate hg)
        have hpos := List.length_pos_iff.mpr hfound
        have hfiles' := length_files_merged cfg hfiles hperm
        omega

end

/-! ## Two files merged into one -/

section Example

attribute [local instance] Reference.crates

/-- The cycle of the two files. -/
def mergedFiles : ChunkStore :=
  (compactOnceResult oneShard.compaction halfDeleted apartChunks.files apartChunks).2

theorem compactOnceResult_apartChunks :
    compactOnceResult oneShard.compaction halfDeleted apartChunks.files apartChunks =
      (.ok ⟨2, apartChunks.fileBytes - mergedFiles.fileBytes⟩, mergedFiles) := by
  have hok : ((compactOnceResult oneShard.compaction halfDeleted apartChunks.files
      apartChunks).1.toOption) = some ⟨2, apartChunks.fileBytes - mergedFiles.fileBytes⟩ := by
    decide +kernel
  have hsome : ∀ {outcome : Except CycleError CompactionResult} {result : CompactionResult},
      outcome.toOption = some result → outcome = .ok result := by
    rintro (e | r) result h
    · cases h
    · exact congrArg Except.ok (Option.some.inj h)
  exact Prod.ext (hsome hok) (by rw [mergedFiles])

theorem noticed_apartChunks : MergesNoticed halfDeleted
    (findCandidates oneShard.compaction apartChunks.index apartChunks.files) apartChunks :=
  mergesNoticed_of_ok (fun _ => rfl) _ _

theorem fits_apartChunks : ∀ ps : List DataPoint,
    ps.Subperm (livePoints [cpuChunk 101 6 9, cpuChunk 100 5 7]) →
      (SeriesData.insertPoints ∅ ps).Fits := by
  have hall : ∀ l ∈ (livePoints [cpuChunk 101 6 9, cpuChunk 100 5 7]).sublists',
      ∀ ps ∈ l.permutations', (SeriesData.insertPoints ∅ ps).Fits := by decide +kernel
  rintro ps ⟨l, hperm, hsub⟩
  exact hall l (List.mem_sublists'.mpr hsub) ps (List.mem_permutations'.mpr hperm.symm)

theorem compaction_reports_changes_merged :
    2 + mergedFiles.files.length = apartChunks.files.length + 1 ∧
      mergedFiles.fileBytes < apartChunks.fileBytes := by
  have hreport := compaction_reports_changes Reference.lawful.lz4 keysOk_cpu holds_apartChunks
    (by decide +kernel) oneShard.compaction (.refl _)
    (fun group hgroup points hread => fits_apartChunks points (points_of_candidate Reference.lawful.lz4
      keysOk_cpu holds_apartChunks oneShard.compaction (.refl _) hgroup hread))
    noticed_apartChunks compactOnceResult_apartChunks (by decide +kernel) (by decide +kernel)
    (by decide +kernel)
  have hgroups : (findCandidates oneShard.compaction apartChunks.index
      apartChunks.index.chunkFiles.toList).length = 1 := by decide +kernel
  obtain ⟨hcount, -⟩ := hreport
  simp only [hgroups] at hcount
  exact ⟨hcount, by decide +kernel⟩

theorem compaction_converges_merged : 1 + mergedFiles.files.length ≤ apartChunks.files.length := by
  have hfound : 0 < (findCandidates oneShard.compaction apartChunks.index
      apartChunks.files).length := by decide +kernel
  have hcycle : compactOnce oneShard.compaction halfDeleted apartChunks.files apartChunks =
      (.ok (), mergedFiles) := by
    rw [compactOnce_eq, compactOnceResult_apartChunks]
    simp only [Except.map]
  obtain ⟨hle, -⟩ := compaction_converges Reference.lawful.lz4 keysOk_cpu
    (show 2 ≤ oneShard.compaction.minThreshold by decide)
    (.next halfDeleted apartChunks.files (.refl _) (List.length_pos_iff.mp hfound)
      noticed_apartChunks hcycle (.none _))
    holds_apartChunks (by decide +kernel) fits_apartChunks
  simpa only [Nat.zero_add] using hle

end Example

end Micius

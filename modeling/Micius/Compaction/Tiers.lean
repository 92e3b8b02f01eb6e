import Micius.Compaction.Newest
import Micius.Lib.GreedyRuns
import Mathlib.Algebra.Order.Field.Rat
import Mathlib.Order.WithBot

/-!
# Size tiers (`compaction/mod.rs`)

`find_candidates` sorts the non-empty chunk files by size and cuts the list into
greedy runs: a run goes on as long as a file is at most `size_ratio` times as
large as the first one. The runs with at least `min_threshold` files are the
candidate groups.
-/

namespace Micius

open GreedyRuns

/-- The worker whose ratio test is exact; a `size_ratio` of `⊤` is the infinite
`f64`. -/
def exactRatio (minThreshold : Nat) (sizeRatio : WithTop ℚ) : CompactionConfig where
  minThreshold := minThreshold
  withinRatio size groupMinSize := decide (((size / groupMinSize : ℚ) : WithTop ℚ) ≤ sizeRatio)

/-- The ids of the chunks of a group. -/
def MergeGroup.ids (group : MergeGroup) : List ChunkId := group.chunks.map Prod.fst

/-- A sum on `u64`. -/
def u64Sum (ns : List Nat) : Nat := ns.foldl (fun acc n => (acc + n) % 2 ^ 64) 0

/-- The `old_bytes` of `compact_once`. -/
def oldBytes (idx : ChunkIndex) (candidates : List MergeGroup) : Nat :=
  u64Sum (candidates.map fun group =>
    u64Sum (group.chunks.filterMap fun x => (idx.chunkFiles[x.1]?).map ChunkMeta.fileSize))

/-! ## The loop -/

/-- Whether a file belongs to the run that starts at another one. -/
def withinRun (cfg : CompactionConfig) (first file : ChunkId × ChunkMeta) : Bool :=
  cfg.withinRatio file.2.fileSize first.2.fileSize

/-- The chunks of a run of files. -/
def runChunks (run : List (ChunkId × ChunkMeta)) : List (ChunkId × ChunkPath) :=
  run.map fun f => (f.1, f.2.filePath)

/-- The groups of the runs that are long enough. -/
def keptRuns (cfg : CompactionConfig) (runs : List (List (ChunkId × ChunkMeta))) :
    List (List (ChunkId × ChunkPath)) :=
  (runs.filter fun run => run.length ≥ cfg.minThreshold).map runChunks

theorem keptRuns_cons (cfg : CompactionConfig) (run : List (ChunkId × ChunkMeta))
    (runs : List (List (ChunkId × ChunkMeta))) : keptRuns cfg (run :: runs) =
      (if (runChunks run).length ≥ cfg.minThreshold then [runChunks run] else []) ++
        keptRuns cfg runs := by
  rw [keptRuns, List.filter_cons, runChunks, List.length_map]
  by_cases h : run.length ≥ cfg.minThreshold
  · rw [if_pos h, if_pos (decide_eq_true h)]
    rfl
  · rw [if_neg h, if_neg (by simpa using h)]
    rfl

/-- The loop, in the middle of a run. -/
theorem groupFiles_run (cfg : CompactionConfig) (files : List (ChunkId × ChunkMeta))
    (first : ChunkId × ChunkMeta) {run : List (ChunkId × ChunkMeta)}
    (hrun : ∀ f ∈ run, withinRun cfg first f) :
    groupFiles cfg files (runChunks (first :: run)) first.2.fileSize =
      keptRuns cfg (runs (withinRun cfg) (first :: run ++ files)) := by
  induction files generalizing first run with
  | nil =>
    rw [groupFiles, List.append_nil, runs_of_forall hrun, keptRuns_cons]
    exact (List.append_nil _).symm
  | cons f files ih =>
    rw [groupFiles, if_neg (by simp [runChunks])]
    by_cases hf : withinRun cfg first f
    · have hrun' : ∀ g ∈ run ++ [f], withinRun cfg first g := by
        intro g hg
        rcases List.mem_append.mp hg with hg | hg
        · exact hrun g hg
        · rwa [List.mem_singleton.mp hg]
      have hext : runChunks (first :: run) ++ [(f.1, f.2.filePath)] =
          runChunks (first :: (run ++ [f])) := by
        simp [runChunks]
      rw [withinRun] at hf
      rw [if_pos hf, hext, ih first hrun']
      simp
    · rw [runs_append_of_not hrun hf, keptRuns_cons]
      rw [withinRun] at hf
      rw [if_neg hf]
      exact congrArg _ (@ih f [] (by simp))

/-- **The loop** returns the greedy runs that are long enough; without files it
returns the empty run. -/
theorem groupFiles_eq (cfg : CompactionConfig) (files : List (ChunkId × ChunkMeta)) :
    groupFiles cfg files [] 0 =
      if files = [] ∧ cfg.minThreshold = 0 then [[]]
      else keptRuns cfg (runs (withinRun cfg) files) := by
  cases files with
  | nil =>
    rw [groupFiles]
    by_cases h : cfg.minThreshold = 0
    · simp [h]
    · simp [h, keptRuns]
  | cons f files =>
    rw [groupFiles, if_pos List.isEmpty_nil, if_neg (by simp)]
    exact @groupFiles_run cfg files f [] (by simp)

/-! ## The groups -/

section

variable {cfg : CompactionConfig} {idx : ChunkIndex} {files : List (ChunkId × ChunkMeta)}

/-- A candidate group is a long enough run, or the empty group of a worker
without a threshold. -/
theorem run_of_candidate {group : MergeGroup} (h : group ∈ findCandidates cfg idx files) :
    (group.chunks = [] ∧ cfg.minThreshold = 0) ∨
      ∃ run ∈ runs (withinRun cfg) (filesBySize files),
        cfg.minThreshold ≤ run.length ∧ group.chunks = runChunks run := by
  obtain ⟨chunks, hchunks, rfl⟩ := List.mem_map.mp h
  rw [groupFiles_eq] at hchunks
  split at hchunks
  · next hnone => exact .inl ⟨List.mem_singleton.mp hchunks, hnone.2⟩
  · obtain ⟨run, hrun, rfl⟩ := List.mem_map.mp hchunks
    obtain ⟨hrun, hlen⟩ := List.mem_filter.mp hrun
    exact .inr ⟨run, hrun, of_decide_eq_true hlen, rfl⟩

theorem ids_of_chunks {group : MergeGroup} {run : List (ChunkId × ChunkMeta)}
    (h : group.chunks = runChunks run) : group.ids = run.map Prod.fst := by
  rw [MergeGroup.ids, h, runChunks, List.map_map]
  rfl

/-- The ids of a candidate group are those of a run. -/
theorem run_of_mem_ids {group : MergeGroup} (h : group ∈ findCandidates cfg idx files)
    {id : ChunkId} (hid : id ∈ group.ids) :
    ∃ run ∈ runs (withinRun cfg) (filesBySize files), group.ids = run.map Prod.fst := by
  rcases run_of_candidate h with ⟨hnil, -⟩ | ⟨run, hrun, -, hchunks⟩
  · rw [MergeGroup.ids, hnil] at hid
    cases hid
  · exact ⟨run, hrun, ids_of_chunks hchunks⟩

/-- The files of the runs are the non-empty files of the index. -/
theorem file_of_run (hfiles : files.Perm idx.chunkFiles.toList) {run : List (ChunkId × ChunkMeta)}
    (hrun : run ∈ runs (withinRun cfg) (filesBySize files)) {f : ChunkId × ChunkMeta}
    (hf : f ∈ run) :
    f.1 ∈ idx.chunkFiles ∧ idx.fileSize f.1 = f.2.fileSize ∧ 0 < f.2.fileSize := by
  have hmem : f ∈ filesBySize files := by
    rw [← flatten_runs (withinRun cfg) (filesBySize files)]
    exact List.mem_flatten.mpr ⟨run, hrun, hf⟩
  obtain ⟨hget, hpos⟩ := (mem_filesBySize hfiles).mp hmem
  refine ⟨Std.ExtTreeMap.mem_iff_isSome_getElem?.mpr ?_, ?_, hpos⟩
  · rw [hget]
    rfl
  · rw [ChunkIndex.fileSize, hget]
    rfl

/-- A long enough run is a candidate group. -/
theorem candidate_of_run (idx : ChunkIndex) {run : List (ChunkId × ChunkMeta)}
    (hrun : run ∈ runs (withinRun cfg) (filesBySize files)) (hlen : cfg.minThreshold ≤ run.length) :
    ∃ group ∈ findCandidates cfg idx files, group.chunks = runChunks run := by
  refine ⟨⟨runChunks run, _⟩, List.mem_map_of_mem ?_, rfl⟩
  have hne : filesBySize files ≠ [] := by
    intro hnil
    rw [hnil, runs_nil] at hrun
    cases hrun
  change runChunks run ∈ groupFiles cfg (filesBySize files) [] 0
  rw [groupFiles_eq, if_neg fun h => hne h.1]
  exact List.mem_map_of_mem (List.mem_filter.mpr ⟨hrun, decide_eq_true hlen⟩)

end

/-! ## Old bytes -/

theorem u64Sum_eq (ns : List Nat) : u64Sum ns = ns.sum % 2 ^ 64 := by
  have hfold : ∀ acc < 2 ^ 64, ns.foldl (fun acc n => (acc + n) % 2 ^ 64) acc =
      (acc + ns.sum) % 2 ^ 64 := by
    induction ns with
    | nil => exact fun acc hacc => (Nat.mod_eq_of_lt hacc).symm
    | cons n ns ih =>
      intro acc _
      rw [List.foldl_cons, ih _ (Nat.mod_lt _ (Nat.two_pow_pos 64)), List.sum_cons, Nat.mod_add_mod,
        Nat.add_assoc]
  rw [u64Sum, hfold 0 (Nat.two_pow_pos 64), Nat.zero_add]

theorem u64Sum_flatMap (parts : List (List Nat)) :
    u64Sum (parts.map u64Sum) = parts.flatten.sum % 2 ^ 64 := by
  rw [u64Sum_eq, List.sum_flatten]
  induction parts with
  | nil => rfl
  | cons part parts ih =>
    rw [List.map_cons, List.map_cons, List.sum_cons, List.sum_cons, u64Sum_eq part, Nat.mod_add_mod,
      Nat.add_mod, ih, ← Nat.add_mod]

section

variable {cfg : CompactionConfig} {idx : ChunkIndex} {files : List (ChunkId × ChunkMeta)}
  (hfiles : files.Perm idx.chunkFiles.toList)
include hfiles

/-- The old bytes are those of the files of the groups, each counted once. -/
theorem oldBytes_candidates : oldBytes idx (findCandidates cfg idx files) =
    ((idx.chunkFiles.toList.filter fun f =>
      f.1 ∈ (findCandidates cfg idx files).flatMap MergeGroup.ids).map
        fun f => f.2.fileSize).sum % 2 ^ 64 := by
  obtain ⟨kept, hkept, hchunks⟩ := candidates_sublist cfg hfiles
  have hget : ∀ f ∈ kept, idx.chunkFiles[f.1]? = some f.2 := fun f hf =>
    Std.ExtTreeMap.mem_toList_iff_getElem?_eq_some.mp (hkept.subset hf)
  have hids : (findCandidates cfg idx files).flatMap MergeGroup.ids = kept.map Prod.fst := by
    have hmap := congrArg (List.map Prod.fst) hchunks
    rwa [List.map_flatMap, List.map_map] at hmap
  -- the sizes are looked up in the index, file by file
  have hsizes : ((findCandidates cfg idx files).map fun group => group.chunks.filterMap
      fun x => (idx.chunkFiles[x.1]?).map ChunkMeta.fileSize).flatten =
        kept.map fun f => f.2.fileSize := by
    rw [← List.flatMap_def, ← List.filterMap_flatMap, hchunks, List.filterMap_map,
      ← List.filterMap_eq_map]
    refine List.filterMap_congr fun f hf => ?_
    rw [Function.comp_apply, hget f hf]
    rfl
  have hperm : kept.Perm (idx.chunkFiles.toList.filter fun f => f.1 ∈ kept.map Prod.fst) := by
    have hnodup := nodup_candidates cfg hfiles
    change ((findCandidates cfg idx files).flatMap MergeGroup.ids).Nodup at hnodup
    rw [hids] at hnodup
    refine (List.perm_ext_iff_of_nodup hnodup.of_map
      ((TreeMap.nodup_toList idx.chunkFiles).filter _)).mpr fun f => ?_
    rw [List.mem_filter, decide_eq_true_eq]
    constructor
    · exact fun hf => ⟨hkept.subset hf, List.mem_map_of_mem hf⟩
    · rintro ⟨hf, hid⟩
      obtain ⟨f', hf', hid⟩ := List.mem_map.mp hid
      have heq := List.inj_on_of_nodup_map (TreeMap.nodup_keys idx.chunkFiles)
        (hkept.subset hf') hf hid
      exact heq ▸ hf'
  rw [oldBytes, hids, ← (hperm.map _).sum_nat, ← hsizes]
  exact (congrArg u64Sum (List.map_map ..).symm).trans (u64Sum_flatMap _)

end

/-! ## The partition -/

/-- The size tiers of an index: its candidate groups, and the runs of its files
they are taken from. -/
structure SizeTiers (minThreshold : Nat) (sizeRatio : WithTop ℚ) (idx : ChunkIndex)
    (fileRuns : List (List (ChunkId × ChunkMeta))) (groups : List MergeGroup) : Prop where
  disjoint : groups.Pairwise fun g g' => g.ids.Disjoint g'.ids
  nodup : ∀ g ∈ groups, g.ids.Nodup
  nonempty : ∀ g ∈ groups, ∀ id ∈ g.ids, id ∈ idx.chunkFiles ∧ 0 < idx.fileSize id
  threshold : ∀ g ∈ groups, minThreshold ≤ g.chunks.length
  ratio : ∀ g ∈ groups, ∀ largest ∈ g.ids, ∀ smallest ∈ g.ids,
    ((idx.fileSize largest / idx.fileSize smallest : ℚ) : WithTop ℚ) ≤ sizeRatio
  leftOut : ∀ id file, idx.chunkFiles[id]? = some file → 0 < file.fileSize →
    (∀ g ∈ groups, id ∉ g.ids) → ∃ run ∈ fileRuns, (id, file) ∈ run ∧ run.length < minThreshold
  deregister : ∀ g ∈ groups, ∀ sid id start, (sid, id, start) ∈ g.deregister ↔
    id ∈ g.ids ∧ ∃ e, idx.entryAt sid start = some e ∧ e.chunkId = id

/-- The sizes in a run are within the ratio of each other. -/
theorem ratio_of_run {minThreshold : Nat} {sizeRatio : WithTop ℚ} (hratio : 1 ≤ sizeRatio)
    {files run : List (ChunkId × ChunkMeta)}
    (hrun : run ∈ runs (withinRun (exactRatio minThreshold sizeRatio)) (filesBySize files))
    {f g : ChunkId × ChunkMeta} (hf : f ∈ run) (hg : g ∈ run) :
    ((f.2.fileSize / g.2.fileSize : ℚ) : WithTop ℚ) ≤ sizeRatio := by
  have hsub : run.Sublist (filesBySize files) := by
    have hmem := List.sublist_flatten_of_mem hrun
    rwa [flatten_runs] at hmem
  obtain ⟨first, rest, rfl, hwithin⟩ := exists_head hrun
  have hfirst : (0 : ℚ) < first.2.fileSize := by
    have hmem := (filesBySize_perm files).mem_iff.mp (hsub.subset List.mem_cons_self)
    exact Nat.cast_pos.mpr (of_decide_eq_true (List.mem_filter.mp hmem).2)
  have hsmallest : (first.2.fileSize : ℚ) ≤ g.2.fileSize := by
    rcases List.mem_cons.mp hg with rfl | hg
    · exact le_rfl
    · exact Nat.cast_le.mpr
        ((List.pairwise_cons.mp ((filesBySize_pairwise files).sublist hsub)).1 g hg)
  have hhead : ((f.2.fileSize / first.2.fileSize : ℚ) : WithTop ℚ) ≤ sizeRatio := by
    rcases List.mem_cons.mp hf with rfl | hf
    · rwa [div_self hfirst.ne']
    · exact of_decide_eq_true (hwithin f hf)
  refine le_trans (WithTop.coe_le_coe.mpr ?_) hhead
  exact div_le_div_of_nonneg_left (Nat.cast_nonneg _) hfirst hsmallest

/-- **Candidate selection** partitions the non-empty files by size: whatever the
order of `chunk_files`, the groups are the greedy runs of the files sorted by
size that reach the threshold. -/
theorem candidates_are_size_tiers (minThreshold : Nat) {sizeRatio : WithTop ℚ}
    (hratio : 1 ≤ sizeRatio) {idx : ChunkIndex} {files : List (ChunkId × ChunkMeta)}
    (hfiles : files.Perm idx.chunkFiles.toList) :
    ∃ sorted : List (ChunkId × ChunkMeta),
      sorted.Perm (files.filter fun f => f.2.fileSize > 0) ∧
      sorted.Pairwise (fun f g => f.2.fileSize ≤ g.2.fileSize) ∧
      SizeTiers minThreshold sizeRatio idx
        (runs (withinRun (exactRatio minThreshold sizeRatio)) sorted)
        (findCandidates (exactRatio minThreshold sizeRatio) idx files) ∧
      oldBytes idx (findCandidates (exactRatio minThreshold sizeRatio) idx files) =
        ((idx.chunkFiles.toList.filter fun f => f.1 ∈
          (findCandidates (exactRatio minThreshold sizeRatio) idx files).flatMap
            MergeGroup.ids).map fun f => f.2.fileSize).sum % 2 ^ 64 := by
  refine ⟨filesBySize files, filesBySize_perm files, filesBySize_pairwise files, ?_,
    oldBytes_candidates hfiles⟩
  have hnodup := nodup_candidates (exactRatio minThreshold sizeRatio) hfiles
  obtain ⟨hnodup, hdisjoint⟩ := List.nodup_flatMap.mp hnodup
  refine ⟨hdisjoint, hnodup, ?_, ?_, ?_, ?_, ?_⟩
  · intro group hgroup id hid
    obtain ⟨run, hrun, hids⟩ := run_of_mem_ids hgroup hid
    rw [hids] at hid
    obtain ⟨f, hf, rfl⟩ := List.mem_map.mp hid
    obtain ⟨hmem, hsize, hpos⟩ := file_of_run hfiles hrun hf
    exact ⟨hmem, hsize ▸ hpos⟩
  · intro group hgroup
    rcases run_of_candidate hgroup with ⟨-, hzero⟩ | ⟨run, -, hlen, hchunks⟩
    · exact (Nat.le_of_eq hzero).trans (Nat.zero_le _)
    · rwa [hchunks, runChunks, List.length_map]
  · intro group hgroup largest hlargest smallest hsmallest
    obtain ⟨run, hrun, hids⟩ := run_of_mem_ids hgroup hlargest
    rw [hids] at hlargest hsmallest
    obtain ⟨f, hf, rfl⟩ := List.mem_map.mp hlargest
    obtain ⟨g, hg, rfl⟩ := List.mem_map.mp hsmallest
    rw [(file_of_run hfiles hrun hf).2.1, (file_of_run hfiles hrun hg).2.1]
    exact ratio_of_run hratio hrun hf hg
  · intro id file hget hpos hout
    obtain ⟨run, hrun, hmem⟩ := exists_run (withinRun (exactRatio minThreshold sizeRatio))
      ((mem_filesBySize (f := (id, file)) hfiles).mpr ⟨hget, hpos⟩)
    refine ⟨run, hrun, hmem, ?_⟩
    -- a longer run would be a group
    by_contra hlen
    obtain ⟨group, hgroup, hchunks⟩ := candidate_of_run idx hrun (Nat.not_lt.mp hlen)
    refine hout group hgroup ?_
    rw [ids_of_chunks hchunks]
    exact List.mem_map_of_mem (f := Prod.fst) hmem
  · intro group hgroup sid id start
    rw [deregister_of_mem hgroup, mem_deregisterList]
    rfl

section Example

/-- Files of 0, 15, 40 and 10 bytes. -/
def fourFiles : ChunkIndex :=
  { ChunkIndex.new with
    chunkFiles := [(100, 0), (101, 15), (102, 40), (103, 10)].foldl
      (fun files f => files.insert f.1 ⟨f.1, f.2⟩) ∅ }

/-- With a threshold and a ratio of 2 the files of 10 and 15 bytes are a group,
and the one of 40 bytes is a run of its own. -/
theorem candidates_are_size_tiers_fourFiles :
    (findCandidates (exactRatio 2 2) fourFiles fourFiles.chunkFiles.toList).map MergeGroup.ids =
      [[103, 101]] ∧
    oldBytes fourFiles (findCandidates (exactRatio 2 2) fourFiles fourFiles.chunkFiles.toList) =
      25 ∧
    ∃ sorted : List (ChunkId × ChunkMeta),
      sorted.Perm (fourFiles.chunkFiles.toList.filter fun f => f.2.fileSize > 0) ∧
      sorted.Pairwise (fun f g => f.2.fileSize ≤ g.2.fileSize) ∧
      ∃ run ∈ runs (withinRun (exactRatio 2 2)) sorted,
        (102, ⟨102, 40⟩) ∈ run ∧ run.length < 2 := by
  have hids : (findCandidates (exactRatio 2 2) fourFiles fourFiles.chunkFiles.toList).map
      MergeGroup.ids = [[103, 101]] := by decide +kernel
  obtain ⟨sorted, hperm, hsorted, htiers, hbytes⟩ := candidates_are_size_tiers 2
    (show (1 : WithTop ℚ) ≤ 2 by decide) (List.Perm.refl fourFiles.chunkFiles.toList)
  refine ⟨hids, ?_, sorted, hperm, hsorted,
    htiers.leftOut 102 ⟨102, 40⟩ (by decide +kernel) (by decide) ?_⟩
  · rw [hbytes]
    decide +kernel
  · intro group hgroup hid
    have hmem := List.mem_map_of_mem (f := MergeGroup.ids) hgroup
    rw [hids] at hmem
    rw [List.mem_singleton.mp hmem] at hid
    revert hid
    decide

end Example

end Micius

import Micius.Compaction
import Micius.Index.ChunkStore

/-!
# Candidate groups

The groups that `find_candidates` returns are disjoint lists of live chunks,
each with the index entries of its chunks. Committing the merge of one group
leaves the other groups as they are.
-/

namespace Micius

variable [Crates]

/-- A candidate group: live chunks, and the index entries of these chunks. -/
structure GroupOk (live : List Chunk) (group : MergeGroup) (cs : List Chunk) : Prop where
  live : ∀ c ∈ cs, c ∈ live
  chunks : group.chunks = cs.map fun c => (c.id, c.id)
  deregister : ∀ sid cid t, (sid, cid, t) ∈ group.deregister ↔
    ∃ c ∈ cs, c.id = cid ∧ ∃ kp ∈ c.data.toList, kp.1.id = sid ∧ firstTimestamp kp.2 = t

/-- The groups that a compaction cycle still has to merge. -/
structure GroupsOk (live : List Chunk) (groups : List MergeGroup) : Prop where
  group : ∀ g ∈ groups, ∃ cs, GroupOk live g cs
  nodup : (groups.flatMap fun g => g.chunks.map Prod.fst).Nodup

namespace GroupsOk

variable {live live' : List Chunk} {groups : List MergeGroup}

theorem tail {group : MergeGroup} (h : GroupsOk live (group :: groups)) :
    GroupsOk live groups where
  group g hg := h.group g (List.mem_cons_of_mem group hg)
  nodup := by
    have hnodup := h.nodup
    rw [List.flatMap_cons] at hnodup
    exact hnodup.of_append_right

theorem mono (h : GroupsOk live groups) (hsub : ∀ c ∈ live, c ∈ live') : GroupsOk live' groups where
  group g hg := by
    obtain ⟨cs, hcs⟩ := h.group g hg
    exact ⟨cs, { hcs with live := fun c hc => hsub c (hcs.live c hc) }⟩
  nodup := h.nodup

omit [Crates] in
/-- Live chunks are told apart by their ids. -/
theorem eq_of_id (hids : (live.map Chunk.id).Nodup) {c c' : Chunk} (hc : c ∈ live) (hc' : c' ∈ live)
    (hid : c.id = c'.id) : c = c' :=
  List.inj_on_of_nodup_map hids hc hc' hid

section

variable (hids : (live.map Chunk.id).Nodup) {group : MergeGroup} {cs : List Chunk}
  (h : GroupsOk live (group :: groups)) (hgroup : GroupOk live group cs)
include hids h hgroup

/-- The chunks of a group are the live chunks with its ids. -/
theorem perm : cs.Perm (live.filter fun c => c.id ∈ group.chunks.map Prod.fst) := by
  have hcids : group.chunks.map Prod.fst = cs.map Chunk.id := by
    rw [hgroup.chunks, List.map_map]
    rfl
  have hnodup : (cs.map Chunk.id).Nodup := by
    have hall := h.nodup
    rw [List.flatMap_cons, hcids] at hall
    exact hall.of_append_left
  refine (List.perm_ext_iff_of_nodup hnodup.of_map (hids.of_map.filter _)).mpr fun c => ?_
  rw [List.mem_filter, decide_eq_true_eq, hcids]
  constructor
  · exact fun hc => ⟨hgroup.live c hc, List.mem_map_of_mem hc⟩
  · rintro ⟨hc, hid⟩
    obtain ⟨c', hc', hid⟩ := List.mem_map.mp hid
    exact eq_of_id hids (hgroup.live c' hc') hc hid ▸ hc'

/-- The points of a group, and those of the other live chunks. -/
theorem split : (livePoints live).Perm (livePoints cs ++
    livePoints (live.filter fun c => c.id ∉ group.chunks.map Prod.fst)) := by
  have hsplit := List.filter_append_perm (fun c : Chunk => c.id ∈ group.chunks.map Prod.fst) live
  have hpoints := (hsplit.symm.trans
    ((h.perm hids hgroup).symm.append_right _)).flatMap_right Chunk.points
  rw [List.flatMap_append] at hpoints
  simpa only [livePoints, decide_not] using hpoints

/-- What the merge of a group is about to commit. -/
theorem plan {m : Chunk} (hpoints : m.points.Perm (livePoints cs))
    (hfresh : ∀ c ∈ live, c.id ≠ m.id) :
    IndexOk.MergePlan live (group.chunks.map Prod.fst) m group.deregister := by
  have hmem : ∀ c, c ∈ cs ↔ c ∈ live ∧ c.id ∈ group.chunks.map Prod.fst := by
    intro c
    rw [(h.perm hids hgroup).mem_iff, List.mem_filter, decide_eq_true_eq]
  refine ⟨hfresh, fun p => ?_, fun sid cid t => ?_⟩
  · rw [hpoints.mem_iff, livePoints, List.mem_flatMap]
    simp only [hmem, and_assoc]
  · rw [hgroup.deregister]
    simp only [hmem, and_assoc]

end

/-- Another group of the cycle is still live after a commit. -/
theorem group_committed {group g : MergeGroup} (h : GroupsOk live (group :: groups)) (m : Chunk)
    (hg : g ∈ groups) {cs : List Chunk} (hcs : GroupOk live g cs) :
    GroupOk (m :: live.filter fun c => c.id ∉ group.chunks.map Prod.fst) g cs := by
  refine { hcs with live := fun c hc => ?_ }
  refine List.mem_cons_of_mem m (List.mem_filter.mpr ⟨hcs.live c hc, ?_⟩)
  rw [decide_eq_true_eq]
  intro hid
  have hnodup := h.nodup
  rw [List.flatMap_cons] at hnodup
  refine List.disjoint_of_nodup_append hnodup hid (List.mem_flatMap.mpr ⟨g, hg, ?_⟩)
  rw [hcs.chunks, List.map_map]
  exact List.mem_map_of_mem (f := Chunk.id) hc

theorem committed {group : MergeGroup} (h : GroupsOk live (group :: groups)) (m : Chunk) :
    GroupsOk (m :: live.filter fun c => c.id ∉ group.chunks.map Prod.fst) groups := by
  refine ⟨fun g hg => ?_, h.tail.nodup⟩
  obtain ⟨cs, hcs⟩ := h.tail.group g hg
  exact ⟨cs, h.group_committed m hg hcs⟩

end GroupsOk

omit [Crates] in
/-- Files at the paths of live chunks are those of a list of live chunks. -/
theorem exists_chunks {live : List Chunk} {files : List (ChunkId × ChunkPath)}
    (h : ∀ x ∈ files, x.2 = x.1 ∧ ∃ c ∈ live, c.id = x.1) :
    ∃ cs : List Chunk, (∀ c ∈ cs, c ∈ live) ∧ files = cs.map fun c => (c.id, c.id) := by
  induction files with
  | nil => exact ⟨[], by simp, rfl⟩
  | cons x files ih =>
    obtain ⟨hpath, c, hc, hid⟩ := h x (by simp)
    obtain ⟨cs, hcs, hmap⟩ := ih fun y hy => h y (by simp [hy])
    refine ⟨c :: cs, by simpa using ⟨hc, hcs⟩, ?_⟩
    rw [List.map_cons, hmap, hid]
    exact congrArg (· :: _) (Prod.ext rfl hpath)

/-- The candidates are groups of live chunks with the index entries of these. -/
theorem IndexOk.candidates {U : SeriesKey → Prop} {idx : ChunkIndex} {live : List Chunk}
    (h : IndexOk U idx live) (hids : (live.map Chunk.id).Nodup) (cfg : CompactionConfig)
    {files : List (ChunkId × ChunkMeta)} (hfiles : files.Perm idx.chunkFiles.toList) :
    GroupsOk live (findCandidates cfg idx files) := by
  obtain ⟨kept, hkept, hchunks⟩ := candidates_sublist cfg hfiles
  have hmem : ∀ f ∈ kept, idx.chunkFiles[f.1]? = some f.2 := fun f hf =>
    Std.ExtTreeMap.mem_toList_iff_getElem?_eq_some.mp (hkept.subset hf)
  have hpath : ∀ f ∈ kept, f.2.filePath = f.1 := fun f hf => h.filePath _ _ (hmem f hf)
  constructor
  · intro g hg
    -- every chunk of the group is a live chunk at the path of its id
    have hmine : ∀ x ∈ g.chunks, x.2 = x.1 ∧ ∃ c ∈ live, c.id = x.1 := by
      intro x hx
      have hall : x ∈ (findCandidates cfg idx files).flatMap MergeGroup.chunks :=
        List.mem_flatMap.mpr ⟨g, hg, hx⟩
      rw [hchunks] at hall
      obtain ⟨f, hf, rfl⟩ := List.mem_map.mp hall
      refine ⟨hpath f hf, (h.files f.1).mp ?_⟩
      rw [Std.ExtTreeMap.mem_iff_isSome_getElem?, hmem f hf]
      rfl
    obtain ⟨cs, hlive, hcs⟩ := exists_chunks hmine
    have hcids : cs.map Chunk.id = g.chunks.map Prod.fst := by
      rw [hcs, List.map_map]
      rfl
    refine ⟨cs, hlive, hcs, ?_⟩
    · intro sid cid t
      rw [deregister_of_mem hg, mem_deregisterList, ← hcids]
      constructor
      · rintro ⟨hcid, e, hentry, rfl⟩
        obtain ⟨c, hc, kp, hkp, hsid, ht, rfl⟩ := (h.entries _ _ _).mp hentry
        obtain ⟨c', hc', hid⟩ := List.mem_map.mp hcid
        have hcc : c' = c := GroupsOk.eq_of_id hids (hlive c' hc') hc hid
        exact ⟨c', hc', hid, kp, hcc ▸ hkp, hsid, ht⟩
      · rintro ⟨c, hc, rfl, kp, hkp, hsid, ht⟩
        refine ⟨List.mem_map_of_mem hc, entryOf c.id kp.1 kp.2, ?_, rfl⟩
        exact (h.entries _ _ _).mpr ⟨c, hlive c hc, kp, hkp, hsid, ht, rfl⟩
  · exact nodup_candidates cfg hfiles

end Micius

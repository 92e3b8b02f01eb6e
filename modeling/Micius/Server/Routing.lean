import Micius.Lib.Grouping
import Micius.Server.Exactness

/-!
# Routing

`append` sorts the positions of the request's points by shard and makes one
group of each run. The groups hold the request's points, each in the group of
its shard. The sort is unstable: of the points of one shard, any order can
come out, and with two values for one series and timestamp any of them can be
written last.
-/

namespace Micius

/-! ## The grouping loop -/

/-- `partition_point` on a slice that the predicate partitions. -/
def partitionPoint (p : Nat × Nat → Bool) (l : List (Nat × Nat)) : Nat := (l.takeWhile p).length

/-- The loop of `append` over `indexed[j..]`: the entries up to the first one
of another shard become a group. -/
def groupLoop (points : List DataPoint) : List (Nat × Nat) → List Group
  | [] => []
  | e :: rest =>
    let stop := partitionPoint (fun e' => e'.1 = e.1) rest + 1
    { shard := e.1
      points := ((e :: rest).take stop).filterMap fun e => points[e.2]?
      committed := none } :: groupLoop points ((e :: rest).drop stop)
termination_by indexed => indexed.length

theorem groupLoop_eq (points : List DataPoint) (indexed : List (Nat × Nat)) :
    groupLoop points indexed = shardGroups points indexed := by
  fun_induction groupLoop points indexed with
  | case1 => rfl
  | case2 e rest stop ih =>
    have hwhile : (rest.takeWhile fun e' => e'.1 = e.1) =
        rest.take (rest.takeWhile fun e' => e'.1 = e.1).length :=
      List.prefix_iff_eq_take.mp (List.takeWhile_prefix _)
    have htake : (e :: rest).take stop = e :: rest.takeWhile fun e' => e'.1 = e.1 := by
      rw [List.take_succ_cons, partitionPoint]
      exact congrArg _ hwhile.symm
    have hdrop : (e :: rest).drop stop = rest.dropWhile fun e' => e'.1 = e.1 := by
      have hsplit := List.takeWhile_append_dropWhile (p := fun e' => decide (e'.1 = e.1)) (l := rest)
      rw [List.drop_succ_cons, partitionPoint]
      refine List.append_cancel_left (Eq.trans ?_ hsplit.symm)
      rw [hwhile, List.length_take_of_le (List.takeWhile_prefix _).length_le, List.take_append_drop]
    rw [ih, htake, hdrop]
    have hruns := Grouping.runs_cons Prod.fst e rest
    rw [Grouping.runs, Grouping.runs] at hruns
    rw [shardGroups, shardGroups, hruns]
    rfl

section

variable [Crates] {points : List DataPoint} {shards : Nat} {indexed : List (Nat × Nat)}

/-- The points of the request at the positions of the entries with a shard. -/
def routedTo (points : List DataPoint) (indexed : List (Nat × Nat)) (shard : Nat) :
    List DataPoint := (indexed.filter fun e => e.1 = shard).filterMap fun e => points[e.2]?

omit [Crates] in
/-- A group holds the points of the entries with its shard, in their order. -/
theorem shardGroups_points (hsorted : indexed.Pairwise fun a b => a.1 ≤ b.1) {g : Group}
    (hg : g ∈ shardGroups points indexed) : g.points = routedTo points indexed g.shard := by
  obtain ⟨run, hrun, rfl⟩ := List.mem_map.mp hg
  obtain ⟨e, rest, rfl⟩ := List.exists_cons_of_ne_nil (List.ne_nil_of_mem_splitBy hrun)
  have hfilter := Grouping.run_eq_filter Prod.fst hsorted hrun (List.mem_cons_self ..)
  exact congrArg (List.filterMap fun e => points[e.2]?) hfilter

omit [Crates] in
/-- The shards of the groups go up. -/
theorem shardGroups_increasing (hsorted : indexed.Pairwise fun a b => a.1 ≤ b.1) :
    ((shardGroups points indexed).map Group.shard).Pairwise (· < ·) := by
  rw [shardGroups, List.map_map, List.pairwise_map]
  refine (Grouping.runs_pairwise Prod.fst hsorted).imp_of_mem fun {r r'} hr hr' hlt => ?_
  obtain ⟨e, rest, rfl⟩ := List.exists_cons_of_ne_nil (Grouping.ne_nil_of_mem_runs hr)
  obtain ⟨e', rest', rfl⟩ := List.exists_cons_of_ne_nil (Grouping.ne_nil_of_mem_runs hr')
  exact hlt e (List.mem_cons_self ..) e' (List.mem_cons_self ..)

omit [Crates] in
/-- An entry's shard has a group. -/
theorem exists_shardGroup (points : List DataPoint) {e : Nat × Nat} (he : e ∈ indexed) :
    ∃ g ∈ shardGroups points indexed, g.shard = e.1 := by
  obtain ⟨run, hrun, herun⟩ := Grouping.exists_run Prod.fst he
  refine ⟨_, List.mem_map_of_mem hrun, ?_⟩
  obtain ⟨e', rest, rfl⟩ := List.exists_cons_of_ne_nil (Grouping.ne_nil_of_mem_runs hrun)
  exact Grouping.key_eq_of_mem_run hrun (List.mem_cons_self ..) herun

/-- The points of a shard, from the positions of the whole request. -/
theorem routedTo_indexPoints (shard : Nat) : routedTo points (indexPoints points shards) shard =
    points.filter fun p => shardIndex p shards = shard := by
  have hget : ∀ p ∈ points.zipIdx, points[p.2]? = some p.1 :=
    fun p hp => List.mk_mem_zipIdx_iff_getElem?.mp hp
  rw [routedTo, indexPoints, List.filter_map, List.filterMap_map]
  calc (points.zipIdx.filter fun p => shardIndex p.1 shards = shard).filterMap
        (fun p => points[p.2]?)
      = (points.zipIdx.filter fun p => shardIndex p.1 shards = shard).filterMap (some ·.1) :=
        List.filterMap_congr fun p hp => hget p (List.mem_of_mem_filter hp)
    _ = (points.zipIdx.filter fun p => shardIndex p.1 shards = shard).map Prod.fst :=
        congrFun List.filterMap_eq_map _
    _ = (points.zipIdx.map Prod.fst).filter fun p => shardIndex p shards = shard := by
        rw [List.filter_map]
        rfl
    _ = points.filter fun p => shardIndex p shards = shard := by rw [List.zipIdx_map_fst]

/-- Every outcome of the sort gives a shard the same points. -/
theorem routedTo_perm (h : SortedByShard points shards indexed) (shard : Nat) :
    (routedTo points indexed shard).Perm (points.filter fun p => shardIndex p shards = shard) := by
  rw [← routedTo_indexPoints]
  exact (h.1.filter _).filterMap _

/-! ## Outcomes of the sort -/

/-- Each point of a shard comes last in its group in some outcome. -/
theorem exists_sorted_last (shards : Nat) {p : DataPoint} (hp : p ∈ points) : ∃ indexed init,
    SortedByShard points shards indexed ∧
      routedTo points indexed (shardIndex p shards) = init ++ [p] := by
  obtain ⟨i, hi⟩ := List.mem_iff_getElem?.mp hp
  have hmem : (shardIndex p shards, i) ∈ indexPoints points shards :=
    mem_indexPoints.mpr ⟨p, hi, rfl⟩
  obtain ⟨before, after, hperm, hsorted, hgt⟩ := Grouping.exists_sorted_split Prod.fst hmem
  have hnone : (after.filter fun e => e.1 = shardIndex p shards) = [] := by
    refine List.filter_eq_nil_iff.mpr fun e he heq => ?_
    exact absurd (of_decide_eq_true heq) (Nat.ne_of_gt (hgt e he))
  refine ⟨before ++ (shardIndex p shards, i) :: after,
    routedTo points before (shardIndex p shards), ⟨hperm, hsorted⟩, ?_⟩
  rw [routedTo, List.filter_append, List.filterMap_append, List.filter_cons_of_pos (by simp), hnone,
    List.filterMap_cons, hi]
  rfl

/-- The same of the groups. -/
theorem exists_group_last {p : DataPoint} (hp : p ∈ points) : ∃ indexed,
    SortedByShard points shards indexed ∧ ∃ g ∈ groupLoop points indexed,
      g.shard = shardIndex p shards ∧ ∃ init, g.points = init ++ [p] := by
  obtain ⟨indexed, init, hsorted, hinit⟩ := exists_sorted_last shards hp
  obtain ⟨i, hi⟩ := List.mem_iff_getElem?.mp hp
  have hmem : (shardIndex p shards, i) ∈ indexed :=
    hsorted.1.mem_iff.mpr (mem_indexPoints.mpr ⟨p, hi, rfl⟩)
  obtain ⟨g, hg, hshard⟩ := exists_shardGroup points hmem
  refine ⟨indexed, hsorted, g, groupLoop_eq points indexed ▸ hg, hshard, init, ?_⟩
  rw [shardGroups_points hsorted.2 hg, hshard, hinit]

/-- **Routing.** For every outcome of the sort, the groups have increasing
shards below the shard count, and each group holds the request's points of
its shard. They are in request order, for every outcome, if and only if a
shard gets one point only, perhaps repeated. What is inserted from the groups,
into a memtable or by a replay, is the last point of every slot, for every
outcome, if and only if the request has no two points for one slot. -/
theorem append_routing (cfg : StorageConfig) (points : List DataPoint) :
    (∀ indexed, SortedByShard points cfg.numShards indexed →
      ((groupLoop points indexed).map Group.shard).Pairwise (· < ·) ∧
      (∀ g ∈ groupLoop points indexed, g.shard < cfg.numShards ∧
        g.points.Perm (points.filter fun p => shardIndex p cfg.numShards = g.shard)) ∧
      ∀ p ∈ points, ∃ g ∈ groupLoop points indexed, g.shard = shardIndex p cfg.numShards) ∧
    ((∀ indexed, SortedByShard points cfg.numShards indexed → ∀ g ∈ groupLoop points indexed,
        g.points = points.filter fun p => shardIndex p cfg.numShards = g.shard) ↔
      ∀ p ∈ points, ∀ q ∈ points,
        shardIndex p cfg.numShards = shardIndex q cfg.numShards → p = q) ∧
    ((∀ indexed, SortedByShard points cfg.numShards indexed → ∀ g ∈ groupLoop points indexed,
        ∀ data : SeriesData, data.Wf → ∀ p, LastWrites.IsLast DataPoint.slot points p →
          shardIndex p cfg.numShards = g.shard → p ∈ (data.insertPoints g.points).points) ↔
      ∀ p ∈ points, ∀ q ∈ points, p.slot = q.slot → p = q) := by
  have hperm : ∀ indexed, SortedByShard points cfg.numShards indexed →
      ∀ g ∈ groupLoop points indexed,
        g.points.Perm (points.filter fun p => shardIndex p cfg.numShards = g.shard) := by
    intro indexed hsorted g hg
    rw [groupLoop_eq] at hg
    rw [shardGroups_points hsorted.2 hg]
    exact routedTo_perm hsorted g.shard
  refine ⟨fun indexed hsorted => ⟨?_, fun g hg => ⟨?_, hperm indexed hsorted g hg⟩, fun p hp => ?_⟩,
    ⟨fun h p hp q hq hshard => ?_, fun h indexed hsorted g hg => ?_⟩,
    ⟨fun h p hp q hq hslot => ?_, fun h indexed hsorted g hg data hwf p hlast hshard => ?_⟩⟩
  · rw [groupLoop_eq]
    exact shardGroups_increasing hsorted.2
  · exact shardGroups_shard_lt hsorted (groupLoop_eq points indexed ▸ hg)
  · obtain ⟨i, hi⟩ := List.mem_iff_getElem?.mp hp
    rw [groupLoop_eq]
    exact exists_shardGroup points (hsorted.1.mem_iff.mpr
      (mem_indexPoints (e := (shardIndex p cfg.numShards, i)).mpr ⟨p, hi, rfl⟩))
  · -- both points come last in the same list
    obtain ⟨indexed, hsorted, g, hg, hgp, init, hinit⟩ := exists_group_last hp
    obtain ⟨indexed', hsorted', g', hg', hgq, init', hinit'⟩ := exists_group_last hq
    have heq : init ++ [p] = init' ++ [q] := by
      rw [← hinit, ← hinit', h indexed hsorted g hg, h indexed' hsorted' g' hg', hgp, hgq, hshard]
    exact List.singleton_inj.mp (List.append_inj' heq rfl).2
  · have hgroup := hperm indexed hsorted g hg
    cases hpoints : points.filter fun p => shardIndex p cfg.numShards = g.shard with
    | nil =>
      rw [hpoints] at hgroup
      exact hgroup.eq_nil
    | cons p rest =>
      have hall : ∀ q ∈ points.filter (fun p => shardIndex p cfg.numShards = g.shard), q = p := by
        intro q hq
        have hp : p ∈ points.filter fun p => shardIndex p cfg.numShards = g.shard := by
          rw [hpoints]
          exact List.mem_cons_self ..
        obtain ⟨hq, hqs⟩ := List.mem_filter.mp hq
        obtain ⟨hp, hps⟩ := List.mem_filter.mp hp
        exact h q hq p hp ((of_decide_eq_true hqs).trans (of_decide_eq_true hps).symm)
      rw [← hpoints, List.eq_replicate_of_mem hall,
        List.eq_replicate_of_mem fun q hq => hall q (hgroup.mem_iff.mp hq), hgroup.length_eq]
  · -- one of the two is not the last of the request, and comes last in some outcome
    have hlate : ∀ r ∈ points, ∀ m, LastWrites.IsLast DataPoint.slot points m → m.slot = r.slot →
        r = m := by
      intro r hr m hm hslot
      obtain ⟨indexed, hsorted, g, hg, hgr, init, hinit⟩ := exists_group_last hr
      have hmem := h indexed hsorted g hg ∅ SeriesData.wf_empty m hm
        (hgr ▸ shardIndex_of_key (congrArg Prod.fst hslot) _)
      exact (LastWrites.IsLast.unique (SeriesData.mem_insertPoints_empty.mp hmem)
        ⟨init, [], hinit, by simp⟩ hslot).symm
    obtain ⟨m, hm, hslotm⟩ := LastWrites.exists_isLast (List.mem_map_of_mem (f := DataPoint.slot) hp)
    rw [hlate p hp m hm hslotm, hlate q hq m hm (hslotm.trans hslot)]
  · have hgroup := hperm indexed hsorted g hg
    have hin : ∀ q ∈ g.points, q ∈ points := fun q hq =>
      List.mem_of_mem_filter (hgroup.mem_iff.mp hq)
    have hp : p ∈ g.points :=
      hgroup.mem_iff.mpr (List.mem_filter.mpr ⟨hlast.mem, decide_eq_true hshard⟩)
    exact (SeriesData.mem_insertPoints_iff hwf).mpr (.inl
      (LastWrites.isLast_of_unique hp fun q hq => h q (hin q hq) p (hin p hp)))

end

/-! ## A repeated slot -/

section Example

attribute [local instance] Reference.crates

/-- A request of 33 points. The first one and the third one are for the same
slot of `cpu`; the second one goes to the other shard. -/
def repeatedSlot : List DataPoint :=
  cpuPoint 5 7 :: diskPoint 5 1 :: cpuPoint 5 8 ::
    (List.range 30).map fun i => cpuPoint (10 + .ofNat i) 0

/-- What `sort_unstable_by_key` makes of its positions. It takes the entry in
the middle as the pivot, swaps it with the first one, and leaves the first one
behind the entries between the two. -/
def sortedByPivot : List (Nat × Nat) :=
  (0, 1) :: (1, 16) :: (List.range' 2 14).map (1, ·) ++ (1, 0) :: (List.range' 17 16).map (1, ·)

/-- The call, from arrival to answer. -/
def repeatedSlotRun : List Action :=
  [.append repeatedSlot sortedByPivot, .walCommit 0 [(0, 0)] none, .walFinish 0,
    .walCommit 1 [(0, 1)] none, .walFinish 1, .memInsert 0, .memInsert 0, .ack 0]

set_option maxRecDepth 2000 in
/-- The group of shard 1 is not in request order: the earlier value of the slot
comes after the later one. It wins in the memtable and in the replay after a
crash. -/
theorem append_reverses_group : ∃ s tr s',
    SortedByShard repeatedSlot twoShards.numShards sortedByPivot ∧
    ((groupLoop repeatedSlot sortedByPivot).map fun g => g.points.filter (·.timestampNs = 5)) =
      [[diskPoint 5 1], [cpuPoint 5 8, cpuPoint 5 7]] ∧
    Runs.run (step twoShards) (.fresh twoShards) repeatedSlotRun = some (s, tr) ∧
    s.query twoShards ⟨"cpu", [], 5, 5⟩ = [(cpuPoint 5 7).response] ∧
    (openStore twoShards (fun i => 100 + .ofNat i) s.disk).1 = .ok s' ∧
    s'.query twoShards ⟨"cpu", [], 5, 5⟩ = [(cpuPoint 5 7).response] := by
  have hgroups : ((shardGroups repeatedSlot sortedByPivot).map fun g =>
      g.points.filter (·.timestampNs = 5)) = [[diskPoint 5 1], [cpuPoint 5 8, cpuPoint 5 7]] := by
    decide +kernel
  have hrun : ((Runs.run (step twoShards) (.fresh twoShards) repeatedSlotRun).any fun r =>
      r.1.query twoShards ⟨"cpu", [], 5, 5⟩ = [(cpuPoint 5 7).response] ∧
      ((openStore twoShards (fun i => 100 + .ofNat i) r.1.disk).1.toOption.any fun s' =>
        s'.query twoShards ⟨"cpu", [], 5, 5⟩ = [(cpuPoint 5 7).response]) = true) = true := by
    decide +kernel
  obtain ⟨s, tr, hrun, hstate⟩ := Runs.exists_of_any hrun
  obtain ⟨hquery, hopen⟩ := of_decide_eq_true hstate
  obtain ⟨s', hopen, hquery'⟩ := Runs.exists_ok_of_any hopen
  exact ⟨s, tr, s', by decide +kernel, (groupLoop_eq _ _).symm ▸ hgroups, hrun, hquery, hopen,
    of_decide_eq_true hquery'⟩

end Example

end Micius

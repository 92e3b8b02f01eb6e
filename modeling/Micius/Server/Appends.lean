import Micius.Lib.Bags
import Micius.Lib.Grouping
import Micius.Server.Start
import Micius.Server.Step

/-!
# Append calls

How the points of a request are routed to shards, where the points of the
calls in progress are, and what the replies of the WAL task change.
-/

namespace Micius

/-- The points that the calls in progress have not inserted yet. -/
def pendingPoints (tasks : List AppendTask) : List DataPoint :=
  tasks.flatMap fun t => t.pending.flatMap Group.points

@[simp] theorem pendingPoints_append (ts ts' : List AppendTask) :
    pendingPoints (ts ++ ts') = pendingPoints ts ++ pendingPoints ts' := List.flatMap_append

theorem mem_pendingPoints {tasks : List AppendTask} {ref : Nat × Nat} {g : Group} {p : DataPoint}
    (hg : groupAt tasks ref = some g) (hp : p ∈ g.points) : p ∈ pendingPoints tasks := by
  obtain ⟨t, ht, hg⟩ := Option.bind_eq_some_iff.mp hg
  exact List.mem_flatMap.mpr ⟨t, List.mem_of_getElem? ht,
    List.mem_flatMap.mpr ⟨g, List.mem_of_getElem? hg, hp⟩⟩

/-- Pending groups without common points are told apart by their points. -/
theorem groupAt_unique {tasks : List AppendTask} (h : Distinct (pendingPoints tasks))
    {ref ref' : Nat × Nat} {g g' : Group} (hg : groupAt tasks ref = some g)
    (hg' : groupAt tasks ref' = some g') {p q : DataPoint} (hp : p ∈ g.points)
    (hq : q ∈ g'.points) (hslot : p.slot = q.slot) : ref = ref' := by
  obtain ⟨t, ht, hj⟩ := Option.bind_eq_some_iff.mp hg
  obtain ⟨t', ht', hj'⟩ := Option.bind_eq_some_iff.mp hg'
  have hnodup : (tasks.flatMap fun t => (t.pending.flatMap Group.points).map
      DataPoint.slot).Nodup := by
    rw [← List.map_flatMap]
    exact h
  have hslots : ∀ {t : AppendTask} {g : Group} {j : Nat} {p : DataPoint}, t.pending[j]? = some g →
      p ∈ g.points → p.slot ∈ (t.pending.flatMap Group.points).map DataPoint.slot :=
    fun hj hp => List.mem_map_of_mem (List.mem_flatMap.mpr ⟨_, List.mem_of_getElem? hj, hp⟩)
  have hk : ref.1 = ref'.1 := Bags.position_unique hnodup ht ht' (hslots hj hp)
    (hslot ▸ hslots hj' hq)
  obtain rfl : t = t' := Option.some.inj (ht.symm.trans (hk ▸ ht'))
  have hgroups : (t.pending.flatMap fun g => g.points.map DataPoint.slot).Nodup := by
    rw [← List.map_flatMap]
    exact (List.nodup_flatMap.mp hnodup).1 t (List.mem_of_getElem? ht)
  have hj : ref.2 = ref'.2 := Bags.position_unique hgroups hj hj' (List.mem_map_of_mem hp)
    (hslot ▸ List.mem_map_of_mem hq)
  exact Prod.ext hk hj

/-! ## Routing -/

section Route

variable [Crates] {points : List DataPoint} {shards : Nat} {indexed : List (Nat × Nat)}

theorem shardIndex_lt (p : DataPoint) (cfg : StorageConfig) :
    shardIndex p cfg.numShards < cfg.numShards := by
  have hpos := cfg.numShards_pos
  have hlt := cfg.numShards_lt
  have hmask : (UInt64.ofNat cfg.numShards - 1).toNat = cfg.numShards - 1 := by
    have hle : (1 : UInt64) ≤ UInt64.ofNat cfg.numShards := by
      rw [UInt64.le_iff_toNat_le, UInt64.toNat_ofNat_of_lt' hlt]
      exact hpos
    rw [UInt64.toNat_sub_of_le _ _ hle, UInt64.toNat_ofNat_of_lt' hlt]
    rfl
  have hand : shardIndex p cfg.numShards ≤ (UInt64.ofNat cfg.numShards - 1).toNat := by
    rw [shardIndex, UInt64.toNat_and]
    exact Nat.and_le_right
  omega

/-- A series is in one shard. -/
theorem shardIndex_of_key {p q : DataPoint} (h : p.key = q.key) (shards : Nat) :
    shardIndex p shards = shardIndex q shards := by
  have hname : p.metricName = q.metricName := congrArg SeriesKey.metricName h
  have htags : p.tags = q.tags := congrArg SeriesKey.tags h
  rw [shardIndex, shardIndex, hname, htags]

/-- An index entry names the shard of the point at its position. -/
theorem mem_indexPoints {e : Nat × Nat} : e ∈ indexPoints points shards ↔
    ∃ p, points[e.2]? = some p ∧ e.1 = shardIndex p shards := by
  simp only [indexPoints, List.mem_map, Prod.exists, List.mk_mem_zipIdx_iff_getElem?]
  constructor
  · rintro ⟨p, i, hp, rfl⟩
    exact ⟨p, hp, rfl⟩
  · rintro ⟨p, hp, hshard⟩
    exact ⟨p, e.2, hp, by rw [← hshard]⟩

theorem filterMap_indexPoints :
    (indexPoints points shards).filterMap (fun e => points[e.2]?) = points := by
  have hget : ∀ p ∈ points.zipIdx, points[p.2]? = some p.1 :=
    fun p hp => List.mk_mem_zipIdx_iff_getElem?.mp hp
  rw [indexPoints, List.filterMap_map]
  calc points.zipIdx.filterMap (fun p => points[p.2]?)
      = points.zipIdx.filterMap (fun p => some p.1) := List.filterMap_congr hget
    _ = points.zipIdx.map Prod.fst := congrFun List.filterMap_eq_map points.zipIdx
    _ = points := List.zipIdx_map_fst 0 points

variable (h : SortedByShard points shards indexed)
include h

/-- The groups hold the points of the request. -/
theorem shardGroups_perm : ((shardGroups points indexed).flatMap Group.points).Perm points := by
  have hflat : (shardGroups points indexed).flatMap Group.points =
      indexed.filterMap fun e => points[e.2]? := by
    conv_rhs => rw [← List.flatten_splitBy (fun a b => a.1 == b.1) indexed]
    rw [shardGroups, List.flatMap_map, List.filterMap_flatten, List.flatMap_def]
  rw [hflat]
  have hperm := h.1.filterMap fun e => points[e.2]?
  rwa [filterMap_indexPoints] at hperm

/-- The entries of a group are those of points of the request, all of one shard. -/
theorem shardGroups_entry {run : List (Nat × Nat)} (hrun : run ∈ Grouping.runs Prod.fst indexed)
    {e : Nat × Nat} (he : e ∈ run) :
    ∃ p, points[e.2]? = some p ∧ (run.head?.map Prod.fst).getD 0 = shardIndex p shards := by
  have hindexed : e ∈ indexPoints points shards := by
    apply h.1.mem_iff.mp
    rw [← Grouping.flatten_runs Prod.fst indexed]
    exact List.mem_flatten.mpr ⟨run, hrun, he⟩
  obtain ⟨p, hp, hshard⟩ := mem_indexPoints.mp hindexed
  refine ⟨p, hp, ?_⟩
  obtain ⟨a, rest, rfl⟩ := List.exists_cons_of_ne_nil (Grouping.ne_nil_of_mem_runs hrun)
  rw [← hshard]
  exact Grouping.key_eq_of_mem_run hrun List.mem_cons_self he

/-- Every point of a group belongs to the group's shard. -/
theorem shardGroups_routed {g : Group} (hg : g ∈ shardGroups points indexed) {p : DataPoint}
    (hp : p ∈ g.points) : shardIndex p shards = g.shard := by
  obtain ⟨run, hrun, rfl⟩ := List.mem_map.mp hg
  obtain ⟨e, he, hpe⟩ := List.mem_filterMap.mp hp
  obtain ⟨p', hp', hshard⟩ := shardGroups_entry h hrun he
  obtain rfl : p' = p := Option.some.inj (hp'.symm.trans hpe)
  exact hshard.symm

/-- No group is empty. -/
theorem shardGroups_ne_nil {g : Group} (hg : g ∈ shardGroups points indexed) : g.points ≠ [] := by
  obtain ⟨run, hrun, rfl⟩ := List.mem_map.mp hg
  obtain ⟨e, he⟩ := List.exists_mem_of_ne_nil _ (Grouping.ne_nil_of_mem_runs hrun)
  obtain ⟨p, hp, -⟩ := shardGroups_entry h hrun he
  exact List.ne_nil_of_mem (List.mem_filterMap.mpr ⟨e, he, hp⟩)

end Route

theorem shardGroups_shard_lt [Crates] {cfg : StorageConfig} {points : List DataPoint}
    {indexed : List (Nat × Nat)} (h : SortedByShard points cfg.numShards indexed) {g : Group}
    (hg : g ∈ shardGroups points indexed) : g.shard < cfg.numShards := by
  obtain ⟨p, hp⟩ := List.exists_mem_of_ne_nil _ (shardGroups_ne_nil h hg)
  rw [← shardGroups_routed h hg hp]
  exact shardIndex_lt p cfg

/-! ## Replies -/

/-- What a group looks like after the replies of a batch. -/
def Group.answered (g : Group) (ref : Nat × Nat)
    (replies : List (Nat × (Nat × Nat) × List DataPoint)) : Group :=
  match replies.find? fun r => r.2.1 = ref with
  | some r => { g with committed := some r.1 }
  | none => g

@[simp] theorem Group.answered_points (g : Group) (ref : Nat × Nat)
    (replies : List (Nat × (Nat × Nat) × List DataPoint)) :
    (g.answered ref replies).points = g.points := by
  unfold Group.answered
  split <;> rfl

@[simp] theorem Group.answered_shard (g : Group) (ref : Nat × Nat)
    (replies : List (Nat × (Nat × Nat) × List DataPoint)) :
    (g.answered ref replies).shard = g.shard := by
  unfold Group.answered
  split <;> rfl

section Deliver

variable (tasks : List AppendTask) (replies : List (Nat × (Nat × Nat) × List DataPoint))

theorem deliver_eq : deliver tasks replies = tasks.mapIdx fun k t =>
    { t with pending := t.pending.mapIdx fun j g => g.answered (k, j) replies } := rfl

theorem getElem?_deliver (k : Nat) : (deliver tasks replies)[k]? = (tasks[k]?).map fun t =>
    { t with pending := t.pending.mapIdx fun j g => g.answered (k, j) replies } := by
  rw [deliver_eq, List.getElem?_mapIdx]

theorem groupAt_deliver (ref : Nat × Nat) :
    groupAt (deliver tasks replies) ref =
      (groupAt tasks ref).map fun g => g.answered ref replies := by
  unfold groupAt
  rw [getElem?_deliver]
  cases tasks[ref.1]? with
  | none => rfl
  | some t => simp

/-- Replies move no point. -/
theorem pendingPoints_deliver : pendingPoints (deliver tasks replies) = pendingPoints tasks := by
  refine Bags.flatMap_mapIdx (fun k t => ?_) tasks
  exact Bags.flatMap_mapIdx (fun j g => g.answered_points (k, j) replies) t.pending

theorem mem_deliver {t : AppendTask} (ht : t ∈ deliver tasks replies) :
    ∃ t₀ ∈ tasks, t.acked = t₀.acked ∧ (t₀.pending = [] → t.pending = []) ∧
      ∀ g ∈ t.pending, ∃ g₀ ∈ t₀.pending, g.points = g₀.points ∧ g.shard = g₀.shard := by
  obtain ⟨k, hk, rfl⟩ := List.mem_mapIdx.mp ht
  refine ⟨_, List.getElem_mem hk, rfl, fun hnil => by simp [hnil], fun g hg => ?_⟩
  obtain ⟨j, hj, rfl⟩ := List.mem_mapIdx.mp hg
  exact ⟨_, List.getElem_mem hj, Group.answered_points _ (k, j) replies,
    Group.answered_shard _ (k, j) replies⟩

end Deliver

/-! ## Waiting groups -/

/-- The group at the position is committed as the given batch of shard `i`
and not yet inserted. -/
def Waiting (tasks : List AppendTask) (i : Nat) (ref : Nat × Nat) (b : Batch) : Prop :=
  ∃ g, groupAt tasks ref = some g ∧ g.shard = i ∧ g.committed = some b.1 ∧ g.points = b.2

section Waiting

variable {tasks : List AppendTask} {i : Nat} {ref : Nat × Nat} {b : Batch}

theorem Waiting.single {b' : Batch} (h : Waiting tasks i ref b) (h' : Waiting tasks i ref b') :
    b = b' := by
  obtain ⟨g, hg, -, hseq, hpoints⟩ := h
  obtain ⟨g', hg', -, hseq', hpoints'⟩ := h'
  obtain rfl : g = g' := Option.some.inj (hg.symm.trans hg')
  exact Prod.ext (Option.some.inj (hseq.symm.trans hseq')) (hpoints.symm.trans hpoints')

theorem groupAt_append_left {t : AppendTask} {g : Group} (h : groupAt tasks ref = some g) :
    groupAt (tasks ++ [t]) ref = some g := by
  obtain ⟨t', ht', hg⟩ := Option.bind_eq_some_iff.mp h
  refine Option.bind_eq_some_iff.mpr ⟨t', ?_, hg⟩
  rw [List.getElem?_append_left (List.getElem?_eq_some_iff.mp ht').1, ht']

/-- A call that arrives has no committed group. -/
theorem waiting_append {points : List DataPoint} {indexed : List (Nat × Nat)} :
    Waiting (tasks ++ [⟨points, shardGroups points indexed, false⟩]) i ref b ↔
      Waiting tasks i ref b := by
  constructor
  · rintro ⟨g, hg, hshard, hseq, hpoints⟩
    obtain ⟨t, ht, hj⟩ := Option.bind_eq_some_iff.mp hg
    rw [List.getElem?_append] at ht
    split at ht
    · exact ⟨g, Option.bind_eq_some_iff.mpr ⟨t, ht, hj⟩, hshard, hseq, hpoints⟩
    · -- the groups of the new call are not committed
      obtain rfl := List.mem_singleton.mp (List.mem_of_getElem? ht)
      obtain ⟨run, -, rfl⟩ := List.mem_map.mp (List.mem_of_getElem? hj)
      cases hseq
  · rintro ⟨g, hg, hrest⟩
    exact ⟨g, groupAt_append_left hg, hrest⟩

theorem mem_messagesAt {refs : List (Nat × Nat)} {m : (Nat × Nat) × List DataPoint} :
    m ∈ messagesAt tasks refs ↔ m.1 ∈ refs ∧ ∃ g, groupAt tasks m.1 = some g ∧ g.points = m.2 := by
  rw [messagesAt, List.mem_filterMap]
  constructor
  · rintro ⟨ref, href, heq⟩
    obtain ⟨g, hg, rfl⟩ := Option.map_eq_some_iff.mp heq
    exact ⟨href, g, hg, rfl⟩
  · rintro ⟨href, g, hg, hpoints⟩
    exact ⟨m.1, href, by rw [hg, Option.map_some, hpoints]⟩

/-- Every message of a batch finds its own reply. -/
theorem find_reply {refs : List (Nat × Nat)} (hnodup : refs.Nodup) {seq : Nat}
    {r : Nat × (Nat × Nat) × List DataPoint} (hr : r ∈ numbered seq (messagesAt tasks refs)) :
    (numbered seq (messagesAt tasks refs)).find? (fun r' => r'.2.1 = r.2.1) = some r := by
  obtain ⟨r', hfind⟩ : ∃ r', (numbered seq (messagesAt tasks refs)).find?
      (fun r' => r'.2.1 = r.2.1) = some r' := by
    rw [← Option.isSome_iff_exists, List.find?_isSome]
    exact ⟨r, hr, by simp⟩
  rw [hfind]
  have hrefs : ((messagesAt tasks refs).map Prod.fst).Sublist refs := by
    have hmap : (messagesAt tasks refs).map Prod.fst =
        refs.filter fun ref => (groupAt tasks ref).isSome := by
      rw [messagesAt, List.map_filterMap, ← List.filterMap_eq_filter]
      refine List.filterMap_congr fun ref _ => ?_
      cases hg : groupAt tasks ref <;> simp [Option.guard, hg]
    rw [hmap]
    exact List.filter_sublist
  have hkeys : ((numbered seq (messagesAt tasks refs)).map fun r => r.2.1).Nodup := by
    have hnum : (numbered seq (messagesAt tasks refs)).map (fun r => r.2.1) =
        (messagesAt tasks refs).map Prod.fst := by
      conv_rhs => rw [← map_snd_numbered seq (messagesAt tasks refs), List.map_map]
      rfl
    rw [hnum]
    exact hnodup.sublist hrefs
  have hsame : r'.2.1 = r.2.1 := by simpa using List.find?_some hfind
  exact congrArg some (List.inj_on_of_nodup_map hkeys (List.mem_of_find?_eq_some hfind) hr hsame)

/-- A group of the batch gets its number. -/
theorem answered_of_mem {refs : List (Nat × Nat)} (hnodup : refs.Nodup) (seq : Nat)
    {ref : Nat × Nat} (href : ref ∈ refs) {g : Group} (hg : groupAt tasks ref = some g) :
    ∃ n, g.answered ref (numbered seq (messagesAt tasks refs)) =
      { g with committed := some n } := by
  obtain ⟨n, hn⟩ := exists_mem_numbered seq
    (show (ref, g.points) ∈ messagesAt tasks refs from mem_messagesAt.mpr ⟨href, g, hg, rfl⟩)
  have hfind := find_reply hnodup hn
  exact ⟨n, by rw [Group.answered, hfind]⟩

/-- A group outside of the batch stays as it is. -/
theorem answered_of_not_mem {refs : List (Nat × Nat)} (seq : Nat) {ref : Nat × Nat}
    (href : ref ∉ refs) (g : Group) :
    g.answered ref (numbered seq (messagesAt tasks refs)) = g := by
  have hnone : (numbered seq (messagesAt tasks refs)).find? (fun r => r.2.1 = ref) = none := by
    refine List.find?_eq_none.mpr fun r hr heq => href ?_
    exact of_decide_eq_true heq ▸ (mem_messagesAt.mp (mem_of_mem_numbered hr)).1
  rw [Group.answered, hnone]

/-- **A batch of the WAL task** of shard `j`: its groups wait from now on. -/
theorem waiting_deliver {refs : List (Nat × Nat)} {j : Nat} (hnodup : refs.Nodup)
    (hwait : ∀ ref ∈ refs, ∃ g, groupAt tasks ref = some g ∧ g.shard = j ∧ g.committed = none)
    (seq : Nat) :
    Waiting (deliver tasks (numbered seq (messagesAt tasks refs))) i ref b ↔
      Waiting tasks i ref b ∨ i = j ∧ (b.1, ref, b.2) ∈ numbered seq (messagesAt tasks refs) := by
  unfold Waiting
  rw [groupAt_deliver]
  constructor
  · rintro ⟨g', hg', hshard, hseq, hpoints⟩
    obtain ⟨g, hg, rfl⟩ := Option.map_eq_some_iff.mp hg'
    rw [Group.answered_shard] at hshard
    rw [Group.answered_points] at hpoints
    unfold Group.answered at hseq
    split at hseq
    · next r hfind =>
      have hr := List.mem_of_find?_eq_some hfind
      have href : r.2.1 = ref := by simpa using List.find?_some hfind
      obtain ⟨hmem, g₀, hg₀, hpts⟩ := mem_messagesAt.mp (mem_of_mem_numbered hr)
      rw [href] at hmem hg₀
      obtain rfl : g = g₀ := Option.some.inj (hg.symm.trans hg₀)
      obtain ⟨g₁, hg₁, hj, -⟩ := hwait ref hmem
      obtain rfl : g = g₁ := Option.some.inj (hg.symm.trans hg₁)
      have hsame : (b.1, ref, b.2) = r :=
        Prod.ext (Option.some.inj hseq).symm (Prod.ext href.symm (hpoints.symm.trans hpts))
      exact .inr ⟨hshard.symm.trans hj, hsame ▸ hr⟩
    · exact .inl ⟨g, hg, hshard, hseq, hpoints⟩
  · rintro (⟨g, hg, hshard, hseq, hpoints⟩ | ⟨rfl, hr⟩)
    · -- a group that waits already is not in the batch
      have hnot : ref ∉ refs := by
        intro hmem
        obtain ⟨g', hg', -, hnone⟩ := hwait ref hmem
        obtain rfl : g = g' := Option.some.inj (hg.symm.trans hg')
        rw [hnone] at hseq
        cases hseq
      refine ⟨g, ?_, hshard, hseq, hpoints⟩
      rw [hg, Option.map_some, answered_of_not_mem seq hnot]
    · obtain ⟨hmem, g, hg, hpts⟩ := mem_messagesAt.mp (mem_of_mem_numbered hr)
      obtain ⟨g', hg', hshard, -⟩ := hwait ref hmem
      obtain rfl : g = g' := Option.some.inj (hg.symm.trans hg')
      refine ⟨_, by rw [hg, Option.map_some], ?_, ?_, ?_⟩
      · rw [Group.answered_shard, hshard]
      · rw [Group.answered, find_reply hnodup hr]
      · rw [Group.answered_points, hpts]

/-- Where a group was before call `k` took its first one. -/
def beforePop (k : Nat) (ref : Nat × Nat) : Nat × Nat := if ref.1 = k then (k, ref.2 + 1) else ref

theorem beforePop_inj {k : Nat} {ref ref' : Nat × Nat} (h : beforePop k ref = beforePop k ref') :
    ref = ref' := by
  unfold beforePop at h
  split at h <;> split at h <;> simp_all [Prod.ext_iff]

theorem exists_beforePop {k : Nat} (h : ref ≠ (k, 0)) : ∃ ref', beforePop k ref' = ref := by
  by_cases hk : ref.1 = k
  · have hj : ref.2 ≠ 0 := fun hj => h (Prod.ext hk hj)
    refine ⟨(k, ref.2 - 1), ?_⟩
    rw [beforePop, if_pos rfl]
    exact Prod.ext hk.symm (Nat.succ_pred_eq_of_ne_zero hj)
  · exact ⟨ref, if_neg hk⟩

theorem beforePop_ne (k : Nat) (ref : Nat × Nat) : beforePop k ref ≠ (k, 0) := by
  unfold beforePop
  split
  · simp
  · next hk => exact fun h => hk (congrArg Prod.fst h)

theorem groupAt_set {k : Nat} {t t' : AppendTask} (hk : tasks[k]? = some t) (ref : Nat × Nat) :
    groupAt (tasks.set k t') ref = if ref.1 = k then t'.pending[ref.2]? else groupAt tasks ref := by
  have hlt : k < tasks.length := (List.getElem?_eq_some_iff.mp hk).1
  rw [groupAt, groupAt, List.getElem?_set]
  by_cases hr : k = ref.1
  · rw [if_pos hr, if_pos hlt, if_pos hr.symm]
    rfl
  · rw [if_neg hr, if_neg (Ne.symm hr)]

/-- **A call inserts its next group**: it waits no longer. -/
theorem waiting_pop {k : Nat} {points : List DataPoint} {g : Group} {rest : List Group}
    {acked : Bool} (hk : tasks[k]? = some ⟨points, g :: rest, acked⟩) :
    Waiting (tasks.set k ⟨points, rest, acked⟩) i ref b ↔
      Waiting tasks i (beforePop k ref) b := by
  unfold Waiting
  rw [groupAt_set hk]
  by_cases hr : ref.1 = k
  · have hat : groupAt tasks (beforePop k ref) = rest[ref.2]? := by
      rw [beforePop, if_pos hr, groupAt, hk]
      rfl
    rw [if_pos hr, hat]
  · rw [if_neg hr, beforePop, if_neg hr]

/-- An answer changes no group. -/
theorem waiting_ack {k : Nat} {points : List DataPoint}
    (hk : tasks[k]? = some ⟨points, [], false⟩) :
    Waiting (tasks.set k ⟨points, [], true⟩) i ref b ↔ Waiting tasks i ref b := by
  unfold Waiting
  rw [groupAt_set hk]
  by_cases hr : ref.1 = k
  · have hat : groupAt tasks ref = none := by
      rw [groupAt, hr, hk]
      rfl
    rw [if_pos hr, hat]
    rfl
  · rw [if_neg hr]

end Waiting

/-! ## Routed points -/

section Routed

variable [Crates]

/-- What the groups of every request have, and no reply changes, **every
step** keeps. -/
theorem pending_step {cfg : StorageConfig} {s s' : Server} {a : Action} {es : List Event}
    {P : Group → Prop}
    (hnew : ∀ {points indexed}, SortedByShard points cfg.numShards indexed →
      ∀ g ∈ shardGroups points indexed, P g)
    (hreply : ∀ {g g₀ : Group}, g.points = g₀.points → g.shard = g₀.shard → P g₀ → P g)
    (h : ∀ t ∈ s.appends, ∀ g ∈ t.pending, P g) (hstep : Step cfg s a s' es) :
    ∀ t ∈ s'.appends, ∀ g ∈ t.pending, P g := by
  cases hstep with
  | append hsorted =>
    intro t ht
    rcases List.mem_append.mp ht with ht | ht
    · exact h t ht
    · rw [List.mem_singleton.mp ht]
      exact hnew hsorted
  | walCommit _ _ _ _ _ =>
    intro t ht g hg
    obtain ⟨t₀, ht₀, -, -, hgroup⟩ := mem_deliver _ _ ht
    obtain ⟨g₀, hg₀, hpoints, hshard⟩ := hgroup g hg
    exact hreply hpoints hshard (h t₀ ht₀ g₀ hg₀)
  | @memInsert k points g rest acked hk hall =>
    intro t ht g' hg'
    rcases List.mem_or_eq_of_mem_set ht with ht | rfl
    · exact h t ht g' hg'
    · exact h _ (List.mem_of_getElem? hk) g' (List.mem_cons_of_mem g hg')
  | ack hk =>
    intro t ht
    rcases List.mem_or_eq_of_mem_set ht with ht | rfl
    · exact h t ht
    · exact fun g hg => absurd hg (by simp)
  | _ => exact h

/-- Every point on its way to a chunk is where its series is routed to. -/
structure Routed (cfg : StorageConfig) (s : Server) : Prop where
  acked : ∀ t ∈ s.appends, t.acked = true → t.pending = []
  shards : ∀ t ∈ s.appends, ∀ g ∈ t.pending, g.shard < cfg.numShards
  pending : ∀ t ∈ s.appends, ∀ g ∈ t.pending, ∀ p ∈ g.points,
    shardIndex p cfg.numShards = g.shard
  memtables : ∀ i, ∀ p ∈ (s.memtables i).entries.points, shardIndex p cfg.numShards = i

namespace Routed

variable {cfg : StorageConfig} {s s' : Server}

theorem start (cfg : StorageConfig) (disk : Disk) (idx : ChunkIndex) (wals : List WalWriter) :
    Routed cfg (.start cfg disk idx wals) where
  acked := by simp [Server.start]
  shards := by simp [Server.start]
  pending := by simp [Server.start]
  memtables := by simp [Server.start, Memtable.new, SeriesData.points_empty]

theorem fresh (cfg : StorageConfig) : Routed cfg (.fresh cfg) := start cfg ..

/-- Points of one slot are routed to one shard. -/
theorem shardIndex_of_slot {p q : DataPoint} (h : p.slot = q.slot) (shards : Nat) :
    shardIndex p shards = shardIndex q shards := shardIndex_of_key (congrArg Prod.fst h) shards

/-- All calls are answered: nothing is pending. -/
theorem pendingPoints_eq_nil (h : Routed cfg s) (hacked : ∀ t ∈ s.appends, t.acked = true) :
    pendingPoints s.appends = [] := by
  rw [pendingPoints, List.flatMap_eq_nil_iff]
  intro t ht
  rw [h.acked t ht (hacked t ht)]
  rfl

/-- **Every step** routes as `shard_index` says. -/
theorem step (h : Routed cfg s) {a : Action} {es : List Event} (hstep : Step cfg s a s' es) :
    Routed cfg s' := by
  have hshards := pending_step (P := fun g => g.shard < cfg.numShards)
    (fun hsorted _ hg => shardGroups_shard_lt hsorted hg) (fun _ hshard h => hshard ▸ h) h.shards hstep
  have hpending := pending_step (P := fun g => ∀ p ∈ g.points, shardIndex p cfg.numShards = g.shard)
    (fun hsorted _ hg _ hp => shardGroups_routed hsorted hg hp)
    (fun hpoints hshard h p hp => hshard ▸ h p (hpoints ▸ hp)) h.pending hstep
  cases hstep with
  | append hsorted =>
    refine ⟨fun t ht => ?_, hshards, hpending, h.memtables⟩
    rcases List.mem_append.mp ht with ht | ht
    · exact h.acked t ht
    · rw [List.mem_singleton.mp ht]
      exact fun hacked => absurd hacked (by simp)
  | walCommit _ _ _ _ _ =>
    refine ⟨fun t ht hacked => ?_, hshards, hpending, h.memtables⟩
    obtain ⟨t₀, ht₀, hsame, hnil, -⟩ := mem_deliver _ _ ht
    exact hnil (h.acked t₀ ht₀ (hsame ▸ hacked))
  | @memInsert k points g rest acked hk hall =>
    have htask := List.mem_of_getElem? hk
    refine ⟨fun t ht hacked => ?_, hshards, hpending, fun i p hp => ?_⟩
    · rcases List.mem_or_eq_of_mem_set ht with ht | rfl
      · exact h.acked t ht hacked
      · exact absurd (h.acked _ htask hacked) (by simp)
    · change p ∈ (Function.update s.memtables g.shard _ i).entries.points at hp
      by_cases hi : i = g.shard
      · subst hi
        rw [Function.update_self, Memtable.entries_insertAll] at hp
        rcases SeriesData.mem_insertPoints hp with hp | hp
        · exact h.pending _ htask g (by simp) p hp
        · exact h.memtables _ p hp
      · rw [Function.update_of_ne hi] at hp
        exact h.memtables i p hp
  | ack hk =>
    refine ⟨fun t ht => ?_, hshards, hpending, h.memtables⟩
    rcases List.mem_or_eq_of_mem_set ht with ht | rfl
    · exact h.acked t ht
    · exact fun _ => rfl
  | @sweepDrain i hs hflush =>
    refine { h with memtables := fun j p hp => ?_ }
    change p ∈ (Function.update s.memtables i _ j).entries.points at hp
    by_cases hj : j = i
    · subst hj
      rw [Function.update_self] at hp
      change p ∈ SeriesData.points ∅ at hp
      rw [SeriesData.points_empty] at hp
      cases hp
    · rw [Function.update_of_ne hj] at hp
      exact h.memtables j p hp
  | _ => exact { h with }

end Routed

end Routed

end Micius

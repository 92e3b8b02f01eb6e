import Mathlib.Data.List.Sigma
import Micius.Server.LiveReplay

/-!
# What is in the logs

A requested point is in a group that waits for the WAL task of its shard, or
in exactly one batch of the shard's log.
-/

namespace Micius

/-- The points of a group that no log has yet. -/
def Group.unlogged (g : Group) : List DataPoint := if g.committed.isNone then g.points else []

/-- The requested points that no log has yet. -/
def unloggedPoints (tasks : List AppendTask) : List DataPoint :=
  tasks.flatMap fun t => t.pending.flatMap Group.unlogged

/-- The points a trace event records in a log. -/
def Event.logged : Event → List DataPoint
  | committed _ _ batch => batch.2
  | _ => []

/-- The points in the logs. -/
def loggedPoints (tr : List Event) : List DataPoint := tr.flatMap Event.logged

@[simp] theorem loggedPoints_append (tr es : List Event) :
    loggedPoints (tr ++ es) = loggedPoints tr ++ loggedPoints es := List.flatMap_append

theorem mem_loggedPoints {tr : List Event} {p : DataPoint} :
    p ∈ loggedPoints tr ↔ ∃ i seg b, .committed i seg b ∈ tr ∧ p ∈ b.2 := by
  rw [loggedPoints, List.mem_flatMap]
  constructor
  · rintro ⟨e, he, hp⟩
    cases e with
    | committed i seg b => exact ⟨i, seg, b, he, hp⟩
    | _ => cases hp
  · rintro ⟨i, seg, b, hb, hp⟩
    exact ⟨_, hb, hp⟩

theorem loggedPoints_committed (i seg seq : Nat) (reqs : List ((Nat × Nat) × List DataPoint)) :
    loggedPoints ((numbered seq reqs).map fun r => .committed i seg (r.1, r.2.2)) =
      reqs.flatMap Prod.snd := by
  rw [loggedPoints, List.flatMap_map]
  show (numbered seq reqs).flatMap (fun r => r.2.2) = _
  conv_rhs => rw [← map_snd_numbered seq reqs, List.flatMap_map]

/-- The points of the calls that were answered. -/
def ackedPoints (tr : List Event) : List DataPoint :=
  tr.flatMap fun
    | .acked points _ => points
    | _ => []

theorem ackedPoints_append (tr tr' : List Event) :
    ackedPoints (tr ++ tr') = ackedPoints tr ++ ackedPoints tr' := List.flatMap_append

/-! ## Groups that wait for their log -/

section Unlogged

variable {tasks : List AppendTask}

theorem mem_unloggedPoints {p : DataPoint} : p ∈ unloggedPoints tasks ↔
    ∃ ref g, groupAt tasks ref = some g ∧ g.committed = none ∧ p ∈ g.points := by
  have hgroup : ∀ g : Group, p ∈ g.unlogged ↔ g.committed = none ∧ p ∈ g.points := by
    intro g
    rw [Group.unlogged]
    cases g.committed <;> simp
  simp only [unloggedPoints, List.mem_flatMap, hgroup]
  constructor
  · rintro ⟨t, ht, g, hg, hp⟩
    obtain ⟨k, hk⟩ := List.mem_iff_getElem?.mp ht
    obtain ⟨j, hj⟩ := List.mem_iff_getElem?.mp hg
    exact ⟨(k, j), g, Option.bind_eq_some_iff.mpr ⟨t, hk, hj⟩, hp⟩
  · rintro ⟨ref, g, hg, hp⟩
    obtain ⟨t, ht, hg⟩ := Option.bind_eq_some_iff.mp hg
    exact ⟨t, List.mem_of_getElem? ht, g, List.mem_of_getElem? hg, hp⟩

theorem unloggedPoints_sublist (tasks : List AppendTask) :
    (unloggedPoints tasks).Sublist (pendingPoints tasks) := by
  refine List.Sublist.flatMap_right _ fun t _ => List.Sublist.flatMap_right _ fun g _ => ?_
  unfold Group.unlogged
  split
  · exact .refl _
  · exact List.nil_sublist _

/-- No group of a call that arrives is in a log. -/
theorem unloggedPoints_arrive (points : List DataPoint) (indexed : List (Nat × Nat)) :
    unloggedPoints (tasks ++ [⟨points, shardGroups points indexed, false⟩]) =
      unloggedPoints tasks ++ (shardGroups points indexed).flatMap Group.points := by
  have hgroups : (shardGroups points indexed).flatMap Group.unlogged =
      (shardGroups points indexed).flatMap Group.points := by
    refine List.flatMap_congr fun g hg => ?_
    obtain ⟨run, -, rfl⟩ := List.mem_map.mp hg
    rfl
  simp [unloggedPoints, hgroups]

/-- A call changes and no group that waits for its log is touched. -/
theorem unloggedPoints_set {k : Nat} {t t' : AppendTask} (hk : tasks[k]? = some t)
    (hsame : t'.pending.flatMap Group.unlogged = t.pending.flatMap Group.unlogged) :
    unloggedPoints (tasks.set k t') = unloggedPoints tasks := by
  obtain ⟨hlt, rfl⟩ := List.getElem?_eq_some_iff.mp hk
  rw [unloggedPoints, unloggedPoints, List.flatMap_def, List.flatMap_def, List.map_set, hsame]
  congr 1
  exact List.ext_getElem? fun j => by
    rw [List.getElem?_set]
    split
    · next hj => simp [← hj, hlt]
    · rfl

end Unlogged

/-! ## A batch of the WAL task -/

/-- The groups of the calls with their positions. -/
def positions (tasks : List AppendTask) : List ((Nat × Nat) × Group) :=
  tasks.zipIdx.flatMap fun t => t.1.pending.zipIdx.map fun g => ((t.2, g.2), g.1)

section Positions

variable {tasks : List AppendTask}

theorem mem_positions {e : (Nat × Nat) × Group} :
    e ∈ positions tasks ↔ groupAt tasks e.1 = some e.2 := by
  rw [positions, List.mem_flatMap, groupAt, Option.bind_eq_some_iff]
  constructor
  · rintro ⟨⟨t, k⟩, ht, he⟩
    obtain ⟨⟨g, j⟩, hg, rfl⟩ := List.mem_map.mp he
    exact ⟨t, List.mem_zipIdx_iff_getElem?.mp ht, List.mem_zipIdx_iff_getElem?.mp hg⟩
  · rintro ⟨t, ht, hg⟩
    exact ⟨(t, e.1.1), List.mem_zipIdx_iff_getElem?.mpr ht,
      List.mem_map.mpr ⟨(e.2, e.1.2), List.mem_zipIdx_iff_getElem?.mpr hg, rfl⟩⟩

theorem nodup_positions (tasks : List AppendTask) : (positions tasks).Nodup := by
  refine List.nodup_flatMap.mpr ⟨fun t _ => ?_, ?_⟩
  · refine List.Nodup.of_map (fun e => e.1.2) ?_
    rw [List.map_map]
    exact List.nodup_zipIdx_map_snd t.1.pending
  · refine (List.pairwise_map.mp (List.nodup_zipIdx_map_snd tasks)).imp fun hne e he he' => ?_
    obtain ⟨g, -, rfl⟩ := List.mem_map.mp he
    obtain ⟨g', -, heq⟩ := List.mem_map.mp he'
    exact hne (congrArg (fun e => e.1.1) heq).symm

theorem unloggedPoints_eq (tasks : List AppendTask) :
    unloggedPoints tasks = (positions tasks).flatMap fun e => e.2.unlogged := by
  rw [unloggedPoints, positions, List.flatMap_assoc]
  conv_lhs => rw [← List.zipIdx_map_fst 0 tasks, List.flatMap_map]
  refine List.flatMap_congr fun t _ => ?_
  conv_lhs => rw [← List.zipIdx_map_fst 0 t.1.pending, List.flatMap_map]
  rw [List.flatMap_map]

theorem unloggedPoints_answered (tasks : List AppendTask)
    (replies : List (Nat × (Nat × Nat) × List DataPoint)) :
    unloggedPoints (deliver tasks replies) =
      (positions tasks).flatMap fun e => (e.2.answered e.1 replies).unlogged := by
  rw [unloggedPoints, deliver_eq, List.mapIdx_eq_zipIdx_map, List.flatMap_map, positions,
    List.flatMap_assoc]
  refine List.flatMap_congr fun t _ => ?_
  rw [List.flatMap_map]
  dsimp only
  rw [List.mapIdx_eq_zipIdx_map, List.flatMap_map]

/-- A group waits for its log after a batch exactly if it did and is not in the batch. -/
theorem unlogged_answered {refs : List (Nat × Nat)} (hnodup : refs.Nodup) (seq : Nat)
    {ref : Nat × Nat} {g : Group} (hg : groupAt tasks ref = some g) :
    (g.answered ref (numbered seq (messagesAt tasks refs))).unlogged =
      if ref ∈ refs then [] else g.unlogged := by
  split
  · next href =>
    obtain ⟨n, hn⟩ := answered_of_mem hnodup seq href hg
    rw [hn]
    rfl
  · next href => rw [answered_of_not_mem seq href]

/-- **A batch of the WAL task** moves the points of its messages to the log, as
often as they are in them. -/
theorem unloggedPoints_deliver {refs : List (Nat × Nat)} (hnodup : refs.Nodup)
    (hwait : ∀ ref ∈ refs, ∃ g, groupAt tasks ref = some g ∧ g.committed = none) (seq : Nat) :
    (unloggedPoints tasks).Perm
      (unloggedPoints (deliver tasks (numbered seq (messagesAt tasks refs))) ++
        (messagesAt tasks refs).flatMap Prod.snd) := by
  have hrest : unloggedPoints (deliver tasks (numbered seq (messagesAt tasks refs))) =
      (positions tasks).flatMap fun e => if decide (e.1 ∈ refs) then [] else e.2.unlogged := by
    rw [unloggedPoints_answered]
    refine List.flatMap_congr fun e he => ?_
    rw [unlogged_answered hnodup seq (mem_positions.mp he)]
    simp only [decide_eq_true_eq]
  -- the positions of the batch, in the order of the batch
  have hpicked : ((positions tasks).filter fun e => decide (e.1 ∈ refs)).Perm
      (refs.filterMap fun ref => (groupAt tasks ref).map fun g => (ref, g)) := by
    refine (List.perm_ext_iff_of_nodup ((nodup_positions tasks).filter _) ?_).mpr fun e => ?_
    · refine hnodup.filterMap fun ref ref' e he he' => ?_
      obtain ⟨g, -, rfl⟩ := Option.map_eq_some_iff.mp he
      obtain ⟨g', -, heq⟩ := Option.map_eq_some_iff.mp he'
      exact (congrArg Prod.fst heq).symm
    · rw [List.mem_filter, mem_positions, decide_eq_true_eq, List.mem_filterMap]
      constructor
      · rintro ⟨hg, href⟩
        exact ⟨e.1, href, by rw [hg]; rfl⟩
      · rintro ⟨ref, href, heq⟩
        obtain ⟨g, hg, rfl⟩ := Option.map_eq_some_iff.mp heq
        exact ⟨hg, href⟩
  have hmessages : (refs.filterMap fun ref => (groupAt tasks ref).map fun g => (ref, g)).flatMap
      (fun e => e.2.unlogged) = (messagesAt tasks refs).flatMap Prod.snd := by
    have hmap : messagesAt tasks refs =
        (refs.filterMap fun ref => (groupAt tasks ref).map fun g => (ref, g)).map
          fun e => (e.1, e.2.points) := by
      rw [messagesAt, List.map_filterMap]
      simp only [Option.map_map, Function.comp_def]
    rw [hmap, List.flatMap_map]
    refine List.flatMap_congr fun e he => ?_
    obtain ⟨ref, href, heq⟩ := List.mem_filterMap.mp he
    obtain ⟨g, hg, rfl⟩ := Option.map_eq_some_iff.mp heq
    obtain ⟨g', hg', hnone⟩ := hwait ref href
    obtain rfl : g = g' := Option.some.inj (hg.symm.trans hg')
    rw [Group.unlogged, hnone]
    rfl
  rw [hrest, unloggedPoints_eq, ← hmessages]
  exact (Bags.perm_flatMap_filter _ _ _).trans ((hpicked.flatMap_right _).append_left _)

end Positions

/-! ## Calls and requests -/

/-- The calls hold the requested points, their groups hold points of the
call, and an answered call has none left. -/
structure CallsKeep (tasks : List AppendTask) (tr : List Event) : Prop where
  requested : requestedPoints tr = tasks.flatMap AppendTask.points
  pending : ∀ t ∈ tasks, ∀ g ∈ t.pending, ∀ p ∈ g.points, p ∈ t.points
  acked : ∀ points n, .acked points n ∈ tr → ∃ t ∈ tasks, t.points = points ∧ t.pending = []

namespace CallsKeep

variable {tasks tasks' : List AppendTask} {tr es : List Event}

theorem fresh : CallsKeep [] [] where
  requested := rfl
  pending := by simp
  acked := by simp

/-- Calls that keep their points and get no new groups. -/
theorem keep (h : CallsKeep tasks tr) (hrequested : requestedPoints es = [])
    (hpoints : tasks'.map AppendTask.points = tasks.map AppendTask.points)
    (hpending : ∀ t' ∈ tasks', ∃ t ∈ tasks, t'.points = t.points ∧
      ∀ g' ∈ t'.pending, ∃ g ∈ t.pending, g'.points = g.points)
    (hdone : ∀ t ∈ tasks, t.pending = [] → ∃ t' ∈ tasks', t'.points = t.points ∧ t'.pending = [])
    (hacked : ∀ points n, .acked points n ∈ es →
      ∃ t' ∈ tasks', t'.points = points ∧ t'.pending = []) :
    CallsKeep tasks' (tr ++ es) where
  requested := by
    rw [requestedPoints_append, hrequested, List.append_nil, h.requested, List.flatMap_def,
      List.flatMap_def, hpoints]
  pending := by
    intro t' ht' g' hg' p hp
    obtain ⟨t, ht, hpts, hgroups⟩ := hpending t' ht'
    obtain ⟨g, hg, hgpts⟩ := hgroups g' hg'
    rw [hpts]
    exact h.pending t ht g hg p (hgpts ▸ hp)
  acked := by
    intro points n hmem
    rcases List.mem_append.mp hmem with hmem | hmem
    · obtain ⟨t, ht, rfl, hnil⟩ := h.acked points n hmem
      exact hdone t ht hnil
    · exact hacked points n hmem

/-- Nothing of the calls changes. -/
theorem quiet (h : CallsKeep tasks tr) (hrequested : requestedPoints es = [])
    (hacked : ∀ points n, .acked points n ∉ es) : CallsKeep tasks (tr ++ es) :=
  h.keep hrequested rfl (fun t ht => ⟨t, ht, rfl, fun g hg => ⟨g, hg, rfl⟩⟩)
    (fun t ht hnil => ⟨t, ht, rfl, hnil⟩) fun points n hmem => absurd hmem (hacked points n)

/-- The WAL task answers. -/
theorem delivered (h : CallsKeep tasks tr) (replies : List (Nat × (Nat × Nat) × List DataPoint))
    (hrequested : requestedPoints es = []) (hacked : ∀ points n, .acked points n ∉ es) :
    CallsKeep (deliver tasks replies) (tr ++ es) := by
  refine h.keep hrequested ?_ ?_ ?_ fun points n hmem => absurd hmem (hacked points n)
  · refine List.ext_getElem? fun j => ?_
    rw [List.getElem?_map, getElem?_deliver, Option.map_map, List.getElem?_map]
    rfl
  · intro t' ht'
    obtain ⟨k, hk, rfl⟩ := List.mem_mapIdx.mp (deliver_eq tasks replies ▸ ht')
    refine ⟨_, List.getElem_mem hk, rfl, fun g' hg' => ?_⟩
    obtain ⟨j, hj, rfl⟩ := List.mem_mapIdx.mp hg'
    exact ⟨_, List.getElem_mem hj, Group.answered_points ..⟩
  · intro t ht hnil
    obtain ⟨k, hk⟩ := List.mem_iff_getElem?.mp ht
    have hget := getElem?_deliver tasks replies k
    rw [hk] at hget
    exact ⟨_, List.mem_of_getElem? hget, rfl, by simp [hnil]⟩

/-- A call gives up its first group, or is answered. -/
theorem set (h : CallsKeep tasks tr) (hrequested : requestedPoints es = []) {k : Nat}
    {t t' : AppendTask} (hk : tasks[k]? = some t) (hpoints : t'.points = t.points)
    (hpending : ∀ g ∈ t'.pending, g ∈ t.pending)
    (hacked : ∀ points n, .acked points n ∈ es → points = t.points ∧ t'.pending = []) :
    CallsKeep (tasks.set k t') (tr ++ es) := by
  have hlt : k < tasks.length := (List.getElem?_eq_some_iff.mp hk).1
  have htask := List.mem_of_getElem? hk
  have hnew : t' ∈ tasks.set k t' := List.mem_set hlt t'
  refine h.keep hrequested ?_ ?_ ?_ ?_
  · refine List.ext_getElem? fun j => ?_
    rw [List.getElem?_map, List.getElem?_map, List.getElem?_set]
    split
    · next hj => rw [← hj, hk, Option.map_some, Option.map_some, hpoints]
    · rfl
  · intro t₁ ht₁
    rcases List.mem_or_eq_of_mem_set ht₁ with ht₁ | rfl
    · exact ⟨t₁, ht₁, rfl, fun g hg => ⟨g, hg, rfl⟩⟩
    · exact ⟨t, htask, hpoints, fun g hg => ⟨g, hpending g hg, rfl⟩⟩
  · intro t₁ ht₁ hnil
    obtain ⟨j, hj⟩ := List.mem_iff_getElem?.mp ht₁
    by_cases hjk : k = j
    · subst hjk
      obtain rfl : t = t₁ := Option.some.inj (hk.symm.trans hj)
      refine ⟨t', hnew, hpoints, List.eq_nil_iff_forall_not_mem.mpr fun g hg => ?_⟩
      have hmem := hpending g hg
      rw [hnil] at hmem
      cases hmem
    · refine ⟨t₁, List.mem_of_getElem? (i := j) ?_, rfl, hnil⟩
      rw [List.getElem?_set, if_neg hjk, hj]
  · intro points n hmem
    obtain ⟨rfl, hnil⟩ := hacked points n hmem
    exact ⟨t', hnew, hpoints, hnil⟩

/-- **Every step** keeps it. -/
theorem step [Crates] {cfg : StorageConfig} {s s' : Server} {a : Action}
    (h : CallsKeep s.appends tr) (hstep : Step cfg s a s' es) : CallsKeep s'.appends (tr ++ es) := by
  cases hstep with
  | @append points indexed hsorted =>
    refine ⟨?_, ?_, ?_⟩
    · have hpoints : requestedPoints [.requested points] = points := List.append_nil _
      rw [requestedPoints_append, hpoints, h.requested]
      simp
    · intro t ht g hg p hp
      rcases List.mem_append.mp ht with ht | ht
      · exact h.pending t ht g hg p hp
      · rw [List.mem_singleton.mp ht] at hg ⊢
        exact (shardGroups_perm hsorted).mem_iff.mp (List.mem_flatMap.mpr ⟨g, hg, hp⟩)
    · intro points' n hmem
      obtain ⟨t, ht, rest⟩ := h.acked points' n (by simpa using hmem)
      exact ⟨t, List.mem_append_left _ ht, rest⟩
  | walCommit hi hidle hrequest hnodup hwait =>
    refine h.delivered _ (requestedPoints_committed _ _ _) fun points n hmem => ?_
    obtain ⟨r, -, heq⟩ := List.mem_map.mp hmem
    cases heq
  | memInsert hk hall =>
    exact h.set rfl hk rfl (fun g hg => List.mem_cons_of_mem _ hg) (by simp)
  | ack hk =>
    refine h.set rfl hk rfl (fun g hg => hg) fun points n hmem => ?_
    obtain ⟨rfl, -⟩ := Event.acked.inj (List.mem_singleton.mp hmem)
    exact ⟨rfl, rfl⟩
  | _ => exact h.quiet rfl (by simp)

/-- The points of a call without groups are in no group. -/
theorem not_pending (h : CallsKeep tasks tr) (hdist : Distinct (requestedPoints tr))
    {t : AppendTask} (ht : t ∈ tasks) (hnil : t.pending = []) {p : DataPoint}
    (hp : p ∈ t.points) : p ∉ pendingPoints tasks := by
  intro hpending
  obtain ⟨t', ht', hpending⟩ := List.mem_flatMap.mp hpending
  obtain ⟨g, hg, hpg⟩ := List.mem_flatMap.mp hpending
  have hp' := h.pending t' ht' g hg p hpg
  -- the point is in the request of one call only
  have hnodup : (tasks.flatMap AppendTask.points).Nodup := h.requested ▸ hdist.of_map
  obtain ⟨k, hk⟩ := List.mem_iff_getElem?.mp ht
  obtain ⟨k', hk'⟩ := List.mem_iff_getElem?.mp ht'
  obtain rfl : k = k' := Bags.position_unique hnodup hk hk' hp hp'
  obtain rfl : t = t' := Option.some.inj (hk.symm.trans hk')
  rw [hnil] at hg
  cases hg

end CallsKeep

/-! ## Batches of a commit -/

/-- The batches that a WAL task commits are the groups at the given positions. -/
theorem mem_committed {tasks : List AppendTask} {refs : List (Nat × Nat)} {seq i j file seg : Nat}
    {b : Batch} (hb : .committed j seg b ∈ (numbered seq (messagesAt tasks refs)).map
      fun r => Event.committed i file (r.1, r.2.2)) :
    j = i ∧ seg = file ∧ b ∈ numbered seq ((messagesAt tasks refs).map Prod.snd) ∧
      ∃ ref ∈ refs, ∃ g, groupAt tasks ref = some g ∧ g.points = b.2 := by
  obtain ⟨r, hr, heq⟩ := List.mem_map.mp hb
  obtain ⟨rfl, rfl, rfl⟩ := Event.committed.inj heq
  obtain ⟨href, g, hg, hpts⟩ := mem_messagesAt.mp (mem_of_mem_numbered hr)
  refine ⟨rfl, rfl, ?_, r.2.1, href, g, hg, hpts⟩
  rw [numbered_map]
  exact List.mem_map_of_mem hr

/-- Every point of a call is in a log or in a group that waits for it. -/
def CallsLogged (tasks : List AppendTask) (tr : List Event) : Prop :=
  ∀ t ∈ tasks, ∀ p ∈ t.points, p ∈ loggedPoints tr ∨
    ∃ g ∈ t.pending, g.committed = none ∧ p ∈ g.points

namespace CallsLogged

variable {tasks : List AppendTask} {tr es : List Event}

theorem later (h : CallsLogged tasks tr) (es : List Event) : CallsLogged tasks (tr ++ es) := by
  intro t ht p hp
  refine (h t ht p hp).imp_left fun hlogged => ?_
  rw [loggedPoints_append]
  exact List.mem_append_left _ hlogged

/-- Groups that are in the log leave a call. -/
theorem set (h : CallsLogged tasks tr) {k : Nat} {t : AppendTask} (hk : tasks[k]? = some t)
    (t' : AppendTask) (hpoints : t'.points = t.points) (hdone : ∀ g ∈ t.pending, g.committed.isSome) :
    CallsLogged (tasks.set k t') tr := by
  intro t₁ ht₁ p hp
  rcases List.mem_or_eq_of_mem_set ht₁ with ht₁ | rfl
  · exact h t₁ ht₁ p hp
  · rcases h t (List.mem_of_getElem? hk) p (hpoints ▸ hp) with hlogged | ⟨g, hg, hnone, -⟩
    · exact .inl hlogged
    · have hsome := hdone g hg
      rw [hnone] at hsome
      cases hsome

/-- The groups of a batch are in the log. -/
theorem commit (h : CallsLogged tasks tr) (refs : List (Nat × Nat)) (seq i file : Nat) :
    CallsLogged (deliver tasks (numbered seq (messagesAt tasks refs))) (tr ++
      (numbered seq (messagesAt tasks refs)).map fun r => .committed i file (r.1, r.2.2)) := by
  intro t ht p hp
  obtain ⟨k, hk, rfl⟩ := List.mem_mapIdx.mp (deliver_eq tasks _ ▸ ht)
  rw [loggedPoints_append]
  rcases h _ (List.getElem_mem hk) p hp with hlogged | ⟨g, hg, hnone, hpg⟩
  · exact .inl (List.mem_append_left _ hlogged)
  obtain ⟨j, hj, rfl⟩ := List.mem_iff_getElem.mp hg
  cases hfind : (numbered seq (messagesAt tasks refs)).find? fun r => r.2.1 = (k, j) with
  | none =>
    refine .inr ⟨_, List.mem_mapIdx.mpr ⟨j, hj, rfl⟩, ?_, ?_⟩
    · rw [Group.answered, hfind]
      exact hnone
    · rw [Group.answered_points]
      exact hpg
  | some r =>
    -- the reply is for this group
    have href : r.2.1 = (k, j) := by simpa using List.find?_some hfind
    have hr := List.mem_of_find?_eq_some hfind
    obtain ⟨-, g', hg', hpts⟩ := mem_messagesAt.mp (mem_of_mem_numbered hr)
    have hat : groupAt tasks (k, j) = some (tasks[k].pending[j]) := by
      simp [groupAt, hk, hj]
    rw [href, hat] at hg'
    obtain rfl := Option.some.inj hg'
    refine .inl (List.mem_append_right _ (mem_loggedPoints.mpr ⟨i, file, (r.1, r.2.2), ?_, ?_⟩))
    · exact List.mem_map_of_mem hr
    · exact hpts ▸ hpg

/-- **Every step** keeps it. -/
theorem step [Crates] {cfg : StorageConfig} {s s' : Server} {a : Action}
    (h : CallsLogged s.appends tr) (hstep : Step cfg s a s' es) :
    CallsLogged s'.appends (tr ++ es) := by
  cases hstep with
  | @append points indexed hsorted =>
    intro t ht p hp
    rcases List.mem_append.mp ht with ht | ht
    · exact h.later _ t ht p hp
    · rw [List.mem_singleton.mp ht] at hp ⊢
      obtain ⟨g, hg, hpg⟩ := List.mem_flatMap.mp ((shardGroups_perm hsorted).mem_iff.mpr hp)
      refine .inr ⟨g, hg, ?_, hpg⟩
      obtain ⟨run, -, rfl⟩ := List.mem_map.mp hg
      rfl
  | walCommit hi hidle hrequest hnodup hwait => exact h.commit _ _ _ _
  | @memInsert k points g rest acked hk hall => exact (h.set hk ⟨points, rest, acked⟩ rfl hall).later _
  | @ack k points hk => exact (h.set hk ⟨points, [], true⟩ rfl (by simp)).later _
  | _ => exact h.later _

/-- **An answered point is in a log.** -/
theorem of_acked (h : CallsLogged tasks tr) (hcalls : CallsKeep tasks tr) {p : DataPoint}
    (hp : p ∈ ackedPoints tr) : p ∈ loggedPoints tr := by
  obtain ⟨e, he, hp⟩ := List.mem_flatMap.mp hp
  cases e with
  | acked points n =>
    obtain ⟨t, ht, rfl, hnil⟩ := hcalls.acked points n he
    refine (h t ht p hp).resolve_right ?_
    rw [hnil]
    simp
  | _ => cases hp

end CallsLogged

/-! ## The invariant -/

section

variable [Crates]

/-- What a step brings, and what the groups that wait lose, goes to the logs. -/
theorem unloggedPoints_step {cfg : StorageConfig} {s s' : Server} {a : Action} {es : List Event}
    (hstep : Step cfg s a s' es) : (unloggedPoints s.appends ++ requestedPoints es).Perm
      (unloggedPoints s'.appends ++ loggedPoints es) := by
  cases hstep with
  | @append points indexed hsorted =>
    have hlogged : loggedPoints [.requested points] = [] := rfl
    have hpoints : requestedPoints [.requested points] = points := List.append_nil _
    rw [unloggedPoints_arrive, hlogged, hpoints, List.append_nil]
    exact (shardGroups_perm hsorted).symm.append_left _
  | @walCommit i refs drain hi hidle hrequest hnodup hwait =>
    rw [requestedPoints_committed, loggedPoints_committed, List.append_nil]
    refine unloggedPoints_deliver hnodup (fun ref href => ?_) _
    obtain ⟨g, hg, -, hnone⟩ := hwait ref href
    exact ⟨g, hg, hnone⟩
  | @memInsert k points g rest acked hk hall =>
    -- the group that leaves is in a log
    have hnone : g.unlogged = [] := by
      have hsome := hall g (by simp)
      rw [Group.unlogged, if_neg]
      rw [Option.isNone_iff_eq_none]
      exact Option.isSome_iff_ne_none.mp hsome
    refine .of_eq (congrArg (· ++ []) (unloggedPoints_set hk ?_).symm)
    rw [List.flatMap_cons, hnone, List.nil_append]
  | @ack k points hk =>
    have hsame : unloggedPoints (s.appends.set k ⟨points, [], true⟩) = unloggedPoints s.appends :=
      unloggedPoints_set hk rfl
    exact .of_eq (congrArg (· ++ []) hsame.symm)
  | _ => exact .refl _

/-- The requested points wait for a log or are in one, each as often as it was
requested. -/
theorem requestedPoints_logged {cfg : StorageConfig} {s s' : Server} {a : Action}
    {tr es : List Event}
    (h : (requestedPoints tr).Perm (unloggedPoints s.appends ++ loggedPoints tr))
    (hstep : Step cfg s a s' es) : (requestedPoints (tr ++ es)).Perm
      (unloggedPoints s'.appends ++ loggedPoints (tr ++ es)) := by
  rw [requestedPoints_append, loggedPoints_append]
  have hbrought : (requestedPoints tr ++ requestedPoints es).Perm
      (unloggedPoints s.appends ++ requestedPoints es ++ loggedPoints tr) := by
    refine (h.append_right _).trans ?_
    rw [List.append_assoc, List.append_assoc]
    exact List.perm_append_comm.append_left _
  refine hbrought.trans (((unloggedPoints_step hstep).append_right _).trans ?_)
  rw [List.append_assoc]
  exact List.perm_append_comm.append_left _

/-- Every requested point waits for its log or is in one batch of it. -/
structure LoggedOnce (cfg : StorageConfig) (s : Server) (tr : List Event) : Prop where
  points : (requestedPoints tr).Perm (unloggedPoints s.appends ++ loggedPoints tr)
  routed : ∀ i seg b, .committed i seg b ∈ tr →
    i < cfg.numShards ∧ ∀ p ∈ b.2, shardIndex p cfg.numShards = i
  fits : ∀ i seg b, .committed i seg b ∈ tr → b.Fits

namespace LoggedOnce

variable {cfg : StorageConfig} {s s' : Server} {tr es : List Event}

theorem start (cfg : StorageConfig) (disk : Disk) (idx : ChunkIndex) (wals : List WalWriter) :
    LoggedOnce cfg (.start cfg disk idx wals) [] where
  points := by simp [Server.start, requestedPoints, unloggedPoints, loggedPoints]
  routed := by simp
  fits := by simp

theorem fresh (cfg : StorageConfig) : LoggedOnce cfg (.fresh cfg) [] := start cfg ..

theorem mem_requested (h : LoggedOnce cfg s tr) {p : DataPoint}
    (hp : p ∈ unloggedPoints s.appends ∨ p ∈ loggedPoints tr) : p ∈ requestedPoints tr :=
  h.points.mem_iff.mpr (List.mem_append.mpr hp)

/-- A point that its call has inserted is in a log. -/
theorem of_inserted (h : LoggedOnce cfg s tr) (hcalls : CallsKeep s.appends tr)
    (hdist : Distinct (requestedPoints tr)) {t : AppendTask} (ht : t ∈ s.appends)
    (hnil : t.pending = []) {p : DataPoint} (hp : p ∈ t.points) : p ∈ loggedPoints tr := by
  have hreq : p ∈ requestedPoints tr := by
    rw [hcalls.requested]
    exact List.mem_flatMap.mpr ⟨t, ht, hp⟩
  refine (List.mem_append.mp (h.points.mem_iff.mp hreq)).resolve_left fun hun => ?_
  exact hcalls.not_pending hdist ht hnil hp ((unloggedPoints_sublist _).subset hun)

/-- An answered point is in a log. -/
theorem of_acked (h : LoggedOnce cfg s tr) (hcalls : CallsKeep s.appends tr)
    (hdist : Distinct (requestedPoints tr)) {p : DataPoint} (hp : p ∈ ackedPoints tr) :
    p ∈ loggedPoints tr := by
  obtain ⟨e, he, hp⟩ := List.mem_flatMap.mp hp
  cases e with
  | acked points n =>
    obtain ⟨t, ht, rfl, hnil⟩ := hcalls.acked points n he
    exact h.of_inserted hcalls hdist ht hnil hp
  | _ => cases hp

/-- **Every step** keeps it. -/
theorem step (h : LoggedOnce cfg s tr) (hrouted : Routed cfg s) {a : Action}
    (hfits : BatchesFit s a) (hstep : Step cfg s a s' es) : LoggedOnce cfg s' (tr ++ es) := by
  -- only a WAL task writes to a log
  have hnew : ∀ i seg b, .committed i seg b ∈ es →
      (i < cfg.numShards ∧ ∀ p ∈ b.2, shardIndex p cfg.numShards = i) ∧ b.Fits := by
    cases hstep with
    | @walCommit i refs drain hi hidle hrequest hnodup hwait =>
      intro j seg b hb
      obtain ⟨rfl, -, hmem, ref, href, g, hg, hpts⟩ := mem_committed hb
      obtain ⟨g', hg', hshard, -⟩ := hwait ref href
      obtain rfl : g = g' := Option.some.inj (hg.symm.trans hg')
      obtain ⟨t, ht, hj⟩ := Option.bind_eq_some_iff.mp hg
      refine ⟨⟨hi, fun p hp => ?_⟩, hfits b hmem⟩
      rw [← hshard]
      exact hrouted.pending t (List.mem_of_getElem? ht) g (List.mem_of_getElem? hj) p (hpts ▸ hp)
    | _ => simp
  exact
    { points := requestedPoints_logged h.points hstep
      routed := fun i seg b hb =>
        (List.mem_append.mp hb).elim (h.routed i seg b) fun hb => (hnew i seg b hb).1
      fits := fun i seg b hb =>
        (List.mem_append.mp hb).elim (h.fits i seg b) fun hb => (hnew i seg b hb).2 }

end LoggedOnce

end

end Micius

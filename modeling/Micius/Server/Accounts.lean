import Micius.Server.Logged
import Micius.Server.Reopen

/-!
# The account of the append calls

Over every run of a session, also with points that are appended more than
once: the answers carry the numbers 1, 2, 3, … in the order they are given, no
call is answered twice, and every requested point is in the log as often as it
was requested, less the groups that still wait for their WAL task.
-/

namespace Micius

/-! ## Requests and answers -/

/-- The request that arrives with an event. -/
def Event.request : Event → Option (List DataPoint)
  | requested points => some points
  | _ => none

/-- The answer an event gives: the request and its number. -/
def Event.answer : Event → Option (List DataPoint × Nat)
  | acked points sequence => some (points, sequence)
  | _ => none

/-- The requests of the calls that are answered. -/
def answeredRequests (tasks : List AppendTask) : List (List DataPoint) :=
  tasks.flatMap fun t => if t.acked then [t.points] else []

/-- The account of the calls. -/
structure CallAccount (s : Server) (tr : List Event) : Prop where
  requests : tr.filterMap Event.request = s.appends.map AppendTask.points
  numbers : (tr.filterMap Event.answer).map Prod.snd = List.range' 1 s.appendSeq
  answers : ((tr.filterMap Event.answer).map Prod.fst).Perm (answeredRequests s.appends)

namespace CallAccount

variable {s s' : Server} {tr es : List Event}

theorem start (cfg : StorageConfig) (disk : Disk) (idx : ChunkIndex) (wals : List WalWriter) :
    CallAccount (.start cfg disk idx wals) [] where
  requests := rfl
  numbers := rfl
  answers := .refl _

/-- A step of other tasks, or of a call between its arrival and its answer. -/
theorem quiet (h : CallAccount s tr) (hrequest : es.filterMap Event.request = [])
    (hanswer : es.filterMap Event.answer = []) (hseq : s'.appendSeq = s.appendSeq)
    (hpoints : s'.appends.map AppendTask.points = s.appends.map AppendTask.points)
    (hacked : answeredRequests s'.appends = answeredRequests s.appends) :
    CallAccount s' (tr ++ es) where
  requests := by rw [List.filterMap_append, hrequest, List.append_nil, h.requests, hpoints]
  numbers := by rw [List.filterMap_append, hanswer, List.append_nil, h.numbers, hseq]
  answers := by rw [List.filterMap_append, hanswer, List.append_nil, hacked]; exact h.answers

theorem answeredRequests_set {tasks : List AppendTask} {k : Nat} {t t' : AppendTask}
    (hk : tasks[k]? = some t) (hpoints : t'.points = t.points) (hacked : t'.acked = t.acked) :
    answeredRequests (tasks.set k t') = answeredRequests tasks := by
  rw [answeredRequests, answeredRequests, List.flatMap_def, List.flatMap_def,
    Bags.map_set_of_eq _ hk (by rw [hpoints, hacked])]

theorem answeredRequests_deliver (tasks : List AppendTask)
    (replies : List (Nat × (Nat × Nat) × List DataPoint)) :
    answeredRequests (deliver tasks replies) = answeredRequests tasks := by
  rw [answeredRequests, answeredRequests, deliver_eq]
  refine Bags.flatMap_mapIdx (fun k t => ?_) tasks
  rfl

theorem points_deliver (tasks : List AppendTask)
    (replies : List (Nat × (Nat × Nat) × List DataPoint)) :
    (deliver tasks replies).map AppendTask.points = tasks.map AppendTask.points := by
  refine List.ext_getElem? fun k => ?_
  rw [List.getElem?_map, getElem?_deliver, List.getElem?_map, Option.map_map]
  rfl

/-- The answer of a call. -/
theorem ack (h : CallAccount s tr) {k : Nat} {points : List DataPoint}
    (hk : s.appends[k]? = some ⟨points, [], false⟩) :
    CallAccount
      { s with appends := s.appends.set k ⟨points, [], true⟩, appendSeq := s.appendSeq + 1 }
      (tr ++ [.acked points (s.appendSeq + 1)]) where
  requests := by
    have hsame : (s.appends.set k ⟨points, [], true⟩).map AppendTask.points =
        s.appends.map AppendTask.points := Bags.map_set_of_eq AppendTask.points hk rfl
    rw [List.filterMap_append, h.requests]
    exact (List.append_nil _).trans hsame.symm
  numbers := by
    rw [List.filterMap_append, List.map_append, h.numbers, List.range'_1_concat, Nat.add_comm 1]
    rfl
  answers := by
    -- the call was not answered before
    obtain ⟨rest, hrest, hset⟩ := Bags.perm_flatMap_set
      (fun t : AppendTask => if t.acked then [t.points] else []) hk
    rw [List.filterMap_append, List.map_append]
    refine ((h.answers.trans hrest).append_right [points]).trans ?_
    exact List.perm_append_comm.trans (hset ⟨points, [], true⟩).symm

/-- **Every step** keeps the account. -/
theorem step [Crates] {cfg : StorageConfig} {a : Action} (h : CallAccount s tr)
    (hstep : Step cfg s a s' es) : CallAccount s' (tr ++ es) := by
  cases hstep with
  | @append points indexed hsorted =>
    refine ⟨?_, ?_, ?_⟩
    · rw [List.filterMap_append, h.requests, List.map_append]
      rfl
    · rw [List.filterMap_append, List.map_append, h.numbers]
      exact List.append_nil _
    · rw [List.filterMap_append, List.map_append, answeredRequests, List.flatMap_append]
      exact h.answers.append (.refl [])
  | walCommit hi hidle hrequest hnodup hwait =>
    refine h.quiet ?_ ?_ rfl (points_deliver ..) (answeredRequests_deliver ..)
    · rw [List.filterMap_map]
      exact List.filterMap_eq_nil_iff.mpr fun _ _ => rfl
    · rw [List.filterMap_map]
      exact List.filterMap_eq_nil_iff.mpr fun _ _ => rfl
  | memInsert hk hall =>
    exact h.quiet rfl rfl rfl (Bags.map_set_of_eq AppendTask.points hk rfl)
      (answeredRequests_set hk rfl rfl)
  | ack hk => exact h.ack hk
  | _ => exact h.quiet rfl rfl rfl rfl rfl

end CallAccount

section

variable [Crates]

/-- **The account of the append calls**, over every run of a session that
`open` started. The answers carry the numbers 1, 2, 3, … in order; the calls are
the requests, in order; each answer belongs to one call, and an answered call
has nothing left to do. The logs have what was requested, as often as it was
requested, but for the groups that wait; once every call is answered, all of it. -/
theorem append_accounts {cfg : StorageConfig} {chunkIds : Nat → ChunkId} {d : Disk}
    {s₀ s : Server} {actions : List Action} {tr : List Event}
    (hopen : (openStore cfg chunkIds d).1 = .ok s₀)
    (hrun : Runs.run (step cfg) s₀ actions = some (s, tr)) :
    (tr.filterMap Event.answer).map Prod.snd = List.range' 1 s.appendSeq ∧
      tr.filterMap Event.request = s.appends.map AppendTask.points ∧
      ((tr.filterMap Event.answer).map Prod.fst).Perm (answeredRequests s.appends) ∧
      (∀ t ∈ s.appends, t.acked = true → t.pending = []) ∧
      (requestedPoints tr).Perm (unloggedPoints s.appends ++ loggedPoints tr) ∧
      ((∀ t ∈ s.appends, t.acked = true) → (requestedPoints tr).Perm (loggedPoints tr)) := by
  obtain ⟨idx, wals, -, rfl⟩ := openStore_ok hopen
  obtain ⟨hrouted, haccounts, hpoints⟩ := Runs.run_invariant (P := fun _ _ _ => True)
    (I := fun s tr => Routed cfg s ∧ CallAccount s tr ∧
      (requestedPoints tr).Perm (unloggedPoints s.appends ++ loggedPoints tr))
    (fun hinv _ hstep => ⟨hinv.1.step (step_sound hstep), hinv.2.1.step (step_sound hstep),
      requestedPoints_logged hinv.2.2 (step_sound hstep)⟩)
    ⟨Routed.start cfg _ idx wals, CallAccount.start cfg _ idx wals, .refl _⟩
    (Runs.along_of_forall (fun _ _ => trivial) _ []) hrun
  refine ⟨haccounts.numbers, haccounts.requests, haccounts.answers, hrouted.acked,
    hpoints, fun hall => ?_⟩
  have hnil : unloggedPoints s.appends = [] := by
    have hsub := unloggedPoints_sublist s.appends
    rw [hrouted.pendingPoints_eq_nil hall] at hsub
    exact List.sublist_nil.mp hsub
  rwa [hnil] at hpoints

end

section Example

attribute [local instance] Reference.crates

/-- Two calls with the same point, in one batch; the later call is answered first. -/
def sameTwice : List Action :=
  [.append [cpuPoint 5 7] [(0, 0)], .append [cpuPoint 5 7] [(0, 0)],
    .walCommit 0 [(1, 0), (0, 0)] none, .walFinish 0, .memInsert 1, .ack 1, .memInsert 0, .ack 0]

theorem append_accounts_sameTwice : ∃ s tr,
    Runs.run (step oneShard) (.fresh oneShard) sameTwice = some (s, tr) ∧
    s.appendSeq = 2 ∧ (tr.filterMap Event.answer).map Prod.snd = [1, 2] ∧
    (requestedPoints tr).length = 2 ∧ (requestedPoints tr).Perm (loggedPoints tr) := by
  have hrun : ((Runs.run (step oneShard) (.fresh oneShard) sameTwice).any fun r =>
      decide (r.1.appendSeq = 2) && r.1.appends.all AppendTask.acked &&
        decide ((requestedPoints r.2).length = 2)) = true := by decide +kernel
  obtain ⟨s, tr, hrun, hstate⟩ := Runs.exists_of_any hrun
  simp only [Bool.and_eq_true, decide_eq_true_eq, List.all_eq_true] at hstate
  obtain ⟨⟨hseq, hacked⟩, hlength⟩ := hstate
  obtain ⟨hnumbers, -, -, -, -, hlogged⟩ :=
    append_accounts (openStore_empty oneShard fun _ => 0) hrun
  rw [hseq] at hnumbers
  exact ⟨s, tr, hrun, hseq, hnumbers, hlength, hlogged hacked⟩

end Example

end Micius

import Mathlib.Data.List.Basic
import Mathlib.Data.List.TakeWhile

/-!
# Greedy runs

A list split into runs from the left: a run starts at an element and goes on as
long as the elements are related to the one it started at.
-/

namespace GreedyRuns

variable {α : Type}

/-- The greedy runs of a list. -/
def runs (r : α → α → Bool) : List α → List (List α)
  | [] => []
  | a :: l => (a :: l.takeWhile (r a)) :: runs r (l.dropWhile (r a))
termination_by l => l.length
decreasing_by
  rw [List.length_cons]
  exact Nat.lt_succ_of_le (List.dropWhile_sublist _).length_le

variable {r : α → α → Bool} {a b : α} {l run : List α}

@[simp] theorem runs_nil : runs r [] = [] := by rw [runs]

/-- A list of elements all related to the first one is one run. -/
theorem runs_of_forall (h : ∀ b ∈ l, r a b) : runs r (a :: l) = [a :: l] := by
  rw [runs, List.takeWhile_eq_self_iff.mpr h, List.dropWhile_eq_nil_iff.mpr h, runs_nil]

/-- A run ends where the next element is not related to its first one. -/
theorem runs_append_of_not (h : ∀ b ∈ l, r a b) (hb : ¬ r a b) (rest : List α) :
    runs r (a :: l ++ b :: rest) = (a :: l) :: runs r (b :: rest) := by
  rw [List.cons_append, runs, List.takeWhile_append_of_pos h, List.dropWhile_append_of_pos h,
    List.takeWhile_cons_of_neg hb, List.dropWhile_cons_of_neg hb, List.append_nil]

theorem flatten_runs (r : α → α → Bool) (l : List α) : (runs r l).flatten = l := by
  induction l using runs.induct r with
  | case1 => rw [runs_nil, List.flatten_nil]
  | case2 a l ih =>
    rw [runs, List.flatten_cons, ih, List.cons_append, List.takeWhile_append_dropWhile]

/-- The elements of a run are related to its first one. -/
theorem exists_head (h : run ∈ runs r l) : ∃ a rest, run = a :: rest ∧ ∀ b ∈ rest, r a b := by
  induction l using runs.induct r with
  | case1 =>
    rw [runs_nil] at h
    cases h
  | case2 a l ih =>
    rw [runs] at h
    rcases List.mem_cons.mp h with rfl | h
    · exact ⟨a, _, rfl, fun b hb => List.mem_takeWhile_imp hb⟩
    · exact ih h

theorem exists_run (r : α → α → Bool) (ha : a ∈ l) : ∃ run ∈ runs r l, a ∈ run := by
  rw [← flatten_runs r l] at ha
  exact List.mem_flatten.mp ha

end GreedyRuns

import Mathlib.Algebra.BigOperators.Group.Finset.Basic
import Micius.Lib.Runs

/-!
# Work measures

A measure of the work left in a system is a sum over places: over the positions
of a list, or over the indices below a bound. Changing one place changes the sum
by what that place changes. Where every step of a run lowers the measure, the
run is no longer than the measure is at its start.
-/

namespace Measures

variable {α : Type}

/-! ## Sums over the positions of a list -/

/-- The work of the elements of a list. -/
def total (f : α → Nat) : List α → Nat
  | [] => 0
  | a :: l => f a + total f l

@[simp] theorem total_nil (f : α → Nat) : total f [] = 0 := rfl

@[simp] theorem total_cons (f : α → Nat) (a : α) (l : List α) :
    total f (a :: l) = f a + total f l := rfl

/-- Replacing one element. -/
theorem total_set (f : α → Nat) {l : List α} {k : Nat} {a : α} (h : l[k]? = some a) (b : α) :
    total f (l.set k b) + f a = total f l + f b := by
  induction l generalizing k with
  | nil => simp at h
  | cons x l ih =>
    cases k with
    | zero =>
      obtain rfl : x = a := by simpa using h
      simp only [List.set_cons_zero, total_cons]
      omega
    | succ k =>
      have := ih (by simpa using h)
      simp only [List.set_cons_succ, total_cons]
      omega

/-- Changing every element without adding work. -/
theorem total_mapIdx_le {f : α → Nat} {g : Nat → α → α} (h : ∀ k a, f (g k a) ≤ f a)
    (l : List α) : total f (l.mapIdx g) ≤ total f l := by
  induction l generalizing g with
  | nil => exact Nat.le_refl _
  | cons a l ih =>
    rw [List.mapIdx_cons, total_cons, total_cons]
    exact Nat.add_le_add (h 0 a) (ih fun k a => h (k + 1) a)

/-- Changing every element without adding work, and saving some at one place. -/
theorem total_mapIdx_add_le {f : α → Nat} {g : Nat → α → α} (h : ∀ k a, f (g k a) ≤ f a)
    {l : List α} {k : Nat} {a : α} (hk : l[k]? = some a) {d : Nat} (hd : f (g k a) + d ≤ f a) :
    total f (l.mapIdx g) + d ≤ total f l := by
  induction l generalizing g k with
  | nil => simp at hk
  | cons x l ih =>
    rw [List.mapIdx_cons, total_cons, total_cons]
    cases k with
    | zero =>
      obtain rfl : x = a := by simpa using hk
      have := total_mapIdx_le (g := fun k => g (k + 1)) (fun k a => h (k + 1) a) l
      omega
    | succ k =>
      have := ih (g := fun k => g (k + 1)) (fun k a => h (k + 1) a) (by simpa using hk) hd
      have := h 0 x
      omega

/-! ## Sums over the indices below a bound -/

/-- Replacing the value at one index. -/
theorem sum_update {β : Type} (f : β → Nat) (v : Nat → β) {n i : Nat} (hi : i < n) (b : β) :
    ∑ j ∈ Finset.range n, f (Function.update v i b j) + f (v i) =
      ∑ j ∈ Finset.range n, f (v j) + f b := by
  have hmem : i ∈ Finset.range n := Finset.mem_range.mpr hi
  have hrest : ∑ j ∈ (Finset.range n).erase i, f (Function.update v i b j) =
      ∑ j ∈ (Finset.range n).erase i, f (v j) :=
    Finset.sum_congr rfl fun j hj => by rw [Function.update_of_ne (Finset.ne_of_mem_erase hj)]
  rw [← Finset.add_sum_erase _ _ hmem, ← Finset.add_sum_erase _ (fun j => f (v j)) hmem, hrest,
    Function.update_self]
  omega

/-! ## Runs that lower a measure -/

/-- **The length of a run** whose steps all lower a measure. -/
theorem length_le_of_decreasing {σ α ε : Type} {step : σ → α → Option (σ × List ε)}
    {I : σ → Prop} {P : α → Prop} {measure : σ → Nat}
    (hinv : ∀ {s a s' es}, I s → step s a = some (s', es) → I s')
    (hless : ∀ {s a s' es}, I s → P a → step s a = some (s', es) → measure s' < measure s)
    {s t : σ} {as : List α} {es : List ε} (h : I s) (hP : ∀ a ∈ as, P a)
    (hrun : Runs.run step s as = some (t, es)) : as.length + measure t ≤ measure s := by
  induction as generalizing s es with
  | nil =>
    obtain ⟨rfl, -⟩ := Prod.mk.inj (Option.some.inj hrun)
    simp
  | cons a as ih =>
    obtain ⟨s', es₁, es₂, hs, hr, -⟩ := Runs.run_cons.mp hrun
    have := ih (hinv h hs) (fun b hb => hP b (by simp [hb])) hr
    have := hless h (hP a (by simp)) hs
    rw [List.length_cons]
    omega

/-- Steps that all lower a measure can be taken until none is enabled. -/
theorem exists_run_to_end {σ α ε : Type} {step : σ → α → Option (σ × List ε)}
    {I : σ → Prop} {P : α → Prop} {measure : σ → Nat}
    (hinv : ∀ {s a s' es}, I s → step s a = some (s', es) → I s')
    (hless : ∀ {s a s' es}, I s → P a → step s a = some (s', es) → measure s' < measure s)
    {s : σ} (h : I s) : ∃ as t es, (∀ a ∈ as, P a) ∧ Runs.run step s as = some (t, es) ∧
      ∀ a, P a → step t a = none := by
  induction hm : measure s using Nat.strong_induction_on generalizing s with
  | _ m ih =>
    subst hm
    by_cases hend : ∀ a, P a → step s a = none
    · exact ⟨[], s, [], by simp, rfl, hend⟩
    · push Not at hend
      obtain ⟨a, ha, hstep⟩ := hend
      obtain ⟨⟨s', es⟩, hs⟩ := Option.ne_none_iff_exists'.mp hstep
      obtain ⟨as, t, es', has, hrun, hstop⟩ := ih _ (hless h ha hs) (hinv h hs) rfl
      refine ⟨a :: as, t, es ++ es', ?_, Runs.run_cons.mpr ⟨s', es, es', hs, hrun, rfl⟩, hstop⟩
      exact List.forall_mem_cons.mpr ⟨ha, has⟩

end Measures

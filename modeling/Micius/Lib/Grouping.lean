import Mathlib.Data.List.Sort
import Mathlib.Data.List.SplitBy
import Mathlib.Order.Lattice

/-!
# Lists sorted by a key

A list sorted by a key, split into its runs of equal keys: each run is the
sublist of the elements with its key, and the keys of the runs go up. Among
the elements with its key, any element comes last in some sorted order.
-/

namespace Grouping

variable {α κ : Type} [LinearOrder κ] (key : α → κ)

/-- The runs of equal keys. -/
def runs (l : List α) : List (List α) := l.splitBy fun a b => key a == key b

variable {key} {l run : List α} {a b : α}

theorem flatten_runs (key : α → κ) (l : List α) : (runs key l).flatten = l := List.flatten_splitBy ..

theorem ne_nil_of_mem_runs (hrun : run ∈ runs key l) : run ≠ [] := List.ne_nil_of_mem_splitBy hrun

theorem exists_run (key : α → κ) (ha : a ∈ l) : ∃ run ∈ runs key l, a ∈ run := by
  rw [← flatten_runs key l] at ha
  exact List.mem_flatten.mp ha

/-- The elements of a run have one key. -/
theorem key_eq_of_mem_run (hrun : run ∈ runs key l) (ha : a ∈ run) (hb : b ∈ run) :
    key a = key b := by
  have hchain : run.IsChain fun a b => key a = key b :=
    (List.isChain_of_mem_splitBy hrun).imp fun _ _ hab => by simpa using hab
  have htrans : IsTrans α fun a b => key a = key b := ⟨fun _ _ _ => Eq.trans⟩
  have hpairs : run.Pairwise fun a b => key a = key b := List.isChain_iff_pairwise.mp hchain
  have hsymm : Std.Symm fun a b => key a = key b := ⟨fun _ _ => Eq.symm⟩
  exact List.Pairwise.forall_of_forall (R := fun a b => key a = key b) (fun _ _ => rfl) hpairs ha hb

/-- The first run, and the runs of what follows it. -/
theorem runs_cons (key : α → κ) (a : α) (l : List α) :
    runs key (a :: l) = (a :: l.takeWhile fun b => key b = key a) ::
      runs key (l.dropWhile fun b => key b = key a) := by
  have hkey : ∀ b ∈ a :: l.takeWhile (fun b => key b = key a), key b = key a := by
    intro b hb
    rcases List.mem_cons.mp hb with rfl | hb
    · rfl
    · exact of_decide_eq_true (List.all_eq_true.mp List.all_takeWhile b hb)
  have hchain : (a :: l.takeWhile fun b => key b = key a).IsChain fun x y => (key x == key y) = true := by
    refine List.Pairwise.isChain (List.pairwise_of_forall_mem_list fun x hx y hy => ?_)
    simp [hkey x hx, hkey y hy]
  have hsplit : a :: l = (a :: l.takeWhile fun b => key b = key a) ++
      l.dropWhile fun b => key b = key a := by
    rw [List.cons_append, List.takeWhile_append_dropWhile]
  conv_lhs => rw [runs, hsplit]
  rw [List.splitBy_append, List.splitBy_of_isChain (List.cons_ne_nil _ _) hchain]
  · rfl
  · intro x hx y hy
    have hx := hkey x (List.mem_of_mem_getLast? hx)
    have hnot := List.head?_dropWhile_not (fun b => decide (key b = key a)) l
    rw [Option.mem_def] at hy
    rw [hy] at hnot
    exact beq_false_of_ne fun heq => of_decide_eq_false hnot (heq.symm.trans hx)

/-- The keys of the runs of a sorted list go up. -/
theorem runs_pairwise (key : α → κ) (hsorted : l.Pairwise fun a b => key a ≤ key b) :
    (runs key l).Pairwise fun r r' => ∀ a ∈ r, ∀ b ∈ r', key a < key b := by
  have hle : (runs key l).Pairwise fun r r' => ∀ a ∈ r, ∀ b ∈ r', key a ≤ key b := by
    rw [← flatten_runs key l] at hsorted
    exact (List.pairwise_flatten.mp hsorted).2
  have hne := List.isChain_getLast_head_splitBy (fun a b => key a == key b) l
  have hconst : ∀ r ∈ runs key l, r ≠ [] ∧ ∀ a ∈ r, ∀ b ∈ r, key a = key b := fun r hr =>
    ⟨ne_nil_of_mem_runs hr, fun a ha b hb => key_eq_of_mem_run hr ha hb⟩
  change (runs key l).IsChain _ at hne
  generalize runs key l = rs at hle hne hconst
  -- each run against the next one by the split, against the later ones by the order
  induction rs with
  | nil => exact .nil
  | cons r rs ih =>
    obtain ⟨hfirst, hrest⟩ := List.pairwise_cons.mp hle
    refine List.pairwise_cons.mpr ⟨?_, ih hrest hne.of_cons fun r' hr' =>
      hconst r' (List.mem_cons_of_mem r hr')⟩
    cases rs with
    | nil => simp
    | cons next rs =>
      obtain ⟨⟨hr, hnext, hdiff⟩, -⟩ := List.isChain_cons_cons.mp hne
      have hlt : ∀ a ∈ r, ∀ b ∈ next, key a < key b := by
        intro a ha b hb
        have hlast := (hconst r (by simp)).2 a ha _ (List.getLast_mem hr)
        have hhead := (hconst next (by simp)).2 b hb _ (List.head_mem hnext)
        refine lt_of_le_of_ne (hfirst next (by simp) a ha b hb) fun heq => ?_
        rw [hlast, hhead] at heq
        simp [heq] at hdiff
      intro r' hr' a ha b hb
      rcases List.mem_cons.mp hr' with rfl | hr'
      · exact hlt a ha b hb
      · exact lt_of_lt_of_le (hlt a ha _ (List.head_mem hnext))
          ((List.pairwise_cons.mp hrest).1 r' hr' _ (List.head_mem hnext) b hb)

/-- A run of a sorted list is the sublist of the elements with its key. -/
theorem run_eq_filter (key : α → κ) (hsorted : l.Pairwise fun a b => key a ≤ key b)
    (hrun : run ∈ runs key l) (ha : a ∈ run) : run = l.filter fun b => key b = key a := by
  have hlt := runs_pairwise key hsorted
  have hconst : ∀ r ∈ runs key l, ∀ a ∈ r, ∀ b ∈ r, key a = key b :=
    fun r hr a ha b hb => key_eq_of_mem_run hr ha hb
  conv_rhs => rw [← flatten_runs key l]
  generalize runs key l = rs at hlt hconst hrun
  induction rs with
  | nil => cases hrun
  | cons r rs ih =>
    obtain ⟨hfirst, hrest⟩ := List.pairwise_cons.mp hlt
    rw [List.flatten_cons, List.filter_append]
    rcases List.mem_cons.mp hrun with rfl | hrun
    · have hself : run.filter (fun b => key b = key a) = run :=
        List.filter_eq_self.mpr fun b hb => decide_eq_true (hconst run (by simp) b hb a ha)
      have hnone : rs.flatten.filter (fun b => key b = key a) = [] := by
        refine List.filter_eq_nil_iff.mpr fun b hb heq => ?_
        obtain ⟨r', hr', hb⟩ := List.mem_flatten.mp hb
        exact absurd (of_decide_eq_true heq).symm (hfirst r' hr' a ha b hb).ne
      rw [hself, hnone, List.append_nil]
    · have hnone : r.filter (fun b => key b = key a) = [] := by
        refine List.filter_eq_nil_iff.mpr fun b hb heq => ?_
        exact absurd (of_decide_eq_true heq) (hfirst run hrun b hb a ha).ne
      rw [hnone, List.nil_append]
      exact ih hrest (fun r' hr' => hconst r' (List.mem_cons_of_mem r hr')) hrun

/-- A sorted order in which what follows an element has a greater key. -/
theorem exists_sorted_split (key : α → κ) (ha : a ∈ l) : ∃ before after,
    (before ++ a :: after).Perm l ∧ (before ++ a :: after).Pairwise (fun x y => key x ≤ key y) ∧
      ∀ x ∈ after, key a < key x := by
  obtain ⟨front, back, rfl⟩ := List.append_of_mem ha
  let sorted := (front ++ back).insertionSort fun x y => key x ≤ key y
  have htotal : Std.Total fun x y => key x ≤ key y := ⟨fun x y => le_total (key x) (key y)⟩
  have htrans : IsTrans α fun x y => key x ≤ key y := ⟨fun _ _ _ => le_trans⟩
  have hsorted : sorted.Pairwise fun x y => key x ≤ key y := List.pairwise_insertionSort ..
  have hle : ∀ x ∈ sorted.filter (fun x => key x ≤ key a), key x ≤ key a :=
    fun x hx => of_decide_eq_true (List.mem_filter.mp hx).2
  have hgt : ∀ x ∈ sorted.filter (fun x => !decide (key x ≤ key a)), key a < key x :=
    fun x hx => not_le.mp (by simpa using (List.mem_filter.mp hx).2)
  refine ⟨sorted.filter fun x => key x ≤ key a, sorted.filter fun x => !decide (key x ≤ key a),
    ?_, ?_, hgt⟩
  · have hparts := List.filter_append_perm (fun x => decide (key x ≤ key a)) sorted
    have hall : sorted.Perm (front ++ back) := List.perm_insertionSort ..
    exact List.perm_middle.trans (((hparts.trans hall).cons a).trans List.perm_middle.symm)
  · refine List.pairwise_append.mpr ⟨hsorted.filter _, List.pairwise_cons.mpr
      ⟨fun x hx => (hgt x hx).le, hsorted.filter _⟩, fun x hx y hy => ?_⟩
    rcases List.mem_cons.mp hy with rfl | hy
    · exact hle x hx
    · exact (hle x hx).trans (hgt y hy).le

end Grouping

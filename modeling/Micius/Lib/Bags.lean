import Mathlib.Data.List.Nodup
import Mathlib.Data.List.Perm.Basic
import Mathlib.Data.List.Range

/-!
# Bags spread over places

A bag is a list up to permutation. Where the elements of a bag are spread
over the positions of a list, or over the indices below a bound, changing
one place changes only that part of the bag.
-/

namespace Bags

variable {α α' β : Type}

/-- The part of the bag at position `k`, and the rest. -/
theorem perm_flatMap_set (f : α → List β) {l : List α} {k : Nat} {a : α} (h : l[k]? = some a) :
    ∃ rest, (l.flatMap f).Perm (f a ++ rest) ∧
      ∀ b, ((l.set k b).flatMap f).Perm (f b ++ rest) := by
  induction l generalizing k with
  | nil => simp at h
  | cons x l ih =>
    cases k with
    | zero =>
      obtain rfl : x = a := by simpa using h
      exact ⟨l.flatMap f, by simp, fun b => by simp⟩
    | succ k =>
      obtain ⟨rest, hrest, hset⟩ := ih (by simpa using h)
      refine ⟨f x ++ rest, ?_, fun b => ?_⟩
      · rw [List.flatMap_cons]
        exact (hrest.append_left (f x)).trans
          ((List.perm_append_comm_assoc (f x) (f a) rest))
      · rw [List.set_cons_succ, List.flatMap_cons]
        exact ((hset b).append_left (f x)).trans (List.perm_append_comm_assoc (f x) (f b) rest)

/-- A change at one place that `f` does not see. -/
theorem map_set_of_eq {γ : Type} (f : α → γ) {l : List α} {k : Nat} {a b : α}
    (hk : l[k]? = some a) (h : f b = f a) : (l.set k b).map f = l.map f := by
  refine List.ext_getElem? fun j => ?_
  rw [List.map_set, List.getElem?_set]
  split
  · next hj =>
    subst hj
    obtain ⟨hlt, rfl⟩ := List.getElem?_eq_some_iff.mp hk
    rw [if_pos (by rwa [List.length_map]), List.getElem?_map, hk, Option.map_some, h]
  · rfl

/-- The parts of the places that `p` picks, and the rest. -/
theorem perm_flatMap_filter (p : α → Bool) (f : α → List β) (l : List α) :
    (l.flatMap f).Perm
      ((l.flatMap fun a => if p a then [] else f a) ++ (l.filter p).flatMap f) := by
  induction l with
  | nil => exact .refl _
  | cons a l ih =>
    cases hp : p a with
    | true =>
      simp only [List.flatMap_cons, List.filter_cons, hp, if_true, List.nil_append]
      exact (ih.append_left (f a)).trans (List.perm_append_comm_assoc ..)
    | false =>
      simp only [List.flatMap_cons, List.filter_cons, hp, Bool.false_eq_true, if_false,
        List.append_assoc]
      exact ih.append_left (f a)

/-- Changing every place in a way that keeps its part keeps the bag. -/
theorem flatMap_mapIdx {f : Nat → α → α'} {g : α' → List β} {g' : α → List β}
    (h : ∀ k a, g (f k a) = g' a) (l : List α) : (l.mapIdx f).flatMap g = l.flatMap g' := by
  induction l generalizing f with
  | nil => rfl
  | cons a l ih =>
    rw [List.mapIdx_cons, List.flatMap_cons, List.flatMap_cons, h, ih fun k a => h (k + 1) a]

/-- An element of a bag without duplicates is at one position. -/
theorem position_unique {f : α → List β} {l : List α} (h : (l.flatMap f).Nodup) {k k' : Nat}
    {a a' : α} (hk : l[k]? = some a) (hk' : l[k']? = some a') {x : β} (hx : x ∈ f a)
    (hx' : x ∈ f a') : k = k' := by
  induction l generalizing k k' with
  | nil => simp at hk
  | cons y l ih =>
    rw [List.flatMap_cons] at h
    have hdisj := List.disjoint_of_nodup_append h
    cases k with
    | zero =>
      cases k' with
      | zero => rfl
      | succ k' =>
        obtain rfl : y = a := by simpa using hk
        have hmem : a' ∈ l := List.mem_of_getElem? (by simpa using hk')
        exact absurd (List.mem_flatMap.mpr ⟨a', hmem, hx'⟩) (fun hl => hdisj hx hl)
    | succ k =>
      cases k' with
      | zero =>
        obtain rfl : y = a' := by simpa using hk'
        have hmem : a ∈ l := List.mem_of_getElem? (by simpa using hk)
        exact absurd (List.mem_flatMap.mpr ⟨a, hmem, hx⟩) (fun hl => hdisj hx' hl)
      | succ k' =>
        have hsame : k = k' := ih h.of_append_right (by simpa using hk) (by simpa using hk')
        rw [hsame]

/-- Two elements that give the same are one, if nothing is given twice. -/
theorem eq_of_nodup_filterMap {f : α → Option β} {l : List α} (h : (l.filterMap f).Nodup) {a a' : α}
    (ha : a ∈ l) (ha' : a' ∈ l) {x : β} (hx : f a = some x) (hx' : f a' = some x) : a = a' := by
  induction l with
  | nil => cases ha
  | cons b l ih =>
    have hmem : ∀ {c : α}, c ∈ l → f c = some x → x ∈ l.filterMap f :=
      fun hc hfc => List.mem_filterMap.mpr ⟨_, hc, hfc⟩
    rcases List.mem_cons.mp ha with rfl | hal
    · rcases List.mem_cons.mp ha' with rfl | hal'
      · rfl
      · rw [List.filterMap_cons_some hx, List.nodup_cons] at h
        exact absurd (hmem hal' hx') h.1
    · rcases List.mem_cons.mp ha' with rfl | hal'
      · rw [List.filterMap_cons_some hx', List.nodup_cons] at h
        exact absurd (hmem hal hx) h.1
      · refine ih (h.sublist ?_) hal hal'
        exact (List.sublist_cons_self b l).filterMap f

/-- The part of the bag at index `i`, and the rest. -/
theorem perm_flatMap_range (f : Nat → List β) {n i : Nat} (hi : i < n) :
    ∃ rest, ((List.range n).flatMap f).Perm (f i ++ rest) ∧
      ∀ g : Nat → List β, (∀ j, j ≠ i → g j = f j) →
        ((List.range n).flatMap g).Perm (g i ++ rest) := by
  have hsplit : ∀ g : Nat → List β, ((List.range n).flatMap g).Perm
      (g i ++ ((List.range n).erase i).flatMap g) := by
    intro g
    have hperm : (List.range n).Perm (i :: (List.range n).erase i) :=
      List.perm_cons_erase (List.mem_range.mpr hi)
    simpa using hperm.flatMap_right g
  refine ⟨((List.range n).erase i).flatMap f, hsplit f, fun g hg => ?_⟩
  have hsame : ((List.range n).erase i).flatMap g = ((List.range n).erase i).flatMap f := by
    refine List.flatMap_congr fun j hj => hg j ?_
    rintro rfl
    exact (List.nodup_range.mem_erase_iff.mp hj).1 rfl
  rw [← hsame]
  exact hsplit g

end Bags

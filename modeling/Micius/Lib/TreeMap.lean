import Mathlib.Data.List.Sort

/-!
# Ordered maps

Facts about `Std.ExtTreeMap` and its sorted entry list that the library
does not state: how the list changes when a key is inserted or erased.
-/

namespace TreeMap

open Std

variable {κ ν : Type} {cmp : κ → κ → Ordering} [TransCmp cmp] [LawfulEqCmp cmp]

/-- Collecting the entries of a map in any order gives the map back. -/
theorem ofList_of_perm {m : ExtTreeMap κ ν cmp} {l : List (κ × ν)} (h : l.Perm m.toList) :
    ExtTreeMap.ofList l cmp = m := by
  apply ExtTreeMap.ext_getElem?
  intro k
  cases hk : m[k]? with
  | some v =>
    have hkeys : l.Pairwise fun a b => ¬ cmp a.1 b.1 = .eq :=
      (h.pairwise_iff fun {a b} hab hba => hab (OrientedCmp.eq_comm.mp hba)).mpr
        ExtTreeMap.distinct_keys_toList
    exact ExtTreeMap.getElem?_ofList_of_mem (k := k) ReflCmp.compare_self hkeys
      (h.mem_iff.mpr (ExtTreeMap.mem_toList_iff_getElem?_eq_some.mpr hk))
  | none =>
    classical
    apply ExtTreeMap.getElem?_ofList_of_contains_eq_false
    rw [Bool.eq_false_iff]
    intro hc
    obtain ⟨⟨k', v⟩, hmem, hk'⟩ := List.mem_map.mp (List.contains_iff_mem.mp hc)
    obtain rfl : k' = k := hk'
    rw [ExtTreeMap.mem_toList_iff_getElem?_eq_some.mp (h.mem_iff.mp hmem)] at hk
    cases hk

/-- Collecting the entries of a map gives the map back. -/
theorem ofList_toList (m : ExtTreeMap κ ν cmp) : ExtTreeMap.ofList m.toList cmp = m :=
  ofList_of_perm (.refl _)

/-! ## Lookups -/

theorem getElem?_insert_eq [DecidableEq κ] (m : ExtTreeMap κ ν cmp) (k k' : κ) (v : ν) :
    (m.insert k v)[k']? = if k' = k then some v else m[k']? := by
  rw [ExtTreeMap.getElem?_insert]
  by_cases hk : k' = k
  · rw [if_pos hk, if_pos (by rw [hk]; exact ReflCmp.compare_self)]
  · rw [if_neg hk, if_neg fun h => hk (LawfulEqCmp.eq_of_compare h).symm]

theorem getElem?_erase_eq [DecidableEq κ] (m : ExtTreeMap κ ν cmp) (k k' : κ) :
    (m.erase k)[k']? = if k' = k then none else m[k']? := by
  rw [ExtTreeMap.getElem?_erase]
  by_cases hk : k' = k
  · rw [if_pos hk, if_pos (by rw [hk]; exact ReflCmp.compare_self)]
  · rw [if_neg hk, if_neg fun h => hk (LawfulEqCmp.eq_of_compare h).symm]

/-- The map that binds each listed key to its value, if it has one. -/
def collect (l : List κ) (f : κ → Option ν) (cmp : κ → κ → Ordering) [TransCmp cmp] :
    ExtTreeMap κ ν cmp :=
  l.foldl (fun m k => match f k with
    | some v => m.insert k v
    | none => m) ∅

theorem getElem?_collect [DecidableEq κ] (l : List κ) (f : κ → Option ν) (k : κ) :
    (collect l f cmp)[k]? = if k ∈ l then f k else none := by
  have hfold : ∀ m : ExtTreeMap κ ν cmp, (l.foldl (fun m k => match f k with
      | some v => m.insert k v
      | none => m) m)[k]? = if k ∈ l ∧ (f k).isSome then f k else m[k]? := by
    induction l with
    | nil => simp
    | cons a l ih =>
      intro m
      rw [List.foldl_cons, ih]
      by_cases hk : k ∈ l ∧ (f k).isSome
      · rw [if_pos hk, if_pos ⟨by simp [hk.1], hk.2⟩]
      · rw [if_neg hk]
        by_cases ha : k = a
        · subst ha
          cases hf : f k with
          | none => simp
          | some v => simp
        · have hrest : ¬ (k ∈ a :: l ∧ (f k).isSome) := by simpa [ha] using hk
          rw [if_neg hrest]
          cases f a with
          | none => rfl
          | some v => simp [getElem?_insert_eq, ha]
  rw [collect, hfold]
  by_cases hk : k ∈ l
  · cases hf : f k with
    | none => simp
    | some v => simp [hk]
  · simp [hk]

/-! ## The sorted entry list -/

/-- A map's entry list is the sorted list with the map's entries. -/
theorem toList_eq_of_mem {m : ExtTreeMap κ ν cmp} {l : List (κ × ν)}
    (hs : l.Pairwise fun a b => cmp a.1 b.1 = .lt)
    (hmem : ∀ k v, (k, v) ∈ l ↔ m[k]? = some v) : m.toList = l := by
  have hirrefl : Std.Irrefl fun a b : κ × ν => cmp a.1 b.1 = .lt :=
    ⟨fun a h => by simp [ReflCmp.compare_self] at h⟩
  have hanti : Std.Antisymm fun a b : κ × ν => cmp a.1 b.1 = .lt :=
    ⟨fun a b h h' => by
      have hgt : cmp b.1 a.1 = .gt := OrientedCmp.gt_of_lt h
      rw [h'] at hgt
      cases hgt⟩
  exact ExtTreeMap.ordered_keys_toList.eq_of_mem_iff hs fun (k, v) => by
    rw [ExtTreeMap.mem_toList_iff_getElem?_eq_some, hmem]

/-- Inserting above every key appends the entry. -/
theorem toList_insert_snoc {m : ExtTreeMap κ ν cmp} {k : κ} (v : ν)
    (h : ∀ kv ∈ m.toList, cmp kv.1 k = .lt) : (m.insert k v).toList = m.toList ++ [(k, v)] := by
  apply toList_eq_of_mem
  · rw [List.pairwise_append]
    refine ⟨ExtTreeMap.ordered_keys_toList, List.pairwise_singleton _ _, ?_⟩
    intro a ha b hb
    rw [List.mem_singleton.mp hb]
    exact h a ha
  · intro k' v'
    rw [List.mem_append, List.mem_singleton, ExtTreeMap.mem_toList_iff_getElem?_eq_some,
      ExtTreeMap.getElem?_insert]
    by_cases hk : cmp k k' = .eq
    · obtain rfl := LawfulEqCmp.eq_of_compare hk
      have hnone : m[k]? ≠ some v' := by
        intro hv
        have := h _ (ExtTreeMap.mem_toList_iff_getElem?_eq_some.mpr hv)
        simp [ReflCmp.compare_self] at this
      rw [if_pos hk, Option.some.injEq]
      simp only [hnone, false_or, Prod.mk.injEq, true_and, eq_comm]
    · have hne : k' ≠ k := fun heq => hk (by rw [heq]; exact ReflCmp.compare_self)
      simp [hk, hne]

omit [LawfulEqCmp cmp] in
/-- The entries before the last one have smaller keys. -/
theorem lt_of_toList_snoc {m : ExtTreeMap κ ν cmp} {init : List (κ × ν)} {k : κ} {v : ν}
    (h : m.toList = init ++ [(k, v)]) : ∀ kv ∈ init, cmp kv.1 k = .lt := by
  have hs : m.toList.Pairwise fun a b => cmp a.1 b.1 = .lt := ExtTreeMap.ordered_keys_toList
  rw [h, List.pairwise_append] at hs
  exact fun kv hkv => hs.2.2 kv hkv (k, v) (by simp)

/-- Replacing the value at the greatest key replaces the last entry. -/
theorem toList_insert_last {m : ExtTreeMap κ ν cmp} {init : List (κ × ν)} {k : κ} {v : ν}
    (h : m.toList = init ++ [(k, v)]) (v' : ν) :
    (m.insert k v').toList = init ++ [(k, v')] := by
  have hlt := lt_of_toList_snoc h
  have hs : m.toList.Pairwise fun a b => cmp a.1 b.1 = .lt := ExtTreeMap.ordered_keys_toList
  rw [h, List.pairwise_append] at hs
  apply toList_eq_of_mem
  · rw [List.pairwise_append]
    exact ⟨hs.1, List.pairwise_singleton _ _, fun a ha b hb => by
      rw [List.mem_singleton.mp hb]
      exact hlt a ha⟩
  · intro k' w
    have hm : (k', w) ∈ init ∨ k' = k ∧ w = v ↔ m[k']? = some w := by
      rw [← ExtTreeMap.mem_toList_iff_getElem?_eq_some, h]
      simp
    rw [List.mem_append, List.mem_singleton, ExtTreeMap.getElem?_insert, Prod.mk.injEq]
    by_cases hk : cmp k k' = .eq
    · obtain rfl := LawfulEqCmp.eq_of_compare hk
      have hnot : (k, w) ∉ init := by
        intro hmem
        have := hlt _ hmem
        simp [ReflCmp.compare_self] at this
      rw [if_pos hk, Option.some.injEq]
      simp only [hnot, false_or, true_and, eq_comm]
    · have hne : k' ≠ k := fun heq => hk (by rw [heq]; exact ReflCmp.compare_self)
      simp only [hne, false_and, or_false] at hm
      simp [hk, hne, hm]

/-- Erasing a key filters the entry list. -/
theorem toList_erase [DecidableEq κ] (m : ExtTreeMap κ ν cmp) (k : κ) :
    (m.erase k).toList = m.toList.filter fun kv => kv.1 ≠ k := by
  apply toList_eq_of_mem
  · exact ExtTreeMap.ordered_keys_toList.filter _
  · intro k' v
    rw [List.mem_filter, ExtTreeMap.mem_toList_iff_getElem?_eq_some, ExtTreeMap.getElem?_erase]
    by_cases hk : cmp k k' = .eq
    · obtain rfl := LawfulEqCmp.eq_of_compare hk
      simp
    · have hne : k' ≠ k := fun heq => hk (by rw [heq]; exact ReflCmp.compare_self)
      simp [hk, hne]

/-- A map's entry list has no duplicates. -/
theorem nodup_keys (m : ExtTreeMap κ ν cmp) : (m.toList.map Prod.fst).Nodup := by
  refine List.pairwise_map.mpr (ExtTreeMap.ordered_keys_toList.imp ?_)
  intro a b hlt heq
  simp [heq, ReflCmp.compare_self] at hlt

theorem nodup_toList (m : ExtTreeMap κ ν cmp) : m.toList.Nodup := (nodup_keys m).of_map

/-- Inserting a key replaces its entry, wherever it stands. -/
theorem toList_insert_perm [DecidableEq κ] (m : ExtTreeMap κ ν cmp) (k : κ) (v : ν) :
    (m.insert k v).toList.Perm ((k, v) :: m.toList.filter fun kv => kv.1 ≠ k) := by
  have hnodup : ((k, v) :: m.toList.filter fun kv => kv.1 ≠ k).Nodup :=
    List.nodup_cons.mpr ⟨by simp, (nodup_toList m).filter _⟩
  rw [List.perm_ext_iff_of_nodup (nodup_toList _) hnodup]
  rintro ⟨k', v'⟩
  rw [ExtTreeMap.mem_toList_iff_getElem?_eq_some, ExtTreeMap.getElem?_insert, List.mem_cons,
    List.mem_filter, ExtTreeMap.mem_toList_iff_getElem?_eq_some]
  by_cases hk : cmp k k' = .eq
  · obtain rfl := LawfulEqCmp.eq_of_compare hk
    rw [if_pos hk]
    simp [eq_comm]
  · have hne : k' ≠ k := fun heq => hk (by rw [heq]; exact ReflCmp.compare_self)
    simp [hk, hne]

/-- The entries of a map, the one at a given key first. -/
theorem toList_perm_of_getElem? [DecidableEq κ] {m : ExtTreeMap κ ν cmp} {k : κ} {v : ν}
    (h : m[k]? = some v) : m.toList.Perm ((k, v) :: m.toList.filter fun kv => kv.1 ≠ k) := by
  have hself : m.insert k v = m := by
    apply ExtTreeMap.ext_getElem?
    intro k'
    rw [ExtTreeMap.getElem?_insert]
    split
    · next hk => rw [← LawfulEqCmp.eq_of_compare hk, h]
    · rfl
  have hperm := toList_insert_perm m k v
  rwa [hself] at hperm

/-- The entries of a map without an entry at the given key. -/
theorem filter_eq_of_getElem?_none [DecidableEq κ] {m : ExtTreeMap κ ν cmp} {k : κ}
    (h : m[k]? = none) : (m.toList.filter fun kv => kv.1 ≠ k) = m.toList := by
  rw [List.filter_eq_self]
  rintro ⟨k', v⟩ hkv
  rw [ExtTreeMap.mem_toList_iff_getElem?_eq_some] at hkv
  simp only [ne_eq, decide_eq_true_eq]
  rintro rfl
  rw [h] at hkv
  cases hkv

/-- Erasing an entry that contributes nothing to a concatenation. -/
theorem flatMap_toList_erase [DecidableEq κ] {β : Type} (m : ExtTreeMap κ ν cmp) {k : κ}
    {f : κ × ν → List β} (h : ∀ v, m[k]? = some v → f (k, v) = []) :
    (m.erase k).toList.flatMap f = m.toList.flatMap f := by
  rw [toList_erase]
  have hnil : ∀ x ∈ m.toList, x.1 = k → f x = [] := by
    rintro ⟨k', v⟩ hx rfl
    exact h v (ExtTreeMap.mem_toList_iff_getElem?_eq_some.mp hx)
  generalize m.toList = l at hnil ⊢
  induction l with
  | nil => rfl
  | cons x l ih =>
    have ih := ih fun y hy => hnil y (by simp [hy])
    by_cases hx : x.1 = k
    · rw [List.filter_cons_of_neg (by simp [hx]), ih, List.flatMap_cons, hnil x (by simp) hx,
        List.nil_append]
    · rw [List.filter_cons_of_pos (by simp [hx]), List.flatMap_cons, List.flatMap_cons, ih]

/-- A new entry that contributes nothing to a concatenation. -/
theorem flatMap_toList_insert [DecidableEq κ] {β : Type} {m : ExtTreeMap κ ν cmp} {k : κ} {v : ν}
    {f : κ × ν → List β} (hk : m[k]? = none) (h : f (k, v) = []) :
    (m.insert k v).toList.flatMap f = m.toList.flatMap f := by
  have herase : (m.insert k v).erase k = m := by
    ext k' v'
    rw [ExtTreeMap.getElem?_erase, ExtTreeMap.getElem?_insert]
    split
    · next hcmp => rw [← LawfulEqCmp.eq_of_compare hcmp, hk]
    · rfl
  have hself : ∀ v', (m.insert k v)[k]? = some v' → f (k, v') = [] := by
    intro v' hget
    rw [ExtTreeMap.getElem?_insert_self] at hget
    rw [← Option.some.inj hget, h]
  rw [← flatMap_toList_erase _ hself, herase]

end TreeMap

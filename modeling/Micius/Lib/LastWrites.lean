import Mathlib.Data.List.Induction
import Mathlib.Data.List.Nodup
import Mathlib.Data.List.Perm.Basic

/-!
# Last writes

A list of writes, each to the key it names. The last write of every key is
what a map that overwrites holds in the end; `overlay old new` is the step from
the last writes so far to those after a batch that writes no key twice.
-/

namespace LastWrites

variable {α κ : Type} {key : α → κ}

/-- The write `a` is the last one to its key. -/
def IsLast (key : α → κ) (writes : List α) (a : α) : Prop :=
  ∃ earlier later, writes = earlier ++ a :: later ∧ key a ∉ later.map key

theorem IsLast.mem {writes : List α} {a : α} (h : IsLast key writes a) : a ∈ writes := by
  obtain ⟨earlier, later, rfl, -⟩ := h
  simp

theorem isLast_cons {writes : List α} {a b : α} :
    IsLast key (a :: writes) b ↔ IsLast key writes b ∨ b = a ∧ key a ∉ writes.map key := by
  constructor
  · rintro ⟨earlier, later, heq, hlater⟩
    cases earlier with
    | nil =>
      obtain ⟨rfl, rfl⟩ := List.cons.inj heq
      exact .inr ⟨rfl, hlater⟩
    | cons c earlier => exact .inl ⟨earlier, later, (List.cons.inj heq).2, hlater⟩
  · rintro (⟨earlier, later, rfl, hlater⟩ | ⟨rfl, hlater⟩)
    · exact ⟨a :: earlier, later, rfl, hlater⟩
    · exact ⟨[], writes, rfl, hlater⟩

/-- A key has one last write. -/
theorem IsLast.unique {writes : List α} {a b : α} (ha : IsLast key writes a)
    (hb : IsLast key writes b) (hkey : key a = key b) : a = b := by
  induction writes with
  | nil => cases ha.mem
  | cons c writes ih =>
    rcases isLast_cons.mp ha with ha' | ⟨rfl, hlater⟩
    · rcases isLast_cons.mp hb with hb' | ⟨rfl, hlater⟩
      · exact ih ha' hb'
      · exact absurd (hkey ▸ List.mem_map_of_mem ha'.mem) hlater
    · rcases isLast_cons.mp hb with hb' | ⟨rfl, -⟩
      · exact absurd (hkey ▸ List.mem_map_of_mem hb'.mem) hlater
      · rfl

/-- The last writes after a batch that writes no key twice. -/
theorem isLast_append {writes new : List α} (hnew : (new.map key).Nodup) {a : α} :
    IsLast key (writes ++ new) a ↔ a ∈ new ∨ IsLast key writes a ∧ key a ∉ new.map key := by
  constructor
  · rintro ⟨earlier, later, heq, hlater⟩
    rcases List.append_eq_append_iff.mp heq with ⟨mid, rfl, rfl⟩ | ⟨mid, rfl, hmid⟩
    · exact .inl (by simp)
    · cases mid with
      | nil =>
        rw [List.nil_append] at hmid
        exact .inl (by simp [← hmid])
      | cons b mid =>
        rw [List.cons_append] at hmid
        obtain ⟨rfl, rfl⟩ := List.cons.inj hmid
        rw [List.map_append, List.mem_append, not_or] at hlater
        exact .inr ⟨⟨earlier, mid, rfl, hlater.1⟩, hlater.2⟩
  · rintro (ha | ⟨⟨earlier, later, rfl, hlater⟩, hfresh⟩)
    · obtain ⟨before, after, rfl⟩ := List.append_of_mem ha
      refine ⟨writes ++ before, after, by simp, ?_⟩
      rw [List.map_append, List.map_cons, List.nodup_append, List.nodup_cons] at hnew
      exact hnew.2.1.1
    · refine ⟨earlier, later ++ new, by simp, ?_⟩
      rw [List.map_append, List.mem_append, not_or]
      exact ⟨hlater, hfresh⟩

/-- The last writes of a list of batches, none of which writes a key twice. -/
theorem isLast_flatMap {β : Type} {f : β → List α} {l : List β}
    (h : ∀ b ∈ l, ((f b).map key).Nodup) {a : α} : IsLast key (l.flatMap f) a ↔
      ∃ before b after, l = before ++ b :: after ∧ a ∈ f b ∧ ∀ b' ∈ after, key a ∉ (f b').map key := by
  induction l using List.reverseRecOn with
  | nil =>
    refine ⟨fun hlast => absurd hlast.mem List.not_mem_nil, ?_⟩
    rintro ⟨before, b, after, heq, -⟩
    simp at heq
  | append_singleton l b ih =>
    have ih := ih fun b' hb' => h b' (List.mem_append_left _ hb')
    rw [List.flatMap_append, List.flatMap_singleton,
      isLast_append (h b (List.mem_append_right _ (List.mem_singleton.mpr rfl))), ih]
    constructor
    · rintro (ha | ⟨⟨before, b', after, rfl, ha, hafter⟩, hb⟩)
      · exact ⟨l, b, [], rfl, ha, by simp⟩
      · refine ⟨before, b', after ++ [b], by simp, ha, fun b'' hb'' => ?_⟩
        rcases List.mem_append.mp hb'' with hb'' | hb''
        · exact hafter b'' hb''
        · exact List.mem_singleton.mp hb'' ▸ hb
    · rintro ⟨before, b', after, heq, ha, hafter⟩
      rcases List.eq_nil_or_concat after with rfl | ⟨init, c, rfl⟩
      · obtain ⟨rfl, hb⟩ := List.append_inj' heq rfl
        exact .inl ((List.singleton_inj.mp hb) ▸ ha)
      · rw [List.concat_eq_append, ← List.cons_append, ← List.append_assoc] at heq
        obtain ⟨rfl, hb⟩ := List.append_inj' heq rfl
        obtain rfl := List.singleton_inj.mp hb
        exact .inr ⟨⟨before, b', init, rfl, ha, fun b'' hb'' => hafter b'' (by simp [hb''])⟩,
          hafter b (by simp)⟩

variable [DecidableEq κ]

/-- The newer writes, and the older ones they leave. -/
def overlay (key : α → κ) (old new : List α) : List α :=
  new ++ old.filter fun a => key a ∉ new.map key

theorem mem_overlay {old new : List α} {a : α} :
    a ∈ overlay key old new ↔ a ∈ new ∨ a ∈ old ∧ key a ∉ new.map key := by
  simp [overlay]

theorem overlay_perm {old old' : List α} (h : old.Perm old') (new : List α) :
    (overlay key old new).Perm (overlay key old' new) := (h.filter _).append_left new

/-- Writes to keys that are not written again stay. -/
theorem overlay_append_left {old kept new : List α} (h : ∀ a ∈ kept, key a ∉ new.map key) :
    overlay key (old ++ kept) new = overlay key old new ++ kept := by
  have hkept : kept.filter (fun a => key a ∉ new.map key) = kept :=
    List.filter_eq_self.mpr fun a ha => decide_eq_true (h a ha)
  rw [overlay, overlay, List.filter_append, hkept, List.append_assoc]

theorem nodup_overlay {old new : List α} (hold : (old.map key).Nodup) (hnew : (new.map key).Nodup) :
    ((overlay key old new).map key).Nodup := by
  rw [overlay, List.map_append, List.nodup_append]
  refine ⟨hnew, hold.sublist (List.filter_sublist.map key), ?_⟩
  rintro k hk k' hk' rfl
  obtain ⟨a, ha, rfl⟩ := List.mem_map.mp hk'
  exact of_decide_eq_true (List.mem_filter.mp ha).2 hk

/-- A batch in two parts. -/
theorem mem_overlay_append {old new new' : List α} (h : ((new ++ new').map key).Nodup) {a : α} :
    a ∈ overlay key old (new ++ new') ↔ a ∈ overlay key (overlay key old new) new' := by
  rw [List.map_append, List.nodup_append] at h
  have hapart : ∀ b ∈ new, key b ∉ new'.map key :=
    fun b hb hb' => h.2.2 _ (List.mem_map_of_mem hb) _ hb' rfl
  simp only [mem_overlay, List.map_append, List.mem_append, not_or]
  constructor
  · rintro ((ha | ha) | ⟨ha, hnew, hnew'⟩)
    · exact .inr ⟨.inl ha, hapart a ha⟩
    · exact .inl ha
    · exact .inr ⟨.inr ⟨ha, hnew⟩, hnew'⟩
  · rintro (ha | ⟨ha | ⟨ha, hnew⟩, hnew'⟩)
    · exact .inl (.inr ha)
    · exact .inl (.inl ha)
    · exact .inr ⟨ha, hnew, hnew'⟩

/-- A key that is written has a last write. -/
theorem exists_isLast {writes : List α} {k : κ} (h : k ∈ writes.map key) :
    ∃ a, IsLast key writes a ∧ key a = k := by
  induction writes with
  | nil => cases h
  | cons a writes ih =>
    by_cases hlater : k ∈ writes.map key
    · obtain ⟨b, ⟨earlier, later, rfl, hb⟩, hk⟩ := ih hlater
      exact ⟨b, ⟨a :: earlier, later, rfl, hb⟩, hk⟩
    · obtain rfl | hk := List.mem_cons.mp h
      · exact ⟨a, ⟨[], writes, rfl, hlater⟩, rfl⟩
      · exact absurd hk hlater

/-- A write that no other one differs from is the last of its key. -/
theorem isLast_of_unique {writes : List α} {a : α} (ha : a ∈ writes)
    (hsame : ∀ b ∈ writes, key b = key a → b = a) : IsLast key writes a := by
  obtain ⟨b, hlast, hkey⟩ := exists_isLast (List.mem_map_of_mem (f := key) ha)
  exact hsame b hlast.mem hkey ▸ hlast

end LastWrites

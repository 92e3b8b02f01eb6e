import Mathlib.Data.List.Basic

/-!
# Bisection

A binary search over a list that a comparison cuts into a part below, at most
one element that is equal, and a part above: `bisect` follows the loop of the
standard library's `binary_search_by`. Its contract `Finds` leaves one result,
so a search that meets it can be replaced by any other.
-/

namespace Bisect

variable {α : Type} {cmp : α → Ordering} {l : List α}

/-- The loop: the result lies in `size` elements from `base` on. -/
def narrow (cmp : α → Ordering) (l : List α) (base size : Nat) : Nat :=
  if 1 < size then
    let half := size / 2
    let mid := base + half
    narrow cmp l (if l[mid]?.map cmp = some .gt then base else mid) (size - half)
  else base
termination_by size

/-- The position of the element that compares equal (`ok`), or the position it
can be inserted at (`error`). -/
def bisect (cmp : α → Ordering) (l : List α) : Except Nat Nat :=
  if l.isEmpty then .error 0
  else
    let base := narrow cmp l 0 l.length
    match l[base]?.map cmp with
    | some .eq => .ok base
    | some .lt => .error (base + 1)
    | _ => .error base

/-- What the comparison says of the elements never decreases along the list,
and says `eq` once at most. -/
def Cut (cmp : α → Ordering) (l : List α) : Prop :=
  l.Pairwise fun a b => cmp b ≠ .gt → cmp a = .lt

/-- The contract of a search. -/
def Finds (cmp : α → Ordering) (l : List α) : Except Nat Nat → Prop
  | .ok pos => ∃ a, l[pos]? = some a ∧ cmp a = .eq
  | .error pos => pos ≤ l.length ∧ (∀ i a, i < pos → l[i]? = some a → cmp a = .lt) ∧
      ∀ i a, pos ≤ i → l[i]? = some a → cmp a = .gt

theorem Cut.lt_of_lt (h : Cut cmp l) {i j : Nat} {a b : α} (hij : i < j) (ha : l[i]? = some a)
    (hb : l[j]? = some b) (hle : cmp b ≠ .gt) : cmp a = .lt := by
  obtain ⟨hi, rfl⟩ := List.getElem?_eq_some_iff.mp ha
  obtain ⟨hj, rfl⟩ := List.getElem?_eq_some_iff.mp hb
  exact List.pairwise_iff_getElem.mp h i j hi hj hij hle

/-- The contract leaves one result. -/
theorem Finds.unique (h : Cut cmp l) {r r' : Except Nat Nat} (hr : Finds cmp l r)
    (hr' : Finds cmp l r') : r = r' := by
  -- an equal element is on neither side of an insertion position
  have hapart : ∀ {pos pos' : Nat}, Finds cmp l (.ok pos) → ¬ Finds cmp l (.error pos') := by
    rintro pos pos' ⟨a, ha, heq⟩ ⟨-, hbelow, habove⟩
    rcases Nat.lt_or_ge pos pos' with hlt | hge
    · rw [hbelow pos a hlt ha] at heq
      cases heq
    · rw [habove pos a hge ha] at heq
      cases heq
  cases r with
  | ok pos =>
    cases r' with
    | ok pos' =>
      obtain ⟨a, ha, heq⟩ := hr
      obtain ⟨a', ha', heq'⟩ := hr'
      rcases Nat.lt_trichotomy pos pos' with hlt | rfl | hgt
      · rw [h.lt_of_lt hlt ha ha' (by rw [heq']; decide)] at heq
        cases heq
      · rfl
      · rw [h.lt_of_lt hgt ha' ha (by rw [heq]; decide)] at heq'
        cases heq'
    | error pos' => exact absurd hr' (hapart hr)
  | error pos =>
    cases r' with
    | ok pos' => exact absurd hr (hapart hr')
    | error pos' =>
      -- an element between two insertion positions would be above and below
      have hle : ∀ {pos pos' : Nat}, Finds cmp l (.error pos) → Finds cmp l (.error pos') →
          pos' ≤ pos := by
        rintro pos pos' ⟨-, -, habove⟩ ⟨hbound, hbelow, -⟩
        by_contra hlt
        have hget := List.getElem?_eq_getElem (show pos < l.length by omega)
        have hgt := habove pos _ (Nat.le_refl pos) hget
        rw [hbelow pos _ (by omega) hget] at hgt
        cases hgt
      rw [Nat.le_antisymm (hle hr' hr) (hle hr hr')]

/-- What the loop keeps: the elements from its end on are above, and its first
element is not, unless it is the first of all. -/
structure Narrowed (cmp : α → Ordering) (l : List α) (base size : Nat) : Prop where
  pos : 0 < size
  bound : base + size ≤ l.length
  above : ∀ i a, base + size ≤ i → l[i]? = some a → cmp a = .gt
  first : base = 0 ∨ ∀ a, l[base]? = some a → cmp a ≠ .gt

theorem Narrowed.narrow (h : Cut cmp l) {base size : Nat} (hn : Narrowed cmp l base size) :
    Narrowed cmp l (narrow cmp l base size) 1 := by
  fun_induction Bisect.narrow cmp l base size with
  | case1 base size hsize half mid ih =>
    apply ih
    have hbound := hn.bound
    have hget : l[mid]? = some _ := List.getElem?_eq_getElem (show mid < l.length by omega)
    split
    · next hgt =>
      refine ⟨by omega, by omega, fun i a hi ha => ?_, hn.first⟩
      -- the middle is above, and so is everything after it
      by_contra hle
      rw [hget, Option.map_some, Option.some_inj] at hgt
      rcases Nat.lt_or_ge mid i with hlt | hge
      · rw [h.lt_of_lt hlt hget ha hle] at hgt
        cases hgt
      · obtain rfl : i = mid := by omega
        rw [hget, Option.some_inj] at ha
        exact hle (ha ▸ hgt)
    · next hgt =>
      refine ⟨by omega, by omega, fun i a hi => hn.above i a (by omega), .inr fun a ha heq => ?_⟩
      rw [ha, Option.map_some, heq] at hgt
      exact hgt rfl
  | case2 base size hsize =>
    obtain rfl : size = 1 := by
      have := hn.pos
      omega
    exact hn

/-- **Bisection** meets the contract of a search. -/
theorem bisect_finds (h : Cut cmp l) : Finds cmp l (bisect cmp l) := by
  unfold bisect
  split
  · next hnil =>
    rw [List.isEmpty_iff] at hnil
    subst hnil
    exact ⟨Nat.le_refl 0, by simp, by simp⟩
  · next hne =>
    have hlen : 0 < l.length := List.length_pos_iff.mpr fun hnil => hne (by simp [hnil])
    have hn : Narrowed cmp l (narrow cmp l 0 l.length) 1 := by
      refine Narrowed.narrow h ⟨hlen, by omega, fun i a hi ha => ?_, .inl rfl⟩
      rw [List.getElem?_eq_none (by omega)] at ha
      cases ha
    generalize narrow cmp l 0 l.length = base at hn
    have hbase : base < l.length := hn.bound
    have hget := List.getElem?_eq_getElem hbase
    have hbelow : ∀ i a, i < base → l[i]? = some a → cmp a = .lt := by
      intro i a hi ha
      rcases hn.first with hzero | hfirst
      · omega
      · exact h.lt_of_lt hi ha hget (hfirst _ hget)
    simp only [hget, Option.map_some]
    cases hcmp : cmp l[base] with
    | eq => exact ⟨_, hget, hcmp⟩
    | lt =>
      refine ⟨hn.bound, fun i a hi ha => ?_, hn.above⟩
      rcases Nat.lt_or_eq_of_le (Nat.le_of_lt_succ hi) with hlt | rfl
      · exact hbelow i a hlt ha
      · rw [hget, Option.some_inj] at ha
        exact ha ▸ hcmp
    | gt =>
      refine ⟨Nat.le_of_lt hn.bound, hbelow, fun i a hi ha => ?_⟩
      rcases Nat.lt_or_eq_of_le hi with hlt | rfl
      · exact hn.above i a hlt ha
      · rw [hget, Option.some_inj] at ha
        exact ha ▸ hcmp

end Bisect

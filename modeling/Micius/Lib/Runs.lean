/-!
# Runs of a step function

A system is a partial step function on states that emits events. A run is a
list of actions; its trace is the list of events emitted. `Along` states a
condition on every step of a run, in terms of the state and the trace before
the step. The invariant rule carries a property of state and trace through a
run whose steps all meet a condition. `occursSince` looks back in a trace.
-/

namespace Runs

variable {σ α ε : Type} (step : σ → α → Option (σ × List ε))

/-- The state and the events of a list of actions; `none` if an action is
not enabled where it comes. -/
def run (s : σ) : List α → Option (σ × List ε)
  | [] => some (s, [])
  | a :: as =>
    match step s a with
    | none => none
    | some (s', es) =>
      match run s' as with
      | none => none
      | some (s'', es') => some (s'', es ++ es')

/-- `P` holds at every step, of the state and the trace before it. -/
def Along (P : σ → List ε → α → Prop) (s : σ) (tr : List ε) : List α → Prop
  | [] => True
  | a :: as => P s tr a ∧
    match step s a with
    | none => True
    | some (s', es) => Along P s' (tr ++ es) as

instance decidableAlong {P : σ → List ε → α → Prop} [h : ∀ s tr a, Decidable (P s tr a)] :
    ∀ (s : σ) (tr : List ε) (as : List α), Decidable (Along step P s tr as)
  | _, _, [] => .isTrue trivial
  | s, tr, a :: as =>
    have : Decidable (match step s a with
        | none => True
        | some (s', es) => Along step P s' (tr ++ es) as) :=
      match step s a with
      | none => .isTrue trivial
      | some (s', es) => decidableAlong s' (tr ++ es) as
    inferInstanceAs (Decidable (_ ∧ _))

variable {step}

/-- The first step of a run, and the rest. -/
theorem run_cons {s t : σ} {a : α} {as : List α} {tr : List ε} :
    run step s (a :: as) = some (t, tr) ↔
      ∃ s' es es', step s a = some (s', es) ∧ run step s' as = some (t, es') ∧ tr = es ++ es' := by
  rw [run]
  constructor
  · intro h
    split at h
    · cases h
    · next s' es hs =>
      split at h
      · cases h
      · next hr =>
        obtain ⟨rfl, rfl⟩ := Prod.mk.inj (Option.some.inj h)
        exact ⟨s', es, _, hs, hr, rfl⟩
  · rintro ⟨s', es, es', hs, hr, rfl⟩
    rw [hs]
    simp only
    rw [hr]

/-- An outcome that passes a test. -/
theorem exists_of_any {o : Option (σ × List ε)} {f : σ × List ε → Bool} (h : o.any f = true) :
    ∃ t tr, o = some (t, tr) ∧ f (t, tr) = true := by
  cases o with
  | none => cases h
  | some r => exact ⟨r.1, r.2, rfl, h⟩

/-- A result that passes a test. -/
theorem exists_ok_of_any {β η : Type} {o : Except η β} {f : β → Bool}
    (h : o.toOption.any f = true) : ∃ b, o = .ok b ∧ f b = true := by
  cases o with
  | error e => cases h
  | ok b => exact ⟨b, rfl, h⟩

/-- **The invariant rule.** What every step that meets the condition
preserves holds at the end of every run whose steps all meet it. -/
theorem run_invariant {P : σ → List ε → α → Prop} {I : σ → List ε → Prop}
    (hstep : ∀ {s tr a s' es}, I s tr → P s tr a → step s a = some (s', es) → I s' (tr ++ es))
    {s t : σ} {tr es : List ε} {as : List α} (hinv : I s tr) (halong : Along step P s tr as)
    (hrun : run step s as = some (t, es)) : I t (tr ++ es) := by
  induction as generalizing s tr es with
  | nil =>
    obtain ⟨rfl, rfl⟩ := Prod.mk.inj (Option.some.inj hrun)
    rwa [List.append_nil]
  | cons a as ih =>
    obtain ⟨s', es₁, es₂, hs, hr, rfl⟩ := run_cons.mp hrun
    obtain ⟨hP, hrest⟩ := halong
    rw [hs] at hrest
    rw [← List.append_assoc]
    exact ih (hstep hinv hP hs) hrest hr

/-- A condition on the actions alone. -/
theorem along_of_forall {P : α → Prop} {as : List α} (h : ∀ a ∈ as, P a) (s : σ) (tr : List ε) :
    Along step (fun _ _ a => P a) s tr as := by
  induction as generalizing s tr with
  | nil => trivial
  | cons a as ih =>
    refine ⟨h a (by simp), ?_⟩
    cases step s a with
    | none => trivial
    | some r => exact ih (fun b hb => h b (by simp [hb])) r.1 (tr ++ r.2)

theorem Along.mono {P Q : σ → List ε → α → Prop} (h : ∀ s tr a, P s tr a → Q s tr a)
    {s : σ} {tr : List ε} {as : List α} (halong : Along step P s tr as) :
    Along step Q s tr as := by
  induction as generalizing s tr with
  | nil => trivial
  | cons a as ih =>
    obtain ⟨hP, hrest⟩ := halong
    refine ⟨h s tr a hP, ?_⟩
    cases hs : step s a with
    | none => trivial
    | some r =>
      rw [hs] at hrest
      exact ih hrest

theorem Along.and {P Q : σ → List ε → α → Prop} {s : σ} {tr : List ε} {as : List α}
    (hP : Along step P s tr as) (hQ : Along step Q s tr as) :
    Along step (fun s tr a => P s tr a ∧ Q s tr a) s tr as := by
  induction as generalizing s tr with
  | nil => trivial
  | cons a as ih =>
    refine ⟨⟨hP.1, hQ.1⟩, ?_⟩
    have hP := hP.2
    have hQ := hQ.2
    cases hs : step s a with
    | none => trivial
    | some r =>
      rw [hs] at hP hQ
      exact ih hP hQ

/-- A condition that an invariant turns into another. -/
theorem Along.of_invariant {P Q : σ → List ε → α → Prop} {I : σ → List ε → Prop}
    (himp : ∀ {s tr a}, I s tr → Q s tr a → P s tr a)
    (hstep : ∀ {s tr a s' es}, I s tr → P s tr a → Q s tr a → step s a = some (s', es) →
      I s' (tr ++ es))
    {s : σ} {tr : List ε} {as : List α} (hinv : I s tr) (halong : Along step Q s tr as) :
    Along step P s tr as := by
  induction as generalizing s tr with
  | nil => trivial
  | cons a as ih =>
    obtain ⟨hQ, hrest⟩ := halong
    have hP := himp hinv hQ
    refine ⟨hP, ?_⟩
    cases hs : step s a with
    | none => trivial
    | some r =>
      rw [hs] at hrest
      exact ih (hstep hinv hP hQ hs) hrest

section

variable {α' : Type} (f : α' → α)

/-- A run of renamed actions. -/
theorem run_map (s : σ) (as : List α') :
    run (fun s a => step s (f a)) s as = run step s (as.map f) := by
  induction as generalizing s with
  | nil => rfl
  | cons a as ih => simp only [List.map_cons, run, ih]

theorem along_map {P : σ → List ε → α → Prop} (s : σ) (tr : List ε) (as : List α') :
    Along (fun s a => step s (f a)) (fun s tr a => P s tr (f a)) s tr as ↔
      Along step P s tr (as.map f) := by
  induction as generalizing s tr with
  | nil => exact .rfl
  | cons a as ih =>
    rw [List.map_cons]
    refine and_congr_right fun _ => ?_
    show (match step s (f a) with
      | none => True
      | some (s', es) =>
        Along (fun s a => step s (f a)) (fun s tr a => P s tr (f a)) s' (tr ++ es) as) ↔ _
    cases step s (f a) with
    | none => exact .rfl
    | some r => exact ih r.1 (tr ++ r.2)

end

/-- Some event with `occurs` came after the last one with `reset`. -/
def occursSince (reset occurs : ε → Bool) (tr : List ε) : Bool :=
  tr.foldl (fun seen e => if reset e then false else seen || occurs e) false

section

variable {reset occurs : ε → Bool}

theorem occursSince_concat (tr : List ε) (e : ε) :
    occursSince reset occurs (tr ++ [e]) =
      if reset e then false else occursSince reset occurs tr || occurs e := by
  simp [occursSince]

theorem occursSince_append {es : List ε} (h : ∀ e ∈ es, reset e = false ∧ occurs e = false)
    (tr : List ε) : occursSince reset occurs (tr ++ es) = occursSince reset occurs tr := by
  induction es generalizing tr with
  | nil => rw [List.append_nil]
  | cons e es ih =>
    obtain ⟨hreset, hoccurs⟩ := h e (by simp)
    rw [List.append_cons, ih fun e' he' => h e' (by simp [he']), occursSince_concat, hreset, hoccurs]
    simp

end

end Runs

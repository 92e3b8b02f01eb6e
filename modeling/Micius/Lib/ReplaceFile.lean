import Mathlib.Data.List.Basic
import Micius.Lib.Runs

/-!
# Files replaced by rename

Tasks that write a file anew: create or truncate a temporary name, write
the contents piece by piece, rename the temporary name onto the path. All
tasks use the same two names. Names lead to inodes, and a task that has
opened a file writes to its inode at its own offset, whatever the names lead
to by then.

A task that creates the temporary file while no other one is writing keeps
the file at the path whole: it is what was renamed last.
-/

namespace ReplaceFile

variable {β : Type}

/-- Write a piece at an offset; a hole is filled with the default. -/
def writeAt [Inhabited β] (file : List β) (offset : Nat) (piece : List β) : List β :=
  file.take offset ++ List.replicate (offset - file.length) default ++ piece ++
    file.drop (offset + piece.length)

/-- Writing the next piece of the contents behind the pieces before it. -/
theorem writeAt_take [Inhabited β] {contents : List β} {offset n : Nat}
    (h : offset + n ≤ contents.length) :
    writeAt (contents.take offset) offset ((contents.drop offset).take n) =
      contents.take (offset + n) := by
  have hlen : (contents.take offset).length = offset := List.length_take_of_le (by omega)
  have hdrop : (contents.take offset).drop (offset + ((contents.drop offset).take n).length) = [] :=
    List.drop_eq_nil_of_le (by omega)
  rw [writeAt, hdrop, hlen, Nat.sub_self, List.replicate_zero, List.append_nil, List.append_nil,
    List.take_take, Nat.min_self, List.take_add]

/-- A task that replaces the file by `contents`. -/
inductive Task (β : Type)
  | ready (contents : List β)
  /-- The first `offset` elements are written to the inode. -/
  | writing (contents : List β) (inode offset : Nat)
  | done
  /-- There was no temporary file to rename. -/
  | failed

def Task.isWriting : Task β → Bool
  | writing _ _ _ => true
  | _ => false

/-- The files by inode, the inodes of the two names, and the tasks. -/
structure System (β : Type) where
  inodes : List (List β)
  tmp : Option Nat
  path : Option Nat
  tasks : List (Task β)

/-- The file at the path. -/
def System.file (s : System β) : Option (List β) := s.path.bind fun n => s.inodes[n]?

/-- No file at the path, and maybe a temporary file that was left over. -/
def System.start (leftover : Option (List β)) : System β where
  inodes := leftover.toList
  tmp := leftover.map fun _ => 0
  path := none
  tasks := []

inductive Action (β : Type)
  | call (contents : List β)
  | create (k : Nat)
  /-- Write a piece of `n` elements. -/
  | write (k n : Nat)
  | rename (k : Nat)

/-- The steps. A rename emits the contents of the task that renames. -/
def step [Inhabited β] (s : System β) : Action β → Option (System β × List (List β))
  | .call contents => some ({ s with tasks := s.tasks ++ [.ready contents] }, [])
  | .create k =>
    match s.tasks[k]? with
    | some (.ready contents) =>
      match s.tmp with
      | some n =>
        some ({ s with
          inodes := s.inodes.set n []
          tasks := s.tasks.set k (.writing contents n 0) }, [])
      | none =>
        some ({ s with
          inodes := s.inodes ++ [[]]
          tmp := some s.inodes.length
          tasks := s.tasks.set k (.writing contents s.inodes.length 0) }, [])
    | _ => none
  | .write k n =>
    match s.tasks[k]? with
    | some (.writing contents inode offset) =>
      if 0 < n ∧ offset + n ≤ contents.length then
        some ({ s with
          inodes := s.inodes.modify inode fun file =>
            writeAt file offset ((contents.drop offset).take n)
          tasks := s.tasks.set k (.writing contents inode (offset + n)) }, [])
      else none
    | _ => none
  | .rename k =>
    match s.tasks[k]? with
    | some (.writing contents _ offset) =>
      if offset = contents.length then
        match s.tmp with
        | some n =>
          some ({ s with tmp := none, path := some n, tasks := s.tasks.set k .done }, [contents])
        | none => some ({ s with tasks := s.tasks.set k .failed }, [])
      else none
    | _ => none

/-- A file is created or truncated only while no task is writing. -/
def CreatesAlone (s : System β) : Action β → Prop
  | .create _ => s.tasks.any Task.isWriting = false
  | _ => True

instance decidableCreatesAlone (s : System β) (a : Action β) : Decidable (CreatesAlone s a) :=
  match a with
  | .create _ => inferInstanceAs (Decidable (s.tasks.any Task.isWriting = false))
  | .call _ | .write _ _ | .rename _ => .isTrue trivial

/-! ## The invariant -/

/-- A task that writes is alone with the temporary file and has written the
first part of its contents to it; the file at the path is another one and is
what was renamed last. -/
structure Whole (s : System β) (tr : List (List β)) : Prop where
  file : s.file = tr.getLast?
  path : ∀ n, s.path = some n → n < s.inodes.length
  tmp : ∀ n, s.tmp = some n → n < s.inodes.length ∧ s.path ≠ some n
  writing : ∀ (k : Nat) (contents : List β) (inode offset : Nat),
    s.tasks[k]? = some (.writing contents inode offset) →
    s.tmp = some inode ∧ s.inodes[inode]? = some (contents.take offset)
  alone : ∀ (k k' : Nat) (t t' : Task β), s.tasks[k]? = some t → s.tasks[k']? = some t' →
    t.isWriting = true → t'.isWriting = true → k = k'

namespace Whole

variable {s s' : System β} {tr es : List (List β)}

theorem start (leftover : Option (List β)) : Whole (System.start leftover) [] where
  file := rfl
  path n hn := by cases hn
  tmp n hn := by
    obtain ⟨file, rfl, rfl⟩ := Option.map_eq_some_iff.mp hn
    exact ⟨Nat.zero_lt_one, by simp [System.start]⟩
  writing k contents inode offset hk := by cases hk
  alone k k' t t' hk := by cases hk

/-- Other tasks than the one that moves. -/
theorem of_set {tasks : List (Task β)} {k j : Nat} {t t' : Task β}
    (h : (tasks.set k t)[j]? = some t') : j = k ∧ t' = t ∨ j ≠ k ∧ tasks[j]? = some t' := by
  rw [List.getElem?_set] at h
  split at h
  · next hkj =>
    split at h
    · exact .inl ⟨hkj.symm, (Option.some.inj h).symm⟩
    · cases h
  · next hkj => exact .inr ⟨Ne.symm hkj, h⟩

/-- No task writes. -/
theorem not_writing (h : s.tasks.any Task.isWriting = false) {k : Nat} {t : Task β}
    (hk : s.tasks[k]? = some t) : t.isWriting = false := by
  cases hw : t.isWriting with
  | false => rfl
  | true =>
    have := List.any_eq_true.mpr ⟨t, List.mem_of_getElem? hk, hw⟩
    rw [h] at this
    cases this

theorem call (h : Whole s tr) (contents : List β) :
    Whole { s with tasks := s.tasks ++ [.ready contents] } tr := by
  have hold : ∀ {k : Nat} {t : Task β}, (s.tasks ++ [.ready contents])[k]? = some t →
      t.isWriting = true → s.tasks[k]? = some t := by
    intro k t hk hw
    rw [List.getElem?_append] at hk
    split at hk
    · exact hk
    · obtain rfl := List.mem_singleton.mp (List.mem_of_getElem? hk)
      cases hw
  exact
    { h with
      writing := fun k c inode offset hk => h.writing k c inode offset (hold hk rfl)
      alone := fun k k' t t' hk hk' hw hw' => h.alone k k' t t' (hold hk hw) (hold hk' hw') hw hw' }

/-- Truncating the temporary file, or creating it. -/
theorem create (h : Whole s tr) (halone : s.tasks.any Task.isWriting = false) (k : Nat)
    (contents : List β) {inodes : List (List β)} {n : Nat} (hlen : s.inodes.length ≤ inodes.length)
    (hkeep : ∀ m < s.inodes.length, m ≠ n → inodes[m]? = s.inodes[m]?)
    (hempty : inodes[n]? = some []) (hpath : s.path ≠ some n) :
    Whole
      { s with
        inodes := inodes
        tmp := some n
        tasks := s.tasks.set k (.writing contents n 0) } tr where
  file := by
    rw [← h.file]
    cases hp : s.path with
    | none => simp [System.file, hp]
    | some m =>
      have hne : m ≠ n := fun hmn => hpath (hp.trans (congrArg some hmn))
      simp [System.file, hp, hkeep m (h.path m hp) hne]
  path m hm := Nat.lt_of_lt_of_le (h.path m hm) hlen
  tmp m hm := by
    obtain rfl := Option.some.inj hm
    exact ⟨(List.getElem?_eq_some_iff.mp hempty).1, hpath⟩
  writing j c inode offset hj := by
    rcases of_set hj with ⟨-, heq⟩ | ⟨-, hj⟩
    · obtain ⟨-, rfl, rfl⟩ := Task.writing.inj heq
      exact ⟨rfl, hempty⟩
    · cases not_writing halone hj
  alone j j' t t' hj hj' hw hw' := by
    rcases of_set hj with ⟨rfl, -⟩ | ⟨-, hj⟩
    · rcases of_set hj' with ⟨rfl, -⟩ | ⟨-, hj'⟩
      · rfl
      · rw [not_writing halone hj'] at hw'
        cases hw'
    · rw [not_writing halone hj] at hw
      cases hw

/-- Writing a piece. -/
theorem write [Inhabited β] (h : Whole s tr) {k n inode offset : Nat} {contents : List β}
    (hk : s.tasks[k]? = some (.writing contents inode offset))
    (hn : offset + n ≤ contents.length) :
    Whole
      { s with
        inodes := s.inodes.modify inode fun file =>
          writeAt file offset ((contents.drop offset).take n)
        tasks := s.tasks.set k (.writing contents inode (offset + n)) } tr := by
  obtain ⟨htmp, hfile⟩ := h.writing k contents inode offset hk
  have hother : ∀ m, m ≠ inode → (s.inodes.modify inode fun file =>
      writeAt file offset ((contents.drop offset).take n))[m]? = s.inodes[m]? := by
    intro m hm
    exact List.getElem?_modify_ne _ _ (Ne.symm hm)
  have hwriting : ∀ {j : Nat} {t : Task β}, s.tasks[j]? = some t → t.isWriting = true → j = k :=
    fun hj hw => h.alone _ k _ _ hj hk hw rfl
  exact
    { file := by
        rw [← h.file]
        cases hp : s.path with
        | none => simp [System.file, hp]
        | some m =>
          have hne : m ≠ inode := fun hm => (h.tmp inode htmp).2 (hm ▸ hp)
          simp [System.file, hp, hother m hne]
      path := fun m hm => by simpa using h.path m hm
      tmp := fun m hm => ⟨by simpa using (h.tmp m hm).1, (h.tmp m hm).2⟩
      writing := by
        intro j c inode' offset' hj
        rcases of_set hj with ⟨-, heq⟩ | ⟨hne, hj⟩
        · obtain ⟨rfl, rfl, rfl⟩ := Task.writing.inj heq
          refine ⟨htmp, ?_⟩
          rw [List.getElem?_modify_eq, hfile]
          exact congrArg some (writeAt_take hn)
        · exact absurd (hwriting hj rfl) hne
      alone := by
        intro j j' t t' hj hj' hw hw'
        rcases of_set hj with ⟨rfl, -⟩ | ⟨hne, hj⟩
        · rcases of_set hj' with ⟨rfl, -⟩ | ⟨-, hj'⟩
          · rfl
          · exact (hwriting hj' hw').symm
        · exact absurd (hwriting hj hw) hne }

/-- Renaming the whole temporary file. -/
theorem rename (h : Whole s tr) {k inode : Nat} {contents : List β}
    (hk : s.tasks[k]? = some (.writing contents inode contents.length)) :
    Whole { s with tmp := none, path := some inode, tasks := s.tasks.set k .done }
      (tr ++ [contents]) := by
  obtain ⟨htmp, hfile⟩ := h.writing k contents inode _ hk
  have hnone : ∀ {j : Nat} {t : Task β}, (s.tasks.set k .done)[j]? = some t →
      t.isWriting = true → False := by
    intro j t hj hw
    rcases of_set hj with ⟨-, rfl⟩ | ⟨hne, hj⟩
    · cases hw
    · exact hne (h.alone _ k _ _ hj hk hw rfl)
  exact
    { file := by
        rw [List.take_length] at hfile
        rw [List.getLast?_concat]
        exact hfile
      path := fun m hm => by
        obtain rfl := Option.some.inj hm
        exact (h.tmp _ htmp).1
      tmp := fun m hm => by cases hm
      writing := fun j c inode' offset hj => (hnone hj rfl).elim
      alone := fun j j' t t' hj _ hw => (hnone hj hw).elim }

/-- **Every step** that creates alone. -/
theorem step [Inhabited β] (h : Whole s tr) {a : Action β} (halone : CreatesAlone s a)
    (hstep : ReplaceFile.step s a = some (s', es)) : Whole s' (tr ++ es) := by
  cases a with
  | call contents =>
    obtain ⟨rfl, rfl⟩ := Prod.mk.inj (Option.some.inj hstep)
    rw [List.append_nil]
    exact h.call contents
  | create k =>
    simp only [ReplaceFile.step] at hstep
    split at hstep
    · next contents hk =>
      split at hstep
      · next n htmp =>
        obtain ⟨rfl, rfl⟩ := Prod.mk.inj (Option.some.inj hstep)
        obtain ⟨hlt, hpath⟩ := h.tmp n htmp
        rw [List.append_nil]
        have hcreate := h.create halone k contents (Nat.le_of_eq List.length_set.symm)
          (fun m _ hm => List.getElem?_set_ne (Ne.symm hm)) (List.getElem?_set_self hlt) hpath
        rwa [← htmp] at hcreate
      · obtain ⟨rfl, rfl⟩ := Prod.mk.inj (Option.some.inj hstep)
        rw [List.append_nil]
        refine h.create halone k contents (by simp) (fun m hm _ => List.getElem?_append_left hm) (by simp) ?_
        exact fun hp => Nat.lt_irrefl _ (h.path _ hp)
    · cases hstep
  | write k n =>
    simp only [ReplaceFile.step] at hstep
    split at hstep
    · next hk =>
      split at hstep
      · next hn =>
        obtain ⟨rfl, rfl⟩ := Prod.mk.inj (Option.some.inj hstep)
        rw [List.append_nil]
        exact h.write hk hn.2
      · cases hstep
    · cases hstep
  | rename k =>
    simp only [ReplaceFile.step] at hstep
    split at hstep
    · next contents inode offset hk =>
      split at hstep
      · next hoffset =>
        subst hoffset
        rw [(h.writing k contents inode _ hk).1] at hstep
        obtain ⟨rfl, rfl⟩ := Prod.mk.inj (Option.some.inj hstep)
        exact h.rename hk
      · cases hstep
    · cases hstep

end Whole

/-! ## Where the contents come from -/

/-- The contents a task writes. -/
def Task.contents : Task β → Option (List β)
  | ready contents => some contents
  | writing contents _ _ => some contents
  | done => none
  | failed => none

/-- What tasks write and what was renamed was asked for. -/
def Called (calls : List β → Prop) (s : System β) (tr : List (List β)) : Prop :=
  (∀ t ∈ s.tasks, ∀ c ∈ t.contents, calls c) ∧ ∀ c ∈ tr, calls c

theorem Called.set {calls : List β → Prop} {tasks : List (Task β)}
    (h : ∀ t ∈ tasks, ∀ c ∈ t.contents, calls c) (k : Nat) {t : Task β}
    (ht : ∀ c ∈ t.contents, calls c) : ∀ t' ∈ tasks.set k t, ∀ c ∈ t'.contents, calls c := by
  intro t' ht'
  rcases List.mem_or_eq_of_mem_set ht' with ht' | rfl
  · exact h t' ht'
  · exact ht

theorem Called.step [Inhabited β] {calls : List β → Prop} {s s' : System β}
    {tr es : List (List β)} (h : Called calls s tr) {a : Action β}
    (hcall : ∀ c, a = .call c → calls c) (hstep : ReplaceFile.step s a = some (s', es)) :
    Called calls s' (tr ++ es) := by
  obtain ⟨htasks, hrenamed⟩ := h
  cases a with
  | call contents =>
    obtain ⟨rfl, rfl⟩ := Prod.mk.inj (Option.some.inj hstep)
    refine ⟨fun t ht => ?_, by simpa using hrenamed⟩
    rcases List.mem_append.mp ht with ht | ht
    · exact htasks t ht
    · obtain rfl := List.mem_singleton.mp ht
      intro c hc
      obtain rfl := Option.some.inj hc
      exact hcall contents rfl
  | create k =>
    simp only [ReplaceFile.step] at hstep
    split at hstep
    · next contents hk =>
      have hmine : calls contents := htasks _ (List.mem_of_getElem? hk) contents rfl
      split at hstep
      all_goals
        obtain ⟨rfl, rfl⟩ := Prod.mk.inj (Option.some.inj hstep)
        refine ⟨Called.set htasks k fun c hc => ?_, by simpa using hrenamed⟩
        exact Option.some.inj hc ▸ hmine
    · cases hstep
  | write k n =>
    simp only [ReplaceFile.step] at hstep
    split at hstep
    · next contents inode offset hk =>
      split at hstep
      · obtain ⟨rfl, rfl⟩ := Prod.mk.inj (Option.some.inj hstep)
        have hmine : calls contents := htasks _ (List.mem_of_getElem? hk) contents rfl
        refine ⟨Called.set htasks k fun c hc => ?_, by simpa using hrenamed⟩
        exact Option.some.inj hc ▸ hmine
      · cases hstep
    · cases hstep
  | rename k =>
    simp only [ReplaceFile.step] at hstep
    split at hstep
    · next contents inode offset hk =>
      have hmine : calls contents := htasks _ (List.mem_of_getElem? hk) contents rfl
      split at hstep
      · split at hstep
        · obtain ⟨rfl, rfl⟩ := Prod.mk.inj (Option.some.inj hstep)
          refine ⟨Called.set htasks k (by rintro c ⟨⟩), fun c hc => ?_⟩
          rcases List.mem_append.mp hc with hc | hc
          · exact hrenamed c hc
          · exact List.mem_singleton.mp hc ▸ hmine
        · obtain ⟨rfl, rfl⟩ := Prod.mk.inj (Option.some.inj hstep)
          exact ⟨Called.set htasks k (by rintro c ⟨⟩), by simpa using hrenamed⟩
      · cases hstep
    · cases hstep

/-- What is renamed in a run is what one of its calls asked for. -/
theorem called_of_run [Inhabited β] (leftover : Option (List β)) {s : System β}
    {actions : List (Action β)} {tr : List (List β)}
    (hrun : Runs.run step (System.start leftover) actions = some (s, tr)) :
    ∀ c ∈ tr, .call c ∈ actions := by
  have h : Called (fun c => .call c ∈ actions) s ([] ++ tr) := Runs.run_invariant
    (P := fun _ _ a => a ∈ actions) (I := Called fun c => .call c ∈ actions)
    (fun h ha hstep => h.step (fun c hc => hc ▸ ha) hstep)
    ⟨by simp [System.start], by simp⟩ (Runs.along_of_forall (fun a ha => ha) _ _) hrun
  exact h.2

/-- **The file at the path is whole** in every run that creates alone: it is
what was renamed last. -/
theorem file_of_run [Inhabited β] (leftover : Option (List β)) {s : System β}
    {actions : List (Action β)} {tr : List (List β)}
    (hsteps : Runs.Along step (fun s _ a => CreatesAlone s a) (System.start leftover) [] actions)
    (hrun : Runs.run step (System.start leftover) actions = some (s, tr)) :
    s.file = tr.getLast? := by
  have h : Whole s ([] ++ tr) := Runs.run_invariant (P := fun s _ a => CreatesAlone s a)
    (I := Whole) (fun h hok hstep => h.step hok hstep) (Whole.start leftover) hsteps hrun
  exact h.file

/-! ## Tasks that overlap

Where tasks create the temporary file while others write, the file at the path
may be cut short or mixed. If every task writes its contents in one piece, it
is empty or begins with the whole contents of a task: a later task writes over
the beginning of what an earlier one wrote. -/

/-- A task writes its contents in one piece. -/
def WritesWhole (s : System β) : Action β → Prop
  | .write k n => ∀ t, s.tasks[k]? = some t → ∀ c ∈ t.contents, n = c.length
  | _ => True

instance decidableWritesWhole (s : System β) (a : Action β) : Decidable (WritesWhole s a) :=
  match a with
  | .write k n =>
    match h : s.tasks[k]? with
    | none => .isTrue fun t ht => by rw [h] at ht; cases ht
    | some t => decidable_of_iff (∀ c ∈ t.contents, n = c.length)
        ⟨fun hall t' ht' => by rw [h] at ht'; exact Option.some.inj ht' ▸ hall,
          fun hall => hall t h⟩
  | .call _ | .create _ | .rename _ => .isTrue trivial

/-- Empty, or the contents of a call and maybe more. An empty file is one that
a call has created. -/
def Begins (calls : List β → Prop) (file : List β) : Prop :=
  ∃ contents, calls contents ∧ (file = [] ∨ contents <+: file)

/-- Every file begins with what was asked for, except a temporary file that was
left over, until the first task creates it anew. -/
def Headed (calls : List β → Prop) (s : System β) : Prop :=
  ∀ n file, s.inodes[n]? = some file → Begins calls file ∨
    (s.tmp = some n ∧ s.path = none ∧ ∀ t ∈ s.tasks, t.isWriting = false)

namespace Headed

variable {calls : List β → Prop} {s s' : System β}

theorem start (calls : List β → Prop) (leftover : Option (List β)) :
    Headed calls (System.start leftover) := by
  intro n file hfile
  cases leftover with
  | none => simp [System.start] at hfile
  | some left =>
    obtain ⟨rfl, -⟩ : n = 0 ∧ left = file := by
      simpa [System.start, List.getElem?_singleton] using hfile
    exact .inr ⟨rfl, rfl, by simp [System.start]⟩

/-- Once a task writes, nothing is left over. -/
theorem begins (h : Headed calls s) {t : Task β} (ht : t ∈ s.tasks) (hw : t.isWriting = true)
    {n : Nat} {file : List β} (hfile : s.inodes[n]? = some file) : Begins calls file := by
  rcases h n file hfile with hbegins | ⟨-, -, hnone⟩
  · exact hbegins
  · rw [hnone t ht] at hw
    cases hw

theorem file (h : Headed calls s) {file : List β} (hfile : s.file = some file) :
    Begins calls file := by
  obtain ⟨n, hpath, hinode⟩ := Option.bind_eq_some_iff.mp hfile
  rcases h n file hinode with hbegins | ⟨-, hnone, -⟩
  · exact hbegins
  · rw [hpath] at hnone
    cases hnone

theorem writeAt_zero [Inhabited β] (file contents : List β) :
    contents <+: writeAt file 0 contents := by
  rw [writeAt, Nat.zero_sub, List.take_zero, List.replicate_zero, List.nil_append, List.nil_append]
  exact List.prefix_append contents _

theorem step [Inhabited β] (h : Headed calls s) {tr es : List (List β)} (hcalled : Called calls s tr)
    {a : Action β} (hwhole : WritesWhole s a) (hstep : ReplaceFile.step s a = some (s', es)) :
    Headed calls s' := by
  cases a with
  | call contents =>
    obtain ⟨rfl, rfl⟩ := Prod.mk.inj (Option.some.inj hstep)
    intro n file hfile
    rcases h n file hfile with hbegins | ⟨htmp, hpath, hnone⟩
    · exact .inl hbegins
    · refine .inr ⟨htmp, hpath, fun t ht => ?_⟩
      rcases List.mem_append.mp ht with ht | ht
      · exact hnone t ht
      · rw [List.mem_singleton.mp ht]
        rfl
  | create k =>
    simp only [ReplaceFile.step] at hstep
    split at hstep
    · next contents hk =>
      have hempty : Begins calls [] :=
        ⟨contents, hcalled.1 _ (List.mem_of_getElem? hk) contents rfl, .inl rfl⟩
      split at hstep
      · next n htmp =>
        obtain ⟨rfl, rfl⟩ := Prod.mk.inj (Option.some.inj hstep)
        intro m file hfile
        by_cases hmn : n = m
        · subst hmn
          rw [List.getElem?_set_self'] at hfile
          obtain ⟨old, -, rfl⟩ := Option.map_eq_some_iff.mp hfile
          exact .inl hempty
        · rw [List.getElem?_set_ne hmn] at hfile
          rcases h m file hfile with hbegins | ⟨htmp', -⟩
          · exact .inl hbegins
          · exact absurd (Option.some.inj (htmp.symm.trans htmp')) hmn
      · next htmp =>
        obtain ⟨rfl, rfl⟩ := Prod.mk.inj (Option.some.inj hstep)
        intro m file hfile
        rw [List.getElem?_append] at hfile
        split at hfile
        · rcases h m file hfile with hbegins | ⟨htmp', -⟩
          · exact .inl hbegins
          · rw [htmp] at htmp'
            cases htmp'
        · obtain rfl := List.mem_singleton.mp (List.mem_of_getElem? hfile)
          exact .inl hempty
    · cases hstep
  | write k n =>
    simp only [ReplaceFile.step] at hstep
    split at hstep
    · next contents inode offset hk =>
      split at hstep
      · next hn =>
        obtain ⟨rfl, rfl⟩ := Prod.mk.inj (Option.some.inj hstep)
        have hlen : n = contents.length := hwhole _ hk contents rfl
        obtain rfl : offset = 0 := by omega
        intro m file hfile
        refine .inl ?_
        by_cases hm : inode = m
        · subst hm
          rw [List.getElem?_modify_eq] at hfile
          obtain ⟨old, -, rfl⟩ := Option.map_eq_some_iff.mp hfile
          rw [List.drop_zero, hlen, List.take_length]
          exact ⟨contents, hcalled.1 _ (List.mem_of_getElem? hk) contents rfl,
            .inr (writeAt_zero old contents)⟩
        · rw [List.getElem?_modify_ne _ _ hm] at hfile
          exact h.begins (List.mem_of_getElem? hk) rfl hfile
      · cases hstep
    · cases hstep
  | rename k =>
    simp only [ReplaceFile.step] at hstep
    split at hstep
    · next contents inode offset hk =>
      have hbegins : ∀ n file, s.inodes[n]? = some file → Begins calls file := fun n file =>
        h.begins (List.mem_of_getElem? hk) rfl
      split at hstep
      · split at hstep
        all_goals
          obtain ⟨rfl, rfl⟩ := Prod.mk.inj (Option.some.inj hstep)
          exact fun n file hfile => .inl (hbegins n file hfile)
      · cases hstep
    · cases hstep

end Headed

/-- **The file at the path begins with whole contents**, or is empty, in every
run whose tasks write in one piece, however they overlap. -/
theorem begins_of_run [Inhabited β] (leftover : Option (List β)) {s : System β}
    {actions : List (Action β)} {tr : List (List β)}
    (hsteps : Runs.Along step (fun s _ a => WritesWhole s a) (System.start leftover) [] actions)
    (hrun : Runs.run step (System.start leftover) actions = some (s, tr)) {file : List β}
    (hfile : s.file = some file) : Begins (fun c => .call c ∈ actions) file := by
  have hall := hsteps.and (Runs.along_of_forall (fun a ha => ha) _ _)
  have h := Runs.run_invariant (P := fun s _ a => WritesWhole s a ∧ a ∈ actions)
    (I := fun s tr => Called (fun c => .call c ∈ actions) s tr ∧
      Headed (fun c => .call c ∈ actions) s)
    (fun h ha hstep => ⟨h.1.step (fun c hc => hc ▸ ha.2) hstep, h.2.step h.1 ha.1 hstep⟩)
    ⟨⟨by simp [System.start], by simp⟩, Headed.start _ leftover⟩ hall hrun
  exact h.2.file hfile

end ReplaceFile

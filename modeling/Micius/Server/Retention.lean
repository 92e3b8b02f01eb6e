import Micius.Compaction.Outcomes
import Micius.Server.IndexFiles
import Micius.Server.Resume
import Micius.Wal.FileNames

/-!
# What stays on disk

A file that no task knows of is never deleted. In every run the WAL segments
and the chunk files are in the hands of a task or of the index. What `open`
finds is another matter: a chunk file that the snapshot does not name stays
where it is, and a segment below the highest one is recorded as completed at
`u64::MAX`, which no watermark reaches.
-/

namespace Micius

/-! ## Segment files -/

namespace WalDir

theorem getElem?_create (dir : WalDir) (n seg : Nat) :
    (dir.apply (.create n))[seg]? = if seg = n then some ((dir[n]?).getD []) else dir[seg]? := by
  rw [apply]
  split
  · next hmem =>
    obtain ⟨bytes, hget⟩ := Option.isSome_iff_exists.mp
      (Std.ExtTreeMap.mem_iff_isSome_getElem?.mp hmem)
    split
    · next heq => rw [heq, hget, Option.getD_some]
    · rfl
  · next hmem =>
    have hnone : dir[n]? = none := by
      rw [← Option.not_isSome_iff_eq_none, ← Std.ExtTreeMap.mem_iff_isSome_getElem?]
      exact hmem
    rw [TreeMap.getElem?_insert_eq, hnone, Option.getD_none]

theorem mem_of_create {dir : WalDir} {n seg : Nat} (h : seg ∈ dir.apply (.create n)) :
    seg = n ∨ seg ∈ dir := by
  rw [Std.ExtTreeMap.mem_iff_isSome_getElem?, getElem?_create] at h
  split at h
  · next heq => exact .inl heq
  · exact .inr (Std.ExtTreeMap.mem_iff_isSome_getElem?.mpr h)

theorem mem_of_removes {dir : WalDir} {segs : List Nat} {seg : Nat}
    (h : seg ∈ dir.run (segs.map .remove)) : seg ∉ segs ∧ seg ∈ dir := by
  rw [Std.ExtTreeMap.mem_iff_isSome_getElem?, getElem?_removes] at h
  split at h
  · cases h
  · next hnot => exact ⟨hnot, Std.ExtTreeMap.mem_iff_isSome_getElem?.mpr h⟩

end WalDir

theorem le_of_raise {ns : List Nat} {m : Option Nat} {k n : Nat}
    (h : ns.foldl raise m = some k) (hn : n ∈ ns ∨ m = some n) : n ≤ k := by
  induction ns generalizing m n with
  | nil =>
    obtain rfl := hn.resolve_left List.not_mem_nil
    exact Nat.le_of_eq (Option.some.inj h)
  | cons a ns ih =>
    rw [List.foldl_cons, raise_eq_max] at h
    rcases hn with hn | rfl
    · rcases List.mem_cons.mp hn with rfl | hn
      · exact (Nat.le_max_right _ _).trans (ih h (.inr rfl))
      · exact ih h (.inl hn)
    · exact (Nat.le_max_left n a).trans (ih h (.inr rfl))

/-- `highest_segment_number` is at least every segment. -/
theorem le_highestSegmentNumber {dir : WalDir} {highest seg : Nat}
    (h : highestSegmentNumber dir = some highest) (hseg : seg ∈ dir) : seg ≤ highest := by
  rw [highestSegmentNumber_eq] at h
  refine le_of_raise h (.inl ?_)
  rw [Std.ExtTreeMap.map_fst_toList_eq_keys]
  exact Std.ExtTreeMap.mem_keys.mpr hseg

theorem exists_highest {dir : WalDir} {seg : Nat} (hseg : seg ∈ dir) :
    ∃ highest, highestSegmentNumber dir = some highest := by
  cases hlist : dir.toList.map Prod.fst with
  | nil =>
    rw [Std.ExtTreeMap.map_fst_toList_eq_keys] at hlist
    have hmem := Std.ExtTreeMap.mem_keys.mpr hseg
    rw [hlist] at hmem
    cases hmem
  | cons n ns =>
    rw [highestSegmentNumber_eq, hlist, List.foldl_cons]
    clear hlist
    generalize hm : raise none n = m
    obtain ⟨k, rfl⟩ : ∃ k, m = some k := ⟨_, hm.symm.trans (raise_eq_max none n)⟩
    clear hm
    induction ns generalizing k with
    | nil => exact ⟨k, rfl⟩
    | cons a ns ih =>
      rw [List.foldl_cons, raise_eq_max]
      exact ih _

section

variable [Crates]

/-! ## What a step does to the log of one shard -/

/-- The ways a step can change the segments of shard `i`. -/
inductive WalMove (i : Nat) (s s' : Server) : Prop
  | commit (reqs : List ((Nat × Nat) × List DataPoint)) (drain : Option Nat)
      (hwal : s'.wals i = (s.wals i).commit reqs drain)
      (hdir : s'.disk.wal i = (s.disk.wal i).run ((s.wals i).commitOps reqs))
      (hsweeper : s'.sweeper = s.sweeper)
  | rotate (hwal : (s'.wals i).writer = (rotateFull (s.wals i).writer).1)
      (hdir : s'.disk.wal i = (s.disk.wal i).run (rotateFull (s.wals i).writer).2)
      (hsweeper : s'.sweeper = s.sweeper)
  | drain (gcSeq : Nat) (hrequest : s.sweeper = .draining i gcSeq)
      (hwal : (s'.wals i).writer =
        ((rotateFull (s.wals i).writer).1.drainCompletedBefore gcSeq).2)
      (hdir : s'.disk.wal i = (s.disk.wal i).run (rotateFull (s.wals i).writer).2)
      (hsweeper : s'.sweeper =
        .deleting i ((rotateFull (s.wals i).writer).1.drainCompletedBefore gcSeq).1)
  | remove (seg : Nat) (segs : List Nat) (hs : s.sweeper = .deleting i (seg :: segs))
      (hwal : s'.wals i = s.wals i)
      (hdir : s'.disk.wal i = (s.disk.wal i).apply (.remove seg))
      (hsweeper : s'.sweeper = .deleting i segs)
  /-- Nothing, except that a finished deletion is over. -/
  | keep (hwal : s'.wals i = s.wals i) (hdir : s'.disk.wal i = s.disk.wal i)
      (hnew : ∀ segs, s'.sweeper = .deleting i segs → s.sweeper = .deleting i segs)
      (hold : ∀ segs, s.sweeper = .deleting i segs → s'.sweeper = .deleting i segs ∨ segs = [])

theorem walMove_of_step {cfg : StorageConfig} {s s' : Server} {a : Action} {es : List Event}
    (hdrain : DrainOk s) (hstep : Step cfg s a s' es) (i : Nat) : WalMove i s s' := by
  -- a sweep that is elsewhere neither was nor is deleting
  have hmoves : ∀ {sweeper : Sweeper}, s.sweeper = sweeper →
      (∀ segs, sweeper = .deleting i segs → segs = []) →
      (∀ segs, s'.sweeper ≠ .deleting i segs) → s'.wals = s.wals → s'.disk.wal = s.disk.wal →
      WalMove i s s' := by
    intro sweeper hs hwas his hwals hwal
    exact .keep (by rw [hwals]) (by rw [hwal]) (fun segs hdel => absurd hdel (his segs))
      fun segs hdel => .inr (hwas segs (hs.symm.trans hdel))
  cases hstep with
  | @walCommit j refs drain hj hidle hrequest hnodup hwait =>
    by_cases hij : i = j
    · subst hij
      exact .commit _ _ (Function.update_self ..) (Function.update_self ..) rfl
    · exact .keep (Function.update_of_ne hij ..) (Function.update_of_ne hij ..) (fun _ h => h)
        fun _ h => .inl h
  | @walFinish j hfinish =>
    by_cases hij : i = j
    · subst hij
      exact .rotate (by dsimp only; rw [Function.update_self]) (Function.update_self ..) rfl
    · exact .keep (Function.update_of_ne hij ..) (Function.update_of_ne hij ..) (fun _ h => h)
        fun _ h => .inl h
  | @walDrain j gcSeq hfinish =>
    have hrequest := hdrain j gcSeq hfinish
    by_cases hij : i = j
    · subst hij
      exact .drain gcSeq hrequest (by dsimp only; rw [Function.update_self])
        (Function.update_self ..) rfl
    · refine .keep (Function.update_of_ne hij ..) (Function.update_of_ne hij ..)
        (fun segs h => ?_) fun segs h => ?_
      · exact absurd (Sweeper.deleting.inj h).1.symm hij
      · rw [hrequest] at h
        cases h
  | @sweepDelete j seg segs hs =>
    by_cases hij : i = j
    · subst hij
      exact .remove seg segs hs rfl (Function.update_self ..) rfl
    · refine .keep rfl (Function.update_of_ne hij ..) (fun segs h => ?_) fun segs h => ?_
      · exact absurd (Sweeper.deleting.inj h).1.symm hij
      · exact absurd (Sweeper.deleting.inj (hs.symm.trans h)).1.symm hij
  | sweepDone hs =>
    exact hmoves hs (fun segs h => (Sweeper.deleting.inj h).2.symm) (by simp) rfl rfl
  | sweepDrain hs hflush => exact hmoves hs (by simp) (by simp) rfl rfl
  | sweepSkip hs hflush => exact hmoves hs (by simp) (by simp) rfl rfl
  | sweepWrite hs hw hnew => exact hmoves hs (by simp) (by simp) rfl rfl
  | sweepFail hs hw => exact hmoves hs (by simp) (by simp) rfl rfl
  | sweepRegister hs hlock => exact hmoves hs (by simp) (by simp) rfl rfl
  | sweepReadSequence hs => exact hmoves hs (by simp) (by simp) rfl rfl
  | sweepPublish hs => exact hmoves hs (by simp) (by simp) rfl rfl
  | sweepRequestDrain hs => exact hmoves hs (by simp) (by simp) rfl rfl
  | _ => exact .keep rfl rfl (fun _ h => h) fun _ h => .inl h

/-- A batch is written to the open segment. -/
theorem getElem?_commitOps (wal : WalHandle) (reqs : List ((Nat × Nat) × List DataPoint))
    (dir : WalDir) {seg : Nat} (hseg : seg ≠ wal.writer.file) :
    (dir.run (wal.commitOps reqs))[seg]? = dir[seg]? := by
  rw [WalHandle.commitOps]
  split
  · rfl
  · rw [WalDir.run_cons, WalDir.run_cons, WalDir.run_nil, WalDir.apply, WalDir.apply,
      TreeMap.getElem?_insert_eq, if_neg hseg]

omit [Crates] in
/-- A rotation completes the open segment and creates the next one. -/
theorem rotateFull_cases (w : WalWriter) (dir : WalDir) :
    (rotateFull w).1 = w ∧ dir.run (rotateFull w).2 = dir ∨
      (rotateFull w).1.file = w.currentSegment + 1 ∧
      (rotateFull w).1.currentSegment = w.currentSegment + 1 ∧
      (rotateFull w).1.completedSegments =
        w.completedSegments ++ [(w.currentSegment, w.currentSeq)] ∧
      dir.run (rotateFull w).2 = dir.apply (.create (w.currentSegment + 1)) := by
  unfold rotateFull
  split
  · exact .inr ⟨rfl, rfl, rfl, rfl⟩
  · exact .inl ⟨rfl, rfl⟩

/-! ## Every segment is known -/

omit [Crates] in
/-- The open segment, a completed one, or one that the sweep is deleting. -/
def Server.TracksSegment (s : Server) (i seg : Nat) : Prop :=
  seg = (s.wals i).writer.currentSegment ∨
    seg ∈ (s.wals i).writer.completedSegments.map Prod.fst ∨
    ∃ segs, s.sweeper = .deleting i segs ∧ seg ∈ segs

omit [Crates] in
/-- The tasks know the segments of shard `i`. -/
structure SegmentsTracked (i : Nat) (s : Server) : Prop where
  file_eq : (s.wals i).writer.file = (s.wals i).writer.currentSegment
  tracked : ∀ seg ∈ s.disk.wal i, s.TracksSegment i seg

omit [Crates] in
/-- What a writer knows after a rotation. -/
theorem mem_rotateFull {w : WalWriter} {dir : WalDir} {known : Nat → Prop}
    (h : ∀ seg ∈ dir, seg = w.currentSegment ∨ seg ∈ w.completedSegments.map Prod.fst ∨ known seg) :
    ∀ seg ∈ dir.run (rotateFull w).2, seg = (rotateFull w).1.currentSegment ∨
      seg ∈ (rotateFull w).1.completedSegments.map Prod.fst ∨ known seg := by
  intro seg hseg
  rcases rotateFull_cases w dir with ⟨hw, hdir⟩ | ⟨-, hcur, hcompleted, hdir⟩
  · rw [hw]
    rw [hdir] at hseg
    exact h seg hseg
  · rw [hcur, hcompleted, List.map_append]
    rw [hdir] at hseg
    rcases WalDir.mem_of_create hseg with heq | hseg
    · exact .inl heq
    · rcases h seg hseg with heq | hmem | hknown
      · exact .inr (.inl (List.mem_append_right _ (List.mem_singleton.mpr heq)))
      · exact .inr (.inl (List.mem_append_left _ hmem))
      · exact .inr (.inr hknown)

omit [Crates] in
theorem file_rotateFull {w : WalWriter} (h : w.file = w.currentSegment) :
    (rotateFull w).1.file = (rotateFull w).1.currentSegment := by
  rcases rotateFull_cases w ∅ with ⟨hw, -⟩ | ⟨hfile, hcur, -⟩
  · rw [hw, h]
  · rw [hfile, hcur]

theorem SegmentsTracked.step {i : Nat} {s s' : Server} (h : SegmentsTracked i s)
    (hmove : WalMove i s s') : SegmentsTracked i s' := by
  cases hmove with
  | commit reqs drain hwal hdir hsweeper =>
    refine ⟨by rw [hwal]; exact h.file_eq, fun seg hseg => ?_⟩
    rw [Server.TracksSegment, hwal, hsweeper]
    by_cases hfile : seg = (s.wals i).writer.file
    · exact .inl (hfile.trans h.file_eq)
    · rw [hdir, Std.ExtTreeMap.mem_iff_isSome_getElem?, getElem?_commitOps _ _ _ hfile,
        ← Std.ExtTreeMap.mem_iff_isSome_getElem?] at hseg
      exact h.tracked seg hseg
  | rotate hwal hdir hsweeper =>
    refine ⟨by rw [hwal]; exact file_rotateFull h.file_eq, fun seg hseg => ?_⟩
    rw [Server.TracksSegment, hwal, hsweeper]
    rw [hdir] at hseg
    exact mem_rotateFull h.tracked seg hseg
  | drain gcSeq hrequest hwal hdir hsweeper =>
    refine ⟨by rw [hwal]; exact file_rotateFull h.file_eq, fun seg hseg => ?_⟩
    rw [Server.TracksSegment, hwal, hsweeper]
    rw [hdir] at hseg
    rcases mem_rotateFull h.tracked seg hseg with heq | hmem | ⟨segs, hs, -⟩
    · exact .inl heq
    · -- a completed segment stays completed, or the sweep gets it
      obtain ⟨p, hp, rfl⟩ := List.mem_map.mp hmem
      by_cases hle : p.2 ≤ gcSeq
      · exact .inr (.inr ⟨_, rfl, List.mem_map.mpr
          ⟨p, List.mem_filter.mpr ⟨hp, decide_eq_true hle⟩, rfl⟩⟩)
      · exact .inr (.inl (List.mem_map.mpr ⟨p, List.mem_filter.mpr ⟨hp, by simpa using hle⟩, rfl⟩))
    · rw [hrequest] at hs
      cases hs
  | remove seg segs hs hwal hdir hsweeper =>
    refine ⟨by rw [hwal]; exact h.file_eq, fun seg' hseg' => ?_⟩
    rw [Server.TracksSegment, hwal, hsweeper]
    rw [hdir] at hseg'
    obtain ⟨hne, hseg'⟩ := WalDir.mem_of_removes
      (show seg' ∈ (s.disk.wal i).run ([seg].map .remove) from hseg')
    rcases h.tracked seg' hseg' with heq | hmem | ⟨segs', hs', hmem⟩
    · exact .inl heq
    · exact .inr (.inl hmem)
    · obtain ⟨-, rfl⟩ := Sweeper.deleting.inj (hs.symm.trans hs')
      exact .inr (.inr ⟨segs, rfl, (List.mem_cons.mp hmem).resolve_left fun heq =>
        hne (List.mem_singleton.mpr heq)⟩)
  | keep hwal hdir hnew hold =>
    refine ⟨by rw [hwal]; exact h.file_eq, fun seg hseg => ?_⟩
    rw [Server.TracksSegment, hwal]
    rw [hdir] at hseg
    rcases h.tracked seg hseg with heq | hmem | ⟨segs, hs, hmem⟩
    · exact .inl heq
    · exact .inr (.inl hmem)
    · rcases hold segs hs with hs' | rfl
      · exact .inr (.inr ⟨segs, hs', hmem⟩)
      · cases hmem

/-! ## Segments of earlier sessions -/

omit [Crates] in
/-- The watermarks of shard `i`, wherever a task holds them, are below `u64::MAX`. -/
structure WatermarksLow (i : Nat) (s : Server) : Prop where
  live : s.shardWatermarks i < u64Max
  persisted : s.persistedWatermarks i < u64Max
  draining : ∀ gcSeq, s.sweeper = .draining i gcSeq → gcSeq < u64Max
  snapshots : ∀ t ∈ s.snapshots, ∀ w, t.watermarks[i]? = some w → w < u64Max

namespace WatermarksLow

variable {i : Nat} {s s' : Server}

omit [Crates] in
theorem update {f : Nat → Nat} (h : f i < u64Max) {j w : Nat} (hw : j = i → w < u64Max) :
    Function.update f j w i < u64Max := by
  by_cases hij : i = j
  · rw [hij, Function.update_self]
    exact hw hij.symm
  · rwa [Function.update_of_ne hij]

omit [Crates] in
/-- A snapshot moves on with watermarks that are low. -/
theorem setTask (h : WatermarksLow i s) {k : Nat} {t : SnapshotTask}
    (ht : ∀ w, t.watermarks[i]? = some w → w < u64Max) :
    ∀ t' ∈ s.snapshots.set k t, ∀ w, t'.watermarks[i]? = some w → w < u64Max := by
  intro t' ht'
  rcases List.mem_or_eq_of_mem_set ht' with hmem | rfl
  · exact h.snapshots t' hmem
  · exact ht

theorem step {cfg : StorageConfig} {a : Action} {es : List Event} (h : WatermarksLow i s)
    (hstep : Step cfg s a s' es) (hpublished : ∀ w c, .published i w c ∈ es → w < u64Max) :
    WatermarksLow i s' := by
  have htask : ∀ {k : Nat} {t : SnapshotTask}, s.snapshots[k]? = some t →
      ∀ w, t.watermarks[i]? = some w → w < u64Max := fun hk =>
    h.snapshots _ (List.mem_of_getElem? hk)
  cases hstep with
  | walDrain hfinish => exact { h with draining := by simp }
  | sweepDrain hs hflush => exact { h with draining := by simp }
  | sweepSkip hs hflush => exact { h with draining := by simp }
  | sweepWrite hs hw hnew => exact { h with draining := by simp }
  | sweepFail hs hw => exact { h with draining := by simp }
  | sweepRegister hs hlock => exact { h with draining := by simp }
  | sweepReadSequence hs => exact { h with draining := by simp }
  | sweepDelete hs => exact { h with draining := by simp }
  | sweepDone hs => exact { h with draining := by simp }
  | @sweepPublish j result seq hs =>
    refine { h with live := update h.live fun hj => ?_, draining := by simp }
    exact hpublished seq result.chunkId (by rw [hj]; exact List.mem_singleton_self _)
  | @sweepRequestDrain j hs =>
    refine { h with draining := fun gcSeq hdraining => ?_ }
    obtain ⟨rfl, rfl⟩ := Sweeper.draining.inj hdraining
    exact h.persisted
  | snapshotBegin =>
    refine { h with snapshots := fun t ht => ?_ }
    rcases List.mem_append.mp ht with ht | ht
    · exact h.snapshots t ht
    · rw [List.mem_singleton.mp ht]
      simp [SnapshotTask.watermarks]
  | @snapshotLoad k ws hk hlen =>
    refine { h with snapshots := h.setTask fun w hw => ?_ }
    change (ws ++ [s.shardWatermarks ws.length])[i]? = some w at hw
    rw [List.getElem?_append] at hw
    split at hw
    · exact htask hk w hw
    · next hge =>
      have hone : i - ws.length = 0 := by
        have := (List.getElem?_eq_some_iff.mp hw).1
        rw [List.length_singleton] at this
        omega
      rw [hone] at hw
      obtain rfl := Option.some.inj hw
      rw [show ws.length = i by omega]
      exact h.live
  | snapshotLock hk hlen => exact { h with snapshots := h.setTask fun w hw => htask hk w hw }
  | snapshotSave hk => exact { h with snapshots := h.setTask fun w hw => htask hk w hw }
  | @snapshotStore k j w ws hk hw =>
    refine { h with
      persisted := update h.persisted fun hj => htask hk w (by rw [← hj]; exact hw)
      snapshots := h.setTask fun w hw => htask hk w hw }
  | snapshotUnlock hk =>
    exact { h with snapshots := h.setTask (by simp [SnapshotTask.watermarks]) }
  | _ => exact { h with }

end WatermarksLow

omit [Crates] in
/-- The segments below `first` are as `old` has them, and the tasks do not
delete them. -/
structure OldKept (i first : Nat) (old : WalDir) (s : Server) : Prop where
  file_eq : (s.wals i).writer.file = (s.wals i).writer.currentSegment
  above : first ≤ (s.wals i).writer.currentSegment
  completed : ∀ p ∈ (s.wals i).writer.completedSegments, p.1 < first → p.2 = u64Max
  deleting : ∀ segs, s.sweeper = .deleting i segs → ∀ seg ∈ segs, first ≤ seg
  content : ∀ seg < first, (s.disk.wal i)[seg]? = old[seg]?

namespace OldKept

variable {i first : Nat} {old : WalDir} {s s' : Server}

omit [Crates] in
/-- A rotation leaves them alone. -/
theorem rotated (h : OldKept i first old s) :
    first ≤ (rotateFull (s.wals i).writer).1.currentSegment ∧
      (∀ p ∈ (rotateFull (s.wals i).writer).1.completedSegments, p.1 < first → p.2 = u64Max) ∧
      ∀ seg < first, ((s.disk.wal i).run (rotateFull (s.wals i).writer).2)[seg]? = old[seg]? := by
  have habove := h.above
  rcases rotateFull_cases (s.wals i).writer (s.disk.wal i) with
    ⟨hw, hdir⟩ | ⟨-, hcur, hcompleted, hdir⟩
  · rw [hw, hdir]
    exact ⟨habove, h.completed, h.content⟩
  · rw [hcur, hcompleted, hdir]
    refine ⟨by omega, fun p hp hlt => ?_, fun seg hseg => ?_⟩
    · rcases List.mem_append.mp hp with hp | hp
      · exact h.completed p hp hlt
      · rw [List.mem_singleton.mp hp] at hlt
        omega
    · rw [WalDir.getElem?_create, if_neg (by omega), h.content seg hseg]

theorem step (h : OldKept i first old s) (hlow : WatermarksLow i s) (hmove : WalMove i s s') :
    OldKept i first old s' := by
  have habove := h.above
  cases hmove with
  | commit reqs drain hwal hdir hsweeper =>
    refine ⟨by rw [hwal]; exact h.file_eq, by rw [hwal]; exact habove,
      by rw [hwal]; exact h.completed,
      by rw [hsweeper]; exact h.deleting, fun seg hseg => ?_⟩
    rw [hdir, getElem?_commitOps _ _ _ (by rw [h.file_eq]; omega), h.content seg hseg]
  | rotate hwal hdir hsweeper =>
    obtain ⟨hcur, hcompleted, hcontent⟩ := h.rotated
    refine ⟨by rw [hwal]; exact file_rotateFull h.file_eq, by rw [hwal]; exact hcur,
      by rw [hwal]; exact hcompleted, by rw [hsweeper]; exact h.deleting, ?_⟩
    rw [hdir]
    exact hcontent
  | drain gcSeq hrequest hwal hdir hsweeper =>
    obtain ⟨hcur, hcompleted, hcontent⟩ := h.rotated
    refine ⟨by rw [hwal]; exact file_rotateFull h.file_eq, by rw [hwal]; exact hcur,
      fun p hp => ?_, fun segs hs seg hseg => ?_, by rw [hdir]; exact hcontent⟩
    · rw [hwal] at hp
      exact hcompleted p (List.mem_of_mem_filter hp)
    · obtain ⟨-, rfl⟩ := Sweeper.deleting.inj (hsweeper.symm.trans hs)
      obtain ⟨p, hp, rfl⟩ := List.mem_map.mp hseg
      obtain ⟨hp, hle⟩ := List.mem_filter.mp hp
      -- the threshold does not reach `u64::MAX`
      by_contra hlt
      have hmax := hcompleted p hp (by omega)
      have hgc := hlow.draining gcSeq hrequest
      have hle := of_decide_eq_true hle
      omega
  | remove seg segs hs hwal hdir hsweeper =>
    have hdel := h.deleting _ hs
    refine ⟨by rw [hwal]; exact h.file_eq, by rw [hwal]; exact habove,
      by rw [hwal]; exact h.completed,
      fun segs' hs' seg' hseg' => ?_, fun seg' hseg' => ?_⟩
    · obtain ⟨-, rfl⟩ := Sweeper.deleting.inj (hsweeper.symm.trans hs')
      exact hdel seg' (List.mem_cons_of_mem seg hseg')
    · have hfirst := hdel seg List.mem_cons_self
      rw [hdir, WalDir.apply, TreeMap.getElem?_erase_eq, if_neg (by omega), h.content seg' hseg']
  | keep hwal hdir hnew hold =>
    exact ⟨by rw [hwal]; exact h.file_eq, by rw [hwal]; exact habove,
      by rw [hwal]; exact h.completed, fun segs hs => h.deleting segs (hnew segs hs),
      by rw [hdir]; exact h.content⟩

end OldKept

/-! ## Opening the log of a shard -/

omit [Crates] in
/-- The highest segment of a directory, or the first one. -/
def WalDir.last (dir : WalDir) : Nat := (highestSegmentNumber dir).getD 1

omit [Crates] in
/-- The writer that `open` has before it drains, and the files there are by then. -/
structure OpenedLog (dir : WalDir) (writer : WalWriter) (created : WalDir) : Prop where
  file_eq : writer.file = writer.currentSegment
  above : dir.last ≤ writer.currentSegment
  completed : ∀ p ∈ writer.completedSegments, p.1 < dir.last → p.2 = u64Max
  content : ∀ seg < dir.last, created[seg]? = dir[seg]?
  known : 0 ∉ dir → ∀ seg ∈ created, seg = writer.currentSegment ∨
    seg ∈ writer.completedSegments.map Prod.fst

omit [Crates] in
theorem openedLog_openWal (dir : WalDir) (maxSegmentBytes resumeSeq : Nat) :
    OpenedLog dir (WalWriter.openWal dir maxSegmentBytes resumeSeq).1
      (dir.apply (.create dir.last)) where
  file_eq := rfl
  above := Nat.le_refl _
  completed p hp _ := by
    obtain ⟨n, -, rfl⟩ := List.mem_map.mp hp
    rfl
  content seg hseg := by rw [WalDir.getElem?_create, if_neg (by omega)]
  known hzero seg hseg := by
    rcases WalDir.mem_of_create hseg with heq | hmem
    · exact .inl heq
    · obtain ⟨highest, hhighest⟩ := exists_highest hmem
      have hle := le_highestSegmentNumber hhighest hmem
      have hpos : seg ≠ 0 := fun h => hzero (h ▸ hmem)
      rw [WalWriter.openWal, hhighest]
      rcases Nat.lt_or_eq_of_le hle with hlt | heq
      · refine .inr (List.mem_map.mpr ⟨(seg, u64Max), List.mem_map.mpr ⟨seg, ?_, rfl⟩, rfl⟩)
        refine List.mem_range'.mpr ⟨seg - 1, ?_, by omega⟩
        change seg - 1 < highest - 1
        omega
      · exact .inl heq

omit [Crates] in
theorem OpenedLog.rotate {dir created : WalDir} {writer : WalWriter}
    (h : OpenedLog dir writer created) : OpenedLog dir (writer.rotate true).2.1
      (created.apply (.create (writer.currentSegment + 1))) where
  file_eq := rfl
  above := Nat.le_succ_of_le h.above
  completed p hp hlt := by
    rcases List.mem_append.mp hp with hp | hp
    · exact h.completed p hp hlt
    · have := h.above
      rw [List.mem_singleton.mp hp] at hlt
      omega
  content seg hseg := by
    have := h.above
    rw [WalDir.getElem?_create, if_neg (by omega), h.content seg hseg]
  known hzero seg hseg := by
    change seg = writer.currentSegment + 1 ∨ seg ∈ (writer.completedSegments ++ _).map Prod.fst
    rw [List.map_append]
    rcases WalDir.mem_of_create hseg with heq | hmem
    · exact .inl heq
    · rcases h.known hzero seg hmem with heq | hmem
      · exact .inr (List.mem_append_right _ (List.mem_singleton.mpr heq))
      · exact .inr (List.mem_append_left _ hmem)

omit [Crates] in
/-- `open` drains what it has opened. -/
theorem openWalShard_eq (cfg : StorageConfig) (dir : WalDir) (w : Nat) (r : RecoveryResult) :
    ∃ writer created threshold, OpenedLog dir writer created ∧
      (threshold = w ∨ threshold = r.lastSequence) ∧
      (openWalShard cfg dir w r).1 = (writer.drainCompletedBefore threshold).2 ∧
      dir.run (openWalShard cfg dir w r).2 =
        created.run ((writer.drainCompletedBefore threshold).1.map .remove) := by
  have hopened := openedLog_openWal dir cfg.walMaxSegmentBytes r.lastSequence
  have hthreshold : (if r.points.isEmpty then w else r.lastSequence) = w ∨
      (if r.points.isEmpty then w else r.lastSequence) = r.lastSequence := by
    split
    · exact .inl rfl
    · exact .inr rfl
  unfold openWalShard
  dsimp only
  split
  · refine ⟨_, _, _, hopened.rotate, hthreshold, rfl, ?_⟩
    rw [WalDir.run_append]
    rfl
  · refine ⟨_, _, _, hopened, hthreshold, rfl, ?_⟩
    rw [WalDir.run_append]
    rfl

theorem segmentsTracked_of_open {cfg : StorageConfig} {chunkIds : Nat → ChunkId} {d : Disk}
    {s : Server} (hopen : (openStore cfg chunkIds d).1 = .ok s) {i : Nat} (hi : i < cfg.numShards)
    (hzero : 0 ∉ d.wal i) : SegmentsTracked i s := by
  obtain ⟨r, -, hwriter, hdir, -, -⟩ := openStore_shard hopen hi
  obtain ⟨writer, created, threshold, hlog, -, hdrained, hfiles⟩ :=
    openWalShard_eq cfg (d.wal i) (d.watermark i) r
  rw [hdrained] at hwriter
  rw [hfiles] at hdir
  refine ⟨by rw [hwriter]; exact hlog.file_eq, fun seg hseg => ?_⟩
  rw [Server.TracksSegment, hwriter]
  rw [hdir] at hseg
  obtain ⟨hkept, hseg⟩ := WalDir.mem_of_removes hseg
  rcases hlog.known hzero seg hseg with heq | hmem
  · exact .inl heq
  · obtain ⟨p, hp, rfl⟩ := List.mem_map.mp hmem
    refine .inr (.inl (List.mem_map.mpr ⟨p, List.mem_filter.mpr ⟨hp, ?_⟩, rfl⟩))
    by_contra hle
    exact hkept (List.mem_map.mpr ⟨p, List.mem_filter.mpr ⟨hp, by simpa using hle⟩, rfl⟩)

theorem oldKept_of_open {cfg : StorageConfig} {chunkIds : Nat → ChunkId} {d : Disk}
    {s : Server} (hopen : (openStore cfg chunkIds d).1 = .ok s) {i : Nat} (hi : i < cfg.numShards)
    (hwatermark : d.watermark i < u64Max) (hseq : (s.wals i).writer.currentSeq < u64Max) :
    OldKept i (d.wal i).last (d.wal i) s := by
  have hsweeper : s.sweeper = .next 0 := by
    obtain ⟨idx, wals, -, rfl⟩ := openStore_ok hopen
    rfl
  obtain ⟨r, -, hwriter, hdir, -, -⟩ := openStore_shard hopen hi
  have hlast := (openWalShard_spec cfg (d.wal i) (d.watermark i) r).2.1
  rw [hwriter, hlast] at hseq
  obtain ⟨writer, created, threshold, hlog, hthreshold, hdrained, hfiles⟩ :=
    openWalShard_eq cfg (d.wal i) (d.watermark i) r
  rw [hdrained] at hwriter
  rw [hfiles] at hdir
  have hlow : threshold < u64Max := by rcases hthreshold with rfl | rfl <;> assumption
  refine ⟨by rw [hwriter]; exact hlog.file_eq, by rw [hwriter]; exact hlog.above,
    fun p hp => ?_, by simp [hsweeper], fun seg hseg => ?_⟩
  · rw [hwriter] at hp
    exact hlog.completed p (List.mem_of_mem_filter hp)
  · rw [hdir, WalDir.getElem?_removes, if_neg, hlog.content seg hseg]
    intro hmem
    obtain ⟨p, hp, rfl⟩ := List.mem_map.mp hmem
    obtain ⟨hp, hle⟩ := List.mem_filter.mp hp
    have hmax := hlog.completed p hp hseg
    have hle := of_decide_eq_true hle
    omega

theorem watermarksLow_of_open {cfg : StorageConfig} {chunkIds : Nat → ChunkId} {d : Disk}
    {s : Server} (hopen : (openStore cfg chunkIds d).1 = .ok s) {i : Nat} (hi : i < cfg.numShards)
    (hwatermark : d.watermark i < u64Max) : WatermarksLow i s := by
  obtain ⟨r, -, -, -, -, hpersisted⟩ := openStore_shard hopen hi
  obtain ⟨idx, wals, -, rfl⟩ := openStore_ok hopen
  exact ⟨show 0 < u64Max by decide, hpersisted ▸ hwatermark, by simp [Server.start],
    by simp [Server.start]⟩

/-- **Earlier segments are never deleted.** Open any files and let the session
run in any way. As long as the sequence numbers are below `u64::MAX`, neither
`open` nor the sweep deletes or changes a segment below the highest one that
`open` found, however far the watermarks get. -/
theorem old_segments_kept {cfg : StorageConfig} {chunkIds : Nat → ChunkId} {d : Disk}
    {s₀ s : Server} {actions : List Action} {tr : List Event}
    (hopen : (openStore cfg chunkIds d).1 = .ok s₀)
    (hrun : Runs.run (step cfg) s₀ actions = some (s, tr)) {i : Nat} (hi : i < cfg.numShards)
    {highest : Nat} (hhighest : highestSegmentNumber (d.wal i) = some highest)
    (hwatermark : d.watermark i < u64Max) (hseq : (s₀.wals i).writer.currentSeq < u64Max)
    (hpublished : ∀ w c, .published i w c ∈ tr → w < u64Max) :
    ∀ seg < highest, (s.disk.wal i)[seg]? = (d.wal i)[seg]? := by
  have hdrain : DrainOk s₀ := by
    obtain ⟨idx, wals, -, rfl⟩ := openStore_ok hopen
    exact drainOk_start cfg _ idx wals
  obtain ⟨-, hkept⟩ : DrainOk s ∧ ((∀ w c, .published i w c ∈ [] ++ tr → w < u64Max) →
      WatermarksLow i s ∧ OldKept i (d.wal i).last (d.wal i) s) :=
    Runs.run_invariant (P := fun _ _ _ => True)
      (I := fun s tr => DrainOk s ∧ ((∀ w c, .published i w c ∈ tr → w < u64Max) →
        WatermarksLow i s ∧ OldKept i (d.wal i).last (d.wal i) s))
      (fun hinv _ hstep => by
        have hstep := step_sound hstep
        refine ⟨hinv.1.step hstep, fun hall => ?_⟩
        obtain ⟨hlow, hold⟩ := hinv.2 fun w c hmem => hall w c (List.mem_append_left _ hmem)
        exact ⟨hlow.step hstep fun w c hmem => hall w c (List.mem_append_right _ hmem),
          hold.step hlow (walMove_of_step hinv.1 hstep i)⟩)
      ⟨hdrain, fun _ => ⟨watermarksLow_of_open hopen hi hwatermark,
        oldKept_of_open hopen hi hwatermark hseq⟩⟩
      (Runs.along_of_forall (fun _ _ => trivial) s₀ []) hrun
  intro seg hseg
  refine (hkept hpublished).2.content seg ?_
  rw [WalDir.last, hhighest]
  exact hseg

end

section Example

attribute [local instance] Reference.crates

/-- A flush publishes a watermark below the bound. -/
def Event.publishesBelow (bound : Nat) : Event → Bool
  | published _ watermark _ => decide (watermark < bound)
  | _ => true

/-- After an append and a restart: two appends and two sweeps, with a snapshot
between them. The second sweep collects the first segment of the session. -/
def laterSession : List Action :=
  appendSteps 0 (cpuPoint 6 8) ++ sweepSteps 102 0 ++ snapshotSteps 0 ++
    appendSteps 1 (cpuPoint 7 9) ++ sweepSteps 103 2 ++ [.sweepDelete]

/-- Segment 1 has the entry with number 1. It is still there when the watermark
of the saved snapshot is 2 and segment 3 is gone. -/
theorem old_segments_kept_restart : ∃ s tr s₀ s₁ tr₁,
    Runs.run (step smallSegments) (.fresh smallSegments) (appendSteps 0 (cpuPoint 5 7)) =
      some (s, tr) ∧
    (openStore smallSegments (fun _ => 101) s.disk).1 = .ok s₀ ∧
    Runs.run (step smallSegments) s₀ laterSession = some (s₁, tr₁) ∧
    s₁.disk.watermark 0 = 2 ∧ 3 ∉ s₁.disk.wal 0 ∧
    ((s.disk.wal 0)[1]?).getD [] ≠ [] ∧
    (s₁.disk.wal 0)[1]? = (s.disk.wal 0)[1]? := by
  have hrun : ((Runs.run (step smallSegments) (.fresh smallSegments)
      (appendSteps 0 (cpuPoint 5 7))).any fun r =>
        (highestSegmentNumber (r.1.disk.wal 0) = some 2 && r.1.disk.watermark 0 < u64Max &&
          decide (((r.1.disk.wal 0)[1]?).getD [] ≠ [])) &&
        (openStore smallSegments (fun _ => 101) r.1.disk).1.toOption.any fun s₀ =>
          (s₀.wals 0).writer.currentSeq < u64Max &&
          (Runs.run (step smallSegments) s₀ laterSession).any fun r₁ =>
            r₁.2.all (Event.publishesBelow u64Max) && r₁.1.disk.watermark 0 = 2 &&
              decide (3 ∉ r₁.1.disk.wal 0)) = true := by decide +kernel
  obtain ⟨s, tr, hrun, hstate⟩ := Runs.exists_of_any hrun
  obtain ⟨hdisk, hstate⟩ := Bool.and_eq_true_iff.mp hstate
  obtain ⟨s₀, hopen, hstate⟩ := Runs.exists_ok_of_any hstate
  obtain ⟨hseq, hstate⟩ := Bool.and_eq_true_iff.mp hstate
  obtain ⟨s₁, tr₁, hrun₁, hstate⟩ := Runs.exists_of_any hstate
  simp only [Bool.and_eq_true, decide_eq_true_eq] at hdisk hstate hseq
  obtain ⟨⟨hhighest, hlow⟩, hfirst⟩ := hdisk
  obtain ⟨⟨hpublished, hwatermark⟩, hgone⟩ := hstate
  refine ⟨s, tr, s₀, s₁, tr₁, hrun, hopen, hrun₁, hwatermark, hgone, hfirst, ?_⟩
  exact old_segments_kept hopen hrun₁ (by decide) hhighest hlow hseq
    (fun w c hmem => of_decide_eq_true (List.all_eq_true.mp hpublished _ hmem)) 1 (by decide)

end Example

section

variable [Crates]

/-! ## Chunk files -/

omit [Crates] in
/-- The index names the chunk, a task has written it and not yet registered it,
or the compaction worker is about to delete it. -/
def Server.TracksChunk (s : Server) (c : ChunkId) : Prop :=
  c ∈ s.index.chunkFiles ∨ (∃ i result, s.sweeper = .written i result ∧ result.chunkId = c) ∨
    (∃ result ∈ s.compactor.result?, result.chunkId = c) ∨ c ∈ s.compactor.removing

/-- The tasks and the index know every chunk file but those that were lost before. -/
structure ChunksTracked (lost : ChunkId → Prop) (s : Server) : Prop where
  paths : ∀ (c : ChunkId) (m : ChunkMeta), s.index.chunkFiles[c]? = some m → m.filePath = c
  groups : ∀ group ∈ s.compactor.groups, group.Named
  merged : ∀ result ∈ s.compactor.result?, ∃ (c : Chunk) (bytes : Bytes),
    ChunkWriter.write c.id c.data = .ok (bytes, result)
  tracked : ∀ c ∈ s.disk.chunks, s.TracksChunk c ∨ lost c

namespace ChunksTracked

variable {lost : ChunkId → Prop} {s s' : Server}

omit [Crates] in
theorem mem_writeChunk {c chunkId : ChunkId} {bytes : Bytes} {d : Disk}
    (h : c ∈ (d.apply (.writeChunk chunkId bytes)).chunks) : c = chunkId ∨ c ∈ d.chunks := by
  change c ∈ d.chunks.insert chunkId bytes at h
  rw [Std.ExtTreeMap.mem_insert] at h
  exact h.imp (fun heq => (Std.LawfulEqOrd.eq_of_compare heq).symm) id

theorem paths_register (h : ChunksTracked lost s) {c : Chunk} {bytes : Bytes}
    {result : ChunkWriteResult} (hw : ChunkWriter.write c.id c.data = .ok (bytes, result))
    {c' : ChunkId} {m : ChunkMeta}
    (hm : (s.index.registerAll result.chunkMeta result.seriesResults).chunkFiles[c']? = some m) :
    m.filePath = c' := by
  rw [IndexOk.chunkFiles_chunk hw] at hm
  split at hm
  · next heq =>
    obtain rfl := Option.some.inj hm
    exact heq.symm
  · exact h.paths c' m hm

/-- A step of other tasks. -/
theorem moves (h : ChunksTracked lost s) (hindex : s'.index = s.index)
    (hdisk : s'.disk.chunks = s.disk.chunks) (hcompactor : s'.compactor = s.compactor)
    (hsweeper : ∀ i result, s.sweeper = .written i result → s'.sweeper = .written i result) :
    ChunksTracked lost s' where
  paths := by rw [hindex]; exact h.paths
  groups := by rw [hcompactor]; exact h.groups
  merged := by rw [hcompactor]; exact h.merged
  tracked c hc := by
    rw [hdisk] at hc
    rw [Server.TracksChunk, hindex, hcompactor]
    rcases h.tracked c hc with (hmem | ⟨i, result, hs, hid⟩ | hrest) | hlost
    · exact .inl (.inl hmem)
    · exact .inl (.inr (.inl ⟨i, result, hsweeper i result hs, hid⟩))
    · exact .inl (.inr (.inr hrest))
    · exact .inr hlost

theorem sweepWrite (h : ChunksTracked lost s) {i : Nat} {data : SeriesData} {chunkId : ChunkId}
    {bytes : Bytes} {result : ChunkWriteResult} (hs : s.sweeper = .drained i data)
    (hw : ChunkWriter.write chunkId data = .ok (bytes, result)) :
    ChunksTracked lost
      { s with
        disk := s.disk.apply (.writeChunk chunkId bytes)
        sweeper := .written i result } where
  paths := h.paths
  groups := h.groups
  merged := h.merged
  tracked c hc := by
    rcases mem_writeChunk hc with rfl | hc
    · exact .inl (.inr (.inl ⟨i, result, rfl, chunkId_of_write hw⟩))
    · rcases h.tracked c hc with (hmem | ⟨j, r, hs', -⟩ | hrest) | hlost
      · exact .inl (.inl hmem)
      · rw [hs] at hs'
        cases hs'
      · exact .inl (.inr (.inr hrest))
      · exact .inr hlost

theorem sweepRegister (h : ChunksTracked lost s) {i : Nat} {result : ChunkWriteResult}
    (hs : s.sweeper = .written i result) {chunk : Chunk} {bytes : Bytes}
    (hw : ChunkWriter.write chunk.id chunk.data = .ok (bytes, result)) :
    ChunksTracked lost { s with
      index := s.index.registerAll result.chunkMeta result.seriesResults
      sweeper := .registered i result } where
  paths c m hm := h.paths_register hw hm
  groups := h.groups
  merged := h.merged
  tracked c hc := by
    rcases h.tracked c hc with (hmem | ⟨j, r, hs', hid⟩ | hrest) | hlost
    · exact .inl (.inl ((IndexOk.mem_chunkFiles_chunk hw s.index c).mpr (.inr hmem)))
    · obtain ⟨-, rfl⟩ := Sweeper.written.inj (hs.symm.trans hs')
      refine .inl (.inl ((IndexOk.mem_chunkFiles_chunk hw s.index c).mpr (.inl ?_)))
      rw [← hid, chunkId_of_write hw]
    · exact .inl (.inr (.inr hrest))
    · exact .inr hlost

/-- A step of the compaction worker that has no file in its hands before it. -/
theorem compactorMoves (h : ChunksTracked lost s) {compactor : Compactor}
    (hresult : s.compactor.result? = none) (hremoving : s.compactor.removing = [])
    (hgroups : ∀ group ∈ compactor.groups, group.Named) (hnone : compactor.result? = none) :
    ChunksTracked lost { s with compactor := compactor } where
  paths := h.paths
  groups := hgroups
  merged := by simp [hnone]
  tracked c hc := by
    rcases h.tracked c hc with (hmem | hsweep | ⟨r, hr, -⟩ | hmem) | hlost
    · exact .inl (.inl hmem)
    · exact .inl (.inr (.inl hsweep))
    · rw [hresult] at hr
      cases hr
    · rw [hremoving] at hmem
      cases hmem
    · exact .inr hlost

theorem compactMerge (h : ChunksTracked lost s) {group : MergeGroup} {rest : List MergeGroup}
    (hc : s.compactor = .merging (group :: rest)) {chunkId : ChunkId} {bytes : Bytes}
    {result : ChunkWriteResult}
    (hm : mergeGroup s.disk.chunks chunkId group = .ok (bytes, result)) :
    ChunksTracked lost { s with
      disk := s.disk.apply (.writeChunk chunkId bytes)
      compactor := .merged group result rest } := by
  obtain ⟨chunk, hid, hw, -⟩ := exists_merged_chunk hm
  refine ⟨h.paths, fun g hg => h.groups g (by rw [hc]; exact hg), ?_, fun c hmem => ?_⟩
  · rintro r ⟨⟩
    exact ⟨chunk, bytes, hw⟩
  · rcases mem_writeChunk hmem with rfl | hmem
    · exact .inl (.inr (.inr (.inl ⟨result, rfl, (chunkId_of_write hw).trans hid⟩)))
    · rcases h.tracked c hmem with (hmem | hsweep | ⟨r, hr, -⟩ | hmem) | hlost
      · exact .inl (.inl hmem)
      · exact .inl (.inr (.inl hsweep))
      · rw [hc] at hr
        cases hr
      · rw [hc] at hmem
        cases hmem
      · exact .inr hlost

/-- The chunks that a merge takes out of the index are those it deletes. -/
theorem compactCommit (h : ChunksTracked lost s) {group : MergeGroup} {result : ChunkWriteResult}
    {rest : List MergeGroup} (hc : s.compactor = .merged group result rest) :
    ChunksTracked lost { s with
      index := group.commit s.index result
      compactor := .deleting (group.chunks.map Prod.snd) rest } := by
  obtain ⟨chunk, bytes, hw⟩ := h.merged result (by rw [hc]; rfl)
  have hnamed : group.Named := h.groups group (by rw [hc]; exact List.mem_cons_self)
  have hkeep : ∀ c ∈ (s.index.registerAll result.chunkMeta result.seriesResults).chunkFiles,
      c ∈ (group.commit s.index result).chunkFiles ∨ c ∈ group.chunks.map Prod.snd := by
    intro c hmem
    by_cases hgroup : c ∈ group.chunks.map Prod.fst
    · obtain ⟨x, hx, rfl⟩ := List.mem_map.mp hgroup
      exact .inr (List.mem_map.mpr ⟨x, hx, hnamed.paths x hx⟩)
    · refine .inl ?_
      rw [Std.ExtTreeMap.mem_iff_isSome_getElem?, MergeGroup.commit,
        ChunkIndex.chunkFiles_deregisterAll_of_not_mem, ← Std.ExtTreeMap.mem_iff_isSome_getElem?]
      · exact hmem
      · exact fun t ht heq => hgroup (heq ▸ hnamed.deregister t ht)
  have htracks : ∀ c ∈ (s.index.registerAll result.chunkMeta result.seriesResults).chunkFiles,
      Server.TracksChunk { s with
        index := group.commit s.index result
        compactor := .deleting (group.chunks.map Prod.snd) rest } c := fun c hmem =>
    (hkeep c hmem).elim .inl fun hdel => .inr (.inr (.inr hdel))
  refine ⟨fun c m hm => ?_, fun g hg => h.groups g (by rw [hc]; exact List.mem_cons_of_mem _ hg),
    by simp [Compactor.result?], fun c hmem => ?_⟩
  · exact h.paths_register hw (ChunkIndex.chunkFiles_of_deregisterAll _ _ hm)
  · rcases h.tracked c hmem with (hmem | hsweep | ⟨r, hr, hid⟩ | hmem) | hlost
    · exact .inl (htracks c ((IndexOk.mem_chunkFiles_chunk hw s.index c).mpr (.inr hmem)))
    · exact .inl (.inr (.inl hsweep))
    · rw [hc] at hr
      obtain rfl := Option.some.inj hr
      refine .inl (htracks c ((IndexOk.mem_chunkFiles_chunk hw s.index c).mpr (.inl ?_)))
      rw [← hid, chunkId_of_write hw]
    · rw [hc] at hmem
      cases hmem
    · exact .inr hlost

theorem compactDelete (h : ChunksTracked lost s) {path : ChunkPath} {paths : List ChunkPath}
    {rest : List MergeGroup} (hc : s.compactor = .deleting (path :: paths) rest) :
    ChunksTracked lost { s with
      disk := s.disk.apply (.removeChunk path), compactor := .deleting paths rest } := by
  refine ⟨h.paths, fun g hg => h.groups g (by rw [hc]; exact hg), by simp [Compactor.result?],
    fun c hmem => ?_⟩
  change c ∈ s.disk.chunks.erase path at hmem
  rw [Std.ExtTreeMap.mem_erase] at hmem
  obtain ⟨hne, hmem⟩ := hmem
  rcases h.tracked c hmem with (hmem | hsweep | ⟨r, hr, -⟩ | hmem) | hlost
  · exact .inl (.inl hmem)
  · exact .inl (.inr (.inl hsweep))
  · rw [hc] at hr
    cases hr
  · rw [hc] at hmem
    rcases List.mem_cons.mp hmem with rfl | hmem
    · exact absurd Std.ReflOrd.compare_self hne
    · exact .inl (.inr (.inr (.inr hmem)))
  · exact .inr hlost

/-- **Every step** keeps the chunk files in known hands. -/
theorem step {cfg : StorageConfig} {a : Action} {es : List Event} (h : ChunksTracked lost s)
    (hsweep : SweepOk cfg s) (hstep : Step cfg s a s' es) : ChunksTracked lost s' := by
  -- the sweep had no chunk in its hands
  have hmoves : ∀ {sweeper : Sweeper}, s.sweeper = sweeper →
      (∀ i result, sweeper ≠ .written i result) → s'.index = s.index →
      s'.disk.chunks = s.disk.chunks → s'.compactor = s.compactor → ChunksTracked lost s' := by
    intro sweeper hs hne hindex hdisk hcompactor
    refine h.moves hindex hdisk hcompactor fun i result hs' => ?_
    exact absurd (hs.symm.trans hs') (hne i result)
  cases hstep with
  | walDrain hfinish => exact hmoves (hsweep.drain _ _ hfinish) (by simp) rfl rfl rfl
  | sweepDrain hs hflush => exact hmoves hs (by simp) rfl rfl rfl
  | sweepSkip hs hflush => exact hmoves hs (by simp) rfl rfl rfl
  | sweepWrite hs hw hnew => exact h.sweepWrite hs hw
  | sweepFail hs hw => exact hmoves hs (by simp) rfl rfl rfl
  | @sweepRegister i result hs hlock =>
    obtain ⟨chunk, bytes, hw⟩ := hsweep.written result (by rw [hs]; rfl)
    exact h.sweepRegister hs hw
  | sweepReadSequence hs => exact hmoves hs (by simp) rfl rfl rfl
  | sweepPublish hs => exact hmoves hs (by simp) rfl rfl rfl
  | sweepRequestDrain hs => exact hmoves hs (by simp) rfl rfl rfl
  | sweepDelete hs => exact hmoves hs (by simp) rfl rfl rfl
  | sweepDone hs => exact hmoves hs (by simp) rfl rfl rfl
  | @compactFind files hc hfiles =>
    refine h.compactorMoves (by rw [hc]; rfl) (by rw [hc]; rfl) (fun g hg => ?_) rfl
    exact @named_of_candidates g ⟨s.index, s.disk.chunks⟩ h.paths cfg.compaction files hfiles hg
  | compactMerge hc hm hnew => exact h.compactMerge hc hm
  | compactFail hc hm =>
    exact h.compactorMoves (by rw [hc]; rfl) (by rw [hc]; rfl) (by simp [Compactor.groups]) rfl
  | compactCommit hc hlock => exact h.compactCommit hc
  | compactDelete hc => exact h.compactDelete hc
  | compactNext hc =>
    exact h.compactorMoves (by rw [hc]; rfl) (by rw [hc]; rfl)
      (fun g hg => h.groups g (by rw [hc]; exact hg)) rfl
  | compactEnd hc =>
    exact h.compactorMoves (by rw [hc]; rfl) (by rw [hc]; rfl) (by simp [Compactor.groups]) rfl
  | _ => exact h.moves rfl rfl rfl fun _ _ hs => hs

end ChunksTracked

/-! ## Opening the chunk directory -/

/-- The index names its files after their chunks, and every file but the lost
ones. -/
structure FilesNamed (lost : ChunkId → Prop) (idx : ChunkIndex) (chunks : ChunkDir) : Prop where
  paths : ∀ (c : ChunkId) (m : ChunkMeta), idx.chunkFiles[c]? = some m → m.filePath = c
  named : ∀ c ∈ chunks, c ∈ idx.chunkFiles ∨ lost c

theorem FilesNamed.recovers {lost : ChunkId → Prop} {idx idx' : ChunkIndex} {d : Disk}
    {chunkId : ChunkId} {points : List DataPoint} {ops : List DiskOp}
    (h : FilesNamed lost idx d.chunks) (hrec : RecoversTo idx d.chunks chunkId points idx' ops) :
    FilesNamed lost idx' (d.run ops).chunks := by
  cases hrec with
  | nothing hnil => exact h
  | @chunk bytes result hne hw hnew =>
    let chunk : Chunk := ⟨chunkId, _, nonempty_of_write hw, SeriesData.wf_empty.insertPoints points⟩
    have hw : ChunkWriter.write chunk.id chunk.data = .ok (bytes, result) := hw
    refine ⟨fun c m hm => ?_, fun c hc => ?_⟩
    · rw [IndexOk.chunkFiles_chunk hw] at hm
      split at hm
      · next heq =>
        obtain rfl := Option.some.inj hm
        exact heq.symm
      · exact h.paths c m hm
    · rcases ChunksTracked.mem_writeChunk hc with heq | hc
      · exact .inl ((IndexOk.mem_chunkFiles_chunk hw idx c).mpr (.inl heq))
      · exact (h.named c hc).imp
          (fun hmem => (IndexOk.mem_chunkFiles_chunk hw idx c).mpr (.inr hmem))
          id

theorem FilesNamed.opens {lost : ChunkId → Prop} {cfg : StorageConfig} {chunkIds : Nat → ChunkId}
    {shards : List Nat} {idx idx' : ChunkIndex} {d : Disk} {wals : List WalWriter}
    {ops : List DiskOp} (h : FilesNamed lost idx d.chunks)
    (hopens : OpensShards cfg chunkIds shards idx d idx' wals ops) :
    FilesNamed lost idx' (d.run ops).chunks := by
  induction hopens with
  | nil => exact h
  | @cons i shards idx idx' idx'' d writer wals ops ops' hturn hrest ih =>
    obtain ⟨r, chunkOps, -, hchunk, -, rfl⟩ := openShard_ok hturn
    rw [Disk.run_append]
    refine ih ?_
    rw [Disk.run_append, run_map_wal]
    exact h.recovers hchunk

/-- **No run leaks a file.** Open any files, with segments numbered from 1 and
chunk files named after their chunks, and let the session run in any way. Then
every segment is open, completed or being deleted, and every chunk file is in
the index, in the hands of the task that wrote it, or being deleted, but for
those that the snapshot did not name when the store was opened. -/
theorem no_file_leaked {cfg : StorageConfig} {chunkIds : Nat → ChunkId} {d : Disk}
    {s₀ s : Server} {actions : List Action} {tr : List Event}
    (hopen : (openStore cfg chunkIds d).1 = .ok s₀)
    (hrun : Runs.run (step cfg) s₀ actions = some (s, tr))
    (hzero : ∀ i < cfg.numShards, 0 ∉ d.wal i)
    (hpaths : ∀ (c : ChunkId) (m : ChunkMeta), d.loadedIndex.chunkFiles[c]? = some m →
      m.filePath = c) :
    (∀ i < cfg.numShards, ∀ seg ∈ s.disk.wal i, s.TracksSegment i seg) ∧
      ∀ c ∈ s.disk.chunks, s.TracksChunk c ∨ (c ∈ d.chunks ∧ c ∉ d.loadedIndex.chunkFiles) := by
  have hsegments : ∀ i < cfg.numShards, SegmentsTracked i s₀ := fun i hi =>
    segmentsTracked_of_open hopen hi (hzero i hi)
  obtain ⟨idx, wals, hopens, rfl⟩ := openStore_ok hopen
  have hnamed : FilesNamed (fun c => c ∈ d.chunks ∧ c ∉ d.loadedIndex.chunkFiles)
      d.loadedIndex d.chunks :=
    ⟨hpaths, fun c hc => (em (c ∈ d.loadedIndex.chunkFiles)).imp id fun hnot => ⟨hc, hnot⟩⟩
  obtain ⟨hpaths, hnamed⟩ := hnamed.opens hopens
  have hchunks : ChunksTracked (fun c => c ∈ d.chunks ∧ c ∉ d.loadedIndex.chunkFiles)
      (.start cfg (d.run (openStore cfg chunkIds d).2) idx wals) :=
    ⟨hpaths, by simp [Server.start, Compactor.groups], by simp [Server.start, Compactor.result?],
      fun c hc => (hnamed c hc).imp .inl id⟩
  obtain ⟨-, hsegments, hchunks⟩ := Runs.run_invariant (P := fun _ _ _ => True)
    (I := fun s _ => SweepOk cfg s ∧ (∀ i < cfg.numShards, SegmentsTracked i s) ∧
      ChunksTracked (fun c => c ∈ d.chunks ∧ c ∉ d.loadedIndex.chunkFiles) s)
    (fun hinv _ hstep => by
      obtain ⟨hsweep, hsegments, hchunks⟩ := hinv
      have hstep := step_sound hstep
      exact ⟨hsweep.step hstep,
        fun i hi => (hsegments i hi).step (walMove_of_step hsweep.drain hstep i),
        hchunks.step hsweep hstep⟩)
    ⟨.start cfg _ idx wals, hsegments, hchunks⟩
    (Runs.along_of_forall (fun _ _ => trivial) _ []) hrun
  exact ⟨fun i hi => (hsegments i hi).tracked, hchunks.tracked⟩

end

section Example

attribute [local instance] Reference.crates

/-- Two flushed chunks and their merge, of which only the file is left. -/
theorem no_file_leaked_merged : ∃ s tr,
    Runs.run (step oneShard) (.fresh oneShard) mergedRun = some (s, tr) ∧
    (102 : ChunkId) ∈ s.disk.chunks ∧ (100 : ChunkId) ∉ s.disk.chunks ∧
    ∀ c ∈ s.disk.chunks, s.TracksChunk c := by
  have hrun : (Runs.run (step oneShard) (.fresh oneShard) mergedRun).any (fun r =>
      decide ((102 : ChunkId) ∈ r.1.disk.chunks) && decide ((100 : ChunkId) ∉ r.1.disk.chunks)) =
        true := by decide +kernel
  obtain ⟨s, tr, hrun, hstate⟩ := Runs.exists_of_any hrun
  simp only [Bool.and_eq_true, decide_eq_true_eq] at hstate
  refine ⟨s, tr, hrun, hstate.1, hstate.2, fun c hc => ?_⟩
  have hempty : Disk.empty.loadedIndex = .new := rfl
  refine ((no_file_leaked (openStore_empty oneShard fun _ => 0) hrun ?_ ?_).2 c hc).resolve_right ?_
  · exact fun i _ => by simp [Disk.empty]
  · rw [hempty]
    simp [ChunkIndex.new]
  · simp [Disk.empty]

end Example

end Micius

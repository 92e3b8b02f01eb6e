import Micius.Server.Crash

/-!
# Sequence numbers across a restart

`open` resumes the WAL of a shard at the highest sequence number that
`recover` has replayed, and `recover` leaves out the entries at or below the
watermark of the snapshot. So the next number is above the watermark exactly
if the watermark is 0 or some entry above it is left in the segments. Then
all numbers of the new session are above it.
-/

namespace Micius

section

variable [Crates]

/-! ## Opening a log -/

/-- No entry appears in a log that is opened. -/
theorem mem_entries_of_creates {dir : WalDir} {ops : List WalOp}
    (hops : ∀ op ∈ ops, ∃ seg, op = .create seg ∨ op = .remove seg) {e : WalEntry}
    (he : e ∈ (dir.run ops).entries) : e ∈ dir.entries := by
  obtain ⟨buf, hbuf, he⟩ := List.mem_flatMap.mp he
  obtain ⟨x, hx, rfl⟩ := List.mem_map.mp hbuf
  have hget := Std.ExtTreeMap.mem_toList_iff_getElem?_eq_some.mp hx
  rcases files_of_creates hops hget with hnil | hold
  · rw [hnil, segmentEntries_nil] at he
    cases he
  · refine List.mem_flatMap.mpr ⟨x.2, List.mem_map.mpr ⟨x, ?_, rfl⟩, he⟩
    exact Std.ExtTreeMap.mem_toList_iff_getElem?_eq_some.mpr hold

/-- A shard of the server that `open` returns. -/
theorem openStore_shard {cfg : StorageConfig} {chunkIds : Nat → ChunkId} {d : Disk} {s : Server}
    (hopen : (openStore cfg chunkIds d).1 = .ok s) {i : Nat} (hi : i < cfg.numShards) :
    ∃ r, recover (d.wal i) (d.watermark i) = .ok r ∧
      (s.wals i).writer = (openWalShard cfg (d.wal i) (d.watermark i) r).1 ∧
      s.disk.wal i = (d.wal i).run (openWalShard cfg (d.wal i) (d.watermark i) r).2 ∧
      s.disk.snapshot = d.snapshot ∧ s.persistedWatermarks i = d.watermark i := by
  obtain ⟨idx, wals, hshards, rfl⟩ := openStore_ok hopen
  have hk : (List.range cfg.numShards)[i]? = some i := List.getElem?_range hi
  obtain ⟨r, hr, hwriter, hdir⟩ := hshards.shard List.nodup_range hk
  obtain ⟨-, hsnapshot, hwatermark⟩ := hshards.keeps
  refine ⟨r, hr, ?_, hdir, hsnapshot, hwatermark i⟩
  show (wals[i]?).getD _ = _
  rw [hwriter]
  rfl

/-! ## The new session -/

/-- The WAL task of shard `i` in a session that started after `seq`. -/
structure Resumed (i seq : Nat) (wal : WalHandle) (tr : List Event) : Prop where
  file_eq : wal.writer.file = wal.writer.currentSegment
  since : seq ≤ wal.writer.currentSeq
  seqs : ∀ seg b, .committed i seg b ∈ tr →
    seq < b.1 ∧ b.1 ≤ wal.writer.currentSeq ∧ seg ≤ wal.writer.currentSegment
  completed : ∀ p ∈ wal.writer.completedSegments, p.1 < wal.writer.currentSegment ∧
    ∀ b, .committed i p.1 b ∈ tr → b.1 ≤ p.2

namespace Resumed

variable {i seq : Nat} {wal : WalHandle} {tr es : List Event}

omit [Crates] in
theorem quiet (h : Resumed i seq wal tr) (hes : ∀ seg b, .committed i seg b ∉ es) :
    Resumed i seq wal (tr ++ es) := by
  have hmem : ∀ seg b, .committed i seg b ∈ tr ++ es → .committed i seg b ∈ tr :=
    fun seg b hb => (List.mem_append.mp hb).resolve_right (hes seg b)
  exact
    { h with
      seqs := fun seg b hb => h.seqs seg b (hmem seg b hb)
      completed := fun p hp =>
        ⟨(h.completed p hp).1, fun b hb => (h.completed p hp).2 b (hmem _ b hb)⟩ }

theorem commit (h : Resumed i seq wal tr) (reqs : List ((Nat × Nat) × List DataPoint))
    (drain : Option Nat) :
    Resumed i seq (wal.commit reqs drain) (tr ++ (numbered wal.writer.currentSeq reqs).map
      fun r => .committed i wal.writer.file (r.1, r.2.2)) := by
  have hnew : ∀ seg b, .committed i seg b ∈ (numbered wal.writer.currentSeq reqs).map
      (fun r => Event.committed i wal.writer.file (r.1, r.2.2)) →
      wal.writer.currentSeq < b.1 ∧ b.1 ≤ wal.writer.currentSeq + reqs.length ∧
        seg = wal.writer.currentSegment := by
    intro seg b hb
    obtain ⟨r, hr, heq⟩ := List.mem_map.mp hb
    obtain ⟨-, rfl, rfl⟩ := Event.committed.inj heq
    exact ⟨(lt_of_mem_numbered hr).1, (lt_of_mem_numbered hr).2, h.file_eq⟩
  refine ⟨h.file_eq, ?_, ?_, ?_⟩
  · rw [WalOk.currentSeq_commit]
    exact Nat.le_trans h.since (Nat.le_add_right ..)
  · intro seg b hb
    rw [WalOk.currentSeq_commit]
    rcases List.mem_append.mp hb with hb | hb
    · obtain ⟨hlt, hle, hseg⟩ := h.seqs seg b hb
      exact ⟨hlt, Nat.le_trans hle (Nat.le_add_right ..), hseg⟩
    · obtain ⟨hlt, hle, rfl⟩ := hnew seg b hb
      exact ⟨Nat.lt_of_le_of_lt h.since hlt, hle, Nat.le_refl _⟩
  · intro p hp
    obtain ⟨hlt, hmax⟩ := h.completed p hp
    refine ⟨hlt, fun b hb => ?_⟩
    rcases List.mem_append.mp hb with hb | hb
    · exact hmax b hb
    · exact absurd (hnew p.1 b hb).2.2 (Nat.ne_of_lt hlt)

omit [Crates] in
theorem rotateFull (h : Resumed i seq wal tr) (lastSeq : Nat) (finishing : Option (Option Nat)) :
    Resumed i seq ⟨(Micius.rotateFull wal.writer).1, lastSeq, finishing⟩ tr := by
  unfold Micius.rotateFull
  split
  · refine ⟨rfl, h.since, fun seg b hb => ?_, fun p hp => ?_⟩
    · obtain ⟨hlt, hle, hseg⟩ := h.seqs seg b hb
      exact ⟨hlt, hle, Nat.le_succ_of_le hseg⟩
    · rcases List.mem_append.mp hp with hp | hp
      · exact ⟨Nat.lt_succ_of_lt (h.completed p hp).1, (h.completed p hp).2⟩
      · rw [List.mem_singleton.mp hp]
        exact ⟨Nat.lt_succ_self _, fun b hb => (h.seqs _ b hb).2.1⟩
  · exact { h with }

omit [Crates] in
theorem drain (h : Resumed i seq wal tr) (gcSeq lastSeq : Nat)
    (finishing : Option (Option Nat)) :
    Resumed i seq ⟨(wal.writer.drainCompletedBefore gcSeq).2, lastSeq, finishing⟩ tr :=
  { h with completed := fun p hp => h.completed p (List.mem_of_mem_filter hp) }

/-- **Every step** keeps the numbers of the session above its start. -/
theorem step {cfg : StorageConfig} {s s' : Server} {a : Action} (h : Resumed i seq (s.wals i) tr)
    (hstep : Step cfg s a s' es) : Resumed i seq (s'.wals i) (tr ++ es) := by
  cases hstep with
  | @walCommit j refs drain hj hidle hrequest hnodup hwait =>
    show Resumed i seq (Function.update s.wals j _ i) _
    by_cases hij : i = j
    · subst hij
      rw [Function.update_self]
      exact h.commit _ drain
    · rw [Function.update_of_ne hij]
      refine h.quiet fun seg b hb => ?_
      obtain ⟨r, -, heq⟩ := List.mem_map.mp hb
      exact hij (Event.committed.inj heq).1.symm
  | @walFinish j hfinish =>
    show Resumed i seq (Function.update s.wals j _ i) _
    by_cases hij : i = j
    · subst hij
      rw [Function.update_self]
      exact (h.rotateFull _ _).quiet (by simp)
    · rw [Function.update_of_ne hij]
      exact h.quiet (by simp)
  | @walDrain j gcSeq hfinish =>
    show Resumed i seq (Function.update s.wals j _ i) _
    by_cases hij : i = j
    · subst hij
      rw [Function.update_self]
      exact ((h.rotateFull (s.wals i).lastSeq none).drain gcSeq _ _).quiet (by simp)
    · rw [Function.update_of_ne hij]
      exact h.quiet (by simp)
  | _ => exact h.quiet (by simp)

end Resumed

/-- Until a snapshot is saved, the garbage collection of shard `i` goes up to
the watermark `w` that `open` has read, and no segment it takes has an entry
of the session. -/
structure Unsaved (i w : Nat) (s : Server) (tr : List Event) : Prop where
  persisted : s.persistedWatermarks i = w
  storing : ∀ ws k, .storing ws k ∉ s.snapshots
  draining : ∀ gcSeq, s.sweeper = .draining i gcSeq → gcSeq = w
  drained : ∀ segs, .drained i segs ∈ tr → ∀ p ∈ segs,
    p.1 < (s.wals i).writer.currentSegment ∧ ∀ b, .committed i p.1 b ∉ tr

namespace Unsaved

variable {i w : Nat} {s s' : Server} {tr es : List Event}

omit [Crates] in
/-- Segments that were taken are below the current one, where the session writes. -/
theorem drained_later (h : Unsaved i w s tr)
    (hseg : (s.wals i).writer.currentSegment ≤ (s'.wals i).writer.currentSegment)
    (hcommitted : ∀ seg b, .committed i seg b ∈ es → (s.wals i).writer.currentSegment ≤ seg)
    {segs : List (Nat × Nat)} (hdrained : .drained i segs ∈ tr) {p : Nat × Nat} (hp : p ∈ segs) :
    p.1 < (s'.wals i).writer.currentSegment ∧ ∀ b, .committed i p.1 b ∉ tr ++ es := by
  obtain ⟨hlt, hnone⟩ := h.drained segs hdrained p hp
  refine ⟨Nat.lt_of_lt_of_le hlt hseg, fun b hb => ?_⟩
  rcases List.mem_append.mp hb with hb | hb
  · exact hnone b hb
  · exact absurd hlt (Nat.not_lt.mpr (hcommitted p.1 b hb))

omit [Crates] in
/-- A step that takes no segment. -/
theorem keep (h : Unsaved i w s tr)
    (hseg : (s.wals i).writer.currentSegment ≤ (s'.wals i).writer.currentSegment)
    (hcommitted : ∀ seg b, .committed i seg b ∈ es → (s.wals i).writer.currentSegment ≤ seg)
    (hdrained : ∀ segs, .drained i segs ∉ es)
    (hpersisted : s'.persistedWatermarks = s.persistedWatermarks)
    (hstoring : ∀ ws k, .storing ws k ∈ s'.snapshots → .storing ws k ∈ s.snapshots)
    (hdraining : ∀ gcSeq, s'.sweeper = .draining i gcSeq → gcSeq = w) :
    Unsaved i w s' (tr ++ es) where
  persisted := by rw [hpersisted, h.persisted]
  storing ws k hk := h.storing ws k (hstoring ws k hk)
  draining := hdraining
  drained segs hsegs p hp := h.drained_later hseg hcommitted
    ((List.mem_append.mp hsegs).resolve_right (hdrained segs)) hp

omit [Crates] in
theorem currentSegment_rotateFull (writer : WalWriter) :
    writer.currentSegment ≤ (rotateFull writer).1.currentSegment := by
  unfold rotateFull
  split
  · exact Nat.le_succ _
  · exact Nat.le_refl _

/-- **Every step** that saves no snapshot keeps it. -/
theorem step {cfg : StorageConfig} {a : Action} {seq : Nat} (h : Unsaved i w s tr)
    (hresumed : Resumed i seq (s.wals i) tr) (hw : w ≤ seq) (hdrain : DrainOk s)
    (hstep : Step cfg s a s' es) (hsaved : ∀ k snap, .saved k snap ∉ es) :
    Unsaved i w s' (tr ++ es) := by
  have hmoves : s'.wals = s.wals → (∀ seg b, .committed i seg b ∉ es) →
      (∀ segs, .drained i segs ∉ es) → s'.persistedWatermarks = s.persistedWatermarks →
      (∀ ws k, .storing ws k ∈ s'.snapshots → .storing ws k ∈ s.snapshots) →
      (∀ gcSeq, s'.sweeper = .draining i gcSeq → gcSeq = w) → Unsaved i w s' (tr ++ es) := by
    intro hwals hcommitted hdrained hpersisted hstoring hdraining
    exact h.keep (by rw [hwals]) (fun seg b hb => absurd hb (hcommitted seg b)) hdrained hpersisted
      hstoring hdraining
  cases hstep with
  | @walCommit j refs drain hj hidle hrequest hnodup hwait =>
    refine h.keep ?_ ?_ (by simp) rfl (fun _ _ hk => hk) h.draining
    · show _ ≤ (Function.update s.wals j _ i).writer.currentSegment
      by_cases hij : i = j
      · subst hij
        rw [Function.update_self]
        exact Nat.le_refl _
      · rw [Function.update_of_ne hij]
    · intro seg b hb
      obtain ⟨r, -, heq⟩ := List.mem_map.mp hb
      obtain ⟨rfl, rfl, -⟩ := Event.committed.inj heq
      exact Nat.le_of_eq hresumed.file_eq.symm
  | @walFinish j hfinish =>
    refine h.keep ?_ (by simp) (by simp) rfl (fun _ _ hk => hk) h.draining
    show _ ≤ (Function.update s.wals j _ i).writer.currentSegment
    by_cases hij : i = j
    · subst hij
      rw [Function.update_self]
      exact currentSegment_rotateFull _
    · rw [Function.update_of_ne hij]
  | @walDrain j gcSeq hfinish =>
    have hseg : (s.wals i).writer.currentSegment ≤ (Function.update s.wals j
        ⟨((rotateFull (s.wals j).writer).1.drainCompletedBefore gcSeq).2, (s.wals j).lastSeq, none⟩
        i).writer.currentSegment := by
      by_cases hij : i = j
      · subst hij
        rw [Function.update_self]
        exact currentSegment_rotateFull _
      · rw [Function.update_of_ne hij]
    refine ⟨h.persisted, h.storing, by simp, fun segs hsegs p hp => ?_⟩
    rcases List.mem_append.mp hsegs with hsegs | hsegs
    · exact h.drained_later hseg (by simp) hsegs hp
    · obtain ⟨rfl, rfl⟩ := Event.drained.inj (List.mem_singleton.mp hsegs)
      obtain ⟨hp, hle⟩ := List.mem_filter.mp hp
      obtain ⟨hlt, hmax⟩ := (hresumed.rotateFull (s.wals i).lastSeq none).completed p hp
      refine ⟨?_, fun b hb => ?_⟩
      · show _ < (Function.update s.wals i _ i).writer.currentSegment
        rw [Function.update_self]
        exact hlt
      · -- an entry of the session is above the watermark
        have hb : .committed i p.1 b ∈ tr := by simpa using hb
        have hgc : gcSeq = w := h.draining gcSeq (hdrain i gcSeq hfinish)
        have hlow := (hresumed.seqs p.1 b hb).1
        have hhigh := hmax b hb
        have hle : p.2 ≤ gcSeq := of_decide_eq_true hle
        omega
  | snapshotSave hk => exact absurd (List.mem_singleton_self _) (hsaved _ _)
  | snapshotStore hk hw' => exact absurd (List.mem_of_getElem? hk) (h.storing _ _)
  | sweepRequestDrain hs =>
    refine hmoves rfl (by simp) (by simp) rfl (fun _ _ hk => hk) fun gcSeq hs' => ?_
    obtain ⟨rfl, rfl⟩ := Sweeper.draining.inj hs'
    exact h.persisted
  | snapshotBegin =>
    exact hmoves rfl (by simp) (by simp) rfl (fun ws k hk => by simpa using hk) h.draining
  | snapshotLoad hk hlen =>
    refine hmoves rfl (by simp) (by simp) rfl (fun ws k hk' => ?_) h.draining
    exact (List.mem_or_eq_of_mem_set hk').resolve_right (by simp)
  | snapshotLock hk hlen =>
    refine hmoves rfl (by simp) (by simp) rfl (fun ws k hk' => ?_) h.draining
    exact (List.mem_or_eq_of_mem_set hk').resolve_right (by simp)
  | snapshotUnlock hk =>
    refine hmoves rfl (by simp) (by simp) rfl (fun ws k hk' => ?_) h.draining
    exact (List.mem_or_eq_of_mem_set hk').resolve_right (by simp)
  | sweepDrain _ _ => exact hmoves rfl (by simp) (by simp) rfl (fun _ _ hk => hk) (by simp)
  | sweepSkip _ _ => exact hmoves rfl (by simp) (by simp) rfl (fun _ _ hk => hk) (by simp)
  | sweepWrite _ _ _ => exact hmoves rfl (by simp) (by simp) rfl (fun _ _ hk => hk) (by simp)
  | sweepFail _ _ => exact hmoves rfl (by simp) (by simp) rfl (fun _ _ hk => hk) (by simp)
  | sweepRegister _ _ => exact hmoves rfl (by simp) (by simp) rfl (fun _ _ hk => hk) (by simp)
  | sweepReadSequence _ => exact hmoves rfl (by simp) (by simp) rfl (fun _ _ hk => hk) (by simp)
  | sweepPublish _ => exact hmoves rfl (by simp) (by simp) rfl (fun _ _ hk => hk) (by simp)
  | sweepDelete _ => exact hmoves rfl (by simp) (by simp) rfl (fun _ _ hk => hk) (by simp)
  | sweepDone _ => exact hmoves rfl (by simp) (by simp) rfl (fun _ _ hk => hk) (by simp)
  | _ => exact hmoves rfl (by simp) (by simp) rfl (fun _ _ hk => hk) h.draining

end Unsaved

/-! ## The theorem -/

/-- The number the WAL of shard `i` assigns next. -/
def Server.nextSequence (s : Server) (i : Nat) : Nat := (s.wals i).writer.currentSeq + 1

/-- The watermark of shard `i` is 0, or some entry above it is in the segments. -/
def Disk.HasEntryAbove (d : Disk) (i : Nat) : Prop :=
  d.watermark i = 0 ∨ ∃ e ∈ (d.wal i).entries, d.watermark i < e.sequence

instance decidableHasEntryAbove (d : Disk) (i : Nat) : Decidable (d.HasEntryAbove i) :=
  inferInstanceAs (Decidable (_ ∨ _))

/-- **Sequence numbers resume above the watermark.** Open any files. The next
number of a shard is above the shard's watermark in the snapshot, and above
every entry in its segments, exactly if the watermark is 0 or some entry
above it was in the segments. Then every batch of the session is above the
watermark, and until a snapshot is saved garbage collection takes no segment
with an entry of the session. -/
theorem sequence_resumes (cfg : StorageConfig) (chunkIds : Nat → ChunkId) {d : Disk} {s₀ : Server}
    (hopen : (openStore cfg chunkIds d).1 = .ok s₀) {i : Nat} (hi : i < cfg.numShards) :
    (s₀.disk.watermark i < s₀.nextSequence i ∧
        (∀ e ∈ (s₀.disk.wal i).entries, e.sequence < s₀.nextSequence i) ↔ d.HasEntryAbove i) ∧
      (d.HasEntryAbove i → ∀ actions s tr, Runs.run (step cfg) s₀ actions = some (s, tr) →
        (∀ seg b, .committed i seg b ∈ tr → s₀.disk.watermark i < b.1) ∧
        ((∀ k snap, .saved k snap ∉ tr) → ∀ segs, .drained i segs ∈ tr → ∀ p ∈ segs, ∀ b,
          .committed i p.1 b ∉ tr)) := by
  obtain ⟨r, hr, hwriter, hdir, hsnapshot, hpersisted⟩ := openStore_shard hopen hi
  obtain ⟨hfile, hseq, hcompleted, hops⟩ := openWalShard_spec cfg (d.wal i) (d.watermark i) r
  have hwatermark : s₀.disk.watermark i = d.watermark i := by
    rw [Disk.watermark, Disk.watermark, Disk.loadedIndex, Disk.loadedIndex, hsnapshot]
  have hnext : s₀.nextSequence i = r.lastSequence + 1 := by rw [Server.nextSequence, hwriter, hseq]
  have habove := le_lastSequence_iff hr
  rw [hwatermark, hnext]
  refine ⟨⟨fun h => habove.mp (Nat.le_of_lt_succ h.1), fun h => ?_⟩, fun h actions s tr hrun => ?_⟩
  · refine ⟨Nat.lt_succ_of_le (habove.mpr h), fun e he => Nat.lt_succ_of_le ?_⟩
    rw [hdir] at he
    exact sequence_le_lastSequence hr (habove.mpr h) (mem_entries_of_creates hops he)
  · have hstart : Resumed i r.lastSequence (s₀.wals i) [] := by
      refine ⟨by rw [hwriter, hfile], by rw [hwriter, hseq], by simp, fun p hp => ?_⟩
      rw [hwriter] at hp ⊢
      exact ⟨hcompleted p hp, by simp⟩
    have hunsaved : Unsaved i (d.watermark i) s₀ [] := by
      obtain ⟨idx, wals, -, rfl⟩ := openStore_ok hopen
      exact ⟨hpersisted, by simp [Server.start], by simp [Server.start], by simp⟩
    have hdrain : DrainOk s₀ := by
      obtain ⟨idx, wals, -, rfl⟩ := openStore_ok hopen
      intro j gcSeq hfin
      cases hfin
    obtain ⟨-, hresumed, hgc⟩ : DrainOk s ∧ Resumed i r.lastSequence (s.wals i) ([] ++ tr) ∧
        ((∀ k snap, .saved k snap ∉ [] ++ tr) → Unsaved i (d.watermark i) s ([] ++ tr)) :=
      Runs.run_invariant (P := fun _ _ _ => True)
        (I := fun s tr => DrainOk s ∧ Resumed i r.lastSequence (s.wals i) tr ∧
          ((∀ k snap, .saved k snap ∉ tr) → Unsaved i (d.watermark i) s tr))
        (fun hinv _ hstep => by
          obtain ⟨hdrain, hresumed, hgc⟩ := hinv
          have hstep := step_sound hstep
          refine ⟨hdrain.step hstep, hresumed.step hstep, fun hsaved => ?_⟩
          refine (hgc fun k snap hmem => hsaved k snap (List.mem_append_left _ hmem)).step hresumed
            (habove.mpr h) hdrain hstep fun k snap hmem => ?_
          exact hsaved k snap (List.mem_append_right _ hmem))
        ⟨hdrain, hstart, fun _ => hunsaved⟩ (Runs.along_of_forall (fun _ _ => trivial) s₀ []) hrun
    refine ⟨fun seg b hb => ?_, fun hsaved segs hsegs p hp b hb => ?_⟩
    · exact Nat.lt_of_le_of_lt (habove.mpr h) (hresumed.seqs seg b hb).1
    · exact ((hgc hsaved).drained segs hsegs p hp).2 b hb

end

/-! ## Sessions -/

section Example

attribute [local instance] Reference.crates

theorem sequence_resumes_swept : ∃ s tr s₀,
    Runs.run (step oneShard) (.fresh oneShard) durableRun = some (s, tr) ∧
    (openStore oneShard (fun _ => 101) s.disk).1 = .ok s₀ ∧ s.disk.watermark 0 = 1 ∧
    s₀.disk.watermark 0 < s₀.nextSequence 0 := by
  have hrun : ((Runs.run (step oneShard) (.fresh oneShard) durableRun).any fun r =>
      (openStore oneShard (fun _ => 101) r.1.disk).1.toOption.any fun _ =>
        r.1.disk.watermark 0 = 1 && decide (r.1.disk.HasEntryAbove 0)) = true := by
    decide +kernel
  obtain ⟨s, tr, hrun, hstate⟩ := Runs.exists_of_any hrun
  obtain ⟨s₀, hopen, hstate⟩ := Runs.exists_ok_of_any hstate
  simp only [Bool.and_eq_true, decide_eq_true_eq] at hstate
  exact ⟨s, tr, s₀, hrun, hopen, hstate.1,
    ((sequence_resumes oneShard (fun _ => 101) hopen (by decide)).1.mpr hstate.2).1⟩

/-- An append, a sweep and a snapshot: the log has nothing above the watermark. -/
def sweptRun : List Action :=
  appendSteps 0 (cpuPoint 5 7) ++ sweepSteps 100 0 ++ snapshotSteps 0

/-- The numbers start again at 1, the watermark is 1: the append of the new
session is answered, and the next `open` skips it. -/
theorem sequence_restarts : ∃ s tr s₀ s₁ tr₁ s₂,
    Runs.run (step oneShard) (.fresh oneShard) sweptRun = some (s, tr) ∧
    (openStore oneShard (fun _ => 101) s.disk).1 = .ok s₀ ∧
    s₀.disk.watermark 0 = 1 ∧ s₀.nextSequence 0 = 1 ∧
    Runs.run (step oneShard) s₀ (appendSteps 0 (cpuPoint 6 8)) = some (s₁, tr₁) ∧
    cpuPoint 6 8 ∈ ackedPoints tr₁ ∧ (openStore oneShard (fun _ => 102) s₁.disk).1 = .ok s₂ ∧
    (cpuPoint 6 8).response ∉ s₂.query oneShard (.all "cpu") := by
  have hrun : ((Runs.run (step oneShard) (.fresh oneShard) sweptRun).any fun r =>
      (openStore oneShard (fun _ => 101) r.1.disk).1.toOption.any fun s₀ =>
        s₀.disk.watermark 0 = 1 && s₀.nextSequence 0 = 1 &&
          (Runs.run (step oneShard) s₀ (appendSteps 0 (cpuPoint 6 8))).any fun r₁ =>
            ackedPoints r₁.2 = [cpuPoint 6 8] &&
              (openStore oneShard (fun _ => 102) r₁.1.disk).1.toOption.any fun s₂ =>
                decide ((cpuPoint 6 8).response ∉ s₂.query oneShard (.all "cpu"))) = true := by
    decide +kernel
  obtain ⟨s, tr, hrun, hstate⟩ := Runs.exists_of_any hrun
  obtain ⟨s₀, hopen, hstate⟩ := Runs.exists_ok_of_any hstate
  simp only [Bool.and_eq_true, decide_eq_true_eq] at hstate
  obtain ⟨⟨hwatermark, hnext⟩, hrest⟩ := hstate
  obtain ⟨s₁, tr₁, hrun₁, hrest⟩ := Runs.exists_of_any hrest
  simp only [Bool.and_eq_true, decide_eq_true_eq] at hrest
  obtain ⟨hacked, hrest⟩ := hrest
  obtain ⟨s₂, hopen₂, hlost⟩ := Runs.exists_ok_of_any hrest
  exact ⟨s, tr, s₀, s₁, tr₁, s₂, hrun, hopen, hwatermark, hnext, hrun₁, by simp [hacked], hopen₂,
    of_decide_eq_true hlost⟩

end Example

end Micius

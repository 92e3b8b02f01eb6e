import Micius.Server.Exactness
import Micius.Server.Log

/-!
# Snapshots cover their watermarks

Without compaction the index only grows. A flush registers its chunk before
it publishes its watermark, and a snapshot loads the watermarks before it
takes the index lock, so a saved index holds the chunks of all flushes whose
watermarks the snapshot has seen. The garbage collector works with persisted
watermarks, which come from saved snapshots: what it deletes is covered by
the snapshot on disk and by every later one.
-/

namespace Micius

/-- The chunks a snapshot names. -/
def IndexSnapshot.chunkIds (snapshot : IndexSnapshot) : List ChunkId :=
  snapshot.chunkFiles.map Prod.fst

theorem mem_chunkIds_saveIndex {idx : ChunkIndex} {ws : List Nat} {c : ChunkId} :
    c ∈ (saveIndex idx ws).chunkIds ↔ c ∈ idx.chunkFiles := by
  have hsome : c ∈ idx.chunkFiles ↔ ∃ m, idx.chunkFiles[c]? = some m := by
    rw [Std.ExtTreeMap.mem_iff_isSome_getElem?, Option.isSome_iff_exists]
  simp [IndexSnapshot.chunkIds, saveIndex, hsome]

/-- The watermarks a snapshot task has loaded. -/
def SnapshotTask.watermarks : SnapshotTask → List Nat
  | loading ws => ws
  | locked ws => ws
  | storing ws _ => ws
  | done => []

/-- A later snapshot holds the chunk of an earlier flush. -/
def Event.CoveredBy : Event → Event → Prop
  | .published _ _ c, .saved _ snapshot => c ∈ snapshot.chunkIds
  | _, _ => True

/-- The watermark was published by a flush of the shard, or is the initial one. -/
def Known (tr : List Event) (i w : Nat) : Prop := w = 0 ∨ ∃ c, .published i w c ∈ tr

/-- The watermark is the initial one, or the chunks of a flush that published
it and of all earlier flushes of the shard are in the snapshot on disk. -/
def Covered (snapshot : Option IndexSnapshot) (tr : List Event) (i w : Nat) : Prop :=
  w = 0 ∨ ∃ tr₁ c tr₂, tr = tr₁ ++ .published i w c :: tr₂ ∧ ∃ snap, snapshot = some snap ∧
    ∀ w' c', .published i w' c' ∈ tr₁ ++ [.published i w c] → c' ∈ snap.chunkIds

namespace Covered

variable {snapshot : Option IndexSnapshot} {tr : List Event} {i w : Nat}

theorem known (h : Covered snapshot tr i w) : Known tr i w := by
  rcases h with rfl | ⟨tr₁, c, tr₂, rfl, -⟩
  · exact .inl rfl
  · exact .inr ⟨c, by simp⟩

theorem later (h : Covered snapshot tr i w) (es : List Event) : Covered snapshot (tr ++ es) i w := by
  rcases h with rfl | ⟨tr₁, c, tr₂, rfl, hsnap⟩
  · exact .inl rfl
  · exact .inr ⟨tr₁, c, tr₂ ++ es, by simp, hsnap⟩

end Covered

theorem Known.later {tr : List Event} {i w : Nat} (h : Known tr i w) (es : List Event) :
    Known (tr ++ es) i w := by
  rcases h with rfl | ⟨c, hc⟩
  · exact .inl rfl
  · exact .inr ⟨c, List.mem_append_left es hc⟩

/-- A snapshot of an index with all published chunks covers every known watermark. -/
theorem Known.covered {tr : List Event} {i w : Nat} (h : Known tr i w) {snap : IndexSnapshot}
    (hsnap : ∀ i w c, .published i w c ∈ tr → c ∈ snap.chunkIds) :
    Covered (some snap) tr i w := by
  rcases h with rfl | ⟨c, hc⟩
  · exact .inl rfl
  · obtain ⟨tr₁, tr₂, rfl⟩ := List.append_of_mem hc
    refine .inr ⟨tr₁, c, tr₂, rfl, snap, rfl, fun w' c' hc' => hsnap i w' c' ?_⟩
    rcases List.mem_append.mp hc' with hc' | hc'
    · exact List.mem_append_left _ hc'
    · exact List.mem_append_right _ (by simp [List.mem_singleton.mp hc'])

/-- The chunk of a flush that has registered it but not yet published. -/
def Sweeper.registered? : Sweeper → Option ChunkWriteResult
  | registered _ result => some result
  | sequenceRead _ result _ => some result
  | _ => none

/-- The watermarks of a run without compaction. -/
structure GateOk (s : Server) (tr : List Event) : Prop where
  idle : s.compactor = .idle
  /-- The index has the chunk of every flush that has published. -/
  published : ∀ i w c, .published i w c ∈ tr → c ∈ s.index.chunkFiles
  registered : ∀ result ∈ s.sweeper.registered?, result.chunkId ∈ s.index.chunkFiles
  live : ∀ i, Known tr i (s.shardWatermarks i)
  loaded : ∀ t ∈ s.snapshots, ∀ i w, t.watermarks[i]? = some w → Known tr i w
  storing : ∀ ws j, .storing ws j ∈ s.snapshots → ∀ i w, ws[i]? = some w →
    Covered s.disk.snapshot tr i w
  persisted : ∀ i, Covered s.disk.snapshot tr i (s.persistedWatermarks i)
  draining : ∀ i gcSeq, s.sweeper = .draining i gcSeq → Covered s.disk.snapshot tr i gcSeq
  saved : tr.Pairwise Event.CoveredBy

namespace GateOk

variable {cfg : StorageConfig} {s s' : Server} {tr es : List Event}

theorem fresh (cfg : StorageConfig) : GateOk (.fresh cfg) [] where
  idle := rfl
  published := by simp
  registered := by simp [Server.fresh, Server.start, Sweeper.registered?]
  live _ := .inl rfl
  loaded := by simp [Server.fresh, Server.start]
  storing := by simp [Server.fresh, Server.start]
  persisted _ := .inl rfl
  draining := by simp [Server.fresh, Server.start]
  saved := .nil

/-- Events other than a published watermark and a snapshot. -/
theorem quiet (h : GateOk s tr) (hpublished : ∀ i w c, .published i w c ∉ es)
    (hsaved : ∀ k snap, .saved k snap ∉ es) : GateOk s (tr ++ es) where
  idle := h.idle
  published i w c hc := h.published i w c ((List.mem_append.mp hc).resolve_right (hpublished i w c))
  registered := h.registered
  live i := (h.live i).later es
  loaded t ht i w hw := (h.loaded t ht i w hw).later es
  storing ws j ht i w hw := (h.storing ws j ht i w hw).later es
  persisted i := (h.persisted i).later es
  draining i gcSeq hs := (h.draining i gcSeq hs).later es
  saved := by
    refine List.pairwise_append.mpr ⟨h.saved, ?_, fun e _ e' he' => ?_⟩
    · refine List.pairwise_of_forall_mem_list fun e he e' _ => ?_
      cases e with
      | published i w c => exact absurd he (hpublished i w c)
      | _ => trivial
    · cases e' with
      | saved k snap => exact absurd he' (hsaved k snap)
      | _ => cases e <;> trivial

/-- The sweep moves on; the index is as before. -/
theorem sweeperMoves (h : GateOk s tr) (hidle : s'.compactor = s.compactor)
    (hindex : s'.index = s.index) (hlive : s'.shardWatermarks = s.shardWatermarks)
    (hsnapshots : s'.snapshots = s.snapshots) (hdisk : s'.disk.snapshot = s.disk.snapshot)
    (hpersisted : s'.persistedWatermarks = s.persistedWatermarks)
    (hregistered : ∀ result ∈ s'.sweeper.registered?, result ∈ s.sweeper.registered?)
    (hdraining : ∀ i gcSeq, s'.sweeper = .draining i gcSeq →
      gcSeq = s.persistedWatermarks i) : GateOk s' tr where
  idle := hidle.trans h.idle
  published := hindex ▸ h.published
  registered result hr := hindex ▸ h.registered result (hregistered result hr)
  live := hlive ▸ h.live
  loaded := hsnapshots ▸ h.loaded
  storing := hsnapshots ▸ hdisk ▸ h.storing
  persisted := hdisk ▸ hpersisted ▸ h.persisted
  draining i gcSeq hs := by
    rw [hdisk, hdraining i gcSeq hs]
    exact h.persisted i
  saved := h.saved

/-- A snapshot task moves on without touching the disk. -/
theorem taskMoves (h : GateOk s tr) {k : Nat} {t t' : SnapshotTask} (hk : s.snapshots[k]? = some t)
    (hws : ∀ i w, t'.watermarks[i]? = some w → Known tr i w)
    (hstoring : ∀ ws j, t' = .storing ws j → ∃ j', t = .storing ws j') :
    GateOk { s with snapshots := s.snapshots.set k t' } tr :=
  { h with
    loaded := by
      intro t₁ ht₁ i w hw
      rcases List.mem_or_eq_of_mem_set ht₁ with ht₁ | rfl
      · exact h.loaded t₁ ht₁ i w hw
      · exact hws i w hw
    storing := by
      intro ws j ht₁ i w hw
      rcases List.mem_or_eq_of_mem_set ht₁ with ht₁ | ht₁
      · exact h.storing ws j ht₁ i w hw
      · obtain ⟨j', rfl⟩ := hstoring ws j ht₁.symm
        exact h.storing ws j' (List.mem_of_getElem? hk) i w hw }

/-- Publishing the watermark of a flush. -/
theorem sweepPublish (h : GateOk s tr) {i seq : Nat} {result : ChunkWriteResult}
    (hs : s.sweeper = .sequenceRead i result seq) :
    GateOk { s with
      shardWatermarks := Function.update s.shardWatermarks i seq
      sweeper := .published i } (tr ++ [.published i seq result.chunkId]) where
  idle := h.idle
  published j w c hc := by
    rcases List.mem_append.mp hc with hc | hc
    · exact h.published j w c hc
    · obtain ⟨-, -, rfl⟩ := Event.published.inj (List.mem_singleton.mp hc)
      exact h.registered result (by simp [hs, Sweeper.registered?])
  registered := by simp [Sweeper.registered?]
  live j := by
    show Known _ j (Function.update s.shardWatermarks i seq j)
    by_cases hj : j = i
    · subst hj
      rw [Function.update_self]
      exact .inr ⟨result.chunkId, by simp⟩
    · rw [Function.update_of_ne hj]
      exact (h.live j).later _
  loaded t ht j w hw := (h.loaded t ht j w hw).later _
  storing ws k ht j w hw := (h.storing ws k ht j w hw).later _
  persisted j := (h.persisted j).later _
  draining := by simp
  saved := by
    refine List.pairwise_append.mpr ⟨h.saved, List.pairwise_singleton .., fun e _ e' he' => ?_⟩
    rw [List.mem_singleton.mp he']
    cases e <;> trivial

/-- Saving a snapshot: the index has the chunks of all flushes so far. -/
theorem snapshotSave (h : GateOk s tr) {k : Nat} {ws : List Nat}
    (hk : s.snapshots[k]? = some (.locked ws)) :
    GateOk { s with
      disk := s.disk.apply (.saveSnapshot (saveIndex s.index ws))
      snapshots := s.snapshots.set k (.storing ws 0) } (tr ++ [.saved k (saveIndex s.index ws)]) := by
  have hall : ∀ i w c, .published i w c ∈ tr ++ [.saved k (saveIndex s.index ws)] →
      c ∈ (saveIndex s.index ws).chunkIds := by
    intro i w c hc
    exact mem_chunkIds_saveIndex.mpr (h.published i w c (by simpa using hc))
  have hcovered : ∀ {i w : Nat}, Known tr i w →
      Covered (some (saveIndex s.index ws)) (tr ++ [.saved k (saveIndex s.index ws)]) i w :=
    fun hknown => (hknown.later _).covered hall
  exact
    { idle := h.idle
      published := fun i w c hc => mem_chunkIds_saveIndex.mp (hall i w c hc)
      registered := h.registered
      live := fun i => (h.live i).later _
      loaded := by
        intro t ht i w hw
        rcases List.mem_or_eq_of_mem_set ht with ht | rfl
        · exact (h.loaded t ht i w hw).later _
        · exact (h.loaded _ (List.mem_of_getElem? hk) i w hw).later _
      storing := by
        intro ws' j ht i w hw
        rcases List.mem_or_eq_of_mem_set ht with ht | ht
        · exact hcovered (h.storing ws' j ht i w hw).known
        · obtain ⟨rfl, -⟩ := SnapshotTask.storing.inj ht
          exact hcovered (h.loaded _ (List.mem_of_getElem? hk) i w hw)
      persisted := fun i => hcovered (h.persisted i).known
      draining := fun i gcSeq hs => hcovered (h.draining i gcSeq hs).known
      saved := by
        refine List.pairwise_append.mpr ⟨h.saved, List.pairwise_singleton .., fun e he e' he' => ?_⟩
        rw [List.mem_singleton.mp he']
        cases e with
        | published i w c => exact hall i w c (List.mem_append_left _ he)
        | _ => trivial }

/-- Storing one persisted watermark of a saved snapshot. -/
theorem snapshotStore (h : GateOk s tr) {k i w : Nat} {ws : List Nat}
    (hk : s.snapshots[k]? = some (.storing ws i)) (hw : ws[i]? = some w) :
    GateOk { s with
      persistedWatermarks := Function.update s.persistedWatermarks i w
      snapshots := s.snapshots.set k (.storing ws (i + 1)) } tr := by
  have hmoved : GateOk { s with snapshots := s.snapshots.set k (.storing ws (i + 1)) } tr :=
    h.taskMoves hk (h.loaded (.storing ws i) (List.mem_of_getElem? hk)) fun ws' j heq =>
      ⟨i, by rw [(SnapshotTask.storing.inj heq).1]⟩
  refine { hmoved with persisted := fun j => ?_ }
  show Covered _ _ j (Function.update s.persistedWatermarks i w j)
  by_cases hj : j = i
  · subst hj
    rw [Function.update_self]
    exact h.storing ws j (List.mem_of_getElem? hk) j w hw
  · rw [Function.update_of_ne hj]
    exact h.persisted j

variable [Crates]

/-- Registering the chunk of a flush. -/
theorem sweepRegister (h : GateOk s tr) (hsweep : SweepOk cfg s) {i : Nat}
    {result : ChunkWriteResult} (hs : s.sweeper = .written i result) :
    GateOk { s with
      index := s.index.registerAll result.chunkMeta result.seriesResults
      sweeper := .registered i result } tr := by
  obtain ⟨c, bytes, hw⟩ := hsweep.written result (by simp [hs, Sweeper.result?])
  have hfiles := IndexOk.mem_chunkFiles_chunk hw s.index
  exact
    { h with
      published := fun i w c' hc' => (hfiles c').mpr (.inr (h.published i w c' hc'))
      registered := by
        rintro r ⟨⟩
        exact (hfiles _).mpr (.inl (chunkId_of_write hw))
      draining := by simp }

/-- **Every step** but those of compaction keeps the gate. -/
theorem step (h : GateOk s tr) (hsweep : SweepOk cfg s) {a : Action}
    (hstep : Step cfg s a s' es) (ha : a.isCompaction = false) : GateOk s' (tr ++ es) := by
  cases hstep with
  | walDrain hfinish =>
    exact .quiet (h.sweeperMoves rfl rfl rfl rfl rfl rfl (by simp [Sweeper.registered?]) (by simp))
      (by simp) (by simp)
  | sweepDrain hs hflush =>
    exact .quiet (h.sweeperMoves rfl rfl rfl rfl rfl rfl (by simp [Sweeper.registered?]) (by simp))
      (by simp) (by simp)
  | sweepSkip hs hflush =>
    exact .quiet (h.sweeperMoves rfl rfl rfl rfl rfl rfl (by simp [Sweeper.registered?]) (by simp))
      (by simp) (by simp)
  | sweepWrite hs hw hnew =>
    exact .quiet (h.sweeperMoves rfl rfl rfl rfl rfl rfl (by simp [Sweeper.registered?]) (by simp))
      (by simp) (by simp)
  | sweepFail hs hw =>
    exact .quiet (h.sweeperMoves rfl rfl rfl rfl rfl rfl (by simp [Sweeper.registered?]) (by simp))
      (by simp) (by simp)
  | sweepRegister hs hlock => exact .quiet (h.sweepRegister hsweep hs) (by simp) (by simp)
  | sweepReadSequence hs =>
    exact .quiet (h.sweeperMoves rfl rfl rfl rfl rfl rfl (by simp [Sweeper.registered?, hs])
      (by simp))
      (by simp) (by simp)
  | sweepPublish hs => exact h.sweepPublish hs
  | sweepRequestDrain hs =>
    refine .quiet (h.sweeperMoves rfl rfl rfl rfl rfl rfl (by simp [Sweeper.registered?]) ?_)
      (by simp) (by simp)
    rintro i gcSeq ⟨⟩
    rfl
  | sweepDelete hs =>
    exact .quiet (h.sweeperMoves rfl rfl rfl rfl rfl rfl (by simp [Sweeper.registered?]) (by simp))
      (by simp) (by simp)
  | sweepDone hs =>
    exact .quiet (h.sweeperMoves rfl rfl rfl rfl rfl rfl (by simp [Sweeper.registered?]) (by simp))
      (by simp) (by simp)
  | snapshotBegin =>
    have hquiet : GateOk s (tr ++ []) := h.quiet (by simp) (by simp)
    refine { hquiet with loaded := ?_, storing := ?_ }
    · intro t ht i w hw
      rcases List.mem_append.mp ht with ht | ht
      · exact (h.loaded t ht i w hw).later _
      · rw [List.mem_singleton.mp ht] at hw
        simp [SnapshotTask.watermarks] at hw
    · intro ws j ht
      exact hquiet.storing ws j (by simpa using ht)
  | @snapshotLoad k ws hk hlen =>
    refine .quiet (h.taskMoves hk ?_ (by simp))
      (by simp) (by simp)
    intro i w hw
    -- the watermarks loaded so far, or the live one of the next shard
    rcases Nat.lt_trichotomy i ws.length with hi | rfl | hi
    · rw [SnapshotTask.watermarks, List.getElem?_append_left hi] at hw
      exact h.loaded _ (List.mem_of_getElem? hk) i w hw
    · obtain rfl : s.shardWatermarks ws.length = w := by simpa [SnapshotTask.watermarks] using hw
      exact h.live ws.length
    · rw [SnapshotTask.watermarks, List.getElem?_eq_none (by simp; omega)] at hw
      cases hw
  | snapshotLock hk hlen =>
    exact .quiet (h.taskMoves hk (h.loaded (.loading _) (List.mem_of_getElem? hk)) (by simp))
      (by simp) (by simp)
  | snapshotSave hk => exact h.snapshotSave hk
  | snapshotStore hk hw => exact .quiet (h.snapshotStore hk hw) (by simp) (by simp)
  | snapshotUnlock hk =>
    exact .quiet (h.taskMoves hk (by simp [SnapshotTask.watermarks]) (by simp))
      (by simp) (by simp)
  | compactFind _ _ => cases ha
  | compactMerge _ _ _ => cases ha
  | compactFail _ _ => cases ha
  | compactCommit _ _ => cases ha
  | compactDelete _ => cases ha
  | compactNext _ => cases ha
  | compactEnd _ => cases ha
  | _ => exact { h.quiet (by simp) (by simp) with }

end GateOk

section

variable [Crates]

/-- What holds in every state of a run without compaction. -/
structure GatedRun (cfg : StorageConfig) (s : Server) (tr : List Event) : Prop where
  sweep : SweepOk cfg s
  wal : ∀ i < cfg.numShards, s.WalOk tr i
  gate : GateOk s tr

namespace GatedRun

variable {cfg : StorageConfig} {s s' : Server} {tr es : List Event}

theorem step (h : GatedRun cfg s tr) {a : Action} (ha : a.isCompaction = false)
    (hstep : Micius.step cfg s a = some (s', es)) : GatedRun cfg s' (tr ++ es) where
  sweep := h.sweep.step (step_sound hstep)
  wal i hi := (h.wal i hi).step (step_sound hstep)
  gate := h.gate.step h.sweep (step_sound hstep) ha

theorem run (h : GatedRun cfg s tr) {actions : List Action}
    (hcompact : ∀ a ∈ actions, a.isCompaction = false)
    (hrun : Runs.run (Micius.step cfg) s actions = some (s', es)) : GatedRun cfg s' (tr ++ es) :=
  Runs.run_invariant (P := fun _ _ a => a.isCompaction = false) (fun hinv ha hs => hinv.step ha hs) h
    (Runs.along_of_forall hcompact s tr) hrun

/-- A drained segment without entries, or with a maximum that a covered
watermark bounds. -/
theorem drained (h : GatedRun cfg s tr) {i gcSeq : Nat}
    (hfinish : (s.wals i).finishing = some (some gcSeq)) {p : Nat × Nat}
    (hp : p ∈ (rotateFull (s.wals i).writer).1.completedBefore gcSeq) :
    segmentLog tr i p.1 = [] ∨ ∃ tr₁ w c tr₂, tr = tr₁ ++ .published i w c :: tr₂ ∧ p.2 ≤ w ∧
      ∃ snap, s.disk.snapshot = some snap ∧
        ∀ w' c', .published i w' c' ∈ tr₁ ++ [.published i w c] → c' ∈ snap.chunkIds := by
  have hsweeper : s.sweeper = .draining i gcSeq := h.sweep.drain i gcSeq hfinish
  have hi : i < cfg.numShards := by
    have hshard := h.sweep.shard
    rwa [hsweeper] at hshard
  have hle : p.2 ≤ gcSeq := of_decide_eq_true (List.mem_filter.mp hp).2
  rcases h.gate.draining i gcSeq hsweeper with rfl | ⟨tr₁, c, tr₂, htr, hsnap⟩
  · -- nothing is persisted: only a segment without entries has maximum 0
    refine .inl (segmentLog_eq_nil fun b hb => ?_)
    have hmax := ((h.wal i hi).rotateFull _ rfl none).completed p (List.mem_of_mem_filter hp)
    have hpos := ((h.wal i hi).seqs p.1 b hb).1
    have hb' := hmax.2 b hb
    omega
  · exact .inr ⟨tr₁, gcSeq, c, tr₂, htr, hle, hsnap⟩

end GatedRun

/-- **Snapshots cover their watermarks and WAL garbage collection is gated on
them.** In a session on empty directories without compaction, let a step `a`
be taken after the trace `tr₁` and be followed by a run with trace `tr₂`. A
snapshot that `a` saves has the chunks of all flushes of a shard that
published before the snapshot loaded the shard's watermark. A segment that
`a` drains is empty, or its maximum is at most a published watermark; then
the chunks of that flush and of the earlier ones of the shard are in the
snapshot on disk and in all snapshots saved later. The sweep deletes the
segments that are drained, and no others. -/
theorem snapshot_covers_watermarks (cfg : StorageConfig) (chunkIds : Nat → ChunkId)
    {s₀ s₁ s₂ s₃ : Server} {as₁ as₂ : List Action} {a : Action} {tr₁ es tr₂ : List Event}
    (hopen : (openStore cfg chunkIds .empty).1 = .ok s₀)
    (hcompact : ∀ b ∈ as₁ ++ a :: as₂, b.isCompaction = false)
    (hrun₁ : Runs.run (step cfg) s₀ as₁ = some (s₁, tr₁))
    (hstep : step cfg s₁ a = some (s₂, es))
    (hrun₂ : Runs.run (step cfg) s₂ as₂ = some (s₃, tr₂)) :
    (∀ k snap, .saved k snap ∈ es → ∀ i v t₁ t₂, tr₁ = t₁ ++ .loaded k i v :: t₂ →
      ∀ w c, .published i w c ∈ t₁ → c ∈ snap.chunkIds) ∧
    ∀ i segs, .drained i segs ∈ es → s₂.sweeper = .deleting i (segs.map Prod.fst) ∧ ∀ p ∈ segs,
      (∀ bytes, (s₂.disk.wal i)[p.1]? = some bytes → bytes = []) ∨
      ∃ t₁ w c t₂, tr₁ = t₁ ++ .published i w c :: t₂ ∧ p.2 ≤ w ∧
        ∀ w' c', .published i w' c' ∈ t₁ ++ [.published i w c] →
          (∃ snap, s₂.disk.snapshot = some snap ∧ c' ∈ snap.chunkIds) ∧
          ∀ k snap, .saved k snap ∈ tr₂ → c' ∈ snap.chunkIds := by
  obtain rfl := fresh_of_openStore hopen
  have hfresh : GatedRun cfg (.fresh cfg) [] :=
    ⟨SweepOk.fresh cfg, fun i hi => walOk_fresh hi, GateOk.fresh cfg⟩
  have h₁ : GatedRun cfg s₁ tr₁ := hfresh.run (fun b hb => hcompact b (by simp [hb])) hrun₁
  have h₂ : GatedRun cfg s₂ (tr₁ ++ es) := h₁.step (hcompact a (by simp)) hstep
  have h₃ : GatedRun cfg s₃ ((tr₁ ++ es) ++ tr₂) :=
    h₂.run (fun b hb => hcompact b (by simp [hb])) hrun₂
  constructor
  · rintro k snap hsaved i v t₁ t₂ rfl w c hc
    exact (List.pairwise_append.mp h₂.gate.saved).2.2 _ (List.mem_append_left _ hc) _ hsaved
  · intro i segs hdrained
    have hstep' := step_sound hstep
    cases hstep' with
    | walDrain hfinish =>
      obtain ⟨rfl, rfl⟩ := Event.drained.inj (List.mem_singleton.mp hdrained)
      refine ⟨rfl, fun p hp => ?_⟩
      rcases h₁.drained hfinish hp with hlog | ⟨t₁, w, c, t₂, rfl, hle, snap, hsnap, hmem⟩
      · refine .inl fun bytes hget => ?_
        have hi : i < cfg.numShards := by
          have hshard := h₁.sweep.shard
          rwa [h₁.sweep.drain i _ hfinish] at hshard
        have hcontent := ((h₂.wal i hi).content p.1 bytes hget).1
        rwa [segmentLog_append, hlog] at hcontent
      · refine .inr ⟨t₁, w, c, t₂, rfl, hle, fun w' c' hc' => ⟨⟨snap, hsnap, hmem w' c' hc'⟩, ?_⟩⟩
        intro k snap' hsaved
        refine (List.pairwise_append.mp h₃.gate.saved).2.2 (.published i w' c') ?_ _ hsaved
        rcases List.mem_append.mp hc' with hc' | hc'
        · simp [hc']
        · simp [List.mem_singleton.mp hc']
    | walCommit _ _ _ _ _ =>
      obtain ⟨r, -, heq⟩ := List.mem_map.mp hdrained
      cases heq
    | _ => simp at hdrained

end

/-! ## A run with a collected segment -/

/-- One shard that starts a new segment after every batch. -/
def smallSegments : StorageConfig := { oneShard with walMaxSegmentBytes := 1 }

/-- A snapshot on a single shard. -/
def snapshotSteps (task : Nat) : List Action :=
  [.snapshotBegin, .snapshotLoad task, .snapshotLock task, .snapshotSave task, .snapshotStore task,
    .snapshotUnlock task]

/-- Segments are returned for deletion. -/
def Event.drainsSegment : Event → Bool
  | drained _ segments => !segments.isEmpty
  | _ => false

section Example

attribute [local instance] Reference.crates

/-- An append, a sweep, a snapshot, a second append and a second sweep up to
its drain request. -/
def gatedRun : List Action :=
  appendSteps 0 (cpuPoint 5 7) ++ sweepSteps 100 0 ++ snapshotSteps 0 ++
    appendSteps 1 (cpuPoint 6 8) ++
    [.sweepLock, .sweepWrite 101, .sweepRegister, .sweepReadSequence, .sweepPublish,
      .sweepRequestDrain, .walCommit 0 [] (some 1)]

theorem snapshot_covers_watermarks_drained : ∃ s₁ tr₁ s₂ es s₃ tr₂,
    Runs.run (step smallSegments) (.fresh smallSegments) gatedRun = some (s₁, tr₁) ∧
    step smallSegments s₁ (.walFinish 0) = some (s₂, es) ∧ es.any Event.drainsSegment = true ∧
    Runs.run (step smallSegments) s₂ (snapshotSteps 1) = some (s₃, tr₂) ∧
    ∀ i segs, .drained i segs ∈ es → s₂.sweeper = .deleting i (segs.map Prod.fst) ∧ ∀ p ∈ segs,
      (∀ bytes, (s₂.disk.wal i)[p.1]? = some bytes → bytes = []) ∨
      ∃ t₁ w c t₂, tr₁ = t₁ ++ .published i w c :: t₂ ∧ p.2 ≤ w ∧
        ∀ w' c', .published i w' c' ∈ t₁ ++ [.published i w c] →
          (∃ snap, s₂.disk.snapshot = some snap ∧ c' ∈ snap.chunkIds) ∧
          ∀ k snap, .saved k snap ∈ tr₂ → c' ∈ snap.chunkIds := by
  have hrun : ((Runs.run (step smallSegments) (.fresh smallSegments) gatedRun).any fun r₁ =>
      (step smallSegments r₁.1 (.walFinish 0)).any fun r₂ => r₂.2.any Event.drainsSegment &&
        (Runs.run (step smallSegments) r₂.1 (snapshotSteps 1)).isSome) = true := by decide +kernel
  obtain ⟨s₁, tr₁, hrun₁, hrest⟩ := Runs.exists_of_any hrun
  obtain ⟨s₂, es, hstep, hrest⟩ := Runs.exists_of_any hrest
  obtain ⟨hdrains, hsome⟩ := Bool.and_eq_true_iff.mp hrest
  obtain ⟨⟨s₃, tr₂⟩, hrun₂⟩ := Option.isSome_iff_exists.mp hsome
  exact ⟨s₁, tr₁, s₂, es, s₃, tr₂, hrun₁, hstep, hdrains, hrun₂,
    (snapshot_covers_watermarks smallSegments (fun _ => 0) (openStore_empty smallSegments _)
      (by decide) hrun₁ hstep hrun₂).2⟩

end Example

end Micius

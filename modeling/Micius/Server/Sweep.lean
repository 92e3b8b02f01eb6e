import Micius.Server.Start
import Micius.Server.Step

/-!
# The sweep and the WAL tasks

What holds of the sweep in every state, without any assumption on the
points: its shard exists, what it drains is sorted, what it has written is a
chunk, and a drain request in a WAL task is its own.
-/

namespace Micius

/-- The shard the sweep is at. -/
def Sweeper.shard : Sweeper → Nat
  | next i => i
  | drained i _ => i
  | written i _ => i
  | registered i _ => i
  | sequenceRead i _ _ => i
  | published i => i
  | draining i _ => i
  | deleting i _ => i

theorem nextShard_lt (cfg : StorageConfig) (i : Nat) : cfg.nextShard i < cfg.numShards :=
  Nat.mod_lt _ cfg.numShards_pos

variable [Crates]

/-- A drain request in the hands of a WAL task is the one the sweep waits for. -/
def DrainOk (s : Server) : Prop :=
  ∀ i gcSeq, (s.wals i).finishing = some (some gcSeq) → s.sweeper = .draining i gcSeq

theorem DrainOk.step {cfg : StorageConfig} {s s' : Server} {a : Action} {es : List Event}
    (h : DrainOk s) (hstep : Step cfg s a s' es) : DrainOk s' := by
  -- while the sweep is elsewhere no WAL task has a request
  have hnone : ∀ {sweeper : Sweeper}, s.sweeper = sweeper → (∀ i gcSeq, sweeper ≠ .draining i gcSeq) →
      ∀ i gcSeq, (s.wals i).finishing ≠ some (some gcSeq) :=
    fun hs hne i gcSeq hfin => hne i gcSeq (hs.symm.trans (h i gcSeq hfin))
  -- a task that has answered its batch has no request
  have hanswered : ∀ {i : Nat} {writer : WalWriter} {lastSeq j gcSeq : Nat},
      (Function.update s.wals i ⟨writer, lastSeq, none⟩ j).finishing = some (some gcSeq) →
        j ≠ i ∧ (s.wals j).finishing = some (some gcSeq) := by
    intro i writer lastSeq j gcSeq hfin
    by_cases hj : j = i
    · subst hj
      rw [Function.update_self] at hfin
      cases hfin
    · rw [Function.update_of_ne hj] at hfin
      exact ⟨hj, hfin⟩
  cases hstep with
  | @walCommit i refs drain hi hidle hrequest hnodup hwait =>
    intro j gcSeq hfin
    by_cases hj : j = i
    · subst hj
      change (Function.update s.wals j _ j).finishing = _ at hfin
      rw [Function.update_self] at hfin
      exact hrequest gcSeq (Option.some.inj hfin)
    · change (Function.update s.wals i _ j).finishing = _ at hfin
      rw [Function.update_of_ne hj] at hfin
      exact h j gcSeq hfin
  | walFinish hfinish => exact fun j gcSeq hfin => h j gcSeq (hanswered hfin).2
  | @walDrain i gcSeq hfinish =>
    intro j gcSeq' hfin
    obtain ⟨hj, hfin⟩ := hanswered hfin
    have hboth := (h i gcSeq hfinish).symm.trans (h j gcSeq' hfin)
    exact absurd (Sweeper.draining.inj hboth).1.symm hj
  | sweepDrain hs hflush => exact fun j gcSeq hfin => absurd hfin (hnone hs (by simp) j gcSeq)
  | sweepSkip hs hflush => exact fun j gcSeq hfin => absurd hfin (hnone hs (by simp) j gcSeq)
  | sweepWrite hs hw hnew => exact fun j gcSeq hfin => absurd hfin (hnone hs (by simp) j gcSeq)
  | sweepFail hs hw => exact fun j gcSeq hfin => absurd hfin (hnone hs (by simp) j gcSeq)
  | sweepRegister hs hlock => exact fun j gcSeq hfin => absurd hfin (hnone hs (by simp) j gcSeq)
  | sweepReadSequence hs => exact fun j gcSeq hfin => absurd hfin (hnone hs (by simp) j gcSeq)
  | sweepPublish hs => exact fun j gcSeq hfin => absurd hfin (hnone hs (by simp) j gcSeq)
  | sweepRequestDrain hs => exact fun j gcSeq hfin => absurd hfin (hnone hs (by simp) j gcSeq)
  | sweepDelete hs => exact fun j gcSeq hfin => absurd hfin (hnone hs (by simp) j gcSeq)
  | sweepDone hs => exact fun j gcSeq hfin => absurd hfin (hnone hs (by simp) j gcSeq)
  | _ => exact h

omit [Crates] in
theorem drainOk_start (cfg : StorageConfig) (disk : Disk) (idx : ChunkIndex)
    (wals : List WalWriter) : DrainOk (.start cfg disk idx wals) := by
  intro i gcSeq hfin
  cases hfin

/-- The chunk result in the hands of the sweep. -/
def Sweeper.result? : Sweeper → Option ChunkWriteResult
  | written _ result => some result
  | registered _ result => some result
  | sequenceRead _ result _ => some result
  | _ => none

/-- What holds of the memtables and the sweep in every state. -/
structure SweepOk (cfg : StorageConfig) (s : Server) : Prop where
  drain : DrainOk s
  shard : s.sweeper.shard < cfg.numShards
  memtables : ∀ i, (s.memtables i).entries.Wf
  drained : ∀ i data, s.sweeper = .drained i data → data.Wf
  written : ∀ result ∈ s.sweeper.result?, ∃ (c : Chunk) (bytes : Bytes),
    ChunkWriter.write c.id c.data = .ok (bytes, result)

omit [Crates] in
theorem wf_update {memtables : Nat → Memtable} (h : ∀ i, (memtables i).entries.Wf) (i : Nat)
    {m : Memtable} (hm : m.entries.Wf) (j : Nat) :
    (Function.update memtables i m j).entries.Wf := by
  by_cases hj : j = i
  · subst hj
    rwa [Function.update_self]
  · rw [Function.update_of_ne hj]
    exact h j

namespace SweepOk

variable {cfg : StorageConfig}

theorem start (cfg : StorageConfig) (disk : Disk) (idx : ChunkIndex) (wals : List WalWriter) :
    SweepOk cfg (.start cfg disk idx wals) where
  drain := drainOk_start cfg disk idx wals
  shard := cfg.numShards_pos
  memtables _ := SeriesData.wf_empty
  drained := by simp [Server.start]
  written := by simp [Server.start, Sweeper.result?]

theorem fresh (cfg : StorageConfig) : SweepOk cfg (.fresh cfg) := start cfg ..

/-- A step to a stage without points. -/
theorem moves {s s' : Server} (h : SweepOk cfg s) (hdrain : DrainOk s')
    (hmem : s'.memtables = s.memtables) (hshard : s'.sweeper.shard < cfg.numShards)
    (hdrained : ∀ i data, s'.sweeper ≠ .drained i data)
    (hresult : ∀ result ∈ s'.sweeper.result?, result ∈ s.sweeper.result?) : SweepOk cfg s' where
  drain := hdrain
  shard := hshard
  memtables := hmem ▸ h.memtables
  drained i data heq := absurd heq (hdrained i data)
  written result hr := h.written result (hresult result hr)

/-- Every step preserves it. -/
theorem step {s s' : Server} {a : Action} {es : List Event} (h : SweepOk cfg s)
    (hstep : Step cfg s a s' es) : SweepOk cfg s' := by
  have hdrain := h.drain.step hstep
  have hshard : ∀ {sweeper : Sweeper} {i : Nat}, s.sweeper = sweeper → sweeper.shard = i →
      i < cfg.numShards := by
    rintro sweeper i rfl rfl
    exact h.shard
  cases hstep with
  | walDrain hfinish =>
    exact h.moves hdrain rfl (hshard (h.drain _ _ hfinish) rfl) (by simp) (by simp [Sweeper.result?])
  | memInsert hk hall =>
    refine { h with drain := hdrain, memtables := wf_update h.memtables _ ?_ }
    rw [Memtable.entries_insertAll]
    exact (h.memtables _).insertPoints _
  | sweepDrain hs hflush =>
    exact
      { drain := hdrain
        shard := hshard hs rfl
        memtables := wf_update h.memtables _ SeriesData.wf_empty
        drained := by
          rintro i data heq
          obtain ⟨-, rfl⟩ := Sweeper.drained.inj heq
          exact h.memtables _
        written := by simp [Sweeper.result?] }
  | sweepSkip hs hflush =>
    exact h.moves hdrain rfl (nextShard_lt cfg _) (by simp) (by simp [Sweeper.result?])
  | sweepWrite hs hw hnew =>
    exact
      { drain := hdrain
        shard := hshard hs rfl
        memtables := h.memtables
        drained := by simp
        written := by
          rintro result ⟨⟩
          exact ⟨⟨_, _, nonempty_of_write hw, h.drained _ _ hs⟩, _, hw⟩ }
  | sweepFail hs hw =>
    exact h.moves hdrain rfl (nextShard_lt cfg _) (by simp) (by simp [Sweeper.result?])
  | sweepRegister hs hlock =>
    exact h.moves hdrain rfl (hshard hs rfl) (by simp) (by simp [Sweeper.result?, hs])
  | sweepReadSequence hs =>
    exact h.moves hdrain rfl (hshard hs rfl) (by simp) (by simp [Sweeper.result?, hs])
  | sweepPublish hs =>
    exact h.moves hdrain rfl (hshard hs rfl) (by simp) (by simp [Sweeper.result?])
  | sweepRequestDrain hs =>
    exact h.moves hdrain rfl (hshard hs rfl) (by simp) (by simp [Sweeper.result?])
  | sweepDelete hs =>
    exact h.moves hdrain rfl (hshard hs rfl) (by simp) (by simp [Sweeper.result?])
  | sweepDone hs =>
    exact h.moves hdrain rfl (nextShard_lt cfg _) (by simp) (by simp [Sweeper.result?])
  | _ => exact { h with drain := hdrain }

end SweepOk

end Micius

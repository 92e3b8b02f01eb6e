import Micius.Server.Logged
import Micius.Server.Reopen
import Micius.Server.SnapshotGating

/-!
# Watermarks tell what is in chunks

A watermark of a shard says: what the log has up to here is in registered
chunks. That is so if nothing of the shard is on its way to a chunk when the
sweep reads the sequence number. Then a registered chunk lies on one side of
every watermark in use, and a segment is only deleted below the watermark of
the snapshot on disk, provided that no snapshot lowers it.
-/

namespace Micius

/-! ## What a run has to respect -/

/-- The watermark of a shard in the snapshot on disk. -/
def Disk.watermark (d : Disk) (i : Nat) : Nat := d.loadedIndex.watermark i

/-- Nothing of shard `i` is between its log and the chunks: the memtable is
empty and no call has a group to insert that the log already has. -/
def Server.flushed (s : Server) (i : Nat) : Bool :=
  (s.memtables i).entries.isEmpty &&
    s.appends.all fun t => t.pending.all fun g => g.shard ≠ i || g.committed.isNone

/-- When the sweep reads the sequence number of a shard, the shard is flushed. -/
def ReadsFlushed (s : Server) (a : Action) : Bool :=
  match a, s.sweeper with
  | .sweepReadSequence, .registered i _ => s.flushed i
  | _, _ => true

/-- A snapshot is saved with watermarks no lower than those on disk. -/
def SavesForward (cfg : StorageConfig) (s : Server) : Action → Bool
  | .snapshotSave k =>
    match s.snapshots[k]? with
    | some (.locked ws) =>
      (List.range cfg.numShards).all fun i => s.disk.watermark i ≤ (ws[i]?).getD 0
    | _ => true
  | _ => true

section

variable [Crates]

/-! ## Watermarks -/

/-- What the log of shard `i` has up to `w` is in the chunks, and every chunk
lies on one side of `w`. -/
structure Covers (cs : List Chunk) (tr : List Event) (i w : Nat) : Prop where
  below : ∀ seg b, .committed i seg b ∈ tr → b.1 ≤ w → ∀ p ∈ b.2, p ∈ livePoints cs
  sides : ∀ c ∈ cs, (∀ p ∈ c.points, ∀ seg b, .committed i seg b ∈ tr → p ∈ b.2 → b.1 ≤ w) ∨
    ∀ p ∈ c.points, ∀ seg b, .committed i seg b ∈ tr → p ∈ b.2 → w < b.1

namespace Covers

variable {cs : List Chunk} {tr es : List Event} {i w : Nat}

omit [Crates] in
/-- Sequence numbers start at 1. -/
theorem zero (h : ∀ seg b, .committed i seg b ∈ tr → 0 < b.1) (cs : List Chunk) :
    Covers cs tr i 0 where
  below seg b hb hle := absurd hle (Nat.not_le.mpr (h seg b hb))
  sides _ _ := .inr fun _ _ seg b hb _ => h seg b hb

omit [Crates] in
/-- New batches, above the watermark and with points of no chunk. -/
theorem later (h : Covers cs tr i w) (hnew : ∀ seg b, .committed i seg b ∈ es →
    w < b.1 ∧ ∀ p ∈ b.2, p ∉ livePoints cs) : Covers cs (tr ++ es) i w where
  below seg b hb hle p hp := by
    rcases List.mem_append.mp hb with hb | hb
    · exact h.below seg b hb hle p hp
    · exact absurd hle (Nat.not_le.mpr (hnew seg b hb).1)
  sides c hc := by
    have hold : ∀ p ∈ c.points, ∀ seg b, .committed i seg b ∈ tr ++ es → p ∈ b.2 →
        .committed i seg b ∈ tr := by
      intro p hp seg b hb hmem
      refine (List.mem_append.mp hb).resolve_right fun hb => ?_
      exact (hnew seg b hb).2 p hmem (List.mem_flatMap.mpr ⟨c, hc, hp⟩)
    rcases h.sides c hc with hside | hside
    · exact .inl fun p hp seg b hb hmem => hside p hp seg b (hold p hp seg b hb hmem) hmem
    · exact .inr fun p hp seg b hb hmem => hside p hp seg b (hold p hp seg b hb hmem) hmem

omit [Crates] in
/-- A chunk with points of no other one is above the watermark. -/
theorem register (h : Covers cs tr i w) {c : Chunk} (hc : ∀ p ∈ c.points, p ∉ livePoints cs) :
    Covers (c :: cs) tr i w where
  below seg b hb hle p hp := List.mem_append_right c.points (h.below seg b hb hle p hp)
  sides c' hc' := by
    rcases List.mem_cons.mp hc' with rfl | hc'
    · refine .inr fun p hp seg b hb hmem => Nat.lt_of_not_le fun hle => ?_
      exact hc p hp (h.below seg b hb hle p hmem)
    · exact h.sides c' hc'

end Covers

/-! ## Segments that stay -/

omit [Crates] in
theorem mem_wal_runWal {d : Disk} {i j seg : Nat} {ops : List WalOp} (h : seg ∈ d.wal i)
    (hops : ∀ {dir : WalDir}, seg ∈ dir → seg ∈ dir.run ops) : seg ∈ (d.runWal j ops).wal i := by
  rw [Disk.wal_runWal]
  split
  · next heq => exact hops (heq ▸ h)
  · exact h

theorem mem_run_commitOps (wal : WalHandle) (reqs : List ((Nat × Nat) × List DataPoint))
    {dir : WalDir} {seg : Nat} (h : seg ∈ dir) : seg ∈ dir.run (wal.commitOps reqs) := by
  unfold WalHandle.commitOps
  split
  · exact h
  · exact Std.ExtTreeMap.mem_insert.mpr (.inr h)

omit [Crates] in
theorem mem_run_rotateFull {dir : WalDir} {writer : WalWriter} {seg : Nat} (h : seg ∈ dir) :
    seg ∈ dir.run (rotateFull writer).2 := by
  unfold rotateFull
  split
  · show seg ∈ dir.apply (.create _)
    rw [WalDir.apply]
    split
    · exact h
    · exact Std.ExtTreeMap.mem_insert.mpr (.inr h)
  · exact h

/-! ## The watermarks -/

/-- The watermark is in use for shard `i`: live, read by the sweep, or loaded
by a snapshot. -/
inductive InUse (shardWatermarks : Nat → Nat) (sweeper : Sweeper) (snapshots : List SnapshotTask)
    (i : Nat) : Nat → Prop
  | live : InUse shardWatermarks sweeper snapshots i (shardWatermarks i)
  | read {result : ChunkWriteResult} {w : Nat} (h : sweeper = .sequenceRead i result w) :
      InUse shardWatermarks sweeper snapshots i w
  | loaded {t : SnapshotTask} {w : Nat} (ht : t ∈ snapshots) (hw : t.watermarks[i]? = some w) :
      InUse shardWatermarks sweeper snapshots i w

def Server.InUse (s : Server) (i w : Nat) : Prop :=
  Micius.InUse s.shardWatermarks s.sweeper s.snapshots i w

/-- The watermark is one that the log has reached and the chunks cover. -/
def Marks (s : Server) (cs : List Chunk) (tr : List Event) (i w : Nat) : Prop :=
  w ≤ (s.wals i).writer.currentSeq ∧ Covers cs tr i w

/-- **What the watermarks say** after a trace, with the live chunks. -/
structure Durable (U : SeriesKey → Prop) (cfg : StorageConfig) (s : Server) (tr : List Event)
    (live : List Chunk) : Prop where
  marks : ∀ i < cfg.numShards, ∀ w, s.InUse i w → Marks s live tr i w
  saved : ∃ cs, IndexOk U s.disk.loadedIndex cs ∧ (∀ c ∈ cs, c ∈ live) ∧
    ∀ i < cfg.numShards, Marks s cs tr i (s.disk.watermark i)
  persisted : ∀ i < cfg.numShards, s.persistedWatermarks i ≤ s.disk.watermark i
  storing : ∀ ws k, .storing ws k ∈ s.snapshots → ∀ i < cfg.numShards, ∀ w, ws[i]? = some w →
    w ≤ s.disk.watermark i
  draining : ∀ i < cfg.numShards, ∀ gcSeq, s.sweeper = .draining i gcSeq →
    gcSeq ≤ s.disk.watermark i
  deleting : ∀ i < cfg.numShards, ∀ segs, s.sweeper = .deleting i segs → ∀ seg ∈ segs, ∀ b,
    .committed i seg b ∈ tr → b.1 ≤ s.disk.watermark i
  present : ∀ i < cfg.numShards, ∀ seg b, .committed i seg b ∈ tr →
    seg ∈ s.disk.wal i ∨ b.1 ≤ s.disk.watermark i

namespace Durable

variable {U : SeriesKey → Prop} {cfg : StorageConfig} {s s' : Server} {tr es : List Event}
  {live : List Chunk}

theorem fresh (U : SeriesKey → Prop) (cfg : StorageConfig) : Durable U cfg (.fresh cfg) [] [] := by
  have hindex : (Server.fresh cfg).disk.loadedIndex = .new := by
    rw [Disk.loadedIndex, fresh_snapshot]
    rfl
  have hzero : ∀ i, (Server.fresh cfg).disk.watermark i = 0 := by
    intro i
    rw [Disk.watermark, hindex]
    rfl
  have hcovers : ∀ i, Covers [] [] i 0 := fun i => .zero (by simp) []
  refine ⟨?_, ⟨[], hindex ▸ IndexOk.new U, by simp, fun i _ => ?_⟩, ?_, ?_, ?_, ?_, ?_⟩
  · intro i _ w hw
    cases hw with
    | live => exact ⟨Nat.zero_le _, hcovers i⟩
    | read h => cases h
    | loaded ht hw => cases ht
  · rw [hzero]
    exact ⟨Nat.zero_le _, hcovers i⟩
  · intro i _
    show ChunkIndex.new.watermark i ≤ _
    exact Nat.zero_le _
  all_goals simp [Server.fresh, Server.start]

/-- A step that writes to no log and saves no snapshot. -/
theorem keep (h : Durable U cfg s tr live) (hes : ∀ i seg b, .committed i seg b ∉ es)
    (hinUse : ∀ i < cfg.numShards, ∀ w, s'.InUse i w → s.InUse i w)
    (hwals : ∀ i, (s.wals i).writer.currentSeq ≤ (s'.wals i).writer.currentSeq)
    (hindex : s'.disk.snapshot = s.disk.snapshot)
    (hdir : ∀ i seg, seg ∈ s.disk.wal i → seg ∈ s'.disk.wal i)
    (hpersisted : ∀ i < cfg.numShards, s'.persistedWatermarks i ≤ s.disk.watermark i)
    (hstoring : ∀ ws k, .storing ws k ∈ s'.snapshots → ∃ k', .storing ws k' ∈ s.snapshots)
    (hdraining : ∀ i < cfg.numShards, ∀ gcSeq, s'.sweeper = .draining i gcSeq →
      gcSeq ≤ s.disk.watermark i)
    (hdeleting : ∀ i < cfg.numShards, ∀ segs, s'.sweeper = .deleting i segs → ∀ seg ∈ segs, ∀ b,
      .committed i seg b ∈ tr → b.1 ≤ s.disk.watermark i) :
    Durable U cfg s' (tr ++ es) live := by
  have hmem : ∀ {i seg b}, .committed i seg b ∈ tr ++ es → .committed i seg b ∈ tr :=
    fun hb => (List.mem_append.mp hb).resolve_right (hes _ _ _)
  have hloaded : s'.disk.loadedIndex = s.disk.loadedIndex := by
    rw [Disk.loadedIndex, Disk.loadedIndex, hindex]
  have hwatermark : ∀ i, s'.disk.watermark i = s.disk.watermark i := by
    intro i
    rw [Disk.watermark, Disk.watermark, hloaded]
  have hmarks : ∀ {cs i w}, Marks s cs tr i w → Marks s' cs (tr ++ es) i w := by
    rintro cs i w ⟨hle, hcov⟩
    exact ⟨Nat.le_trans hle (hwals i), hcov.later fun seg b hb => absurd hb (hes i seg b)⟩
  refine ⟨?_, ?_, ?_, ?_, ?_, ?_, ?_⟩
  · exact fun i hi w hw => hmarks (h.marks i hi w (hinUse i hi w hw))
  · obtain ⟨cs, hidx, hsub, hcov⟩ := h.saved
    refine ⟨cs, hloaded ▸ hidx, hsub, fun i hi => ?_⟩
    rw [hwatermark]
    exact hmarks (hcov i hi)
  · intro i hi
    rw [hwatermark]
    exact hpersisted i hi
  · intro ws k hk i hi w hw
    obtain ⟨k', hk'⟩ := hstoring ws k hk
    rw [hwatermark]
    exact h.storing ws k' hk' i hi w hw
  · intro i hi gcSeq hs
    rw [hwatermark]
    exact hdraining i hi gcSeq hs
  · intro i hi segs hs seg hseg b hb
    rw [hwatermark]
    exact hdeleting i hi segs hs seg hseg b (hmem hb)
  · intro i hi seg b hb
    rw [hwatermark]
    exact (h.present i hi seg b (hmem hb)).imp_left (hdir i seg)

/-- The sweep moves on. -/
theorem sweeperMoves (h : Durable U cfg s tr live) (hes : ∀ i seg b, .committed i seg b ∉ es)
    (hwals : s'.wals = s.wals) (hindex : s'.disk.snapshot = s.disk.snapshot)
    (hdir : ∀ i seg, seg ∈ s.disk.wal i → seg ∈ s'.disk.wal i)
    (hlive : s'.shardWatermarks = s.shardWatermarks)
    (hpersisted : s'.persistedWatermarks = s.persistedWatermarks)
    (hsnapshots : s'.snapshots = s.snapshots)
    (hread : ∀ i result w, s'.sweeper ≠ .sequenceRead i result w)
    (hdraining : ∀ i < cfg.numShards, ∀ gcSeq, s'.sweeper = .draining i gcSeq →
      gcSeq ≤ s.disk.watermark i)
    (hdeleting : ∀ i < cfg.numShards, ∀ segs, s'.sweeper = .deleting i segs → ∀ seg ∈ segs, ∀ b,
      .committed i seg b ∈ tr → b.1 ≤ s.disk.watermark i) :
    Durable U cfg s' (tr ++ es) live := by
  refine h.keep hes (fun i _ w hw => ?_) (fun i => by rw [hwals]) hindex hdir
    (fun i hi => by rw [hpersisted]; exact h.persisted i hi)
    (fun ws k hk => ⟨k, hsnapshots ▸ hk⟩) hdraining hdeleting
  cases hw with
  | live => exact hlive ▸ .live
  | read hs => exact absurd hs (hread _ _ _)
  | loaded ht hw => exact .loaded (hsnapshots ▸ ht) hw

/-- A snapshot task moves on without touching the disk. -/
theorem taskMoves (h : Durable U cfg s tr live) (hes : ∀ i seg b, .committed i seg b ∉ es) {k : Nat}
    {t t' : SnapshotTask} (hk : s.snapshots[k]? = some t)
    (hws : ∀ i w, t'.watermarks[i]? = some w → s.InUse i w)
    (hstoring : ∀ ws j, t' = .storing ws j → ∃ j', t = .storing ws j') :
    Durable U cfg { s with snapshots := s.snapshots.set k t' } (tr ++ es) live := by
  refine h.keep hes (fun i _ w hw => ?_) (fun _ => Nat.le_refl _) rfl (fun _ _ hseg => hseg) h.persisted
    (fun ws j hj => ?_) h.draining h.deleting
  · cases hw with
    | live => exact .live
    | read hs => exact .read hs
    | @loaded t₁ w ht₁ hw =>
      rcases List.mem_or_eq_of_mem_set ht₁ with ht₁ | rfl
      · exact .loaded ht₁ hw
      · exact hws i w hw
  · rcases List.mem_or_eq_of_mem_set hj with hj | hj
    · exact ⟨j, hj⟩
    · obtain ⟨j', rfl⟩ := hstoring ws j hj.symm
      exact ⟨j', List.mem_of_getElem? hk⟩

/-! ### The steps -/

/-- A batch is written to the log of shard `j`. -/
theorem walCommit (h : Durable U cfg s tr live) {j : Nat} (hwal : s.WalOk tr j)
    {reqs : List ((Nat × Nat) × List DataPoint)} (drain : Option Nat) (appends : List AppendTask)
    (hnew : ∀ p ∈ reqs.flatMap Prod.snd, p ∉ livePoints live) :
    Durable U cfg
      { s with
        disk := s.disk.runWal j ((s.wals j).commitOps reqs)
        wals := Function.update s.wals j ((s.wals j).commit reqs drain)
        appends := appends }
      (tr ++ (numbered (s.wals j).writer.currentSeq reqs).map
        fun r => .committed j (s.wals j).writer.file (r.1, r.2.2)) live := by
  generalize hes : (numbered (s.wals j).writer.currentSeq reqs).map
    (fun r => Event.committed j (s.wals j).writer.file (r.1, r.2.2)) = es
  have hbatch : ∀ {i seg b}, .committed i seg b ∈ es → i = j ∧ seg = (s.wals j).writer.file ∧
      (s.wals j).writer.currentSeq < b.1 ∧ ∀ p ∈ b.2, p ∉ livePoints live := by
    intro i seg b hb
    rw [← hes] at hb
    obtain ⟨r, hr, heq⟩ := List.mem_map.mp hb
    obtain ⟨rfl, rfl, rfl⟩ := Event.committed.inj heq
    exact ⟨rfl, rfl, (lt_of_mem_numbered hr).1, fun p hp =>
      hnew p (List.mem_flatMap.mpr ⟨r.2, mem_of_mem_numbered hr, hp⟩)⟩
  have hseq : ∀ i, (s.wals i).writer.currentSeq ≤
      (Function.update s.wals j ((s.wals j).commit reqs drain) i).writer.currentSeq := by
    intro i
    by_cases hi : i = j
    · subst hi
      rw [Function.update_self, WalOk.currentSeq_commit]
      exact Nat.le_add_right ..
    · rw [Function.update_of_ne hi]
  have hmarks : ∀ {cs i w}, (∀ c ∈ cs, c ∈ live) → Marks s cs tr i w →
      w ≤ (Function.update s.wals j ((s.wals j).commit reqs drain) i).writer.currentSeq ∧
        Covers cs (tr ++ es) i w := by
    rintro cs i w hsub ⟨hle, hcov⟩
    refine ⟨Nat.le_trans hle (hseq i), hcov.later fun seg b hb => ?_⟩
    obtain ⟨rfl, -, hlt, hfree⟩ := hbatch hb
    refine ⟨Nat.lt_of_le_of_lt hle hlt, fun p hp hmem => hfree p hp ?_⟩
    obtain ⟨c, hc, hp⟩ := List.mem_flatMap.mp hmem
    exact List.mem_flatMap.mpr ⟨c, hsub c hc, hp⟩
  -- the segment being written is there
  have hdir : ∀ i seg, seg ∈ s.disk.wal i →
      seg ∈ (s.disk.runWal j ((s.wals j).commitOps reqs)).wal i :=
    fun i seg hseg => mem_wal_runWal hseg fun h => mem_run_commitOps _ _ h
  have hcurrent : (s.wals j).writer.file ∈ s.disk.wal j := by
    rw [hwal.file_eq]
    exact hwal.current
  refine ⟨?_, ?_, h.persisted, h.storing, h.draining, ?_, ?_⟩
  · intro i hi w hw
    refine hmarks (fun c hc => hc) (h.marks i hi w ?_)
    cases hw with
    | live => exact .live
    | read hs => exact .read hs
    | loaded ht hw => exact .loaded ht hw
  · obtain ⟨cs, hidx, hsub, hcov⟩ := h.saved
    exact ⟨cs, hidx, hsub, fun i hi => hmarks hsub (hcov i hi)⟩
  · intro i hi segs hs seg hseg b hb
    rcases List.mem_append.mp hb with hb | hb
    · exact h.deleting i hi segs hs seg hseg b hb
    · -- the sweep deletes completed segments only
      obtain ⟨rfl, rfl, -⟩ := hbatch hb
      have hlt := hwal.deleting segs hs _ hseg
      rw [hwal.file_eq] at hlt
      exact absurd hlt (Nat.lt_irrefl _)
  · intro i hi seg b hb
    rcases List.mem_append.mp hb with hb | hb
    · exact (h.present i hi seg b hb).imp_left (hdir i seg)
    · obtain ⟨rfl, rfl, -⟩ := hbatch hb
      exact .inl (hdir i _ hcurrent)

omit [Crates] in
theorem currentSeq_rotateFull (writer : WalWriter) :
    (rotateFull writer).1.currentSeq = writer.currentSeq := by
  unfold rotateFull
  split <;> rfl

/-- The WAL task ends a batch. -/
theorem walFinish (h : Durable U cfg s tr live) (hes : ∀ i seg b, .committed i seg b ∉ es) {j : Nat}
    {writer : WalWriter} (hwriter : writer.currentSeq = (s.wals j).writer.currentSeq)
    {lastSeq : Nat} {finishing : Option (Option Nat)} (sweeper : Sweeper)
    (hread : ∀ i result w, sweeper = .sequenceRead i result w → s.sweeper = sweeper)
    (hdraining : ∀ i gcSeq, sweeper = .draining i gcSeq → s.sweeper = sweeper)
    (hdeleting : ∀ i < cfg.numShards, ∀ segs, sweeper = .deleting i segs → ∀ seg ∈ segs, ∀ b,
      .committed i seg b ∈ tr → b.1 ≤ s.disk.watermark i) :
    Durable U cfg
      { s with
        disk := s.disk.runWal j (rotateFull (s.wals j).writer).2
        wals := Function.update s.wals j ⟨writer, lastSeq, finishing⟩
        sweeper := sweeper } (tr ++ es) live := by
  refine h.keep hes (fun i _ w hw => ?_) (fun i => ?_) rfl (fun i seg hseg => ?_) h.persisted
    (fun ws k hk => ⟨k, hk⟩)
    (fun i hi gcSeq hs => h.draining i hi gcSeq ((hdraining i gcSeq hs).trans hs)) hdeleting
  · cases hw with
    | live => exact .live
    | read hs => exact .read ((hread _ _ _ hs).trans hs)
    | loaded ht hw => exact .loaded ht hw
  · show _ ≤ (Function.update s.wals j _ i).writer.currentSeq
    by_cases hi : i = j
    · subst hi
      rw [Function.update_self]
      exact Nat.le_of_eq hwriter.symm
    · rw [Function.update_of_ne hi]
  · exact mem_wal_runWal hseg mem_run_rotateFull

/-- A segment is deleted. -/
theorem sweepDelete (h : Durable U cfg s tr live) {j seg : Nat} {segs : List Nat}
    (hs : s.sweeper = .deleting j (seg :: segs)) :
    Durable U cfg
      { s with
        disk := s.disk.runWal j [.remove seg]
        sweeper := .deleting j segs } tr live := by
  refine ⟨?_, h.saved, h.persisted, h.storing, by simp, ?_, ?_⟩
  · intro i hi w hw
    refine h.marks i hi w ?_
    cases hw with
    | live => exact .live
    | read hs => cases hs
    | loaded ht hw => exact .loaded ht hw
  · intro i hi segs' hs' seg' hseg' b hb
    obtain ⟨rfl, rfl⟩ := Sweeper.deleting.inj hs'
    exact h.deleting j hi (seg :: segs) hs seg' (by simp [hseg']) b hb
  · intro i hi seg' b hb
    rcases h.present i hi seg' b hb with hmem | hle
    · by_cases hsame : i = j ∧ seg' = seg
      · obtain ⟨rfl, rfl⟩ := hsame
        exact .inr (h.deleting i hi (seg' :: segs) hs seg' (by simp) b hb)
      · refine .inl ?_
        show seg' ∈ Function.update s.disk.wal j _ i
        by_cases hij : i = j
        · subst hij
          rw [Function.update_self]
          exact Std.ExtTreeMap.mem_erase.mpr ⟨by simpa using fun heq => hsame ⟨rfl, heq.symm⟩, hmem⟩
        · rwa [Function.update_of_ne hij]
    · exact .inr hle

/-- The sweep reads the sequence number of a flushed shard. -/
theorem sweepReadSequence (h : Durable U cfg s tr live) {j : Nat} (result : ChunkWriteResult)
    (hwal : s.WalOk tr j)
    (hall : ∀ seg b, .committed j seg b ∈ tr → ∀ p ∈ b.2, p ∈ livePoints live) :
    Durable U cfg { s with sweeper := .sequenceRead j result (s.wals j).lastSeq } tr live := by
  have hmark : Marks s live tr j (s.wals j).lastSeq :=
    ⟨hwal.published, fun seg b hb _ => hall seg b hb,
      fun c _ => .inl fun p _ seg b hb _ => (hwal.seqs seg b hb).2.1⟩
  refine { h with marks := ?_, draining := by simp, deleting := by simp }
  intro i hi w hw
  cases hw with
  | live => exact h.marks i hi _ .live
  | read hs' =>
    obtain ⟨rfl, -, rfl⟩ := Sweeper.sequenceRead.inj hs'
    exact hmark
  | loaded ht hw => exact h.marks i hi w (.loaded ht hw)

/-- The sweep publishes the sequence number it has read. -/
theorem sweepPublish (h : Durable U cfg s tr live) (hes : ∀ i seg b, .committed i seg b ∉ es)
    {i seq : Nat} {result : ChunkWriteResult} (hs : s.sweeper = .sequenceRead i result seq) :
    Durable U cfg
      { s with
        shardWatermarks := Function.update s.shardWatermarks i seq
        sweeper := .published i } (tr ++ es) live := by
  refine h.keep hes (fun j _ w hw => ?_) (fun _ => Nat.le_refl _) rfl (fun _ _ hseg => hseg)
    h.persisted (fun ws k hk => ⟨k, hk⟩) (by simp) (by simp)
  cases hw with
  | live =>
    show s.InUse j (Function.update s.shardWatermarks i seq j)
    by_cases hj : j = i
    · subst hj
      rw [Function.update_self]
      exact .read hs
    · rw [Function.update_of_ne hj]
      exact .live
  | read hs' => cases hs'
  | loaded ht hw => exact .loaded ht hw

/-- A snapshot task starts, with no watermark loaded. -/
theorem snapshotBegin (h : Durable U cfg s tr live) (hes : ∀ i seg b, .committed i seg b ∉ es) :
    Durable U cfg { s with snapshots := s.snapshots ++ [.loading []] } (tr ++ es) live := by
  refine h.keep hes (fun i _ w hw => ?_) (fun _ => Nat.le_refl _) rfl (fun _ _ hseg => hseg)
    h.persisted (fun ws k hk => ⟨k, by simpa using hk⟩) h.draining h.deleting
  cases hw with
  | live => exact .live
  | read hs => exact .read hs
  | loaded ht hw =>
    rcases List.mem_append.mp ht with ht | ht
    · exact .loaded ht hw
    · rw [List.mem_singleton.mp ht] at hw
      simp [SnapshotTask.watermarks] at hw

/-- A snapshot task loads the watermark of the next shard. -/
theorem snapshotLoad (h : Durable U cfg s tr live) (hes : ∀ i seg b, .committed i seg b ∉ es)
    {k : Nat} {ws : List Nat} (hk : s.snapshots[k]? = some (.loading ws)) :
    Durable U cfg
      { s with snapshots := s.snapshots.set k (.loading (ws ++ [s.shardWatermarks ws.length])) }
      (tr ++ es) live := by
  refine h.taskMoves hes hk (fun i w hw => ?_) (by simp)
  -- the watermarks loaded so far, or the live one of the next shard
  rcases Nat.lt_trichotomy i ws.length with hi | rfl | hi
  · rw [SnapshotTask.watermarks, List.getElem?_append_left hi] at hw
    exact .loaded (List.mem_of_getElem? hk) hw
  · obtain rfl : s.shardWatermarks ws.length = w := by simpa [SnapshotTask.watermarks] using hw
    exact .live
  · rw [SnapshotTask.watermarks, List.getElem?_eq_none (by simp; omega)] at hw
    cases hw

/-- The watermark of a shard in a saved snapshot is stored as persisted. -/
theorem snapshotStore (h : Durable U cfg s tr live) (hes : ∀ i seg b, .committed i seg b ∉ es)
    {k i w : Nat} {ws : List Nat} (hk : s.snapshots[k]? = some (.storing ws i))
    (hw : ws[i]? = some w) :
    Durable U cfg
      { s with
        persistedWatermarks := Function.update s.persistedWatermarks i w
        snapshots := s.snapshots.set k (.storing ws (i + 1)) } (tr ++ es) live := by
  have hmoved : Durable U cfg
      { s with snapshots := s.snapshots.set k (.storing ws (i + 1)) } (tr ++ es) live :=
    h.taskMoves hes hk (fun j w hw => .loaded (List.mem_of_getElem? hk) hw)
      fun ws' j heq => ⟨i, by rw [(SnapshotTask.storing.inj heq).1]⟩
  refine { hmoved with persisted := fun j hj => ?_ }
  show Function.update s.persistedWatermarks i w j ≤ _
  by_cases hji : j = i
  · subst hji
    rw [Function.update_self]
    exact h.storing ws j (List.mem_of_getElem? hk) j hj w hw
  · rw [Function.update_of_ne hji]
    exact h.persisted j hj

/-- A snapshot is saved. -/
theorem snapshotSave (h : Durable U cfg s tr live) (hidx : IndexOk U s.index live) {k : Nat}
    {ws : List Nat} (hk : s.snapshots[k]? = some (.locked ws))
    (hpos : ∀ i < cfg.numShards, ∀ seg b, .committed i seg b ∈ tr → 0 < b.1)
    (hforward : ∀ i < cfg.numShards, s.disk.watermark i ≤ (ws[i]?).getD 0) :
    Durable U cfg
      { s with
        disk := s.disk.apply (.saveSnapshot (saveIndex s.index ws))
        snapshots := s.snapshots.set k (.storing ws 0) } tr live := by
  have hloaded : (s.disk.apply (.saveSnapshot (saveIndex s.index ws))).loadedIndex =
      rebuildIndex (saveIndex s.index ws) := rfl
  have hwatermark : ∀ i, (s.disk.apply (.saveSnapshot (saveIndex s.index ws))).watermark i =
      (ws[i]?).getD 0 := fun i => rfl
  have hmark : ∀ i < cfg.numShards, Marks s live tr i ((ws[i]?).getD 0) := by
    intro i hi
    cases hw : ws[i]? with
    | none => exact ⟨Nat.zero_le _, .zero (hpos i hi) live⟩
    | some w => exact h.marks i hi w (.loaded (List.mem_of_getElem? hk) hw)
  refine ⟨?_, ?_, ?_, ?_, ?_, ?_, ?_⟩
  · intro i hi w hw
    refine h.marks i hi w ?_
    cases hw with
    | live => exact .live
    | read hs => exact .read hs
    | loaded ht hw =>
      rcases List.mem_or_eq_of_mem_set ht with ht | rfl
      · exact .loaded ht hw
      · exact .loaded (List.mem_of_getElem? hk) hw
  · exact ⟨live, hloaded ▸ hidx.rebuild ws, fun c hc => hc, hmark⟩
  · exact fun i hi => Nat.le_trans (h.persisted i hi) (hforward i hi)
  · intro ws' j hj i hi w hw
    rcases List.mem_or_eq_of_mem_set hj with hj | hj
    · exact Nat.le_trans (h.storing ws' j hj i hi w hw) (hforward i hi)
    · obtain ⟨rfl, -⟩ := SnapshotTask.storing.inj hj
      rw [hwatermark, hw]
      exact Nat.le_refl _
  · exact fun i hi gcSeq hs => Nat.le_trans (h.draining i hi gcSeq hs) (hforward i hi)
  · exact fun i hi segs hs seg hseg b hb =>
      Nat.le_trans (h.deleting i hi segs hs seg hseg b hb) (hforward i hi)
  · intro i hi seg b hb
    exact (h.present i hi seg b hb).imp_right fun hle => Nat.le_trans hle (hforward i hi)

/-- The live chunks grow by one without common points. -/
theorem register (h : Durable U cfg s tr live) {c : Chunk}
    (hc : ∀ p ∈ c.points, p ∉ livePoints live) : Durable U cfg s tr (c :: live) :=
  { h with
    marks := fun i hi w hw =>
      ⟨(h.marks i hi w hw).1, (h.marks i hi w hw).2.register hc⟩
    saved := by
      obtain ⟨cs, hidx, hsub, hcov⟩ := h.saved
      exact ⟨cs, hidx, fun c' hc' => List.mem_cons_of_mem c (hsub c' hc'), hcov⟩ }

end Durable

/-! ## Runs -/

/-- What holds in every state of a run without compaction. The points `kept`
are in their places, those of `lost` in none: a flush had drained them and
failed. -/
structure LossyRun (U : SeriesKey → Prop) (cfg : StorageConfig) (s : Server) (tr : List Event)
    (kept lost : List DataPoint) (live flight : List Chunk) : Prop where
  sweep : SweepOk cfg s
  routed : Routed cfg s
  wal : ∀ i < cfg.numShards, s.WalOk tr i
  calls : CallsKeep s.appends tr
  logged : LoggedOnce cfg s tr
  distinct : Distinct (requestedPoints tr)
  keys : ∀ p ∈ requestedPoints tr, U p.key
  store : StoreOk U cfg s kept (createdChunks tr) live flight []
  points : (requestedPoints tr).Perm (kept ++ lost)

namespace LossyRun

variable {U : SeriesKey → Prop} {cfg : StorageConfig} {s s' : Server} {tr es : List Event}
  {kept lost : List DataPoint} {live flight : List Chunk}

/-- The points in the logs are distinct, and apart from those that wait. -/
theorem distinct_logged (h : LossyRun U cfg s tr kept lost live flight) :
    Distinct (unloggedPoints s.appends ++ loggedPoints tr) :=
  h.distinct.of_perm h.logged.points

theorem mem_kept (h : LossyRun U cfg s tr kept lost live flight) {p : DataPoint}
    (hp : p ∈ requestedPoints tr) (hlost : p ∉ lost) : p ∈ kept :=
  (List.mem_append.mp (h.points.mem_iff.mp hp)).resolve_right hlost

/-- A point that is not in a chunk yet. -/
theorem not_mem_live (h : LossyRun U cfg s tr kept lost live flight) {p : DataPoint}
    (hp : p ∈ pendingPoints s.appends ∨ p ∈ livePoints flight) : p ∉ livePoints live := by
  have hplaces := h.store.distinct_places
  intro hlive
  rcases hp with hp | hp
  · exact hplaces.slot_ne hp (by simp [hlive]) rfl
  · have hflight : Distinct (livePoints flight ++ livePoints live) :=
      hplaces.sublist (List.sublist_append_of_sublist_right
        (List.sublist_append_of_sublist_right (List.sublist_append_right ..)))
    exact hflight.slot_ne hp hlive rfl

/-- In a flushed shard that has lost nothing, with the sweep past its chunk,
the log is in the chunks. -/
theorem live_of_flushed (h : LossyRun U cfg s tr kept lost live flight) {i : Nat}
    (hlost : ∀ p ∈ lost, shardIndex p cfg.numShards ≠ i) {result : ChunkWriteResult}
    (hs : s.sweeper = .registered i result) (hflushed : s.flushed i = true) {seg : Nat} {b : Batch}
    (hb : .committed i seg b ∈ tr) {p : DataPoint} (hp : p ∈ b.2) : p ∈ livePoints live := by
  obtain ⟨hmem, hgroups⟩ := Bool.and_eq_true_iff.mp hflushed
  have hshard := (h.logged.routed i seg b hb).2 p hp
  have hlogged : p ∈ loggedPoints tr := mem_loggedPoints.mpr ⟨i, seg, b, hb, hp⟩
  have hflight : flight = [] := h.store.sweeper.eq_nil (by simp [hs])
  have hreq := h.logged.points.mem_iff.mpr (List.mem_append_right _ hlogged)
  have hplace := h.store.points.mem_iff.mp (h.mem_kept hreq fun hp => hlost p hp hshard)
  rw [hs, hflight] at hplace
  rcases List.mem_append.mp hplace with hplace | hplace
  · -- a group of the shard that still waits for its log
    obtain ⟨t, ht, hplace⟩ := List.mem_flatMap.mp hplace
    obtain ⟨g, hg, hpg⟩ := List.mem_flatMap.mp hplace
    have hg' := List.all_eq_true.mp (List.all_eq_true.mp hgroups t ht) g hg
    have hnone : g.committed.isNone = true := by
      rw [← h.routed.pending t ht g hg p hpg, hshard] at hg'
      simpa using hg'
    have hunlogged : p ∈ unloggedPoints s.appends :=
      List.mem_flatMap.mpr ⟨t, ht, List.mem_flatMap.mpr ⟨g, hg, by rwa [Group.unlogged, if_pos hnone]⟩⟩
    exact absurd rfl (h.distinct_logged.slot_ne hunlogged hlogged)
  · rcases List.mem_append.mp hplace with hplace | hplace
    · -- the memtable of the shard is empty
      obtain ⟨j, -, hplace⟩ := List.mem_flatMap.mp hplace
      obtain rfl : i = j := hshard.symm.trans (h.routed.memtables j p hplace)
      rw [Std.ExtTreeMap.isEmpty_iff.mp hmem, SeriesData.points_empty] at hplace
      cases hplace
    · exact hplace

/-- **One step**: the live chunks grow by what the sweep registers. -/
theorem step (hU : KeysOk U) (h : LossyRun U cfg s tr kept lost live flight) {a : Action}
    (hok : StepsOk U s tr a) (hfits : BatchesFit s a) (hcompact : a.isCompaction = false)
    (hstep : Step cfg s a s' es) :
    ∃ live' flight', LossyRun U cfg s' (tr ++ es) (kept ++ a.points) lost live' flight' ∧
      (live' = live ∨ ∃ c, a = .sweepRegister ∧ flight = [c] ∧ live' = c :: live) := by
  obtain ⟨⟨hdist, hkeys⟩, hsize, hfresh⟩ := hok
  have hperm : (requestedPoints tr ++ a.points).Perm (kept ++ a.points ++ lost) := by
    refine (h.points.append_right _).trans ?_
    rw [List.append_assoc, List.append_assoc]
    exact List.perm_append_comm.append_left _
  have hkept : Distinct (kept ++ a.points) :=
    (hdist.of_perm hperm).sublist (List.sublist_append_left ..)
  obtain ⟨live', flight', hstore, hmove⟩ :=
    h.store.chunkMove hU h.sweep hkept hkeys hsize hfresh hcompact hstep
  have hrequested : requestedPoints (tr ++ es) = requestedPoints tr ++ a.points := by
    rw [requestedPoints_append, requestedPoints_step hstep]
  refine ⟨live', flight', ⟨h.sweep.step hstep, h.routed.step hstep,
    fun i hi => (h.wal i hi).step hstep, h.calls.step hstep,
    h.logged.step h.routed hfits hstep, hrequested ▸ hdist, ?_, hstore,
    hrequested ▸ hperm⟩, hmove.grows⟩
  rw [hrequested]
  exact fun p hp => (List.mem_append.mp hp).elim (h.keys p) (hkeys p)

/-- **One step keeps the watermarks true** if the sweep reads the sequence
number of a flushed shard that has lost nothing, and snapshots go forward. -/
theorem durable_step (h : LossyRun U cfg s tr kept lost live flight) {a : Action}
    (hkeeps : Durable U cfg s tr live) {live' : List Chunk}
    (hgrows : live' = live ∨ ∃ c, a = .sweepRegister ∧ flight = [c] ∧ live' = c :: live)
    (hcompact : a.isCompaction = false) (hflushed : ReadsFlushed s a = true)
    (hforward : SavesForward cfg s a = true)
    (hlost : ∀ i result, a = .sweepReadSequence → s.sweeper = .registered i result →
      ∀ p ∈ lost, shardIndex p cfg.numShards ≠ i)
    (hstep : Step cfg s a s' es) : Durable U cfg s' (tr ++ es) live' := by
  have hdurable : Durable U cfg s tr live' := by
    rcases hgrows with rfl | ⟨c, -, rfl, rfl⟩
    · exact hkeeps
    · exact hkeeps.register fun p hp => h.not_mem_live (.inr (by simpa [livePoints] using hp))
  have hsame : a ≠ .sweepRegister → live' = live := by
    intro hne
    rcases hgrows with hlive | ⟨_, ha, -⟩
    · exact hlive
    · exact absurd ha hne
  -- the sweep goes to a stage that holds no watermark and deletes nothing
  have hmoves : ∀ {sweeper : Sweeper}, s'.sweeper = sweeper → s'.wals = s.wals →
      s'.disk.snapshot = s.disk.snapshot → s'.disk.wal = s.disk.wal →
      s'.shardWatermarks = s.shardWatermarks → s'.persistedWatermarks = s.persistedWatermarks →
      s'.snapshots = s.snapshots → (∀ i seg b, .committed i seg b ∉ es) →
      (∀ i result w, sweeper ≠ .sequenceRead i result w) →
      (∀ i gcSeq, sweeper = .draining i gcSeq → gcSeq = s.persistedWatermarks i) →
      (∀ i segs, sweeper ≠ .deleting i segs) → Durable U cfg s' (tr ++ es) live' := by
    rintro sweeper rfl hwals hsnap hwal hlive hpersisted hsnapshots hes hread hdraining hdeleting
    refine hdurable.sweeperMoves hes hwals hsnap (fun i seg hseg => hwal ▸ hseg) hlive hpersisted
      hsnapshots hread (fun i hi gcSeq hs => ?_) fun i _ segs hs => absurd hs (hdeleting i segs)
    rw [hdraining i gcSeq hs]
    exact hdurable.persisted i hi
  have hkeep : s'.wals = s.wals → s'.disk = s.disk → s'.sweeper = s.sweeper →
      s'.shardWatermarks = s.shardWatermarks → s'.persistedWatermarks = s.persistedWatermarks →
      s'.snapshots = s.snapshots → (∀ i seg b, .committed i seg b ∉ es) →
      Durable U cfg s' (tr ++ es) live' := by
    intro hwals hdisk hsweeper hlive hpersisted hsnapshots hes
    refine hdurable.keep hes (fun i _ w hw => ?_) (fun i => by rw [hwals]) (by rw [hdisk])
      (fun i seg hseg => by rwa [hdisk]) (by rw [hpersisted]; exact hdurable.persisted)
      (fun ws k hk => ⟨k, hsnapshots ▸ hk⟩) (by rw [hsweeper]; exact hdurable.draining)
      (by rw [hsweeper]; exact hdurable.deleting)
    cases hw with
    | live => exact hlive ▸ .live
    | read hs => exact .read (hsweeper ▸ hs)
    | loaded ht hw => exact .loaded (hsnapshots ▸ ht) hw
  cases hstep with
  | append hsorted => exact hkeep rfl rfl rfl rfl rfl rfl (by simp)
  | memInsert hk hall => exact hkeep rfl rfl rfl rfl rfl rfl (by simp)
  | ack hk => exact hkeep rfl rfl rfl rfl rfl rfl (by simp)
  | @walCommit i refs drain hi hidle hrequest hnodup hwait =>
    obtain rfl := hsame (by simp)
    refine hdurable.walCommit (h.wal i hi) drain _ fun p hp => h.not_mem_live (.inl ?_)
    obtain ⟨m, hm, hp⟩ := List.mem_flatMap.mp hp
    obtain ⟨-, g, hg, hpts⟩ := mem_messagesAt.mp hm
    exact mem_pendingPoints hg (hpts ▸ hp)
  | walFinish hfinish =>
    exact hdurable.walFinish (by simp) (Durable.currentSeq_rotateFull _) s.sweeper
      (fun _ _ _ _ => rfl) (fun _ _ _ => rfl) hdurable.deleting
  | @walDrain i gcSeq hfinish =>
    have hwriter : ((rotateFull (s.wals i).writer).1.drainCompletedBefore gcSeq).2.currentSeq =
        (s.wals i).writer.currentSeq := Durable.currentSeq_rotateFull _
    refine hdurable.walFinish (by simp) hwriter (.deleting i _) (by simp) (by simp) ?_
    -- the drained segments lie below the threshold of the request
    intro j hj segs hs seg hseg b hb
    obtain ⟨rfl, rfl⟩ := Sweeper.deleting.inj hs
    obtain ⟨q, hq, rfl⟩ := List.mem_map.mp hseg
    obtain ⟨hq, hle⟩ := List.mem_filter.mp hq
    have hmax := (((h.wal i hj).rotateFull _ rfl none).completed q hq).2 b hb
    have hgate := hdurable.draining i hj gcSeq (h.sweep.drain i gcSeq hfinish)
    exact Nat.le_trans hmax (Nat.le_trans (of_decide_eq_true hle) hgate)
  | sweepDrain hs hflush =>
    exact hmoves rfl rfl rfl rfl rfl rfl rfl (by simp) (by simp) (by simp) (by simp)
  | sweepSkip hs hflush =>
    exact hmoves rfl rfl rfl rfl rfl rfl rfl (by simp) (by simp) (by simp) (by simp)
  | sweepWrite hs hw hnew =>
    exact hmoves rfl rfl rfl rfl rfl rfl rfl (by simp) (by simp) (by simp) (by simp)
  | sweepFail hs hw =>
    exact hmoves rfl rfl rfl rfl rfl rfl rfl (by simp) (by simp) (by simp) (by simp)
  | sweepRegister hs hlock =>
    exact hmoves rfl rfl rfl rfl rfl rfl rfl (by simp) (by simp) (by simp) (by simp)
  | @sweepReadSequence i result hs =>
    obtain rfl := hsame (by simp)
    have hi : i < cfg.numShards := by
      have hshard := h.sweep.shard
      rwa [hs] at hshard
    rw [List.append_nil]
    refine hdurable.sweepReadSequence result (h.wal i hi) fun seg b hb p hp => ?_
    refine h.live_of_flushed (hlost i result rfl hs) hs ?_ hb hp
    simpa [ReadsFlushed, hs] using hflushed
  | sweepPublish hs => exact hdurable.sweepPublish (by simp) hs
  | sweepRequestDrain hs =>
    refine hmoves rfl rfl rfl rfl rfl rfl rfl (by simp) (by simp) ?_ (by simp)
    rintro i gcSeq ⟨⟩
    rfl
  | sweepDelete hs =>
    rw [List.append_nil]
    exact hdurable.sweepDelete hs
  | sweepDone hs =>
    exact hmoves rfl rfl rfl rfl rfl rfl rfl (by simp) (by simp) (by simp) (by simp)
  | snapshotBegin => exact hdurable.snapshotBegin (by simp)
  | snapshotLoad hk hlen => exact hdurable.snapshotLoad (by simp) hk
  | snapshotLock hk hlen =>
    exact hdurable.taskMoves (by simp) hk
      (fun i w hw => .loaded (List.mem_of_getElem? hk) hw) (by simp)
  | @snapshotSave k ws hk =>
    have hsaved : Durable U cfg { s with
        disk := s.disk.apply (.saveSnapshot (saveIndex s.index ws))
        snapshots := s.snapshots.set k (.storing ws 0) } tr live' :=
      hdurable.snapshotSave (hsame (by simp) ▸ h.store.index) hk
        (fun i hi seg b hb => ((h.wal i hi).seqs seg b hb).1)
        (by simpa [SavesForward, hk] using hforward)
    exact hsaved.keep (by simp) (fun _ _ _ hw => hw) (fun _ => Nat.le_refl _) rfl (fun _ _ hseg => hseg)
      hsaved.persisted (fun ws k hk => ⟨k, hk⟩) hsaved.draining hsaved.deleting
  | snapshotStore hk hw => exact hdurable.snapshotStore (by simp) hk hw
  | snapshotUnlock hk =>
    exact hdurable.taskMoves (by simp) hk (by simp [SnapshotTask.watermarks]) (by simp)
  | compactFind _ _ => cases hcompact
  | compactMerge _ _ _ => cases hcompact
  | compactFail _ _ => cases hcompact
  | compactCommit _ _ => cases hcompact
  | compactDelete _ => cases hcompact
  | compactNext _ => cases hcompact
  | compactEnd _ => cases hcompact

end LossyRun

/-- What holds in every state of a run without compaction whose sweeps read
flushed shards and whose snapshots go forward. -/
structure DurableRun (U : SeriesKey → Prop) (cfg : StorageConfig) (s : Server) (tr : List Event)
    (live flight : List Chunk) : Prop where
  sweep : SweepOk cfg s
  routed : Routed cfg s
  wal : ∀ i < cfg.numShards, s.WalOk tr i
  calls : CallsKeep s.appends tr
  logged : LoggedOnce cfg s tr
  store : StoreOk U cfg s (requestedPoints tr) (createdChunks tr) live flight []
  durable : Durable U cfg s tr live

/-- What the steps of such a run respect. -/
def KeepsDurable (U : SeriesKey → Prop) (cfg : StorageConfig) (s : Server) (tr : List Event)
    (a : Action) : Prop :=
  StepsOk U s tr a ∧ BatchesFit s a ∧ a.isCompaction = false ∧ ReadsFlushed s a = true ∧
    SavesForward cfg s a = true

instance decidableKeepsDurable (U : SeriesKey → Prop) [DecidablePred U] (cfg : StorageConfig)
    (s : Server) (tr : List Event) (a : Action) : Decidable (KeepsDurable U cfg s tr a) :=
  inferInstanceAs (Decidable (_ ∧ _ ∧ _ ∧ _ ∧ _))

namespace DurableRun

variable {U : SeriesKey → Prop} {cfg : StorageConfig} {s s' : Server} {tr es : List Event}
  {live flight : List Chunk}

theorem fresh (U : SeriesKey → Prop) (cfg : StorageConfig) :
    DurableRun U cfg (.fresh cfg) [] [] [] where
  sweep := SweepOk.fresh cfg
  routed := Routed.fresh cfg
  wal _ hi := walOk_fresh hi
  calls := CallsKeep.fresh
  logged := LoggedOnce.fresh cfg
  store := storeOk_fresh U cfg
  durable := Durable.fresh U cfg

/-- A run in which no flush fails. -/
theorem lossy (h : DurableRun U cfg s tr live flight) :
    LossyRun U cfg s tr (requestedPoints tr) [] live flight :=
  { h with
    distinct := h.store.distinct
    keys := h.store.keys
    points := by rw [List.append_nil] }

/-- **One step**: the live chunks grow by what the sweep registers. -/
theorem step (hU : KeysOk U) (h : DurableRun U cfg s tr live flight) {a : Action}
    (hok : KeepsDurable U cfg s tr a) (hstep : Step cfg s a s' es) :
    ∃ live' flight', DurableRun U cfg s' (tr ++ es) live' flight' ∧
      (live' = live ∨ ∃ c, a = .sweepRegister ∧ flight = [c] ∧ live' = c :: live) := by
  obtain ⟨hsteps, hfits, hcompact, hflushed, hforward⟩ := hok
  obtain ⟨live', flight', hrun, hgrows⟩ := h.lossy.step hU hsteps hfits hcompact hstep
  have hstore := hrun.store
  rw [← requestedPoints_step hstep, ← requestedPoints_append] at hstore
  exact ⟨live', flight', { hrun with
    store := hstore
    durable := h.lossy.durable_step h.durable hgrows hcompact hflushed hforward (by simp) hstep },
    hgrows⟩

end DurableRun

end

end Micius

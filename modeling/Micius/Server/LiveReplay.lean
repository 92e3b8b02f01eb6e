import Micius.Server.Log
import Micius.Server.Overwrites
import Micius.Wal.Refinement

/-!
# Live and replayed state

The WAL task fixes the order of a shard's batches when it commits them; the
calls insert them into the memtable in whatever order they take the lock.
If no call inserts a batch while an earlier one with a common slot still
waits, the memtable is what replaying the log gives; otherwise the two may
differ in the value of that slot.
-/

namespace Micius

/-! ## The log of a shard -/

section

variable [Crates]

/-- The segment files of a shard hold its whole log, and the writer is at
its end. -/
def LogKept (wal : WalHandle) (dir : WalDir) (log : List Batch) : Prop :=
  ∃ v as, v.files = dir ∧ LogInv 0 as wal.writer v ∧ log = numbered 0 as

namespace LogKept

variable {wal : WalHandle} {dir : WalDir} {log : List Batch}

theorem le (h : LogKept wal dir log) : ∀ b ∈ log, 0 < b.1 ∧ b.1 ≤ wal.writer.currentSeq := by
  obtain ⟨v, as, -, hinv, rfl⟩ := h
  intro b hb
  rw [hinv.seq_eq]
  exact lt_of_mem_numbered hb

theorem pairwise (h : LogKept wal dir log) : log.Pairwise fun b b' => b.1 < b'.1 := by
  obtain ⟨v, as, -, -, rfl⟩ := h
  exact numbered_pairwise 0 as

theorem commit (h : LogKept wal dir log) (reqs : List ((Nat × Nat) × List DataPoint))
    (drain : Option Nat) :
    LogKept (wal.commit reqs drain) (dir.run (wal.commitOps reqs))
      (log ++ numbered wal.writer.currentSeq (reqs.map Prod.snd)) := by
  obtain ⟨v, as, rfl, hinv, rfl⟩ := h
  have hlog : numbered 0 as ++ numbered wal.writer.currentSeq (reqs.map Prod.snd) =
      numbered 0 (as ++ reqs.map Prod.snd) := by
    rw [numbered_append, hinv.seq_eq]
  have hcommit := hinv.commit (reqs.map Prod.snd)
    (committedWriter wal.writer (walBatch reqs drain) .ok).currentSize
  have hwriter : (wal.commit reqs drain).writer =
      { wal.writer with
        lastWriteErr := false
        currentSeq := wal.writer.currentSeq + (reqs.map Prod.snd).length
        currentSize := (committedWriter wal.writer (walBatch reqs drain) .ok).currentSize } := by
    simp [WalHandle.commit, committedWriter, WalOk.appends_walBatch, hinv.noErr]
  rw [← hwriter] at hcommit
  cases reqs with
  | nil =>
    exact ⟨v, as ++ [], rfl, ⟨hcommit.file_eq, hcommit.noErr, hcommit.seq_eq, hinv.synced_eq, by
      simpa [WalHandle.commit, committedWriter] using hinv.holds⟩, hlog⟩
  | cons r reqs => exact ⟨_, _, rfl, hcommit, hlog⟩

theorem finish (h : LogKept wal dir log) :
    LogKept ⟨(rotateFull wal.writer).1, wal.lastSeq, none⟩ (dir.run (rotateFull wal.writer).2)
      log := by
  obtain ⟨v, as, rfl, hinv, rfl⟩ := h
  unfold rotateFull
  split
  · exact ⟨_, as, LogView.files_after_ops v _, hinv.rotate, rfl⟩
  · exact ⟨v, as, rfl, hinv, rfl⟩

/-- **Recovery** returns the log. -/
theorem recover (hlaw : Crates.LawfulProst) (h : LogKept wal dir log) (hfits : ∀ b ∈ log, b.Fits) :
    ∃ r, Micius.recover dir 0 = .ok r ∧ r.points = log.flatMap Prod.snd := by
  have hle := h.le
  obtain ⟨v, as, rfl, hinv, rfl⟩ := h
  refine ⟨_, hinv.recover hlaw hfits 0, ?_⟩
  have hall : (numbered 0 as).filter (fun b => 0 < b.1) = numbered 0 as :=
    List.filter_eq_self.mpr fun b hb => decide_eq_true (hle b hb).1
  show ((numbered 0 as).filter fun b => 0 < b.1).flatMap Prod.snd = _
  rw [hall]

end LogKept

end

/-! ## Batches applied out of order -/

/-- The batches of `log` that are `done` are in `data`, as if inserted in
log order; the others wait at the positions that `waits` tells. A batch that
is done has no slot in common with an earlier one that waits. -/
structure Applied (waits : Nat × Nat → Batch → Prop) (log : List Batch) (data : SeriesData)
    (done : Nat → Bool) : Prop where
  logged : ∀ ref b, waits ref b → b ∈ log
  unique : ∀ ref ref' b, waits ref b → waits ref' b → ref = ref'
  waiting : ∀ ref b, waits ref b → done b.1 = false
  covered : ∀ b ∈ log, done b.1 = true ∨ ∃ ref, waits ref b
  data : data = SeriesData.insertPoints ∅ ((log.filter fun b => done b.1).flatMap Prod.snd)
  order : ∀ b ∈ log, done b.1 = true → ∀ ref b', waits ref b' → b'.1 < b.1 →
    ∀ p ∈ b'.2, ∀ q ∈ b.2, p.slot ≠ q.slot

namespace Applied

variable {waits waits' : Nat × Nat → Batch → Prop} {log : List Batch} {data : SeriesData}
  {done : Nat → Bool}

/-- The same batches wait at other positions. -/
theorem reindex (h : Applied waits log data done) (f : Nat × Nat → Nat × Nat)
    (hf : ∀ ref ref', f ref = f ref' → ref = ref')
    (hwaits : ∀ ref b, waits' ref b ↔ waits (f ref) b)
    (hrange : ∀ ref b, waits ref b → ∃ ref', f ref' = ref) : Applied waits' log data done where
  logged ref b hb := h.logged _ b ((hwaits ref b).mp hb)
  unique ref ref' b hb hb' :=
    hf ref ref' (h.unique _ _ b ((hwaits ref b).mp hb) ((hwaits ref' b).mp hb'))
  waiting ref b hb := h.waiting _ b ((hwaits ref b).mp hb)
  covered b hb := by
    rcases h.covered b hb with hdone | ⟨ref, hw⟩
    · exact .inl hdone
    · obtain ⟨ref', rfl⟩ := hrange ref b hw
      exact .inr ⟨ref', (hwaits ref' b).mpr hw⟩
  data := h.data
  order b hb hdone ref b' hb' := h.order b hb hdone _ b' ((hwaits ref b').mp hb')

/-- New batches are written to the log and wait. -/
theorem commit (h : Applied waits log data done) {seq : Nat} (hle : ∀ b ∈ log, b.1 ≤ seq)
    {reqs : List ((Nat × Nat) × List DataPoint)}
    (hwaits : ∀ ref b, waits' ref b ↔ waits ref b ∨ (b.1, ref, b.2) ∈ numbered seq reqs) :
    Applied waits' (log ++ numbered seq (reqs.map Prod.snd)) data
      (fun n => n ≤ seq && done n) := by
  have hnew : ∀ b : Batch, b ∈ numbered seq (reqs.map Prod.snd) ↔
      ∃ ref, (b.1, ref, b.2) ∈ numbered seq reqs := by
    intro b
    rw [numbered_map, List.mem_map]
    constructor
    · rintro ⟨r, hr, rfl⟩
      exact ⟨r.2.1, hr⟩
    · rintro ⟨ref, hr⟩
      exact ⟨_, hr, rfl⟩
  have hlt : ∀ ref (b : Batch), (b.1, ref, b.2) ∈ numbered seq reqs → seq < b.1 :=
    fun ref b hr => (lt_of_mem_numbered hr).1
  refine ⟨?_, ?_, ?_, ?_, ?_, ?_⟩
  · intro ref b hb
    rcases (hwaits ref b).mp hb with hb | hb
    · exact List.mem_append_left _ (h.logged ref b hb)
    · exact List.mem_append_right _ ((hnew b).mpr ⟨ref, hb⟩)
  · intro ref ref' b hb hb'
    rcases (hwaits ref b).mp hb with hb | hb <;> rcases (hwaits ref' b).mp hb' with hb' | hb'
    · exact h.unique ref ref' b hb hb'
    · exact absurd (hle b (h.logged ref b hb)) (Nat.not_le.mpr (hlt ref' b hb'))
    · exact absurd (hle b (h.logged ref' b hb')) (Nat.not_le.mpr (hlt ref b hb))
    · exact congrArg (fun r => r.2.1) (eq_of_mem_numbered hb hb' rfl)
  · intro ref b hb
    rcases (hwaits ref b).mp hb with hb | hb
    · simp [h.waiting ref b hb]
    · simp [Nat.not_le.mpr (hlt ref b hb)]
  · intro b hb
    rcases List.mem_append.mp hb with hb | hb
    · rcases h.covered b hb with hdone | ⟨ref, hw⟩
      · exact .inl (by simp [hle b hb, hdone])
      · exact .inr ⟨ref, (hwaits ref b).mpr (.inl hw)⟩
    · obtain ⟨ref, hr⟩ := (hnew b).mp hb
      exact .inr ⟨ref, (hwaits ref b).mpr (.inr hr)⟩
  · have hold : log.filter (fun b => b.1 ≤ seq && done b.1) = log.filter fun b => done b.1 :=
      List.filter_congr fun b hb => by simp [hle b hb]
    have hnone : (numbered seq (reqs.map Prod.snd)).filter (fun b => b.1 ≤ seq && done b.1) = [] :=
      List.filter_eq_nil_iff.mpr fun b hb => by
        simp [Nat.not_le.mpr (lt_of_mem_numbered hb).1]
    rw [List.filter_append, hold, hnone, List.append_nil]
    exact h.data
  · intro b hb hdone ref b' hb' hbefore
    simp only [Bool.and_eq_true, decide_eq_true_eq] at hdone
    have hmem : b ∈ log := by
      rcases List.mem_append.mp hb with hb | hb
      · exact hb
      · exact absurd hdone.1 (Nat.not_le.mpr (lt_of_mem_numbered hb).1)
    rcases (hwaits ref b').mp hb' with hb' | hb'
    · exact h.order b hmem hdone.2 ref b' hb' hbefore
    · have := hlt ref b' hb'
      omega

/-- A batch that waits is inserted, with no slot in common with an earlier
one that still waits. -/
theorem insert (h : Applied waits log data done) (hlog : log.Pairwise fun b b' => b.1 < b'.1)
    {ref₀ : Nat × Nat} {b₀ : Batch} (hb₀ : waits ref₀ b₀) (hsingle : ∀ b, waits ref₀ b → b = b₀)
    (hsafe : ∀ ref b, waits ref b → b.1 < b₀.1 → ∀ p ∈ b.2, ∀ q ∈ b₀.2, p.slot ≠ q.slot)
    (f : Nat × Nat → Nat × Nat) (hf : ∀ ref ref', f ref = f ref' → ref = ref')
    (hwaits : ∀ ref b, waits' ref b ↔ waits (f ref) b) (hne : ∀ ref, f ref ≠ ref₀)
    (hrange : ∀ ref, ref ≠ ref₀ → ∃ ref', f ref' = ref) :
    Applied waits' log (data.insertPoints b₀.2) (fun n => n = b₀.1 || done n) := by
  have hmem₀ := h.logged ref₀ b₀ hb₀
  have hdone₀ := h.waiting ref₀ b₀ hb₀
  -- a sequence number names its batch
  have hseq : ∀ b ∈ log, b.1 = b₀.1 → b = b₀ := by
    have hnodup : (log.map Prod.fst).Nodup :=
      List.pairwise_map.mpr (hlog.imp fun hlt => Nat.ne_of_lt hlt)
    exact fun b hb heq => List.inj_on_of_nodup_map hnodup hb hmem₀ heq
  have hother : ∀ ref b, waits' ref b → b.1 ≠ b₀.1 := by
    intro ref b hb heq
    have hb := (hwaits ref b).mp hb
    obtain rfl := hseq b (h.logged _ b hb) heq
    exact hne ref (h.unique _ _ _ hb hb₀)
  refine ⟨?_, ?_, ?_, ?_, ?_, ?_⟩
  · exact fun ref b hb => h.logged _ b ((hwaits ref b).mp hb)
  · exact fun ref ref' b hb hb' =>
      hf ref ref' (h.unique _ _ b ((hwaits ref b).mp hb) ((hwaits ref' b).mp hb'))
  · intro ref b hb
    simp [hother ref b hb, h.waiting _ b ((hwaits ref b).mp hb)]
  · intro b hb
    rcases h.covered b hb with hdone | ⟨ref, hw⟩
    · exact .inl (by simp [hdone])
    · by_cases href : ref = ref₀
      · subst href
        exact .inl (by simp [hsingle b hw])
      · obtain ⟨ref', rfl⟩ := hrange ref href
        exact .inr ⟨ref', (hwaits ref' b).mpr hw⟩
  · obtain ⟨before, after, rfl⟩ := List.append_of_mem hmem₀
    rw [List.pairwise_append, List.pairwise_cons] at hlog
    obtain ⟨-, ⟨hafter, -⟩, hbefore⟩ := hlog
    have hkeep : ∀ l : List Batch, (∀ b ∈ l, b.1 ≠ b₀.1) →
        l.filter (fun b => b.1 = b₀.1 || done b.1) = l.filter fun b => done b.1 :=
      fun l hl => List.filter_congr fun b hb => by simp [hl b hb]
    have hold : (before ++ b₀ :: after).filter (fun b => done b.1) =
        before.filter (fun b => done b.1) ++ after.filter fun b => done b.1 := by
      rw [List.filter_append, List.filter_cons_of_neg (by simp [hdone₀])]
    have hnew : (before ++ b₀ :: after).filter (fun b => b.1 = b₀.1 || done b.1) =
        before.filter (fun b => done b.1) ++ b₀ :: after.filter fun b => done b.1 := by
      rw [List.filter_append, List.filter_cons_of_pos (by simp),
        hkeep before fun b hb => Nat.ne_of_lt (hbefore b hb b₀ (by simp)),
        hkeep after fun b hb => Nat.ne_of_gt (hafter b hb)]
    rw [h.data, hold, hnew, List.flatMap_append, List.flatMap_append, List.flatMap_cons,
      SeriesData.insertPoints_append, SeriesData.insertPoints_append,
      SeriesData.insertPoints_append]
    -- the batch moves past the later ones that are done
    refine (SeriesData.insertPoints_comm _ fun p hp q hq => ?_).symm
    obtain ⟨b, hb, hq⟩ := List.mem_flatMap.mp hq
    obtain ⟨hb, hdone⟩ := List.mem_filter.mp hb
    exact h.order b (by simp [hb]) hdone ref₀ b₀ hb₀ (hafter b hb) p hp q hq
  · intro b hb hdone ref b' hb' hlt
    have hb' := (hwaits ref b').mp hb'
    simp only [Bool.or_eq_true, decide_eq_true_eq] at hdone
    rcases hdone with heq | hdone
    · obtain rfl := hseq b hb heq
      exact hsafe _ b' hb' hlt
    · exact h.order b hb hdone _ b' hb' hlt

/-- Nothing waits: all of the log is in `data`. -/
theorem complete (h : Applied waits log data done) (hnone : ∀ ref b, ¬ waits ref b) :
    data = SeriesData.insertPoints ∅ (log.flatMap Prod.snd) := by
  have hall : log.filter (fun b => done b.1) = log := by
    refine List.filter_eq_self.mpr fun b hb => ?_
    exact (h.covered b hb).resolve_right fun ⟨ref, hw⟩ => hnone ref b hw
  rw [h.data, hall]

end Applied

/-! ## What a run has to respect -/

/-- The group a step inserts into its memtable. -/
def Server.inserting (s : Server) : Action → Option Group
  | .memInsert k => (s.appends[k]?).bind fun t => t.pending.head?
  | _ => none

/-- Both groups are committed, the first one before the second. -/
def Group.committedBefore (g' g : Group) : Bool :=
  match g'.committed, g.committed with
  | some n', some n => n' < n
  | _, _ => false

def Group.sharesSlot (g' g : Group) : Bool :=
  g'.points.any fun p => g.points.any fun q => p.slot = q.slot

/-- No group is inserted while a group of the same shard that was committed
before it and has a common slot still waits. -/
def InsertsInOrder (s : Server) (a : Action) : Prop :=
  ∀ g ∈ s.inserting a, ∀ t ∈ s.appends, ∀ g' ∈ t.pending, g'.shard = g.shard →
    g'.committedBefore g = true → g'.sharesSlot g = false

instance decidableInsertsInOrder (s : Server) (a : Action) : Decidable (InsertsInOrder s a) :=
  inferInstanceAs (Decidable (∀ g ∈ s.inserting a, ∀ t ∈ s.appends, ∀ g' ∈ t.pending,
    g'.shard = g.shard → g'.committedBefore g = true → g'.sharesSlot g = false))

/-- The batches a step writes to a log. -/
def Server.batches (s : Server) : Action → List Batch
  | .walCommit i refs _ =>
    numbered (s.wals i).writer.currentSeq ((messagesAt s.appends refs).map Prod.snd)
  | _ => []

section

variable [Crates]

/-- Every batch is one that a frame keeps. -/
def BatchesFit (s : Server) (a : Action) : Prop := ∀ b ∈ s.batches a, b.Fits

instance decidableBatchesFit (s : Server) (a : Action) : Decidable (BatchesFit s a) :=
  inferInstanceAs (Decidable (∀ b ∈ s.batches a, b.Fits))

/-! ## The invariant -/

/-- The log of a shard is whole and the memtable holds the batches that do
not wait. -/
structure ShardReplays (i : Nat) (wal : WalHandle) (dir : WalDir) (tasks : List AppendTask)
    (mem : Memtable) (log : List Batch) : Prop where
  kept : LogKept wal dir log
  fits : ∀ b ∈ log, b.Fits
  applied : ∃ done, Applied (Waiting tasks i) log mem.entries done

/-- The same groups wait. -/
theorem ShardReplays.congr {i : Nat} {wal : WalHandle} {dir : WalDir}
    {tasks tasks' : List AppendTask} {mem : Memtable} {log : List Batch}
    (h : ShardReplays i wal dir tasks mem log)
    (hsame : ∀ ref b, Waiting tasks' i ref b ↔ Waiting tasks i ref b) :
    ShardReplays i wal dir tasks' mem log := by
  have heq : Waiting tasks' i = Waiting tasks i := funext₂ fun ref b => propext (hsame ref b)
  exact ⟨h.kept, h.fits, heq ▸ h.applied⟩

/-- Every shard replays, and no sweep takes points away. -/
structure Replays (cfg : StorageConfig) (s : Server) (tr : List Event) : Prop where
  sweep : SweepOk cfg s
  unswept : Unswept s tr
  routed : Routed cfg s
  shards : ∀ i < cfg.numShards,
    ShardReplays i (s.wals i) (s.disk.wal i) s.appends (s.memtables i) (shardLog tr i)

namespace Replays

variable {cfg : StorageConfig} {s s' : Server} {a : Action} {tr es : List Event}

theorem fresh (cfg : StorageConfig) : Replays cfg (.fresh cfg) [] where
  sweep := SweepOk.fresh cfg
  unswept := ⟨rfl, rfl⟩
  routed := Routed.fresh cfg
  shards i hi := by
    have hnone : ∀ ref b, ¬ Waiting (Server.fresh cfg).appends i ref b := by
      rintro ref b ⟨g, hg, -⟩
      cases hg
    rw [fresh_wals cfg hi, fresh_wal cfg hi]
    refine ⟨⟨_, [], rfl, LogInv.openWal cfg.walMaxSegmentBytes 0 0, rfl⟩, fun b hb => ?_,
      fun _ => false, ?_⟩
    · cases hb
    exact
      { logged := fun ref b hb => absurd hb (hnone ref b)
        unique := fun ref ref' b hb => absurd hb (hnone ref b)
        waiting := fun _ _ _ => rfl
        covered := fun b hb => by cases hb
        data := rfl
        order := fun b hb => by cases hb }

/-- A batch is committed. -/
theorem walCommit (h : Replays cfg s tr) {j : Nat} {refs : List (Nat × Nat)} {drain : Option Nat}
    (hnodup : refs.Nodup)
    (hwait : ∀ ref ∈ refs, ∃ g, groupAt s.appends ref = some g ∧ g.shard = j ∧ g.committed = none)
    (hfits : BatchesFit s (.walCommit j refs drain)) {i : Nat} (hi : i < cfg.numShards) :
    ShardReplays i
      (Function.update s.wals j ((s.wals j).commit (messagesAt s.appends refs) drain) i)
      ((s.disk.runWal j ((s.wals j).commitOps (messagesAt s.appends refs))).wal i)
      (deliver s.appends (numbered (s.wals j).writer.currentSeq (messagesAt s.appends refs)))
      (s.memtables i)
      (shardLog (tr ++ (numbered (s.wals j).writer.currentSeq (messagesAt s.appends refs)).map
        fun r => .committed j (s.wals j).writer.file (r.1, r.2.2)) i) := by
  obtain ⟨hlog, hold, done, happlied⟩ := h.shards i hi
  show ShardReplays i _ (Function.update s.disk.wal j _ i) _ _ _
  rw [shardLog_append, shardLog_committed]
  by_cases hij : i = j
  · subst hij
    rw [if_pos rfl, Function.update_self, Function.update_self]
    refine ⟨hlog.commit _ drain, fun b hb => ?_, _,
      happlied.commit (fun b hb => (hlog.le b hb).2) fun ref b => ?_⟩
    · rcases List.mem_append.mp hb with hb | hb
      · exact hold b hb
      · exact hfits b hb
    · rw [waiting_deliver hnodup hwait]
      simp
  · have hsame : ∀ ref b, Waiting (deliver s.appends (numbered (s.wals j).writer.currentSeq
        (messagesAt s.appends refs))) i ref b ↔ Waiting s.appends i ref b :=
      fun ref b => (waiting_deliver hnodup hwait _).trans (by simp [hij])
    rw [if_neg hij, List.append_nil, Function.update_of_ne hij, Function.update_of_ne hij]
    exact ShardReplays.congr ⟨hlog, hold, done, happlied⟩ hsame

/-- A WAL task rotates. -/
theorem walFinish (h : Replays cfg s tr) {j i : Nat} (hi : i < cfg.numShards) :
    ShardReplays i
      (Function.update s.wals j ⟨(rotateFull (s.wals j).writer).1, (s.wals j).lastSeq, none⟩ i)
      ((s.disk.runWal j (rotateFull (s.wals j).writer).2).wal i) s.appends (s.memtables i)
      (shardLog tr i) := by
  have hshard := h.shards i hi
  show ShardReplays i _ (Function.update s.disk.wal j _ i) _ _ _
  by_cases hij : i = j
  · subst hij
    rw [Function.update_self, Function.update_self]
    exact { hshard with kept := hshard.kept.finish }
  · rwa [Function.update_of_ne hij, Function.update_of_ne hij]

/-- A group is inserted. -/
theorem memInsert (h : Replays cfg s tr) {k : Nat} {points : List DataPoint} {g : Group}
    {rest : List Group} {acked : Bool} (hk : s.appends[k]? = some ⟨points, g :: rest, acked⟩)
    (hcommitted : g.committed.isSome) (hsafe : InsertsInOrder s (.memInsert k)) {i : Nat}
    (hi : i < cfg.numShards) :
    ShardReplays i (s.wals i) (s.disk.wal i) (s.appends.set k ⟨points, rest, acked⟩)
      (Function.update s.memtables g.shard ((s.memtables g.shard).insertAll g.points) i)
      (shardLog tr i) := by
  obtain ⟨hlog, hold, done, happlied⟩ := h.shards i hi
  have hat : groupAt s.appends (k, 0) = some g := by
    rw [groupAt, hk]
    rfl
  by_cases hshard : i = g.shard
  · subst hshard
    obtain ⟨n, hn⟩ := Option.isSome_iff_exists.mp hcommitted
    have hwaits : Waiting s.appends g.shard (k, 0) (n, g.points) := ⟨g, hat, rfl, hn, rfl⟩
    have hinserting : g ∈ s.inserting (.memInsert k) := by
      show (s.appends[k]?).bind (fun t => t.pending.head?) = some g
      rw [hk]
      rfl
    rw [Function.update_self]
    refine ⟨hlog, hold, fun m => m = n || done m, ?_⟩
    rw [Memtable.entries_insertAll]
    refine happlied.insert hlog.pairwise hwaits (fun b hb => hb.single hwaits) ?_
      (beforePop k) (fun ref ref' => beforePop_inj) (fun ref b => waiting_pop hk)
      (beforePop_ne k) fun ref => exists_beforePop
    rintro ref b ⟨g', hg', hshard', hseq, hpoints⟩ hlt p hp q hq hslot
    obtain ⟨t, ht, hg'⟩ := Option.bind_eq_some_iff.mp hg'
    have hapart := hsafe g hinserting t (List.mem_of_getElem? ht) g' (List.mem_of_getElem? hg')
      hshard' (by simpa [Group.committedBefore, hseq, hn] using hlt)
    have hshares : g'.sharesSlot g = true :=
      List.any_eq_true.mpr ⟨p, hpoints ▸ hp, List.any_eq_true.mpr ⟨q, hq, decide_eq_true hslot⟩⟩
    exact Bool.false_ne_true (hapart.symm.trans hshares)
  · rw [Function.update_of_ne hshard]
    refine ⟨hlog, hold, done, happlied.reindex (beforePop k) (fun ref ref' => beforePop_inj)
      (fun ref b => waiting_pop hk) ?_⟩
    rintro ref b ⟨g', hg', hshard', -⟩
    refine exists_beforePop ?_
    rintro rfl
    obtain rfl : g = g' := Option.some.inj (hat.symm.trans hg')
    exact hshard hshard'.symm

/-- **Every step** of the calls and the WAL tasks. -/
theorem step (h : Replays cfg s tr) (hstep : Step cfg s a s' es) (hmoves : a.movesPoints = false)
    (hfits : BatchesFit s a) (hsafe : InsertsInOrder s a) : Replays cfg s' (tr ++ es) := by
  refine ⟨h.sweep.step hstep, h.unswept.step h.sweep hstep hmoves, h.routed.step hstep,
    fun i hi => ?_⟩
  have hshard := h.shards i hi
  have hbusy : ∀ {sweeper : Sweeper}, s.sweeper = sweeper → sweeper.isNext = false → False := by
    intro sweeper hs hfalse
    have hnext := h.unswept.next
    rw [hs, hfalse] at hnext
    cases hnext
  -- the steps that change no log
  have hquiet : ∀ es, shardLog es i = [] → shardLog (tr ++ es) i = shardLog tr i := by
    intro es hes
    rw [shardLog_append, hes, List.append_nil]
  cases hstep with
  | append hsorted =>
    rw [hquiet _ rfl]
    exact hshard.congr fun ref b => waiting_append
  | walCommit hj hidle hrequest hnodup hwait => exact h.walCommit hnodup hwait hfits hi
  | walFinish hfinish =>
    rw [hquiet _ rfl]
    exact h.walFinish hi
  | walDrain hfinish => exact (hbusy (h.sweep.drain _ _ hfinish) rfl).elim
  | memInsert hk hall =>
    rw [hquiet _ rfl]
    exact h.memInsert hk (hall _ (by simp)) hsafe hi
  | ack hk =>
    rw [hquiet _ rfl]
    exact hshard.congr fun ref b => waiting_ack hk
  | sweepDrain _ _ => cases hmoves
  | sweepSkip _ _ => cases hmoves
  | sweepWrite hs _ _ => exact (hbusy hs rfl).elim
  | sweepFail hs _ => exact (hbusy hs rfl).elim
  | sweepRegister hs _ => exact (hbusy hs rfl).elim
  | sweepReadSequence hs => exact (hbusy hs rfl).elim
  | sweepPublish hs => exact (hbusy hs rfl).elim
  | sweepRequestDrain hs => exact (hbusy hs rfl).elim
  | sweepDelete hs => exact (hbusy hs rfl).elim
  | sweepDone hs => exact (hbusy hs rfl).elim
  | compactFind _ _ => cases hmoves
  | compactMerge _ _ _ => cases hmoves
  | compactFail _ _ => cases hmoves
  | compactCommit _ _ => cases hmoves
  | compactDelete _ => cases hmoves
  | compactNext _ => cases hmoves
  | compactEnd _ => cases hmoves
  | _ =>
    rw [hquiet _ rfl]
    exact hshard

end Replays

/-- **Live and replayed state agree.** Open empty directories and run any
interleaving of append calls, without sweeps. If every group is inserted
after the groups of its shard that were committed before it and have a
common slot, then once all calls are answered every memtable holds what
`open` would insert into an empty one from the shard's log. -/
theorem memtable_eq_replay (hlaw : Crates.LawfulProst) (cfg : StorageConfig)
    (chunkIds : Nat → ChunkId) {s₀ s : Server} (actions : List Action) {tr : List Event}
    (hopen : (openStore cfg chunkIds .empty).1 = .ok s₀)
    (hsteps : Runs.Along (step cfg)
      (fun s _ a => a.movesPoints = false ∧ BatchesFit s a ∧ InsertsInOrder s a) s₀ [] actions)
    (hrun : Runs.run (step cfg) s₀ actions = some (s, tr))
    (hacked : ∀ t ∈ s.appends, t.acked = true) {i : Nat} (hi : i < cfg.numShards)
    (threshold : Nat) :
    ∃ r, recover (s.disk.wal i) 0 = .ok r ∧
      (s.memtables i).entries = ((Memtable.new threshold).insertAll r.points).entries := by
  obtain rfl := fresh_of_openStore hopen
  have hinv : Replays cfg s ([] ++ tr) := Runs.run_invariant
    (P := fun s _ a => a.movesPoints = false ∧ BatchesFit s a ∧ InsertsInOrder s a)
    (I := Replays cfg)
    (fun h hok hstep => h.step (step_sound hstep) hok.1 hok.2.1 hok.2.2)
    (Replays.fresh cfg) hsteps hrun
  obtain ⟨hlog, hfits, done, happlied⟩ := hinv.shards i hi
  obtain ⟨r, hrecover, hpoints⟩ := hlog.recover hlaw hfits
  refine ⟨r, hrecover, ?_⟩
  rw [Memtable.entries_insertAll, hpoints]
  refine happlied.complete fun ref b => ?_
  rintro ⟨g, hg, -⟩
  obtain ⟨t, ht, hg⟩ := Option.bind_eq_some_iff.mp hg
  rw [hinv.routed.acked t (List.mem_of_getElem? ht) (hacked t (List.mem_of_getElem? ht))] at hg
  cases hg

end

/-! ## Two calls for one slot -/

section Example

attribute [local instance] Reference.crates

/-- Two calls with the same slot, committed in one batch and inserted in the
given order. -/
def sameSlotCalls (first second : Nat) : List Action :=
  [.append [cpuPoint 5 7] [(0, 0)], .append [cpuPoint 5 8] [(0, 0)],
    .walCommit 0 [(0, 0), (1, 0)] none, .walFinish 0, .memInsert first, .memInsert second, .ack 0,
    .ack 1]

theorem memtable_eq_replay_same_slot : ∃ s tr r,
    Runs.run (step oneShard) (.fresh oneShard) (sameSlotCalls 0 1) = some (s, tr) ∧
    (∀ t ∈ s.appends, t.acked = true) ∧ recover (s.disk.wal 0) 0 = .ok r ∧
    (s.memtables 0).entries = ((Memtable.new 0).insertAll r.points).entries := by
  have hrun : ((Runs.run (step oneShard) (.fresh oneShard) (sameSlotCalls 0 1)).any
      fun r => r.1.appends.all AppendTask.acked) = true := by decide +kernel
  obtain ⟨s, tr, hrun, hacked⟩ := Runs.exists_of_any hrun
  have hacked := List.all_eq_true.mp hacked
  obtain ⟨r, hrecover, heq⟩ := memtable_eq_replay Reference.lawful.prost oneShard (fun _ => 0)
    (sameSlotCalls 0 1) (openStore_empty oneShard _) (by decide +kernel) hrun hacked
    (by decide : 0 < 1) 0
  exact ⟨s, tr, r, hrun, hacked, hrecover, heq⟩

/-- The call that was committed second is inserted first: the memtable ends
with the value of the first commit, the log with that of the second. -/
theorem memtable_ne_replay : ∃ s tr r,
    (openStore oneShard (fun _ => 0) .empty).1 = .ok (.fresh oneShard) ∧
    Runs.run (step oneShard) (.fresh oneShard) (sameSlotCalls 1 0) = some (s, tr) ∧
    (∀ t ∈ s.appends, t.acked = true) ∧ (s.memtables 0).entries.points = [cpuPoint 5 7] ∧
    recover (s.disk.wal 0) 0 = .ok r ∧
    ((Memtable.new 0).insertAll r.points).entries.points = [cpuPoint 5 8] := by
  have hrun : ((Runs.run (step oneShard) (.fresh oneShard) (sameSlotCalls 1 0)).any fun r =>
      r.1.appends.all AppendTask.acked && (r.1.memtables 0).entries.points = [cpuPoint 5 7] &&
        (recover (r.1.disk.wal 0) 0).toOption.any fun r =>
          ((Memtable.new 0).insertAll r.points).entries.points = [cpuPoint 5 8]) = true := by
    decide +kernel
  obtain ⟨s, tr, hrun, hstate⟩ := Runs.exists_of_any hrun
  simp only [Bool.and_eq_true] at hstate
  obtain ⟨⟨hacked, hmem⟩, hreplay⟩ := hstate
  cases hrecover : recover (s.disk.wal 0) 0 with
  | error e => simp [hrecover, Except.toOption] at hreplay
  | ok r =>
    refine ⟨s, tr, r, openStore_empty oneShard _, hrun, List.all_eq_true.mp hacked,
      of_decide_eq_true hmem, hrecover, ?_⟩
    simpa [hrecover, Except.toOption] using hreplay

end Example

end Micius

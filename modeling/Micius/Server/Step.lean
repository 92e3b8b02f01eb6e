import Micius.Server.System

/-!
# The step relation

What a step can do, one constructor for each way an action succeeds.
`step_sound` is the inversion of `step`; the invariants of the server are
proved by cases on this relation.
-/

namespace Micius

variable [Crates]

/-- The steps of the server. -/
inductive Step (cfg : StorageConfig) (s : Server) : Action → Server → List Event → Prop
  | append {points : List DataPoint} {indexed : List (Nat × Nat)}
      (hsorted : SortedByShard points cfg.numShards indexed) :
      Step cfg s (.append points indexed)
        { s with appends := s.appends ++ [⟨points, shardGroups points indexed, false⟩] }
        [.requested points]
  | walCommit {i : Nat} {refs : List (Nat × Nat)} {drain : Option Nat}
      (hi : i < cfg.numShards) (hidle : (s.wals i).finishing = none)
      (hrequest : ∀ gcSeq, drain = some gcSeq → s.sweeper = .draining i gcSeq)
      (hnodup : refs.Nodup)
      (hwait : ∀ ref ∈ refs, ∃ g, groupAt s.appends ref = some g ∧ g.shard = i ∧
        g.committed = none) :
      Step cfg s (.walCommit i refs drain)
        { s with
          disk := s.disk.runWal i ((s.wals i).commitOps (messagesAt s.appends refs))
          wals := Function.update s.wals i
            ((s.wals i).commit (messagesAt s.appends refs) drain)
          appends := deliver s.appends
            (numbered (s.wals i).writer.currentSeq (messagesAt s.appends refs)) }
        ((numbered (s.wals i).writer.currentSeq (messagesAt s.appends refs)).map
          fun r => .committed i (s.wals i).writer.file (r.1, r.2.2))
  | walFinish {i : Nat} (hfinish : (s.wals i).finishing = some none) :
      Step cfg s (.walFinish i)
        { s with
          disk := s.disk.runWal i (rotateFull (s.wals i).writer).2
          wals := Function.update s.wals i
            ⟨(rotateFull (s.wals i).writer).1, (s.wals i).lastSeq, none⟩ }
        []
  | walDrain {i gcSeq : Nat} (hfinish : (s.wals i).finishing = some (some gcSeq)) :
      Step cfg s (.walFinish i)
        { s with
          disk := s.disk.runWal i (rotateFull (s.wals i).writer).2
          wals := Function.update s.wals i
            ⟨((rotateFull (s.wals i).writer).1.drainCompletedBefore gcSeq).2,
              (s.wals i).lastSeq, none⟩
          sweeper := .deleting i ((rotateFull (s.wals i).writer).1.drainCompletedBefore gcSeq).1 }
        [.drained i ((rotateFull (s.wals i).writer).1.completedBefore gcSeq)]
  | memInsert {k : Nat} {points : List DataPoint} {g : Group} {rest : List Group} {acked : Bool}
      (hk : s.appends[k]? = some ⟨points, g :: rest, acked⟩)
      (hall : ∀ g' ∈ g :: rest, g'.committed.isSome) :
      Step cfg s (.memInsert k)
        { s with
          memtables := Function.update s.memtables g.shard
            ((s.memtables g.shard).insertAll g.points)
          appends := s.appends.set k ⟨points, rest, acked⟩ }
        []
  | ack {k : Nat} {points : List DataPoint} (hk : s.appends[k]? = some ⟨points, [], false⟩) :
      Step cfg s (.ack k)
        { s with
          appends := s.appends.set k ⟨points, [], true⟩
          appendSeq := s.appendSeq + 1 }
        [.acked points (s.appendSeq + 1)]
  | sweepDrain {i : Nat} (hs : s.sweeper = .next i)
      (hflush : (s.memtables i).shouldFlush = true) :
      Step cfg s .sweepLock
        { s with
          memtables := Function.update s.memtables i (s.memtables i).drain.2
          sweeper := .drained i (s.memtables i).drain.1 }
        []
  | sweepSkip {i : Nat} (hs : s.sweeper = .next i)
      (hflush : (s.memtables i).shouldFlush = false) :
      Step cfg s .sweepLock { s with sweeper := .next (cfg.nextShard i) } []
  | sweepWrite {chunkId : ChunkId} {i : Nat} {data : SeriesData} {bytes : Bytes}
      {result : ChunkWriteResult} (hs : s.sweeper = .drained i data)
      (hw : ChunkWriter.write chunkId data = .ok (bytes, result))
      (hnew : chunkId ∉ s.disk.chunks) :
      Step cfg s (.sweepWrite chunkId)
        { s with
          disk := s.disk.apply (.writeChunk chunkId bytes)
          sweeper := .written i result }
        [.chunkWritten chunkId bytes]
  | sweepFail {chunkId : ChunkId} {i : Nat} {data : SeriesData} {e : ChunkWriteError}
      (hs : s.sweeper = .drained i data) (hw : ChunkWriter.write chunkId data = .error e) :
      Step cfg s (.sweepWrite chunkId) { s with sweeper := .next (cfg.nextShard i) } []
  | sweepRegister {i : Nat} {result : ChunkWriteResult} (hs : s.sweeper = .written i result)
      (hlock : s.indexReadLocked = false) :
      Step cfg s .sweepRegister
        { s with
          index := s.index.registerAll result.chunkMeta result.seriesResults
          sweeper := .registered i result }
        []
  | sweepReadSequence {i : Nat} {result : ChunkWriteResult}
      (hs : s.sweeper = .registered i result) :
      Step cfg s .sweepReadSequence
        { s with sweeper := .sequenceRead i result (s.wals i).lastSeq } []
  | sweepPublish {i : Nat} {result : ChunkWriteResult} {seq : Nat}
      (hs : s.sweeper = .sequenceRead i result seq) :
      Step cfg s .sweepPublish
        { s with
          shardWatermarks := Function.update s.shardWatermarks i seq
          sweeper := .published i }
        [.published i seq result.chunkId]
  | sweepRequestDrain {i : Nat} (hs : s.sweeper = .published i) :
      Step cfg s .sweepRequestDrain
        { s with sweeper := .draining i (s.persistedWatermarks i) } []
  | sweepDelete {i seg : Nat} {segs : List Nat} (hs : s.sweeper = .deleting i (seg :: segs)) :
      Step cfg s .sweepDelete
        { s with
          disk := s.disk.runWal i [.remove seg]
          sweeper := .deleting i segs }
        []
  | sweepDone {i : Nat} (hs : s.sweeper = .deleting i []) :
      Step cfg s .sweepDelete { s with sweeper := .next (cfg.nextShard i) } []
  | snapshotBegin :
      Step cfg s .snapshotBegin { s with snapshots := s.snapshots ++ [.loading []] } []
  | snapshotLoad {k : Nat} {ws : List Nat} (hk : s.snapshots[k]? = some (.loading ws))
      (hlen : ws.length < cfg.numShards) :
      Step cfg s (.snapshotLoad k)
        { s with snapshots :=
            s.snapshots.set k (.loading (ws ++ [s.shardWatermarks ws.length])) }
        [.loaded k ws.length (s.shardWatermarks ws.length)]
  | snapshotLock {k : Nat} {ws : List Nat} (hk : s.snapshots[k]? = some (.loading ws))
      (hlen : ws.length = cfg.numShards) :
      Step cfg s (.snapshotLock k) { s with snapshots := s.snapshots.set k (.locked ws) } []
  | snapshotSave {k : Nat} {ws : List Nat} (hk : s.snapshots[k]? = some (.locked ws)) :
      Step cfg s (.snapshotSave k)
        { s with
          disk := s.disk.apply (.saveSnapshot (saveIndex s.index ws))
          snapshots := s.snapshots.set k (.storing ws 0) }
        [.saved k (saveIndex s.index ws)]
  | snapshotStore {k i w : Nat} {ws : List Nat} (hk : s.snapshots[k]? = some (.storing ws i))
      (hw : ws[i]? = some w) :
      Step cfg s (.snapshotStore k)
        { s with
          persistedWatermarks := Function.update s.persistedWatermarks i w
          snapshots := s.snapshots.set k (.storing ws (i + 1)) }
        []
  | snapshotUnlock {k : Nat} {ws : List Nat}
      (hk : s.snapshots[k]? = some (.storing ws ws.length)) :
      Step cfg s (.snapshotUnlock k) { s with snapshots := s.snapshots.set k .done } []
  | compactFind {files : List (ChunkId × ChunkMeta)} (hc : s.compactor = .idle)
      (hfiles : files.Perm s.index.chunkFiles.toList) :
      Step cfg s (.compactFind files)
        { s with compactor := .merging (findCandidates cfg.compaction s.index files) } []
  | compactMerge {chunkId : ChunkId} {group : MergeGroup} {rest : List MergeGroup} {bytes : Bytes}
      {result : ChunkWriteResult} (hc : s.compactor = .merging (group :: rest))
      (hm : mergeGroup s.disk.chunks chunkId group = .ok (bytes, result))
      (hnew : chunkId ∉ s.disk.chunks) :
      Step cfg s (.compactMerge chunkId)
        { s with
          disk := s.disk.apply (.writeChunk chunkId bytes)
          compactor := .merged group result rest }
        [.chunkWritten chunkId bytes]
  | compactFail {chunkId : ChunkId} {group : MergeGroup} {rest : List MergeGroup}
      {e : CompactError} (hc : s.compactor = .merging (group :: rest))
      (hm : mergeGroup s.disk.chunks chunkId group = .error e) :
      Step cfg s (.compactMerge chunkId) { s with compactor := .idle } []
  | compactCommit {group : MergeGroup} {result : ChunkWriteResult} {rest : List MergeGroup}
      (hc : s.compactor = .merged group result rest) (hlock : s.indexReadLocked = false) :
      Step cfg s .compactCommit
        { s with
          index := group.commit s.index result
          compactor := .deleting (group.chunks.map Prod.snd) rest }
        [.compacted (group.chunks.map Prod.fst)]
  | compactDelete {path : ChunkPath} {paths : List ChunkPath} {rest : List MergeGroup}
      (hc : s.compactor = .deleting (path :: paths) rest) :
      Step cfg s .compactDelete
        { s with
          disk := s.disk.apply (.removeChunk path)
          compactor := .deleting paths rest }
        []
  | compactNext {rest : List MergeGroup} (hc : s.compactor = .deleting [] rest) :
      Step cfg s .compactDelete { s with compactor := .merging rest } []
  | compactEnd (hc : s.compactor = .merging []) :
      Step cfg s .compactEnd { s with compactor := .idle } []

omit [Crates] in
theorem Sweeper.requestsDrain_iff {sweeper : Sweeper} {i gcSeq : Nat} :
    sweeper.requestsDrain i gcSeq = true ↔ sweeper = .draining i gcSeq := by
  cases sweeper <;> simp [requestsDrain]

omit [Crates] in
theorem Group.waitsFor_iff {g : Group} {i : Nat} :
    g.waitsFor i = true ↔ g.shard = i ∧ g.committed = none := by
  simp [waitsFor]

/-- Every effect of `step` is one of the relation. -/
theorem step_sound {cfg : StorageConfig} {s s' : Server} {a : Action} {es : List Event}
    (h : step cfg s a = some (s', es)) : Step cfg s a s' es := by
  cases a with
  | append points indexed =>
    simp only [step] at h
    split at h
    · next hsorted =>
      obtain ⟨rfl, rfl⟩ := Prod.mk.inj (Option.some.inj h)
      exact .append hsorted
    · cases h
  | walCommit i refs drain =>
    simp only [step] at h
    split at h
    · next hguard =>
      obtain ⟨hi, hidle, hdrain, hnodup, hall⟩ := hguard
      obtain ⟨rfl, rfl⟩ := Prod.mk.inj (Option.some.inj h)
      refine .walCommit hi (Option.isNone_iff_eq_none.mp hidle) ?_ hnodup ?_
      · rintro gcSeq rfl
        exact Sweeper.requestsDrain_iff.mp hdrain
      · intro ref href
        have hany := List.all_eq_true.mp hall ref href
        cases hg : groupAt s.appends ref with
        | none =>
          rw [hg] at hany
          cases hany
        | some g =>
          rw [hg] at hany
          exact ⟨g, rfl, Group.waitsFor_iff.mp hany⟩
    · cases h
  | walFinish i =>
    simp only [step] at h
    split at h
    · cases h
    · next drain hfinish =>
      cases drain with
      | none =>
        obtain ⟨rfl, rfl⟩ := Prod.mk.inj (Option.some.inj h)
        exact .walFinish hfinish
      | some gcSeq =>
        obtain ⟨rfl, rfl⟩ := Prod.mk.inj (Option.some.inj h)
        exact .walDrain hfinish
  | memInsert k =>
    simp only [step] at h
    split at h
    · next hk =>
      split at h
      · next hall =>
        obtain ⟨rfl, rfl⟩ := Prod.mk.inj (Option.some.inj h)
        exact .memInsert hk (List.all_eq_true.mp hall)
      · cases h
    · cases h
  | ack k =>
    simp only [step] at h
    split at h
    · next hk =>
      obtain ⟨rfl, rfl⟩ := Prod.mk.inj (Option.some.inj h)
      exact .ack hk
    · cases h
  | sweepLock =>
    simp only [step] at h
    split at h
    · next hs =>
      split at h
      · next hflush =>
        obtain ⟨rfl, rfl⟩ := Prod.mk.inj (Option.some.inj h)
        exact .sweepDrain hs hflush
      · next hflush =>
        obtain ⟨rfl, rfl⟩ := Prod.mk.inj (Option.some.inj h)
        exact .sweepSkip hs (Bool.eq_false_iff.mpr hflush)
    · cases h
  | sweepWrite chunkId =>
    simp only [step] at h
    split at h
    · next hs =>
      split at h
      · next hw =>
        obtain ⟨rfl, rfl⟩ := Prod.mk.inj (Option.some.inj h)
        exact .sweepFail hs hw
      · next hw =>
        split at h
        · cases h
        · next hnew =>
          obtain ⟨rfl, rfl⟩ := Prod.mk.inj (Option.some.inj h)
          exact .sweepWrite hs hw hnew
    · cases h
  | sweepRegister =>
    simp only [step] at h
    split at h
    · next hs =>
      split at h
      · cases h
      · next hlock =>
        obtain ⟨rfl, rfl⟩ := Prod.mk.inj (Option.some.inj h)
        exact .sweepRegister hs (Bool.eq_false_iff.mpr hlock)
    · cases h
  | sweepReadSequence =>
    simp only [step] at h
    split at h
    · next hs =>
      obtain ⟨rfl, rfl⟩ := Prod.mk.inj (Option.some.inj h)
      exact .sweepReadSequence hs
    · cases h
  | sweepPublish =>
    simp only [step] at h
    split at h
    · next hs =>
      obtain ⟨rfl, rfl⟩ := Prod.mk.inj (Option.some.inj h)
      exact .sweepPublish hs
    · cases h
  | sweepRequestDrain =>
    simp only [step] at h
    split at h
    · next hs =>
      obtain ⟨rfl, rfl⟩ := Prod.mk.inj (Option.some.inj h)
      exact .sweepRequestDrain hs
    · cases h
  | sweepDelete =>
    simp only [step] at h
    split at h
    · next hs =>
      obtain ⟨rfl, rfl⟩ := Prod.mk.inj (Option.some.inj h)
      exact .sweepDelete hs
    · next hs =>
      obtain ⟨rfl, rfl⟩ := Prod.mk.inj (Option.some.inj h)
      exact .sweepDone hs
    · cases h
  | snapshotBegin =>
    obtain ⟨rfl, rfl⟩ := Prod.mk.inj (Option.some.inj h)
    exact .snapshotBegin
  | snapshotLoad k =>
    simp only [step] at h
    split at h
    · next hk =>
      split at h
      · next hlen =>
        obtain ⟨rfl, rfl⟩ := Prod.mk.inj (Option.some.inj h)
        exact .snapshotLoad hk hlen
      · cases h
    · cases h
  | snapshotLock k =>
    simp only [step] at h
    split at h
    · next hk =>
      split at h
      · next hlen =>
        obtain ⟨rfl, rfl⟩ := Prod.mk.inj (Option.some.inj h)
        exact .snapshotLock hk hlen
      · cases h
    · cases h
  | snapshotSave k =>
    simp only [step] at h
    split at h
    · next hk =>
      obtain ⟨rfl, rfl⟩ := Prod.mk.inj (Option.some.inj h)
      exact .snapshotSave hk
    · cases h
  | snapshotStore k =>
    simp only [step] at h
    split at h
    · next hk =>
      split at h
      · next hw =>
        obtain ⟨rfl, rfl⟩ := Prod.mk.inj (Option.some.inj h)
        exact .snapshotStore hk hw
      · cases h
    · cases h
  | snapshotUnlock k =>
    simp only [step] at h
    split at h
    · next hk =>
      split at h
      · next hlen =>
        subst hlen
        obtain ⟨rfl, rfl⟩ := Prod.mk.inj (Option.some.inj h)
        exact .snapshotUnlock hk
      · cases h
    · cases h
  | compactFind files =>
    simp only [step] at h
    split at h
    · next hc =>
      split at h
      · next hfiles =>
        obtain ⟨rfl, rfl⟩ := Prod.mk.inj (Option.some.inj h)
        exact .compactFind hc hfiles
      · cases h
    · cases h
  | compactMerge chunkId =>
    simp only [step] at h
    split at h
    · next hc =>
      split at h
      · next hm =>
        obtain ⟨rfl, rfl⟩ := Prod.mk.inj (Option.some.inj h)
        exact .compactFail hc hm
      · next hm =>
        split at h
        · cases h
        · next hnew =>
          obtain ⟨rfl, rfl⟩ := Prod.mk.inj (Option.some.inj h)
          exact .compactMerge hc hm hnew
    · cases h
  | compactCommit =>
    simp only [step] at h
    split at h
    · next hc =>
      split at h
      · cases h
      · next hlock =>
        obtain ⟨rfl, rfl⟩ := Prod.mk.inj (Option.some.inj h)
        exact .compactCommit hc (Bool.eq_false_iff.mpr hlock)
    · cases h
  | compactDelete =>
    simp only [step] at h
    split at h
    · next hc =>
      obtain ⟨rfl, rfl⟩ := Prod.mk.inj (Option.some.inj h)
      exact .compactDelete hc
    · next hc =>
      obtain ⟨rfl, rfl⟩ := Prod.mk.inj (Option.some.inj h)
      exact .compactNext hc
    · cases h
  | compactEnd =>
    simp only [step] at h
    split at h
    · next hc =>
      obtain ⟨rfl, rfl⟩ := Prod.mk.inj (Option.some.inj h)
      exact .compactEnd hc
    · cases h

end Micius

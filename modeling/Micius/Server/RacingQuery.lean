import Micius.Server.IndexContents

/-!
# A query among the other tasks

A query locks one memtable after the other, then reads the index once, then
reads the chunk files it has found, with any steps of the other tasks in
between. It never sends an error: a file that is missing or cannot be read
is skipped.
-/

namespace Micius

/-- Where a query is. -/
inductive QueryTask
  /-- About to lock the memtable of `shard`, with the responses so far. -/
  | scanning (shard : Nat) (out : List QueryResponse)
  /-- The index lock is released. `left` are the entries still to be read. -/
  | reading (scan : IndexScan) (left : List SeriesChunkEntry) (out : List QueryResponse)

/-- The file the query reads next. -/
def QueryTask.nextPath : QueryTask → Option ChunkPath
  | reading scan (e :: _) _ => scan.paths[e.chunkId]?
  | _ => none

/-- A server with one query. -/
structure QuerySystem where
  server : Server
  task : QueryTask

inductive QueryAction
  | server (a : Action)
  /-- The query scans its next memtable. -/
  | scan
  | readIndex
  /-- The query reads its next chunk file, as it is on disk. -/
  | readChunk
  /-- The read fails or finds the file damaged. -/
  | readDamaged (found : Option Bytes)

inductive QueryEvent
  | server (e : Event)
  /-- The sweep drained the memtable of the shard. -/
  | drained (shard : Nat)
  | scanned (shard : Nat)
  | indexRead (index : ChunkIndex)

/-- The memtable an action of the sweep drains. -/
def Server.drains (s : Server) : Action → Option Nat
  | .sweepLock =>
    match s.sweeper with
    | .next i => if (s.memtables i).shouldFlush then some i else none
    | _ => none
  | _ => none

/-- The directory with another file at a path, or none. -/
def damagedDir (dir : ChunkDir) (path : Option ChunkPath) (found : Option Bytes) : ChunkDir :=
  match path, found with
  | some path, some bytes => dir.insert path bytes
  | some path, none => dir.erase path
  | none, _ => dir

section

variable [Crates]

/-- The steps of a server with a query. -/
def queryStep (cfg : StorageConfig) (q : Query) (t : QuerySystem) :
    QueryAction → Option (QuerySystem × List QueryEvent)
  | .server a =>
    (step cfg t.server a).map fun r =>
      ({ t with server := r.1 },
        (t.server.drains a).toList.map QueryEvent.drained ++ r.2.map QueryEvent.server)
  | .scan =>
    match t.task with
    | .scanning i out =>
      if i < cfg.numShards then
        some ({ t with task := .scanning (i + 1) (out ++ scanMemtable q (t.server.memtables i)) },
          [.scanned i])
      else none
    | _ => none
  | .readIndex =>
    match t.task with
    | .scanning i out =>
      if i = cfg.numShards then
        let scan := scanIndex q t.server.index
        some ({ t with task := .reading scan scan.chunks out }, [.indexRead t.server.index])
      else none
    | _ => none
  | .readChunk =>
    match t.task with
    | .reading scan (e :: left) out =>
      let read := readEntry q t.server.disk.chunks scan e
      some ({ t with task := .reading scan left (out ++ read) }, [])
    | _ => none
  | .readDamaged found =>
    match t.task with
    | .reading scan (e :: left) out =>
      let read := readEntry q (damagedDir t.server.disk.chunks t.task.nextPath found) scan e
      some ({ t with task := .reading scan left (out ++ read) }, [])
    | _ => none

/-- What a step of the system can do. -/
inductive QueryStep (cfg : StorageConfig) (q : Query) (t : QuerySystem) :
    QueryAction → QuerySystem → List QueryEvent → Prop
  | server {a : Action} {s' : Server} {es : List Event} (hstep : Step cfg t.server a s' es) :
      QueryStep cfg q t (.server a) { t with server := s' }
        ((t.server.drains a).toList.map QueryEvent.drained ++ es.map QueryEvent.server)
  | scan {i : Nat} {out : List QueryResponse} (ht : t.task = .scanning i out)
      (hi : i < cfg.numShards) :
      QueryStep cfg q t .scan
        { t with task := .scanning (i + 1) (out ++ scanMemtable q (t.server.memtables i)) }
        [.scanned i]
  | readIndex {out : List QueryResponse} (ht : t.task = .scanning cfg.numShards out) :
      QueryStep cfg q t .readIndex
        { t with task :=
            .reading (scanIndex q t.server.index) (scanIndex q t.server.index).chunks out }
        [.indexRead t.server.index]
  | readChunk {scan : IndexScan} {e : SeriesChunkEntry} {left : List SeriesChunkEntry}
      {out : List QueryResponse} (ht : t.task = .reading scan (e :: left) out) :
      QueryStep cfg q t .readChunk
        { t with task := .reading scan left (out ++ readEntry q t.server.disk.chunks scan e) } []
  | readDamaged {scan : IndexScan} {e : SeriesChunkEntry} {left : List SeriesChunkEntry}
      {out : List QueryResponse} {found : Option Bytes}
      (ht : t.task = .reading scan (e :: left) out) :
      QueryStep cfg q t (.readDamaged found)
        { t with task := .reading scan left (out ++
            readEntry q (damagedDir t.server.disk.chunks t.task.nextPath found) scan e) } []

theorem queryStep_sound {cfg : StorageConfig} {q : Query} {t t' : QuerySystem} {a : QueryAction}
    {es : List QueryEvent} (h : queryStep cfg q t a = some (t', es)) :
    QueryStep cfg q t a t' es := by
  cases a with
  | server a =>
    obtain ⟨⟨s', es'⟩, hstep, heq⟩ := Option.map_eq_some_iff.mp h
    obtain ⟨rfl, rfl⟩ := Prod.mk.inj heq
    exact .server (step_sound hstep)
  | scan =>
    simp only [queryStep] at h
    split at h
    · next ht =>
      split at h
      · next hi =>
        obtain ⟨rfl, rfl⟩ := Prod.mk.inj (Option.some.inj h)
        exact .scan ht hi
      · cases h
    · cases h
  | readIndex =>
    simp only [queryStep] at h
    split at h
    · next ht =>
      split at h
      · next hi =>
        obtain ⟨rfl, rfl⟩ := Prod.mk.inj (Option.some.inj h)
        exact .readIndex (hi ▸ ht)
      · cases h
    · cases h
  | readChunk =>
    simp only [queryStep] at h
    split at h
    · next ht =>
      obtain ⟨rfl, rfl⟩ := Prod.mk.inj (Option.some.inj h)
      exact .readChunk ht
    · cases h
  | readDamaged found =>
    simp only [queryStep] at h
    split at h
    · next ht =>
      obtain ⟨rfl, rfl⟩ := Prod.mk.inj (Option.some.inj h)
      exact .readDamaged ht
    · cases h

end

/-! ## The part of the server -/

/-- The events of the server. -/
def serverTrace (tr : List QueryEvent) : List Event :=
  tr.filterMap fun
    | .server e => some e
    | _ => none

@[simp] theorem serverTrace_append (tr es : List QueryEvent) :
    serverTrace (tr ++ es) = serverTrace tr ++ serverTrace es := List.filterMap_append

theorem mem_serverTrace {tr : List QueryEvent} {e : Event} :
    e ∈ serverTrace tr ↔ .server e ∈ tr := by
  rw [serverTrace, List.mem_filterMap]
  constructor
  · rintro ⟨x, hx, heq⟩
    cases x with
    | server e' =>
      obtain rfl : e' = e := Option.some.inj heq
      exact hx
    | _ => cases heq
  · exact fun h => ⟨_, h, rfl⟩

/-- A step of the server adds the events of the server. -/
theorem serverTrace_server (drained : Option Nat) (es : List Event) :
    serverTrace (drained.toList.map QueryEvent.drained ++ es.map QueryEvent.server) = es := by
  have hdrained : serverTrace (drained.toList.map QueryEvent.drained) = [] := by
    cases drained <;> rfl
  have hserver : serverTrace (es.map QueryEvent.server) = es := by
    rw [serverTrace, List.filterMap_map]
    exact List.filterMap_some
  rw [serverTrace_append, hdrained, hserver, List.nil_append]

/-- A condition on the steps of the server. -/
def OnServer (P : Server → List Event → Action → Prop) (t : QuerySystem) (tr : List QueryEvent) :
    QueryAction → Prop
  | .server a => P t.server (serverTrace tr) a
  | _ => True

/-- What the steps of the server preserve, the system preserves. -/
theorem QueryStep.server_invariant [Crates] {cfg : StorageConfig} {q : Query} {t t' : QuerySystem}
    {a : QueryAction} {tr es : List QueryEvent} {P : Server → List Event → Action → Prop}
    {I : Server → List Event → Prop}
    (hkeeps : ∀ {s tr a s' es}, I s tr → P s tr a → Step cfg s a s' es → I s' (tr ++ es))
    (hinv : I t.server (serverTrace tr)) (hstep : QueryStep cfg q t a t' es)
    (hP : OnServer P t tr a) : I t'.server (serverTrace (tr ++ es)) := by
  rw [serverTrace_append]
  cases hstep with
  | server hstep =>
    rw [serverTrace_server]
    exact hkeeps hinv hP hstep
  | scan _ _ => simpa [serverTrace] using hinv
  | readIndex _ => simpa [serverTrace] using hinv
  | readChunk _ => simpa [serverTrace] using hinv
  | readDamaged _ => simpa [serverTrace] using hinv

end Micius

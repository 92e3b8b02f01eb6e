import Micius.Server.QueryComplete

/-!
# Queries that race with the sweep

A query scans the memtables before it reads the index, and the sweep moves
points from a memtable to the index in three steps. A point that is drained
after the query has scanned its shard and registered before the query reads
the index is streamed twice. If the sweep registers, before the index is
read, only what it drained before the scan of the shard, every point is
streamed at most once.
-/

namespace Micius

/-! ## What a run has to respect -/

def QueryEvent.scans (i : Nat) : QueryEvent → Bool
  | scanned j => j = i
  | _ => false

def QueryEvent.drains (i : Nat) : QueryEvent → Bool
  | drained j => j = i
  | _ => false

/-- The sweep has drained the shard after the last scan of it. -/
def drainedSinceScan (i : Nat) (tr : List QueryEvent) : Bool :=
  Runs.occursSince (QueryEvent.scans i) (QueryEvent.drains i) tr

/-- What the sweep registers before the query reads the index was drained
before the query scanned the shard, or the shard is not scanned yet. -/
def registersScanned (t : QuerySystem) (tr : List QueryEvent) : QueryAction → Bool
  | .server .sweepRegister =>
    match t.server.sweeper, t.task with
    | .written i _, .scanning shard _ => decide (i < shard → drainedSinceScan i tr = false)
    | _, _ => true
  | _ => true

/-- The read of a chunk file fails or finds it damaged. -/
def QueryAction.isDamage : QueryAction → Bool
  | readDamaged _ => true
  | _ => false

section

variable [Crates]

/-- Appends and sweeps of new points, without compaction. -/
def SweepsOnly (U : SeriesKey → Prop) (s : Server) (tr : List Event) (a : Action) : Prop :=
  StepsOk U s tr a ∧ a.isCompaction = false

/-- The condition on the steps of the system. -/
def RacesSafely (U : SeriesKey → Prop) (t : QuerySystem) (tr : List QueryEvent)
    (a : QueryAction) : Prop :=
  OnServer (SweepsOnly U) t tr a ∧ a.isDamage = false ∧ registersScanned t tr a = true

instance decidableRacesSafely (U : SeriesKey → Prop) [DecidablePred U] (t : QuerySystem)
    (tr : List QueryEvent) (a : QueryAction) : Decidable (RacesSafely U t tr a) :=
  have : ∀ s tr a, Decidable (SweepsOnly U s tr a) := fun s tr a =>
    inferInstanceAs (Decidable (StepsOk U s tr a ∧ a.isCompaction = false))
  inferInstanceAs (Decidable (_ ∧ _ ∧ _))

/-! ## How the sweep moves points -/

/-- The points the sweep has drained and not yet registered. -/
def carriedPoints (s : Server) (flight : List Chunk) : List DataPoint :=
  s.sweeper.drainedPoints ++ livePoints flight

/-- Where a step without compaction takes points from: a registered point
was carried, a carried point was carried before or is drained now. -/
structure Moved (s : Server) (a : Action) (s' : Server) (live flight live' flight' : List Chunk) :
    Prop where
  live : ∀ p ∈ livePoints live', p ∈ livePoints live ∨ a = .sweepRegister ∧ p ∈ livePoints flight
  carried : ∀ p ∈ carriedPoints s' flight',
    s'.sweeper.shard = s.sweeper.shard ∧ p ∈ carriedPoints s flight ∨
      s.drains a = some s'.sweeper.shard ∧ p ∈ (s.memtables s'.sweeper.shard).entries.points

/-- The sweep takes up points only when it drains or writes. -/
theorem Step.sweeper_of_same {cfg : StorageConfig} {s s' : Server} {a : Action} {es : List Event}
    (hstep : Step cfg s a s' es) (ha : a.changesChunks = false) :
    s'.sweeper = s.sweeper ∨ s'.sweeper.carries = false ∨
      ∃ i, s.drains a = some i ∧ s'.sweeper = .drained i (s.memtables i).entries := by
  cases hstep with
  | sweepDrain hs hflush =>
    refine .inr (.inr ⟨_, ?_, rfl⟩)
    simp only [Server.drains, hs]
    exact if_pos hflush
  | walDrain _ => exact .inr (.inl rfl)
  | sweepSkip _ _ => exact .inr (.inl rfl)
  | sweepReadSequence _ => exact .inr (.inl rfl)
  | sweepPublish _ => exact .inr (.inl rfl)
  | sweepRequestDrain _ => exact .inr (.inl rfl)
  | sweepDelete _ => exact .inr (.inl rfl)
  | sweepDone _ => exact .inr (.inl rfl)
  | sweepWrite _ _ _ => cases ha
  | sweepFail _ _ => cases ha
  | sweepRegister _ _ => cases ha
  | _ => exact .inl rfl

section

variable {U : SeriesKey → Prop} {cfg : StorageConfig} {s s' : Server} {a : Action}
  {requested : List DataPoint} {created : List ChunkId} {live flight merged : List Chunk}

/-- The chunk of the sweep is in flight only when it is written. -/
theorem FlightOk.eq_nil_of_carries {sweeper : Sweeper} (h : FlightOk sweeper flight)
    (hcarries : sweeper.carries = false) : flight = [] :=
  h.eq_nil fun i result hs => by
    rw [hs] at hcarries
    cases hcarries

theorem Moved.of_same {es : List Event} (hstep : Step cfg s a s' es)
    (ha : a.changesChunks = false) (h : FlightOk s'.sweeper flight) :
    Moved s a s' live flight live flight := by
  refine ⟨fun p hp => .inl hp, fun p hp => ?_⟩
  rcases hstep.sweeper_of_same ha with hs | hs | ⟨i, hdrains, hs⟩
  · refine .inl ⟨by rw [hs], ?_⟩
    rwa [carriedPoints, hs] at hp
  · rw [carriedPoints, Sweeper.drainedPoints_of_carries hs, h.eq_nil_of_carries hs] at hp
    cases hp
  · rw [hs] at h
    obtain rfl : flight = [] := h.eq_nil (by simp)
    refine .inr ⟨by rw [hs]; exact hdrains, ?_⟩
    rw [carriedPoints, hs] at hp
    rw [hs]
    show p ∈ (s.memtables i).entries.points
    simpa [Sweeper.drainedPoints, livePoints] using hp

/-- The points that a step makes live or gives to the sweep. -/
theorem ChunkMove.moved {es : List Event} {live' flight' : List Chunk}
    (h : ChunkMove s s' live a flight live' flight') (hstep : Step cfg s a s' es)
    (hflight : FlightOk s'.sweeper flight') : Moved s a s' live flight live' flight' := by
  cases h with
  | same ha => exact .of_same hstep ha hflight
  | append hs =>
    refine ⟨fun p hp => .inl hp, fun p hp => .inl ⟨by rw [hs], ?_⟩⟩
    rwa [carriedPoints, hs] at hp
  | sweepWrite hs hs' =>
    refine ⟨fun p hp => .inl hp, fun p hp => .inl ⟨by rw [hs, hs']; rfl, ?_⟩⟩
    rw [carriedPoints, hs'] at hp
    rw [carriedPoints, hs]
    refine List.mem_append_left _ ?_
    simpa [Sweeper.drainedPoints, livePoints, Chunk.points] using hp
  | sweepFail hs' =>
    refine ⟨fun p hp => .inl hp, fun p hp => ?_⟩
    rw [carriedPoints, hs'] at hp
    cases hp
  | @sweepRegister _ c _ hs' =>
    refine ⟨fun p hp => ?_, fun p hp => ?_⟩
    · rcases List.mem_append.mp (show p ∈ c.points ++ livePoints live from hp) with hp | hp
      · exact .inr ⟨rfl, by simpa [livePoints] using hp⟩
      · exact .inl hp
    · rw [carriedPoints, hs'] at hp
      cases hp

/-- **One step** of the appends and the sweep, with the chunks it leaves. -/
theorem StoreOk.moves {tr es : List Event} (hU : KeysOk U) (hsweep : SweepOk cfg s)
    (h : StoreOk U cfg s (requestedPoints tr) (createdChunks tr) live flight merged)
    (hok : SweepsOnly U s tr a) (hstep : Step cfg s a s' es) :
    ∃ live' flight', StoreOk U cfg s' (requestedPoints (tr ++ es)) (createdChunks (tr ++ es))
      live' flight' merged ∧ Moved s a s' live flight live' flight' := by
  obtain ⟨⟨happend, hsize, hfresh⟩, hcompact⟩ := hok
  obtain ⟨live', flight', hstore, hmove⟩ :=
    h.chunkMove hU hsweep happend.1 happend.2 hsize hfresh hcompact hstep
  rw [requestedPoints_append, requestedPoints_step hstep]
  exact ⟨live', flight', hstore, hmove.moved hstep hstore.sweeper⟩

end

/-! ## What the trace says about the scans -/

omit [Crates] in
theorem drainedSinceScan_server (i : Nat) (tr : List QueryEvent) (drained : Option Nat)
    (es : List Event) :
    drainedSinceScan i
        (tr ++ (drained.toList.map QueryEvent.drained ++ es.map QueryEvent.server)) =
      (drainedSinceScan i tr || drained = some i) := by
  have hserver : ∀ e ∈ es.map QueryEvent.server,
      QueryEvent.scans i e = false ∧ QueryEvent.drains i e = false := by
    intro e he
    obtain ⟨e', -, rfl⟩ := List.mem_map.mp he
    exact ⟨rfl, rfl⟩
  rw [drainedSinceScan, ← List.append_assoc, Runs.occursSince_append hserver]
  cases drained with
  | none => simp [drainedSinceScan]
  | some j =>
    refine (Runs.occursSince_concat _ _).trans ?_
    simp [drainedSinceScan, QueryEvent.scans, QueryEvent.drains]

omit [Crates] in
theorem drainedSinceScan_scanned {i j : Nat} (h : i ≠ j) (tr : List QueryEvent) :
    drainedSinceScan i (tr ++ [.scanned j]) = drainedSinceScan i tr := by
  refine (Runs.occursSince_concat _ _).trans ?_
  simp [drainedSinceScan, QueryEvent.scans, QueryEvent.drains, h.symm]

/-! ## The invariant -/

/-- The points `points` that the query has scanned, up to `shard`. -/
structure Scanned (cfg : StorageConfig) (t : QuerySystem) (tr : List QueryEvent)
    (live flight : List Chunk) (shard : Nat) (points : List DataPoint) : Prop where
  distinct : Distinct points
  requested : ∀ p ∈ points, p ∈ requestedPoints (serverTrace tr)
  shards : ∀ p ∈ points, shardIndex p cfg.numShards < shard
  live : ∀ p ∈ points, p ∉ livePoints live
  carried : ∀ p ∈ points, p ∈ carriedPoints t.server flight →
    drainedSinceScan t.server.sweeper.shard tr = true

/-- The query is done with the entries `done` of the index it has read,
after scanning `points`. -/
structure HasRead (U : SeriesKey → Prop) (q : Query) (dir : ChunkDir) (created : List ChunkId)
    (scan : IndexScan) (left : List SeriesChunkEntry) (out : List QueryResponse)
    (idx : ChunkIndex) (live : List Chunk) (points : List DataPoint)
    (done : List SeriesChunkEntry) : Prop where
  index : IndexOk U idx live
  scanned : scan = scanIndex q idx
  files : FilesOk dir created live
  entries : scan.chunks = done ++ left
  stream : out = points.map DataPoint.response ++ done.flatMap (readEntry q dir scan)
  distinct : Distinct (points ++ livePoints live)
  keys : ∀ p ∈ points, U p.key

/-- Where the responses of the query come from. -/
inductive StreamedOnce (U : SeriesKey → Prop) (cfg : StorageConfig) (q : Query) (t : QuerySystem)
    (tr : List QueryEvent) (live flight : List Chunk) : Prop
  | scanning {shard : Nat} {points : List DataPoint}
      (ht : t.task = .scanning shard (points.map DataPoint.response))
      (h : Scanned cfg t tr live flight shard points)
  | reading {scan : IndexScan} {left : List SeriesChunkEntry} {out : List QueryResponse}
      {idx : ChunkIndex} {read : List Chunk} {points : List DataPoint}
      {done : List SeriesChunkEntry} (ht : t.task = .reading scan left out)
      (h : HasRead U q t.server.disk.chunks (createdChunks (serverTrace tr)) scan left out idx read
        points done)

/-- What holds of the server and the query. -/
structure Racing (U : SeriesKey → Prop) (cfg : StorageConfig) (q : Query) (t : QuerySystem)
    (tr : List QueryEvent) (live flight merged : List Chunk) : Prop where
  sweep : SweepOk cfg t.server
  routed : Routed cfg t.server
  store : StoreOk U cfg t.server (requestedPoints (serverTrace tr))
    (createdChunks (serverTrace tr)) live flight merged
  carried : ∀ p ∈ carriedPoints t.server flight,
    shardIndex p cfg.numShards = t.server.sweeper.shard
  query : StreamedOnce U cfg q t tr live flight

section

variable {U : SeriesKey → Prop} {cfg : StorageConfig} {q : Query} {t t' : QuerySystem}
  {tr : List QueryEvent} {live flight merged : List Chunk}

/-- A point in a memtable is in no other place. -/
theorem StoreOk.elsewhere {s : Server} {requested : List DataPoint} {created : List ChunkId}
    (h : StoreOk U cfg s requested created live flight merged) {i : Nat} (hi : i < cfg.numShards)
    {p : DataPoint} (hp : p ∈ (s.memtables i).entries.points) :
    p ∈ requested ∧ p ∉ carriedPoints s flight ∧ p ∉ livePoints live := by
  have hmem : p ∈ memPoints cfg.numShards s.memtables :=
    List.mem_flatMap.mpr ⟨i, List.mem_range.mpr hi, hp⟩
  have hrest : Distinct (memPoints cfg.numShards s.memtables ++
      (carriedPoints s flight ++ livePoints live)) := by
    rw [carriedPoints, List.append_assoc]
    exact h.distinct_places.sublist (List.sublist_append_right ..)
  have hnot : p ∉ carriedPoints s flight ++ livePoints live :=
    fun hp' => hrest.slot_ne hmem hp' rfl
  rw [List.mem_append, not_or] at hnot
  refine ⟨h.points.mem_iff.mpr ?_, hnot⟩
  simp [hmem]

omit [Crates] in
/-- Distinct lists without a common point in a distinct list. -/
theorem Distinct.append_of_subset {all l l' : List DataPoint} (h : Distinct all) (hl : Distinct l)
    (hl' : Distinct l') (hsub : ∀ p ∈ l, p ∈ all) (hsub' : ∀ p ∈ l', p ∈ all)
    (hne : ∀ p ∈ l, p ∉ l') : Distinct (l ++ l') := by
  refine hl.append hl' fun p hp q hq heq => hne p hp ?_
  exact h.eq_of_slot (hsub p hp) (hsub' q hq) heq ▸ hq

theorem Scanned.nil (cfg : StorageConfig) (t : QuerySystem) (tr : List QueryEvent)
    (live flight : List Chunk) (shard : Nat) : Scanned cfg t tr live flight shard [] :=
  ⟨List.nodup_nil, by simp, by simp, by simp, by simp⟩

/-- A scan adds the selected points of the shard. -/
theorem Scanned.scan (h : Racing U cfg q t tr live flight merged) {shard : Nat}
    {points : List DataPoint} (hscan : Scanned cfg t tr live flight shard points)
    (hshard : shard < cfg.numShards) (task : QueryTask) :
    Scanned cfg { t with task := task } (tr ++ [.scanned shard]) live flight (shard + 1)
      (points ++ (t.server.memtables shard).entries.points.filter q.selects) := by
  have hnew : ∀ p ∈ (t.server.memtables shard).entries.points.filter q.selects,
      p ∈ (t.server.memtables shard).entries.points := fun p hp => List.mem_of_mem_filter hp
  have hmem : Distinct (t.server.memtables shard).entries.points := by
    obtain ⟨rest, hrest, -⟩ := memPoints_update hshard t.server.memtables
    have hall := h.store.distinct_places.sublist (List.sublist_append_right ..)
    exact ((hall.sublist (List.sublist_append_left ..)).of_perm hrest).sublist
      (List.sublist_append_left ..)
  have htrace : serverTrace (tr ++ [.scanned shard]) = serverTrace tr := by simp [serverTrace]
  refine ⟨?_, ?_, ?_, ?_, ?_⟩
  · refine h.store.distinct.append_of_subset hscan.distinct (hmem.sublist List.filter_sublist)
      hscan.requested (fun p hp => (h.store.elsewhere hshard (hnew p hp)).1) fun p hp hp' => ?_
    -- the points of different shards differ
    have hlt := hscan.shards p hp
    rw [h.routed.memtables shard p (hnew p hp')] at hlt
    exact Nat.lt_irrefl _ hlt
  all_goals
    intro p hp
    rcases List.mem_append.mp hp with hp | hp
  · rw [htrace]
    exact hscan.requested p hp
  · rw [htrace]
    exact (h.store.elsewhere hshard (hnew p hp)).1
  · exact Nat.lt_succ_of_lt (hscan.shards p hp)
  · rw [h.routed.memtables shard p (hnew p hp)]
    exact Nat.lt_succ_self shard
  · exact hscan.live p hp
  · exact (h.store.elsewhere hshard (hnew p hp)).2.2
  · intro hcarried
    have hlt := hscan.shards p hp
    rw [h.carried p hcarried] at hlt
    exact (drainedSinceScan_scanned (Nat.ne_of_lt hlt) tr).trans (hscan.carried p hp hcarried)
  · exact fun hcarried => absurd hcarried (h.store.elsewhere hshard (hnew p hp)).2.1

/-- A step of the server keeps the scanned points out of the index. -/
theorem Scanned.server {s' : Server} {a : Action} {es : List Event} {live' flight' : List Chunk}
    (h : Racing U cfg q t tr live flight merged) {shard : Nat} {out : List QueryResponse}
    (ht : t.task = .scanning shard out) {points : List DataPoint}
    (hscan : Scanned cfg t tr live flight shard points)
    (hmoved : Moved t.server a s' live flight live' flight')
    (hsafe : registersScanned t tr (.server a) = true) :
    Scanned cfg { t with server := s' }
      (tr ++ ((t.server.drains a).toList.map QueryEvent.drained ++ es.map QueryEvent.server))
      live' flight' shard points := by
  refine { hscan with requested := fun p hp => ?_, live := fun p hp hlive => ?_, carried := ?_ }
  · rw [serverTrace_append, requestedPoints_append]
    exact List.mem_append_left _ (hscan.requested p hp)
  · rcases hmoved.live p hlive with hlive | ⟨rfl, hflight⟩
    · exact hscan.live p hp hlive
    · -- the point is in the chunk that is registered: it was drained before the scan
      have hcarried : p ∈ carriedPoints t.server flight := List.mem_append_right _ hflight
      have hsince := hscan.carried p hp hcarried
      have hlt := hscan.shards p hp
      rw [h.carried p hcarried] at hlt
      have hsweeper := h.store.sweeper
      generalize hs : t.server.sweeper = sweeper at hsweeper hsince hlt
      cases hsweeper with
      | none _ => cases hflight
      | @written i result c bytes hw =>
        simp only [registersScanned, hs, ht, decide_eq_true_eq] at hsafe
        exact Bool.false_ne_true ((hsafe hlt).symm.trans hsince)
  · intro p hp hcarried
    rw [drainedSinceScan_server, Bool.or_eq_true, decide_eq_true_eq]
    rcases hmoved.carried p hcarried with ⟨hshard, hcarried⟩ | ⟨hdrains, -⟩
    · refine .inl ?_
      show drainedSinceScan s'.sweeper.shard tr = true
      rw [hshard]
      exact hscan.carried p hp hcarried
    · exact .inr hdrains

/-- A step without compaction keeps chunk files. -/
theorem FilesOk.step {s s' : Server} {a : Action} {tr es : List Event} {cs : List Chunk}
    (h : FilesOk s.disk.chunks (createdChunks tr) cs) (hok : SweepsOnly U s tr a)
    (hstep : Step cfg s a s' es) : FilesOk s'.disk.chunks (createdChunks (tr ++ es)) cs := by
  obtain ⟨⟨-, -, hfresh⟩, hcompact⟩ := hok
  have hcreated : ∀ c ∈ cs, c.id ∈ createdChunks (tr ++ es) := by
    intro c hc
    rw [createdChunks_append]
    exact List.mem_append_left _ (h.created c hc)
  cases hstep with
  | sweepWrite _ _ _ =>
    refine { h with created := hcreated, onDisk := fun c hc => (h.onDisk c hc).insert ?_ _ }
    rintro rfl
    exact hfresh _ rfl (h.created c hc)
  | compactFind _ _ => cases hcompact
  | compactMerge _ _ _ => cases hcompact
  | compactFail _ _ => cases hcompact
  | compactCommit _ _ => cases hcompact
  | compactDelete _ => cases hcompact
  | compactNext _ => cases hcompact
  | compactEnd _ => cases hcompact
  | _ => exact { h with created := hcreated }

/-- A chunk file is read in the same way for as long as it is on disk. -/
theorem HasRead.server (hlaw : Crates.LawfulLz4) (hU : KeysOk U) {dir dir' : ChunkDir}
    {created created' : List ChunkId} {scan : IndexScan} {left : List SeriesChunkEntry}
    {out : List QueryResponse} {idx : ChunkIndex} {read : List Chunk} {points : List DataPoint}
    {done : List SeriesChunkEntry}
    (h : HasRead U q dir created scan left out idx read points done)
    (hfiles : FilesOk dir' created' read) :
    HasRead U q dir' created' scan left out idx read points done := by
  refine { h with files := hfiles, stream := ?_ }
  have hsame : ∀ e ∈ done, readEntry q dir scan e = readEntry q dir' scan e := by
    intro e he
    have hmem : e ∈ (scanIndex q idx).chunks := by
      rw [← h.scanned, h.entries]
      exact List.mem_append_left _ he
    obtain ⟨c, hc, kp, hkp, -, rfl⟩ := (mem_scanIndex h.index q).mp hmem
    obtain ⟨hpath, hkey⟩ := scan_of_live h.index q hc hkp hmem
    rw [← h.scanned] at hpath hkey
    have huse : ∀ kp ∈ c.data.toList, U kp.1 := fun kp hkp => h.index.key_in_use hc hkp
    rw [readEntry_of_scan hlaw hU q (h.files.onDisk c hc) huse hkp hpath hkey,
      readEntry_of_scan hlaw hU q (hfiles.onDisk c hc) huse hkp hpath hkey]
  rw [h.stream, List.flatMap_congr hsame]

theorem HasRead.readChunk {dir : ChunkDir} {created : List ChunkId} {scan : IndexScan}
    {e : SeriesChunkEntry} {left : List SeriesChunkEntry} {out : List QueryResponse}
    {idx : ChunkIndex} {read : List Chunk} {points : List DataPoint}
    {done : List SeriesChunkEntry}
    (h : HasRead U q dir created scan (e :: left) out idx read points done) :
    HasRead U q dir created scan left (out ++ readEntry q dir scan e) idx read points
      (done ++ [e]) :=
  { h with
    entries := by
      rw [h.entries, List.append_assoc]
      rfl
    stream := by
      rw [h.stream, List.flatMap_append, List.flatMap_singleton, List.append_assoc] }

/-- Reading the index: no scanned point is in it. -/
theorem Scanned.readIndex (h : Racing U cfg q t tr live flight merged) {shard : Nat}
    {points : List DataPoint} (hscan : Scanned cfg t tr live flight shard points) :
    HasRead U q t.server.disk.chunks (createdChunks (serverTrace tr)) (scanIndex q t.server.index)
      (scanIndex q t.server.index).chunks (points.map DataPoint.response) t.server.index live
      points [] where
  index := h.store.index
  scanned := rfl
  files := h.store.files.sublist
    ((List.sublist_append_right ..).trans (List.sublist_append_right ..))
  entries := rfl
  stream := by simp
  distinct := h.store.distinct.append_of_subset hscan.distinct h.store.distinct_live hscan.requested
    (fun p hp => h.store.points.mem_iff.mpr (by simp [hp])) hscan.live
  keys p hp := h.store.keys p (hscan.requested p hp)

/-- **Every step** of the system that meets the condition. -/
theorem Racing.step (hlaw : Crates.LawfulLz4) (hU : KeysOk U) {a : QueryAction}
    {es : List QueryEvent} (h : Racing U cfg q t tr live flight merged)
    (hok : RacesSafely U t tr a) (hstep : QueryStep cfg q t a t' es) :
    ∃ live' flight', Racing U cfg q t' (tr ++ es) live' flight' merged := by
  obtain ⟨hserver, hdamage, hsafe⟩ := hok
  cases hstep with
  | @server a s' es hstep =>
    obtain ⟨live', flight', hstore, hmoved⟩ := h.store.moves hU h.sweep hserver hstep
    refine ⟨live', flight', h.sweep.step hstep, h.routed.step hstep, ?_, fun p hp => ?_, ?_⟩
    · rwa [serverTrace_append, serverTrace_server]
    · rcases hmoved.carried p hp with ⟨hshard, hp⟩ | ⟨-, hp⟩
      · exact (h.carried p hp).trans hshard.symm
      · exact h.routed.memtables _ p hp
    · cases h.query with
      | scanning ht hscan => exact .scanning ht (hscan.server h ht hmoved hsafe)
      | reading ht hread =>
        refine .reading ht (hread.server hlaw hU ?_)
        rw [serverTrace_append, serverTrace_server]
        exact hread.files.step hserver hstep
  | @scan i out ht hi =>
    refine ⟨live, flight, h.sweep, h.routed, ?_, h.carried, ?_⟩
    · simpa [serverTrace] using h.store
    · cases h.query with
      | @scanning shard points ht' hscan =>
        obtain ⟨rfl, rfl⟩ := QueryTask.scanning.inj (ht.symm.trans ht')
        refine .scanning ?_ (hscan.scan h hi _)
        rw [List.map_append, scanMemtable_eq]
      | reading ht' _ => cases ht.symm.trans ht'
  | readIndex ht =>
    refine ⟨live, flight, h.sweep, h.routed, ?_, h.carried, ?_⟩
    · simpa [serverTrace] using h.store
    · cases h.query with
      | scanning ht' hscan =>
        obtain ⟨rfl, rfl⟩ := QueryTask.scanning.inj (ht.symm.trans ht')
        have htrace : serverTrace (tr ++ [.indexRead t.server.index]) = serverTrace tr := by
          simp [serverTrace]
        exact .reading rfl (htrace.symm ▸ hscan.readIndex h)
      | reading ht' _ => cases ht.symm.trans ht'
  | @readChunk scan e left out ht =>
    rw [List.append_nil]
    refine ⟨live, flight, h.sweep, h.routed, h.store, h.carried, ?_⟩
    cases h.query with
    | scanning ht' _ => cases ht.symm.trans ht'
    | @reading scan' left' out' idx read points done ht' hread =>
      obtain ⟨rfl, rfl, rfl⟩ := QueryTask.reading.inj (ht.symm.trans ht')
      exact .reading rfl (hread.readChunk)
  | readDamaged _ => cases hdamage

/-! ## The stream -/

/-- Distinct points have distinct responses. -/
theorem nodup_responses (hU : KeysOk U) {points : List DataPoint} (h : Distinct points)
    (hkeys : ∀ p ∈ points, U p.key) :
    ((points.map DataPoint.response).map fun r => (r.seriesId, r.timestampNs)).Nodup := by
  rw [List.map_map]
  refine List.Nodup.map_on (fun p hp p' hp' heq => ?_) h.of_map
  obtain ⟨hid, htime⟩ := Prod.mk.inj heq
  have hkey : p.key = p'.key := hU.inj _ _ (hkeys p hp) (hkeys p' hp') hid
  exact List.inj_on_of_nodup_map h hp hp' (Prod.ext hkey htime)

/-- What the query has streamed so far. -/
def QueryTask.out : QueryTask → List QueryResponse
  | .scanning _ out => out
  | .reading _ _ out => out

/-- The stream is a part of the responses of distinct points. -/
theorem HasRead.nodup (hlaw : Crates.LawfulLz4) (hU : KeysOk U) {dir : ChunkDir}
    {created : List ChunkId} {scan : IndexScan} {left : List SeriesChunkEntry}
    {out : List QueryResponse} {idx : ChunkIndex} {read : List Chunk} {points : List DataPoint}
    {done : List SeriesChunkEntry}
    (h : HasRead U q dir created scan left out idx read points done) :
    (out.map fun r => (r.seriesId, r.timestampNs)).Nodup := by
  have hall : Distinct (points ++ (livePoints read).filter q.selects) :=
    h.distinct.sublist (.append_left List.filter_sublist _)
  have hkeys : ∀ p ∈ points ++ (livePoints read).filter q.selects, U p.key := by
    intro p hp
    rcases List.mem_append.mp hp with hp | hp
    · exact h.keys p hp
    · obtain ⟨c, hc, hp⟩ := List.mem_flatMap.mp (List.mem_of_mem_filter hp)
      obtain ⟨vec, hvec, -⟩ := exists_series_of_point hp
      exact h.index.key_in_use hc hvec
  have hnodup := nodup_responses hU hall hkeys
  have hchunks := queryChunks_perm hlaw hU h.index q h.files.ids h.files.onDisk
  rw [List.map_append] at hnodup
  rw [((hchunks.symm.append_left _).map _).nodup_iff] at hnodup
  refine hnodup.sublist (List.Sublist.map _ ?_)
  rw [h.stream, queryChunks, ← h.scanned, h.entries, List.flatMap_append]
  exact .append_left (List.sublist_append_left ..) _

theorem Racing.nodup (hlaw : Crates.LawfulLz4) (hU : KeysOk U)
    (h : Racing U cfg q t tr live flight merged) :
    (t.task.out.map fun r => (r.seriesId, r.timestampNs)).Nodup := by
  cases h.query with
  | scanning ht hscan =>
    rw [ht]
    exact nodup_responses hU hscan.distinct fun p hp => h.store.keys p (hscan.requested p hp)
  | reading ht hread =>
    rw [ht]
    exact hread.nodup hlaw hU

end

/-- **No point twice.** Open empty directories and run any interleaving of
one query with appends of new points and sweeps. If the sweep registers,
before the query reads the index, only what it drained before the scan of
the shard, then the stream has each series and timestamp at most once. -/
theorem query_streams_once (hlaw : Crates.LawfulLz4) (cfg : StorageConfig) {U : SeriesKey → Prop}
    (hU : KeysOk U) (q : Query) (chunkIds : Nat → ChunkId) {s₀ : Server} {t : QuerySystem}
    (actions : List QueryAction) {tr : List QueryEvent}
    (hopen : (openStore cfg chunkIds .empty).1 = .ok s₀)
    (hsteps : Runs.Along (queryStep cfg q) (RacesSafely U) ⟨s₀, .scanning 0 []⟩ [] actions)
    (hrun : Runs.run (queryStep cfg q) ⟨s₀, .scanning 0 []⟩ actions = some (t, tr)) :
    (t.task.out.map fun r => (r.seriesId, r.timestampNs)).Nodup := by
  obtain rfl := fresh_of_openStore hopen
  have hstart : Racing U cfg q ⟨.fresh cfg, .scanning 0 []⟩ [] [] [] [] :=
    { sweep := SweepOk.fresh cfg
      routed := Routed.fresh cfg
      store := storeOk_fresh U cfg
      carried := fun p hp => by cases hp
      query := .scanning rfl (Scanned.nil cfg _ _ _ _ _) }
  obtain ⟨live, flight, h⟩ := Runs.run_invariant (P := RacesSafely U)
    (I := fun t tr => ∃ live flight, Racing U cfg q t tr live flight [])
    (fun hinv hok hstep => by
      obtain ⟨live, flight, h⟩ := hinv
      exact h.step hlaw hU hok (queryStep_sound hstep)) ⟨[], [], hstart⟩ hsteps hrun
  exact h.nodup hlaw hU

end

/-! ## A query and a sweep -/

section Example

attribute [local instance] Reference.crates

/-- The sweep drains the shard, the query scans it, the sweep registers the
chunk, and the query reads it from the index. -/
def sweptQuery : List QueryAction :=
  (appendSteps 0 (cpuPoint 5 7) ++ [Action.sweepLock, .sweepWrite 100]).map .server ++
    [.scan, .server .sweepRegister, .readIndex, .readChunk]

theorem query_streams_once_swept : ∃ t tr,
    Runs.run (queryStep oneShard (.all "cpu")) ⟨.fresh oneShard, .scanning 0 []⟩ sweptQuery =
      some (t, tr) ∧
    t.task.out = [(cpuPoint 5 7).response] ∧
    (t.task.out.map fun r => (r.seriesId, r.timestampNs)).Nodup := by
  have hrun : ((Runs.run (queryStep oneShard (.all "cpu")) ⟨.fresh oneShard, .scanning 0 []⟩
      sweptQuery).any fun r => r.1.task.out = [(cpuPoint 5 7).response]) = true := by
    decide +kernel
  obtain ⟨t, tr, hrun, hout⟩ := Runs.exists_of_any hrun
  exact ⟨t, tr, hrun, of_decide_eq_true hout,
    query_streams_once Reference.lawful.lz4 oneShard keysOk_cpu (.all "cpu") (fun _ => 0) sweptQuery
      (openStore_empty oneShard _) (by decide +kernel) hrun⟩

/-- The same with the scan before the drain: the point is in the stream
twice. -/
theorem query_streams_twice : ∃ t tr scan,
    (openStore oneShard (fun _ => 0) .empty).1 = .ok (.fresh oneShard) ∧
    Runs.run (queryStep oneShard (.all "cpu")) ⟨.fresh oneShard, .scanning 0 []⟩
      ((appendSteps 0 (cpuPoint 5 7)).map .server ++ [.scan] ++
        [.server .sweepLock, .server (.sweepWrite 100), .server .sweepRegister] ++
        [.readIndex, .readChunk]) = some (t, tr) ∧
    t.task = .reading scan [] [(cpuPoint 5 7).response, (cpuPoint 5 7).response] := by
  have hrun : ((Runs.run (queryStep oneShard (.all "cpu")) ⟨.fresh oneShard, .scanning 0 []⟩
      ((appendSteps 0 (cpuPoint 5 7)).map .server ++ [.scan] ++
        [.server .sweepLock, .server (.sweepWrite 100), .server .sweepRegister] ++
        [.readIndex, .readChunk])).any fun r => r.1.task.finished =
          some [(cpuPoint 5 7).response, (cpuPoint 5 7).response]) = true := by decide +kernel
  obtain ⟨t, tr, hrun, hout⟩ := Runs.exists_of_any hrun
  obtain ⟨scan, hdone⟩ := QueryTask.eq_of_finished (of_decide_eq_true hout)
  exact ⟨t, tr, scan, openStore_empty oneShard _, hrun, hdone⟩

end Example

end Micius

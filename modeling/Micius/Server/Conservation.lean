import Micius.Compaction.Groups
import Micius.Server.Appends
import Micius.Server.Query
import Micius.Server.Sweep

/-!
# Where the points are

Every requested point is in exactly one place: in a group of an append call
that is not inserted yet, in a memtable, in the hands of the sweep, or in
one chunk of the index. `StoreOk` says so, next to what the tasks in
progress know about the files: the chunk the sweep has written, the groups
the compaction worker has picked and the files it is about to delete.
Every step preserves it.
-/

namespace Micius

/-! ## What a trace records -/

/-- The points of the append calls so far. -/
def requestedPoints (tr : List Event) : List DataPoint :=
  tr.flatMap fun
    | .requested points => points
    | _ => []

/-- The chunk files created so far. -/
def createdChunks (tr : List Event) : List ChunkId :=
  tr.filterMap fun
    | .chunkWritten chunk _ => some chunk
    | _ => none

@[simp] theorem requestedPoints_append (tr es : List Event) :
    requestedPoints (tr ++ es) = requestedPoints tr ++ requestedPoints es :=
  List.flatMap_append

@[simp] theorem createdChunks_append (tr es : List Event) :
    createdChunks (tr ++ es) = createdChunks tr ++ createdChunks es :=
  List.filterMap_append

/-- The points in the memtables. -/
def memPoints (shards : Nat) (memtables : Nat → Memtable) : List DataPoint :=
  (List.range shards).flatMap fun i => (memtables i).entries.points

/-- The points the sweep has drained and not yet written. -/
def Sweeper.drainedPoints : Sweeper → List DataPoint
  | drained _ data => data.points
  | _ => []

variable [Crates]

/-! ## Chunk files -/

/-- The files of a list of chunks are on disk, one for each, and all of them
were created in this run. -/
structure FilesOk (chunks : ChunkDir) (created : List ChunkId) (cs : List Chunk) : Prop where
  ids : (cs.map Chunk.id).Nodup
  onDisk : ∀ c ∈ cs, OnDisk chunks c
  created : ∀ c ∈ cs, c.id ∈ created

namespace FilesOk

variable {chunks : ChunkDir} {created : List ChunkId} {cs cs' : List Chunk}

theorem perm (h : FilesOk chunks created cs) (hperm : cs.Perm cs') :
    FilesOk chunks created cs' where
  ids := (hperm.map Chunk.id).nodup_iff.mp h.ids
  onDisk c hc := h.onDisk c (hperm.mem_iff.mpr hc)
  created c hc := h.created c (hperm.mem_iff.mpr hc)

theorem sublist (h : FilesOk chunks created cs) (hsub : cs'.Sublist cs) :
    FilesOk chunks created cs' where
  ids := h.ids.sublist (hsub.map Chunk.id)
  onDisk c hc := h.onDisk c (hsub.subset hc)
  created c hc := h.created c (hsub.subset hc)

/-- A new file under an id that was not used before. -/
theorem write (h : FilesOk chunks created cs) {c : Chunk} {bytes : Bytes}
    {result : ChunkWriteResult} (hw : ChunkWriter.write c.id c.data = .ok (bytes, result))
    (hfit : c.data.Fits) (hfresh : c.id ∉ created) :
    FilesOk (chunks.insert c.id bytes) (created ++ [c.id]) (c :: cs) where
  ids := by
    rw [List.map_cons, List.nodup_cons]
    refine ⟨?_, h.ids⟩
    intro hmem
    obtain ⟨c', hc', hid⟩ := List.mem_map.mp hmem
    exact hfresh (hid ▸ h.created c' hc')
  onDisk c' hc' := by
    rcases List.mem_cons.mp hc' with rfl | hc'
    · exact ⟨hfit, bytes, result, hw, by rw [TreeMap.getElem?_insert_eq, if_pos rfl]⟩
    · refine (h.onDisk c' hc').insert ?_ bytes
      intro hid
      exact hfresh (hid ▸ h.created c' hc')
  created c' hc' := by
    rcases List.mem_cons.mp hc' with rfl | hc'
    · simp
    · exact List.mem_append_left _ (h.created c' hc')

/-- Deleting a file of none of the chunks. -/
theorem erase (h : FilesOk chunks created cs) {path : ChunkPath} (hne : ∀ c ∈ cs, c.id ≠ path) :
    FilesOk (chunks.erase path) created cs where
  ids := h.ids
  onDisk c hc := (h.onDisk c hc).erase (hne c hc)
  created := h.created

end FilesOk

/-! ## The tasks in progress -/

/-- `flight` is the chunk the sweep has written and not yet registered. -/
inductive FlightOk : Sweeper → List Chunk → Prop
  | written {i : Nat} {result : ChunkWriteResult} {c : Chunk} {bytes : Bytes}
      (hw : ChunkWriter.write c.id c.data = .ok (bytes, result)) : FlightOk (.written i result) [c]
  | none {sweeper : Sweeper} (h : ∀ i result, sweeper ≠ .written i result) : FlightOk sweeper []

/-- `merged` is the chunk the compaction worker has written and not yet
committed. -/
inductive CompactorOk (created : List ChunkId) (live flight : List Chunk) :
    Compactor → List Chunk → Prop
  | idle : CompactorOk created live flight .idle []
  | merging {groups : List MergeGroup} (hgroups : GroupsOk live groups) :
      CompactorOk created live flight (.merging groups) []
  | merged {group : MergeGroup} {rest : List MergeGroup} {result : ChunkWriteResult}
      {cs : List Chunk} {m : Chunk} {bytes : Bytes} (hgroups : GroupsOk live (group :: rest))
      (hgroup : GroupOk live group cs) (hpoints : m.points.Perm (livePoints cs))
      (hw : ChunkWriter.write m.id m.data = .ok (bytes, result)) :
      CompactorOk created live flight (.merged group result rest) [m]
  | deleting {paths : List ChunkPath} {rest : List MergeGroup} (hgroups : GroupsOk live rest)
      (hcreated : ∀ path ∈ paths, path ∈ created)
      (hgone : ∀ path ∈ paths, ∀ c ∈ flight ++ live, c.id ≠ path) :
      CompactorOk created live flight (.deleting paths rest) []

/-- **Every requested point is in one place.** `live` are the chunks of the
index. -/
structure StoreOk (U : SeriesKey → Prop) (cfg : StorageConfig) (s : Server)
    (requested : List DataPoint) (created : List ChunkId) (live flight merged : List Chunk) :
    Prop where
  points : requested.Perm (pendingPoints s.appends ++ (memPoints cfg.numShards s.memtables ++
    (s.sweeper.drainedPoints ++ (livePoints flight ++ livePoints live))))
  distinct : Distinct requested
  keys : ∀ p ∈ requested, U p.key
  shards : ∀ t ∈ s.appends, ∀ g ∈ t.pending, g.shard < cfg.numShards
  acked : ∀ t ∈ s.appends, t.acked = true → t.pending = []
  index : IndexOk U s.index live
  files : FilesOk s.disk.chunks created (merged ++ (flight ++ live))
  sweeper : FlightOk s.sweeper flight
  compactor : CompactorOk created live flight s.compactor merged

/-- The sweep holds points: drained or written. -/
def Sweeper.carries : Sweeper → Bool
  | .drained _ _ => true
  | .written _ _ => true
  | _ => false

omit [Crates] in
theorem Sweeper.drainedPoints_of_carries {sweeper : Sweeper} (h : sweeper.carries = false) :
    sweeper.drainedPoints = [] := by
  cases sweeper <;> first | rfl | cases h

theorem FlightOk.of_carries {sweeper : Sweeper} (h : sweeper.carries = false) :
    FlightOk sweeper [] := by
  refine .none ?_
  rintro i result rfl
  cases h

theorem FlightOk.eq_nil {sweeper : Sweeper} {flight : List Chunk} (h : FlightOk sweeper flight)
    (hne : ∀ i result, sweeper ≠ .written i result) : flight = [] := by
  cases h with
  | written hw => exact absurd rfl (hne _ _)
  | none _ => rfl

omit [Crates] in
theorem memPoints_update {shards i : Nat} (hi : i < shards) (memtables : Nat → Memtable) :
    ∃ rest, (memPoints shards memtables).Perm ((memtables i).entries.points ++ rest) ∧
      ∀ m, (memPoints shards (Function.update memtables i m)).Perm (m.entries.points ++ rest) := by
  obtain ⟨rest, hrest, hset⟩ := Bags.perm_flatMap_range
    (fun i => (memtables i).entries.points) hi
  refine ⟨rest, hrest, fun m => ?_⟩
  have hperm := hset (fun j => (Function.update memtables i m j).entries.points) fun j hj => by
    rw [Function.update_of_ne hj]
  rwa [Function.update_self] at hperm

namespace CompactorOk

variable {created : List ChunkId} {live flight merged : List Chunk} {compactor : Compactor}

/-- A file under a new id is in nobody's way. -/
theorem write (h : CompactorOk created live flight compactor merged) {c : Chunk}
    (hfresh : c.id ∉ created) :
    CompactorOk (created ++ [c.id]) live (c :: flight) compactor merged := by
  cases h with
  | idle => exact .idle
  | merging hgroups => exact .merging hgroups
  | merged hgroups hgroup hpoints hw => exact .merged hgroups hgroup hpoints hw
  | deleting hgroups hcreated hgone =>
    refine .deleting hgroups (fun path hp => List.mem_append_left _ (hcreated path hp)) ?_
    intro path hp c' hc'
    rcases List.mem_cons.mp hc' with rfl | hc'
    · rintro rfl
      exact hfresh (hcreated _ hp)
    · exact hgone path hp c' hc'

/-- The chunks of the groups stay live when another one is registered. -/
theorem register {c : Chunk} (h : CompactorOk created live [c] compactor merged) :
    CompactorOk created (c :: live) [] compactor merged := by
  have hsub : ∀ c' ∈ live, c' ∈ c :: live := fun c' hc' => List.mem_cons_of_mem c hc'
  cases h with
  | idle => exact .idle
  | merging hgroups => exact .merging (hgroups.mono hsub)
  | merged hgroups hgroup hpoints hw =>
    exact .merged (hgroups.mono hsub) { hgroup with live := fun c' hc' => hsub c' (hgroup.live c' hc') }
      hpoints hw
  | deleting hgroups hcreated hgone => exact .deleting (hgroups.mono hsub) hcreated hgone

end CompactorOk

namespace StoreOk

variable {U : SeriesKey → Prop} {cfg : StorageConfig} {s : Server} {requested : List DataPoint}
  {created : List ChunkId} {live flight merged : List Chunk}
  (h : StoreOk U cfg s requested created live flight merged)
include h

/-- The points in the places are distinct. -/
theorem distinct_places : Distinct (pendingPoints s.appends ++
    (memPoints cfg.numShards s.memtables ++
      (s.sweeper.drainedPoints ++ (livePoints flight ++ livePoints live)))) :=
  h.distinct.of_perm h.points

theorem distinct_live : Distinct (livePoints live) :=
  h.distinct_places.sublist (List.sublist_append_of_sublist_right
    (List.sublist_append_of_sublist_right (List.sublist_append_of_sublist_right
      (List.sublist_append_right ..))))

/-! ### Append calls -/

theorem append {points : List DataPoint} {indexed : List (Nat × Nat)}
    (hsorted : SortedByShard points cfg.numShards indexed)
    (hdist : Distinct (requested ++ points)) (hkeys : ∀ p ∈ points, U p.key) :
    StoreOk U cfg
      { s with appends := s.appends ++ [⟨points, shardGroups points indexed, false⟩] }
      (requested ++ points) created live flight merged :=
  { h with
    points := by
      have hgroups : pendingPoints [⟨points, shardGroups points indexed, false⟩] =
          (shardGroups points indexed).flatMap Group.points := by
        simp [pendingPoints]
      rw [pendingPoints_append, hgroups, List.append_assoc]
      refine (List.perm_append_comm).trans ?_
      refine ((shardGroups_perm hsorted).symm.append h.points).trans ?_
      exact List.perm_append_comm_assoc ..
    distinct := hdist
    keys := by
      intro p hp
      rcases List.mem_append.mp hp with hp | hp
      · exact h.keys p hp
      · exact hkeys p hp
    shards := by
      intro t ht g hg
      rcases List.mem_append.mp ht with ht | ht
      · exact h.shards t ht g hg
      · rw [List.mem_singleton.mp ht] at hg
        exact shardGroups_shard_lt hsorted hg
    acked := by
      intro t ht hacked
      rcases List.mem_append.mp ht with ht | ht
      · exact h.acked t ht hacked
      · rw [List.mem_singleton.mp ht] at hacked
        cases hacked }

/-- Replies of the WAL task move no point. -/
theorem delivered (replies : List (Nat × (Nat × Nat) × List DataPoint)) :
    StoreOk U cfg { s with appends := deliver s.appends replies }
      requested created live flight merged :=
  { h with
    points := by
      rw [pendingPoints_deliver]
      exact h.points
    shards := by
      intro t ht g hg
      obtain ⟨t₀, ht₀, -, -, hgroup⟩ := mem_deliver _ _ ht
      obtain ⟨g₀, hg₀, -, hshard⟩ := hgroup g hg
      exact hshard ▸ h.shards t₀ ht₀ g₀ hg₀
    acked := by
      intro t ht hacked
      obtain ⟨t₀, ht₀, hacked₀, hnil, -⟩ := mem_deliver _ _ ht
      exact hnil (h.acked t₀ ht₀ (hacked₀ ▸ hacked)) }

theorem memInsert {k : Nat} {points : List DataPoint} {g : Group} {rest : List Group}
    {acked : Bool} (hk : s.appends[k]? = some ⟨points, g :: rest, acked⟩) :
    StoreOk U cfg
      { s with
        memtables := Function.update s.memtables g.shard
          ((s.memtables g.shard).insertAll g.points)
        appends := s.appends.set k ⟨points, rest, acked⟩ }
      requested created live flight merged := by
  have htask := List.mem_of_getElem? hk
  have hshard : g.shard < cfg.numShards := h.shards _ htask g (by simp)
  obtain ⟨calls, hcalls, hset⟩ := Bags.perm_flatMap_set
    (fun t : AppendTask => t.pending.flatMap Group.points) hk
  obtain ⟨mems, hmems, hupdate⟩ := memPoints_update hshard s.memtables
  have hsplit : (pendingPoints s.appends ++ memPoints cfg.numShards s.memtables).Perm
      ((g.points ++ (s.memtables g.shard).entries.points) ++
        (rest.flatMap Group.points ++ calls ++ mems)) := by
    refine (hcalls.append hmems).trans ?_
    simp only [List.flatMap_cons, List.append_assoc]
    refine List.Perm.append_left _ ?_
    rw [← List.append_assoc]
    exact (List.perm_append_comm_assoc ..).trans (.append_left _ (by rw [List.append_assoc]))
  have hdist : Distinct (g.points ++ (s.memtables g.shard).entries.points) := by
    have hall := h.distinct_places
    rw [← List.append_assoc] at hall
    exact ((hall.sublist (List.sublist_append_left ..)).of_perm hsplit).sublist
      (List.sublist_append_left ..)
  have hinsert : ((s.memtables g.shard).insertAll g.points).entries.points.Perm
      (g.points ++ (s.memtables g.shard).entries.points) := by
    rw [Memtable.entries_insertAll]
    exact SeriesData.insertPoints_perm hdist
  have hmoved : (pendingPoints (s.appends.set k ⟨points, rest, acked⟩) ++
      memPoints cfg.numShards (Function.update s.memtables g.shard
        ((s.memtables g.shard).insertAll g.points))).Perm
      (pendingPoints s.appends ++ memPoints cfg.numShards s.memtables) := by
    refine ((hset _).append (hupdate _)).trans (.trans ?_ hsplit.symm)
    refine ((hinsert.append_right mems).append_left _).trans ?_
    exact List.perm_append_comm_assoc ..
  exact
    { h with
      points := by
        rw [← List.append_assoc]
        refine h.points.trans ?_
        rw [← List.append_assoc]
        exact hmoved.symm.append_right _
      shards := by
        intro t ht g' hg'
        rcases List.mem_or_eq_of_mem_set ht with ht | rfl
        · exact h.shards t ht g' hg'
        · exact h.shards _ htask g' (List.mem_cons_of_mem g hg')
      acked := by
        intro t ht hacked
        rcases List.mem_or_eq_of_mem_set ht with ht | rfl
        · exact h.acked t ht hacked
        · cases h.acked _ htask hacked }

theorem ack {k : Nat} {points : List DataPoint}
    (hk : s.appends[k]? = some ⟨points, [], false⟩) :
    StoreOk U cfg { s with appends := s.appends.set k ⟨points, [], true⟩ }
      requested created live flight merged :=
  { h with
    points := by
      obtain ⟨calls, hcalls, hset⟩ := Bags.perm_flatMap_set
        (fun t : AppendTask => t.pending.flatMap Group.points) hk
      exact h.points.trans ((hcalls.trans (hset ⟨points, [], true⟩).symm).append_right _)
    shards := by
      intro t ht g hg
      rcases List.mem_or_eq_of_mem_set ht with ht | rfl
      · exact h.shards t ht g hg
      · cases hg
    acked := by
      intro t ht hacked
      rcases List.mem_or_eq_of_mem_set ht with ht | rfl
      · exact h.acked t ht hacked
      · rfl }

/-! ### The sweep -/

/-- A step of the sweep while it holds no points. -/
theorem sweeperMoves (sweeper : Sweeper) (hold : s.sweeper.carries = false)
    (hnew : sweeper.carries = false) :
    StoreOk U cfg { s with sweeper := sweeper } requested created live flight merged := by
  have hnil : flight = [] := h.sweeper.eq_nil fun i result heq => by
    rw [heq] at hold
    cases hold
  subst hnil
  exact
    { h with
      points := by
        have hpoints := h.points
        rw [Sweeper.drainedPoints_of_carries hold] at hpoints
        rwa [Sweeper.drainedPoints_of_carries hnew]
      sweeper := .of_carries hnew }

theorem sweepDrain {i : Nat} (hs : s.sweeper = .next i) (hi : i < cfg.numShards) :
    StoreOk U cfg
      { s with
        memtables := Function.update s.memtables i (s.memtables i).drain.2
        sweeper := .drained i (s.memtables i).drain.1 }
      requested created live flight merged := by
  have hnil : flight = [] := h.sweeper.eq_nil (by simp [hs])
  subst hnil
  obtain ⟨rest, hrest, hupdate⟩ := memPoints_update hi s.memtables
  have hmoved : (memPoints cfg.numShards s.memtables).Perm
      (memPoints cfg.numShards (Function.update s.memtables i (s.memtables i).drain.2) ++
        (s.memtables i).entries.points) := by
    have hempty : (s.memtables i).drain.2.entries.points = [] := SeriesData.points_empty
    have hupdated := hupdate (s.memtables i).drain.2
    rw [hempty, List.nil_append] at hupdated
    exact hrest.trans (List.perm_append_comm.trans (hupdated.symm.append_right _))
  exact
    { h with
      points := by
        have hold : s.sweeper.drainedPoints = [] := by rw [hs]; rfl
        have hpoints := h.points
        rw [hold, List.nil_append] at hpoints
        refine hpoints.trans (.append_left _ ((hmoved.append_right _).trans ?_))
        rw [List.append_assoc]
        exact .refl _
      sweeper := .none (by simp) }

/-- Writing the drained points to a chunk. -/
theorem sweepWrite {chunkId : ChunkId} {i : Nat} {data : SeriesData} {bytes : Bytes}
    {result : ChunkWriteResult} (hs : s.sweeper = .drained i data)
    (hwf : data.Wf) (hw : ChunkWriter.write chunkId data = .ok (bytes, result))
    (hfit : data.Fits) (hfresh : chunkId ∉ created) :
    ∃ c : Chunk, c.id = chunkId ∧ c.data = data ∧ StoreOk U cfg
      { s with
        disk := s.disk.apply (.writeChunk chunkId bytes)
        sweeper := .written i result }
      requested (created ++ [chunkId]) live [c] merged := by
  have hnil : flight = [] := h.sweeper.eq_nil (by simp [hs])
  subst hnil
  let c : Chunk := ⟨chunkId, data, nonempty_of_write hw, hwf⟩
  refine ⟨c, rfl, rfl, ?_⟩
  have hfiles := h.files.write (c := c) hw hfit hfresh
  exact
    { h with
      points := by
        have hpoints := h.points
        rw [hs] at hpoints
        simpa [Sweeper.drainedPoints, livePoints, Chunk.points, c] using hpoints
      files := hfiles.perm List.perm_middle.symm
      sweeper := .written hw
      compactor := h.compactor.write (c := c) hfresh }

/-- A failed write: there was nothing to write. -/
theorem sweepFail {chunkId : ChunkId} {i : Nat} {data : SeriesData} {e : ChunkWriteError}
    (hs : s.sweeper = .drained i data) (hw : ChunkWriter.write chunkId data = .error e) (j : Nat) :
    StoreOk U cfg { s with sweeper := .next j } requested created live flight merged := by
  have hnil : flight = [] := h.sweeper.eq_nil (by simp [hs])
  subst hnil
  have hempty : data.points = [] := by
    cases hne : data.isEmpty with
    | true => rw [Std.ExtTreeMap.isEmpty_iff.mp hne, SeriesData.points_empty]
    | false =>
      obtain ⟨encoded, -, hok⟩ := write_eq chunkId hne
      rw [hok] at hw
      cases hw
  exact
    { h with
      points := by
        have hpoints := h.points
        rw [hs] at hpoints
        simpa [Sweeper.drainedPoints, hempty] using hpoints
      sweeper := .none (by simp) }

/-- Registering the written chunk. -/
theorem sweepRegister (hU : IdInjective U) {i : Nat} {result : ChunkWriteResult}
    (hs : s.sweeper = .written i result) :
    ∃ c, flight = [c] ∧ StoreOk U cfg
      { s with
        index := s.index.registerAll result.chunkMeta result.seriesResults
        sweeper := .registered i result }
      requested created (c :: live) [] merged := by
  have hsweeper := h.sweeper
  rw [hs] at hsweeper
  cases hsweeper with
  | none hne => exact absurd rfl (hne i result)
  | @written _ _ c bytes hw =>
    refine ⟨c, rfl, ?_⟩
    have hin : ∀ p ∈ c.points, p ∈ requested := by
      intro p hp
      apply h.points.mem_iff.mpr
      simp [livePoints, hp]
    have hkeys : ∀ kp ∈ c.data.toList, U kp.1 := by
      intro kp hkp
      obtain ⟨p, hp, hslot⟩ := exists_point_at_start c.wf hkp
      have hkey : p.key = kp.1 := congrArg Prod.fst hslot
      exact hkey ▸ h.keys p (hin p hp)
    have hdist : Distinct (c.points ++ livePoints live) := by
      refine h.distinct_places.sublist ?_
      simp only [livePoints, List.flatMap_cons, List.flatMap_nil, List.append_nil]
      exact List.sublist_append_of_sublist_right (List.sublist_append_of_sublist_right
        (List.sublist_append_right ..))
    exact
      { h with
        points := by
          have hpoints := h.points
          rw [hs] at hpoints
          simpa [Sweeper.drainedPoints, livePoints] using hpoints
        index := h.index.register hU hw hkeys fun p hp q hq => hdist.slot_ne hp hq
        files := h.files
        sweeper := .none (by simp)
        compactor := h.compactor.register }

/-! ### Compaction -/

theorem live_ids : (live.map Chunk.id).Nodup := by
  have hall := h.files.ids
  rw [List.map_append, List.map_append] at hall
  exact hall.of_append_right.of_append_right

theorem compactFind (hc : s.compactor = .idle) {files : List (ChunkId × ChunkMeta)}
    (hfiles : files.Perm s.index.chunkFiles.toList) :
    StoreOk U cfg
      { s with compactor := .merging (findCandidates cfg.compaction s.index files) }
      requested created live flight merged := by
  have hcompactor := h.compactor
  rw [hc] at hcompactor
  cases hcompactor with
  | idle => exact { h with compactor := .merging (h.index.candidates h.live_ids cfg.compaction hfiles) }

/-- The worker drops a cycle or goes on to the next group. -/
theorem compactorMoves {compactor : Compactor} {merged' : List Chunk}
    (hsub : merged'.Sublist merged) (hnew : CompactorOk created live flight compactor merged') :
    StoreOk U cfg { s with compactor := compactor } requested created live flight merged' :=
  { h with
    files := h.files.sublist (hsub.append_right _)
    compactor := hnew }

theorem keys_of_live {c : Chunk} (hc : c ∈ live) : ∀ kp ∈ c.data.toList, U kp.1 :=
  fun _ hkp => h.index.key_in_use hc hkp

/-- Merging the first group of a cycle. -/
theorem compactMerge (hlaw : Crates.LawfulLz4) (hU : KeysOk U) {group : MergeGroup}
    {rest : List MergeGroup} (hc : s.compactor = .merging (group :: rest)) {chunkId : ChunkId}
    {bytes : Bytes} {result : ChunkWriteResult}
    (hm : mergeGroup s.disk.chunks chunkId group = .ok (bytes, result))
    (hfit : ∀ points, readGroup s.disk.chunks group.chunks = .ok points →
      (SeriesData.insertPoints ∅ points).Fits)
    (hfresh : chunkId ∉ created) :
    ∃ m : Chunk, StoreOk U cfg
      { s with
        disk := s.disk.apply (.writeChunk chunkId bytes)
        compactor := .merged group result rest }
      requested (created ++ [chunkId]) live flight [m] := by
  have hcompactor := h.compactor
  rw [hc] at hcompactor
  cases hcompactor with
  | merging hgroups =>
    obtain ⟨cs, hgroup⟩ := hgroups.group group (by simp)
    have hdisk : ∀ c ∈ cs, OnDisk s.disk.chunks c :=
      fun c hc => h.files.onDisk c (by simp [hgroup.live c hc])
    have hkeys : ∀ c ∈ cs, ∀ kp ∈ c.data.toList, U kp.1 :=
      fun c hc => h.keys_of_live (hgroup.live c hc)
    have hread : readGroup s.disk.chunks group.chunks = .ok (livePoints cs) := by
      rw [hgroup.chunks]
      exact readGroup_chunks hlaw hU hdisk hkeys
    have hne : cs ≠ [] := by
      rintro rfl
      simp only [mergeGroup, hread, bind, Except.bind] at hm
      cases hm
    have hdist : Distinct (livePoints cs) :=
      (h.distinct_live.of_perm (hgroups.split h.live_ids hgroup)).sublist
        (List.sublist_append_left ..)
    obtain ⟨m, bytes', result', rfl, hdata, hpoints, hw, hmerge⟩ :=
      mergeGroup_chunks hlaw hU hdisk hkeys hgroup.chunks hne hdist chunkId
    obtain ⟨rfl, rfl⟩ := Prod.mk.inj (Except.ok.inj (hm.symm.trans hmerge))
    refine ⟨m, { h with
      files := ?_
      compactor := .merged hgroups hgroup hpoints hw }⟩
    exact h.files.write hw (hdata ▸ hfit _ hread) hfresh

/-- Committing a merge: the merged chunk takes the place of its group. -/
theorem compactCommit (hU : IdInjective U) {group : MergeGroup} {result : ChunkWriteResult}
    {rest : List MergeGroup} (hc : s.compactor = .merged group result rest) :
    ∃ m, merged = [m] ∧ StoreOk U cfg
      { s with
        index := group.commit s.index result
        compactor := .deleting (group.chunks.map Prod.snd) rest }
      requested created (m :: live.filter fun c => c.id ∉ group.chunks.map Prod.fst) flight [] := by
  have hcompactor := h.compactor
  rw [hc] at hcompactor
  generalize hmerged : merged = merged' at hcompactor
  cases hcompactor with
  | @merged _ _ _ cs m bytes hgroups hgroup hpoints hw =>
    refine ⟨m, rfl, ?_⟩
    have hfiles := h.files
    rw [hmerged] at hfiles
    have hfresh : ∀ c ∈ live, c.id ≠ m.id := by
      intro c hc hid
      have hids := hfiles.ids
      rw [List.singleton_append, List.map_cons, List.nodup_cons] at hids
      exact hids.1 (hid ▸ List.mem_map_of_mem (by simp [hc]))
    have hplan := hgroups.plan h.live_ids hgroup hpoints hfresh
    have hsplit : (livePoints (m :: live.filter fun c => c.id ∉ group.chunks.map Prod.fst)).Perm
        (livePoints live) := by
      rw [livePoints, List.flatMap_cons]
      exact (hpoints.append_right _).trans (hgroups.split h.live_ids hgroup).symm
    have hpaths : group.chunks.map Prod.snd = group.chunks.map Prod.fst := by
      rw [hgroup.chunks, List.map_map, List.map_map]
      rfl
    have hinlive : ∀ path ∈ group.chunks.map Prod.fst, ∃ c ∈ live, c.id = path := by
      intro path hpath
      rw [hgroup.chunks, List.map_map] at hpath
      obtain ⟨c, hc, rfl⟩ := List.mem_map.mp hpath
      exact ⟨c, hgroup.live c hc, rfl⟩
    exact
      { h with
        points := h.points.trans (.append_left _ (.append_left _ (.append_left _
          (hsplit.symm.append_left _))))
        index := h.index.commit hU h.distinct_live hplan hw
        files := by
          refine FilesOk.perm (hfiles.sublist ?_) List.perm_middle.symm
          exact (List.filter_sublist.append_left flight).cons_cons m
        compactor := by
          rw [hpaths]
          refine .deleting (hgroups.committed m) ?_ ?_
          · intro path hpath
            obtain ⟨c, hcl, rfl⟩ := hinlive path hpath
            exact h.files.created c (by simp [hcl])
          · intro path hpath c hcc hid
            obtain ⟨c₀, hc₀, rfl⟩ := hinlive path hpath
            rcases List.mem_append.mp hcc with hcf | hcl
            · -- a chunk in flight has an id of its own
              have hids := hfiles.ids
              rw [List.map_append, List.map_append] at hids
              exact List.disjoint_of_nodup_append hids.of_append_right
                (hid ▸ List.mem_map_of_mem hcf) (List.mem_map_of_mem hc₀)
            · rcases List.mem_cons.mp hcl with rfl | hcl
              · exact hplan.fresh c₀ hc₀ hid.symm
              · exact of_decide_eq_true (List.mem_filter.mp hcl).2 (hid ▸ hpath) }

theorem compactDelete {path : ChunkPath} {paths : List ChunkPath} {rest : List MergeGroup}
    (hc : s.compactor = .deleting (path :: paths) rest) :
    StoreOk U cfg
      { s with
        disk := s.disk.apply (.removeChunk path)
        compactor := .deleting paths rest }
      requested created live flight merged := by
  have hcompactor := h.compactor
  rw [hc] at hcompactor
  cases hcompactor with
  | deleting hgroups hcreated hgone =>
    exact
      { h with
        files := h.files.erase (hgone path (by simp))
        compactor := .deleting hgroups (fun p hp => hcreated p (by simp [hp]))
          fun p hp => hgone p (by simp [hp]) }

end StoreOk

/-! ## Runs -/

/-- The points an action brings. -/
def Action.points : Action → List DataPoint
  | append points _ => points
  | _ => []

/-- The id of the chunk file an action writes. -/
def Action.chunkId : Action → Option ChunkId
  | sweepWrite chunkId => some chunkId
  | compactMerge chunkId => some chunkId
  | _ => none

/-- The contents of the chunk file an action writes. -/
def Server.chunkData (s : Server) : Action → Option SeriesData
  | .sweepWrite _ =>
    match s.sweeper with
    | .drained _ data => some data
    | _ => none
  | .compactMerge _ =>
    match s.compactor with
    | .merging (group :: _) =>
      (readGroup s.disk.chunks group.chunks).toOption.map (SeriesData.insertPoints ∅)
    | _ => none
  | _ => none

omit [Crates] in
/-- Each append call brings new points with keys in use. -/
def AppendsOk (U : SeriesKey → Prop) (tr : List Event) (a : Action) : Prop :=
  Distinct (requestedPoints tr ++ a.points) ∧ ∀ p ∈ a.points, U p.key

/-- The sizes of a chunk about to be written fit the fields of its file. -/
def SizesFit (s : Server) (a : Action) : Prop := ∀ data ∈ s.chunkData a, data.Fits

omit [Crates] in
/-- A chunk is written under an id that was not used before. -/
def FreshIds (tr : List Event) (a : Action) : Prop :=
  ∀ chunkId ∈ a.chunkId, chunkId ∉ createdChunks tr

instance decidableAppendsOk (U : SeriesKey → Prop) [DecidablePred U] (tr : List Event)
    (a : Action) : Decidable (AppendsOk U tr a) :=
  inferInstanceAs (Decidable (_ ∧ _))

instance decidableSizesFit (s : Server) (a : Action) : Decidable (SizesFit s a) :=
  inferInstanceAs (Decidable (∀ data ∈ s.chunkData a, data.Fits))

instance decidableFreshIds (tr : List Event) (a : Action) : Decidable (FreshIds tr a) :=
  a.chunkId.decidableForallMem

/-- `StoreOk` for some chunks. -/
def StoreInv (U : SeriesKey → Prop) (cfg : StorageConfig) (s : Server) (tr : List Event) : Prop :=
  ∃ live flight merged, StoreOk U cfg s (requestedPoints tr) (createdChunks tr) live flight merged

/-- An empty store. -/
theorem storeOk_fresh (U : SeriesKey → Prop) (cfg : StorageConfig) :
    StoreOk U cfg (.fresh cfg) [] [] [] [] [] where
  points := by
    have hmem : memPoints cfg.numShards (Server.fresh cfg).memtables = [] := by
      simp [memPoints, Server.fresh, Server.start, Memtable.new, SeriesData.points_empty]
    rw [hmem]
    exact .refl _
  distinct := List.nodup_nil
  keys := by simp
  shards := by simp [Server.fresh, Server.start]
  acked := by simp [Server.fresh, Server.start]
  index := IndexOk.new U
  files := ⟨List.nodup_nil, by simp, by simp⟩
  sweeper := .none (by simp [Server.fresh, Server.start])
  compactor := .idle

omit [Crates] in
theorem requestedPoints_committed (i seg : Nat)
    (l : List (Nat × (Nat × Nat) × List DataPoint)) :
    requestedPoints (l.map fun r => .committed i seg (r.1, r.2.2)) = [] := by
  rw [requestedPoints, List.flatMap_map]
  simp

omit [Crates] in
theorem createdChunks_committed (i seg : Nat)
    (l : List (Nat × (Nat × Nat) × List DataPoint)) :
    createdChunks (l.map fun r => .committed i seg (r.1, r.2.2)) = [] := by
  simp [createdChunks]

omit [Crates] in
/-- The step may bring points or change the chunks. -/
def Action.changesChunks : Action → Bool
  | append _ _ => true
  | sweepWrite _ => true
  | sweepRegister => true
  | a => a.isCompaction

/-- The other steps leave the chunks as they are. -/
theorem StoreOk.step_same {U : SeriesKey → Prop} {cfg : StorageConfig} {s s' : Server}
    {requested : List DataPoint} {created : List ChunkId} {live flight merged : List Chunk}
    {es : List Event} {a : Action} (hsweep : SweepOk cfg s)
    (h : StoreOk U cfg s requested created live flight merged) (ha : a.changesChunks = false)
    (hstep : Step cfg s a s' es) :
    StoreOk U cfg s' requested created live flight merged ∧ createdChunks es = [] := by
  cases hstep with
  | append _ => cases ha
  | sweepWrite _ _ _ => cases ha
  | sweepFail _ _ => cases ha
  | sweepRegister _ _ => cases ha
  | compactFind _ _ => cases ha
  | compactMerge _ _ _ => cases ha
  | compactFail _ _ => cases ha
  | compactCommit _ _ => cases ha
  | compactDelete _ => cases ha
  | compactNext _ => cases ha
  | compactEnd _ => cases ha
  | walCommit hi hidle hrequest hnodup hwait =>
    exact ⟨{ h.delivered _ with }, createdChunks_committed _ _ _⟩
  | walFinish hfinish => exact ⟨{ h with }, rfl⟩
  | walDrain hfinish =>
    have hs := hsweep.drain _ _ hfinish
    exact ⟨{ h.sweeperMoves (.deleting _ _) (by rw [hs]; rfl) rfl with }, rfl⟩
  | memInsert hk hall => exact ⟨h.memInsert hk, rfl⟩
  | ack hk => exact ⟨{ h.ack hk with }, rfl⟩
  | sweepDrain hs hflush =>
    have hshard := hsweep.shard
    rw [hs] at hshard
    exact ⟨h.sweepDrain hs hshard, rfl⟩
  | sweepSkip hs hflush => exact ⟨h.sweeperMoves _ (by rw [hs]; rfl) rfl, rfl⟩
  | sweepReadSequence hs => exact ⟨h.sweeperMoves _ (by rw [hs]; rfl) rfl, rfl⟩
  | sweepPublish hs => exact ⟨{ h.sweeperMoves (.published _) (by rw [hs]; rfl) rfl with }, rfl⟩
  | sweepRequestDrain hs => exact ⟨h.sweeperMoves _ (by rw [hs]; rfl) rfl, rfl⟩
  | sweepDelete hs => exact ⟨{ h.sweeperMoves (.deleting _ _) (by rw [hs]; rfl) rfl with }, rfl⟩
  | sweepDone hs => exact ⟨h.sweeperMoves _ (by rw [hs]; rfl) rfl, rfl⟩
  | snapshotBegin => exact ⟨{ h with }, rfl⟩
  | snapshotLoad hk hlen => exact ⟨{ h with }, rfl⟩
  | snapshotLock hk hlen => exact ⟨{ h with }, rfl⟩
  | snapshotSave hk => exact ⟨{ h with }, rfl⟩
  | snapshotStore hk hw => exact ⟨{ h with }, rfl⟩
  | snapshotUnlock hk => exact ⟨{ h with }, rfl⟩

/-- **One step** keeps every point in one place; only the arrival of a call
brings new points. -/
theorem StoreOk.step (hlaw : Crates.LawfulLz4) {U : SeriesKey → Prop} (hU : KeysOk U)
    {cfg : StorageConfig} {s s' : Server} {requested : List DataPoint} {created : List ChunkId}
    {live flight merged : List Chunk} {es : List Event} {a : Action} (hsweep : SweepOk cfg s)
    (h : StoreOk U cfg s requested created live flight merged)
    (hno : ∀ points indexed, a ≠ .append points indexed) (hsize : SizesFit s a)
    (hfresh : ∀ chunkId ∈ a.chunkId, chunkId ∉ created) (hstep : Step cfg s a s' es) :
    ∃ live flight merged,
      StoreOk U cfg s' requested (created ++ createdChunks es) live flight merged := by
  have keep : ∀ live flight merged, createdChunks es = [] →
      StoreOk U cfg s' requested created live flight merged →
      ∃ live flight merged,
        StoreOk U cfg s' requested (created ++ createdChunks es) live flight merged := by
    intro live flight merged hcre hok
    refine ⟨live, flight, merged, ?_⟩
    rwa [hcre, List.append_nil]
  cases ha : a.changesChunks with
  | false =>
    obtain ⟨hok, hcre⟩ := h.step_same hsweep ha hstep
    exact keep live flight merged hcre hok
  | true =>
    cases hstep with
    | append hsorted => exact absurd rfl (hno _ _)
    | sweepWrite hs hw hnew =>
      obtain ⟨c, -, -, hok⟩ := h.sweepWrite hs (hsweep.drained _ _ hs) hw
        (hsize _ (by simp [Server.chunkData, hs])) (hfresh _ rfl)
      exact ⟨live, [c], merged, hok⟩
    | sweepFail hs hw => exact keep live flight merged rfl (h.sweepFail hs hw _)
    | sweepRegister hs hlock =>
      obtain ⟨c, -, hok⟩ := h.sweepRegister hU.inj hs
      exact keep (c :: live) [] merged rfl hok
    | compactFind hc hfiles => exact keep live flight merged rfl (h.compactFind hc hfiles)
    | compactMerge hc hm hnew =>
      obtain ⟨m, hok⟩ := h.compactMerge hlaw hU hc hm
        (fun points hread => hsize _ (by simp [Server.chunkData, hc, hread, Except.toOption]))
        (hfresh _ rfl)
      exact ⟨live, flight, [m], hok⟩
    | compactFail hc hm =>
      exact keep live flight [] rfl (h.compactorMoves (List.nil_sublist _) .idle)
    | compactCommit hc hlock =>
      obtain ⟨m, -, hok⟩ := h.compactCommit hU.inj hc
      exact keep _ flight [] rfl hok
    | compactDelete hc => exact keep live flight merged rfl (h.compactDelete hc)
    | compactNext hc =>
      have hcompactor := h.compactor
      rw [hc] at hcompactor
      cases hcompactor with
      | deleting hgroups _ _ =>
        exact keep live flight [] rfl (h.compactorMoves (List.nil_sublist _) (.merging hgroups))
    | compactEnd hc =>
      exact keep live flight [] rfl (h.compactorMoves (List.nil_sublist _) .idle)
    | _ => cases ha

omit [Crates] in
theorem Action.points_of_ne {a : Action} (h : ∀ points indexed, a ≠ .append points indexed) :
    a.points = [] := by
  cases a with
  | append points indexed => exact absurd rfl (h points indexed)
  | _ => rfl

/-- The points a step requests are those of its action. -/
theorem requestedPoints_step {cfg : StorageConfig} {s s' : Server} {a : Action} {es : List Event}
    (hstep : Step cfg s a s' es) : requestedPoints es = a.points := by
  cases hstep with
  | walCommit _ _ _ _ _ => exact requestedPoints_committed _ _ _
  | append _ => exact List.append_nil _
  | _ => rfl

/-- The points a run requests are those of its actions. -/
theorem requestedPoints_run {cfg : StorageConfig} {s s' : Server} {actions : List Action}
    {tr : List Event} (hrun : Runs.run (step cfg) s actions = some (s', tr)) :
    requestedPoints tr = actions.flatMap Action.points := by
  induction actions generalizing s tr with
  | nil =>
    obtain ⟨-, rfl⟩ := Prod.mk.inj (Option.some.inj hrun)
    rfl
  | cons a actions ih =>
    obtain ⟨s₁, es, es', hstep, hrest, rfl⟩ := Runs.run_cons.mp hrun
    rw [requestedPoints_append, requestedPoints_step (step_sound hstep), ih hrest,
      List.flatMap_cons]

/-- The invariant of a run whose points are all distinct. -/
theorem StoreInv.step (hlaw : Crates.LawfulLz4) {U : SeriesKey → Prop} (hU : KeysOk U)
    {cfg : StorageConfig} {s s' : Server} {tr es : List Event} {a : Action}
    (hsweep : SweepOk cfg s) (hinv : StoreInv U cfg s tr)
    (happend : AppendsOk U tr a) (hsize : SizesFit s a)
    (hfresh : FreshIds tr a) (hstep : Step cfg s a s' es) : StoreInv U cfg s' (tr ++ es) := by
  obtain ⟨live, flight, merged, h⟩ := hinv
  by_cases hno : ∀ points indexed, a ≠ .append points indexed
  · obtain ⟨live, flight, merged, h⟩ := h.step hlaw hU hsweep hno hsize hfresh hstep
    refine ⟨live, flight, merged, ?_⟩
    rwa [requestedPoints_append, createdChunks_append, requestedPoints_step hstep,
      Action.points_of_ne hno, List.append_nil]
  · simp only [not_forall, not_not] at hno
    obtain ⟨points, indexed, rfl⟩ := hno
    cases hstep with
    | append hsorted =>
      refine ⟨live, flight, merged, ?_⟩
      simpa [requestedPoints, createdChunks] using h.append hsorted happend.1 happend.2

/-- What a step without compaction does to the live chunks and to the chunk of
the sweep. -/
inductive ChunkMove (s s' : Server) (live : List Chunk) :
    Action → List Chunk → List Chunk → List Chunk → Prop
  | same {a : Action} {flight : List Chunk} (ha : a.changesChunks = false) :
      ChunkMove s s' live a flight live flight
  | append {points : List DataPoint} {indexed : List (Nat × Nat)} {flight : List Chunk}
      (hs : s'.sweeper = s.sweeper) :
      ChunkMove s s' live (.append points indexed) flight live flight
  | sweepWrite {chunkId : ChunkId} {i : Nat} {c : Chunk} {result : ChunkWriteResult}
      {flight : List Chunk} (hs : s.sweeper = .drained i c.data)
      (hs' : s'.sweeper = .written i result) :
      ChunkMove s s' live (.sweepWrite chunkId) flight live [c]
  | sweepFail {chunkId : ChunkId} {i : Nat} (hs' : s'.sweeper = .next i) :
      ChunkMove s s' live (.sweepWrite chunkId) [] live []
  | sweepRegister {i : Nat} {c : Chunk} {result : ChunkWriteResult}
      (hs' : s'.sweeper = .registered i result) :
      ChunkMove s s' live .sweepRegister [c] (c :: live) []

/-- **One step without compaction.** -/
theorem StoreOk.chunkMove {U : SeriesKey → Prop} (hU : KeysOk U) {cfg : StorageConfig}
    {s s' : Server} {tr es : List Event} {a : Action} {requested : List DataPoint}
    {live flight merged : List Chunk} (hsweep : SweepOk cfg s)
    (h : StoreOk U cfg s requested (createdChunks tr) live flight merged)
    (hdist : Distinct (requested ++ a.points)) (hkeys : ∀ p ∈ a.points, U p.key)
    (hsize : SizesFit s a) (hfresh : FreshIds tr a) (hcompact : a.isCompaction = false)
    (hstep : Step cfg s a s' es) :
    ∃ live' flight', StoreOk U cfg s' (requested ++ a.points) (createdChunks (tr ++ es))
      live' flight' merged ∧ ChunkMove s s' live a flight live' flight' := by
  rw [createdChunks_append]
  cases ha : a.changesChunks with
  | false =>
    have hno : ∀ points indexed, a ≠ .append points indexed := by
      rintro points indexed rfl
      cases ha
    obtain ⟨hstore, hcre⟩ := h.step_same hsweep ha hstep
    rw [Action.points_of_ne hno, hcre, List.append_nil, List.append_nil]
    exact ⟨live, flight, hstore, .same ha⟩
  | true =>
    cases hstep with
    | append hsorted =>
      rw [show createdChunks [Event.requested _] = [] from rfl, List.append_nil]
      exact ⟨live, flight, h.append hsorted hdist hkeys, .append rfl⟩
    | sweepWrite hs hw hnew =>
      obtain ⟨c, -, rfl, hstore⟩ := h.sweepWrite hs (hsweep.drained _ _ hs) hw
        (hsize _ (by simp [Server.chunkData, hs])) (hfresh _ rfl)
      rw [Action.points_of_ne (by simp), List.append_nil]
      exact ⟨live, [c], hstore, .sweepWrite hs rfl⟩
    | sweepFail hs hw =>
      obtain rfl : flight = [] := h.sweeper.eq_nil (by simp [hs])
      rw [Action.points_of_ne (by simp), List.append_nil, show createdChunks [] = [] from rfl,
        List.append_nil]
      exact ⟨live, [], h.sweepFail hs hw _, .sweepFail rfl⟩
    | sweepRegister hs hlock =>
      obtain ⟨c, rfl, hstore⟩ := h.sweepRegister hU.inj hs
      rw [Action.points_of_ne (by simp), List.append_nil, show createdChunks [] = [] from rfl,
        List.append_nil]
      exact ⟨c :: live, [], hstore, .sweepRegister rfl⟩
    | compactFind _ _ => cases hcompact
    | compactMerge _ _ _ => cases hcompact
    | compactFail _ _ => cases hcompact
    | compactCommit _ _ => cases hcompact
    | compactDelete _ => cases hcompact
    | compactNext _ => cases hcompact
    | compactEnd _ => cases hcompact
    | _ => cases ha

omit [Crates] in
/-- The live chunks grow by what the sweep registers. -/
theorem ChunkMove.grows {s s' : Server} {a : Action} {live flight live' flight' : List Chunk}
    (h : ChunkMove s s' live a flight live' flight') :
    live' = live ∨ ∃ c, a = .sweepRegister ∧ flight = [c] ∧ live' = c :: live := by
  cases h with
  | sweepRegister _ => exact .inr ⟨_, rfl, rfl, rfl⟩
  | _ => exact .inl rfl

end Micius

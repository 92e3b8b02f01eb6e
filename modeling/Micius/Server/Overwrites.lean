import Micius.Server.Exactness

/-!
# Overwritten points

A second value for a series and timestamp replaces the first one in the
memtable. Once the first one has left the memtable nothing replaces it: both
are stored, and a query streams both. As long as every slot is rewritten in
memory, the store holds the last write of every slot, wherever it lives.
-/

namespace Micius

/-! ## What a run has to respect -/

/-- The sweep is between two shards. -/
def Sweeper.isNext : Sweeper → Bool
  | next _ => true
  | _ => false

/-- Append calls come one after another, and no sweep of a shard overlaps one. -/
def Sequential (s : Server) : Action → Prop
  | .append _ _ => s.sweeper.isNext = true ∧ ∀ t ∈ s.appends, t.acked = true
  | .sweepLock => ∀ t ∈ s.appends, t.acked = true
  | _ => True

instance decidableSequential (s : Server) (a : Action) : Decidable (Sequential s a) :=
  match a with
  | .append _ _ => inferInstanceAs (Decidable (_ ∧ _))
  | .sweepLock => inferInstanceAs (Decidable (∀ t ∈ s.appends, t.acked = true))
  | .walCommit _ _ _ | .walFinish _ | .memInsert _ | .ack _ | .sweepWrite _ | .sweepRegister
  | .sweepReadSequence | .sweepPublish | .sweepRequestDrain | .sweepDelete | .snapshotBegin
  | .snapshotLoad _ | .snapshotLock _ | .snapshotSave _ | .snapshotStore _ | .snapshotUnlock _
  | .compactFind _ | .compactMerge _ | .compactCommit | .compactDelete | .compactEnd => .isTrue trivial

/-- Calls in sequence, none with a slot twice, keys in use, sizes that fit,
unused chunk ids. -/
def SequentialOk [Crates] (U : SeriesKey → Prop) (s : Server) (tr : List Event) (a : Action) :
    Prop :=
  Sequential s a ∧ Distinct a.points ∧ (∀ p ∈ a.points, U p.key) ∧ SizesFit s a ∧ FreshIds tr a

instance decidableSequentialOk [Crates] (U : SeriesKey → Prop) [DecidablePred U] (s : Server)
    (tr : List Event) (a : Action) : Decidable (SequentialOk U s tr a) :=
  inferInstanceAs (Decidable (_ ∧ _ ∧ _ ∧ _ ∧ _))

/-- A slot that was written before is rewritten while it is in the memtable
of its shard. -/
def RewritesInMemory [Crates] (cfg : StorageConfig) (s : Server) (tr : List Event) (a : Action) :
    Prop :=
  ∀ p ∈ a.points, p.slot ∈ (requestedPoints tr).map DataPoint.slot →
    p.slot ∈ (s.memtables (shardIndex p cfg.numShards)).entries.points.map DataPoint.slot

instance decidableRewritesInMemory [Crates] (cfg : StorageConfig) (s : Server) (tr : List Event)
    (a : Action) : Decidable (RewritesInMemory cfg s tr a) :=
  inferInstanceAs (Decidable (∀ p ∈ a.points, _ → _))

/-! ## The store without the calls in progress -/

/-- The server with no append call in progress. -/
def Server.settled (s : Server) : Server := { s with appends := [] }

/-- The step belongs to an append call or answers one. -/
def Action.ofCalls : Action → Bool
  | append _ _ => true
  | walCommit _ _ _ => true
  | memInsert _ => true
  | ack _ => true
  | _ => false

section

variable [Crates] {cfg : StorageConfig} {s s' : Server} {a : Action} {tr es : List Event}

/-- Steps of the other tasks do not depend on the calls. -/
theorem Step.settled (hstep : Step cfg s a s' es) (ha : a.ofCalls = false) :
    s'.appends = s.appends ∧ Step cfg s.settled a s'.settled es := by
  cases hstep with
  | append _ => cases ha
  | walCommit _ _ _ _ _ => cases ha
  | memInsert _ _ => cases ha
  | ack _ => cases ha
  | walFinish hfinish => exact ⟨rfl, .walFinish hfinish⟩
  | walDrain hfinish => exact ⟨rfl, .walDrain hfinish⟩
  | sweepDrain hs hflush => exact ⟨rfl, .sweepDrain hs hflush⟩
  | sweepSkip hs hflush => exact ⟨rfl, .sweepSkip hs hflush⟩
  | sweepWrite hs hw hnew => exact ⟨rfl, .sweepWrite hs hw hnew⟩
  | sweepFail hs hw => exact ⟨rfl, .sweepFail hs hw⟩
  | sweepRegister hs hlock => exact ⟨rfl, .sweepRegister hs hlock⟩
  | sweepReadSequence hs => exact ⟨rfl, .sweepReadSequence hs⟩
  | sweepPublish hs => exact ⟨rfl, .sweepPublish hs⟩
  | sweepRequestDrain hs => exact ⟨rfl, .sweepRequestDrain hs⟩
  | sweepDelete hs => exact ⟨rfl, .sweepDelete hs⟩
  | sweepDone hs => exact ⟨rfl, .sweepDone hs⟩
  | snapshotBegin => exact ⟨rfl, .snapshotBegin⟩
  | snapshotLoad hk hlen => exact ⟨rfl, .snapshotLoad hk hlen⟩
  | snapshotLock hk hlen => exact ⟨rfl, .snapshotLock hk hlen⟩
  | snapshotSave hk => exact ⟨rfl, .snapshotSave hk⟩
  | snapshotStore hk hw => exact ⟨rfl, .snapshotStore hk hw⟩
  | snapshotUnlock hk => exact ⟨rfl, .snapshotUnlock hk⟩
  | compactFind hc hfiles => exact ⟨rfl, .compactFind hc hfiles⟩
  | compactMerge hc hm hnew => exact ⟨rfl, .compactMerge hc hm hnew⟩
  | compactFail hc hm => exact ⟨rfl, .compactFail hc hm⟩
  | compactCommit hc hlock => exact ⟨rfl, .compactCommit hc hlock⟩
  | compactDelete hc => exact ⟨rfl, .compactDelete hc⟩
  | compactNext hc => exact ⟨rfl, .compactNext hc⟩
  | compactEnd hc => exact ⟨rfl, .compactEnd hc⟩

theorem Step.memtables_eq (hstep : Step cfg s a s' es) (ha : a.ofCalls = false)
    (hne : a ≠ .sweepLock) : s'.memtables = s.memtables := by
  cases hstep with
  | memInsert _ _ => cases ha
  | sweepDrain _ _ => exact absurd rfl hne
  | _ => rfl

theorem SweepOk.settled (h : SweepOk cfg s) : SweepOk cfg s.settled := { h with }

theorem SizesFit.settled (h : SizesFit s a) : SizesFit s.settled a := by
  have hsame : s.settled.chunkData a = s.chunkData a := by cases a <;> rfl
  rw [SizesFit, hsame]
  exact h

/-- Points inserted over those of their memtable. -/
theorem StoreOk.overwrite {U : SeriesKey → Prop} {stored : List DataPoint}
    {created : List ChunkId} {live flight merged : List Chunk}
    (h : StoreOk U cfg s stored created live flight merged) (hsweep : SweepOk cfg s)
    (hnil : pendingPoints s.appends = []) (hnext : s.sweeper.isNext = true) {i : Nat}
    (hi : i < cfg.numShards) {ps : List DataPoint} (hdist : Distinct ps)
    (hkeys : ∀ p ∈ ps, U p.key)
    (hmem : ∀ p ∈ ps, p.slot ∈ stored.map DataPoint.slot →
      p.slot ∈ (s.memtables i).entries.points.map DataPoint.slot) :
    StoreOk U cfg
      { s with memtables := Function.update s.memtables i ((s.memtables i).insertAll ps) }
      (LastWrites.overlay DataPoint.slot stored ps) created live flight merged := by
  have hdrained : s.sweeper.drainedPoints = [] := by
    cases hs : s.sweeper <;> first | rfl | (rw [hs] at hnext; cases hnext)
  have hflight : flight = [] := h.sweeper.eq_nil fun i result hs => by
    rw [hs] at hnext
    cases hnext
  obtain ⟨rest, hrest, hupdate⟩ := memPoints_update hi s.memtables
  have hsplit : stored.Perm ((s.memtables i).entries.points ++ (rest ++ livePoints live)) := by
    have hpoints := h.points
    rw [hnil, hdrained, hflight] at hpoints
    refine hpoints.trans ((hrest.append_right _).trans (.of_eq ?_))
    simp [livePoints]
  -- what the points overwrite is in the memtable
  have hkept : ∀ q ∈ rest ++ livePoints live, q.slot ∉ ps.map DataPoint.slot := by
    intro q hq hslot
    obtain ⟨p, hp, hpq⟩ := List.mem_map.mp hslot
    have hstored : p.slot ∈ stored.map DataPoint.slot :=
      List.mem_map.mpr ⟨q, hsplit.mem_iff.mpr (List.mem_append_right _ hq), hpq.symm⟩
    have hall := h.distinct.of_perm hsplit
    rw [Distinct, List.map_append] at hall
    exact List.disjoint_of_nodup_append hall (hmem p hp hstored) (hpq ▸ List.mem_map_of_mem hq)
  have hinsert : ((s.memtables i).insertAll ps).entries.points.Perm
      (LastWrites.overlay DataPoint.slot (s.memtables i).entries.points ps) := by
    rw [Memtable.entries_insertAll]
    exact SeriesData.insertPoints_overlay (hsweep.memtables i) hdist
  exact
    { h with
      points := by
        have hover : (LastWrites.overlay DataPoint.slot stored ps).Perm
            (LastWrites.overlay DataPoint.slot (s.memtables i).entries.points ps ++
              (rest ++ livePoints live)) := by
          rw [← LastWrites.overlay_append_left hkept]
          exact LastWrites.overlay_perm hsplit ps
        rw [hnil, hdrained, hflight]
        refine hover.trans ((hinsert.symm.append_right _).trans ?_)
        rw [← List.append_assoc]
        refine ((hupdate _).symm.append_right _).trans (.of_eq ?_)
        simp [livePoints]
      distinct := LastWrites.nodup_overlay h.distinct hdist
      keys := by
        intro p hp
        rcases LastWrites.mem_overlay.mp hp with hp | ⟨hp, -⟩
        · exact hkeys p hp
        · exact h.keys p hp }

/-- **The last writes are stored.** `stored` are the points in the memtables,
in the hands of the sweep and in chunks; those of the call in progress are
still to be written over them. -/
structure Overwriting (U : SeriesKey → Prop) (cfg : StorageConfig) (s : Server) (tr : List Event)
    (stored : List DataPoint) (live flight merged : List Chunk) : Prop where
  store : StoreOk U cfg s.settled stored (createdChunks tr) live flight merged
  last : ∀ p, p ∈ LastWrites.overlay DataPoint.slot stored (pendingPoints s.appends) ↔
    LastWrites.IsLast DataPoint.slot (requestedPoints tr) p
  distinct : Distinct (pendingPoints s.appends)
  keys : ∀ p ∈ pendingPoints s.appends, U p.key
  /-- A pending point overwrites nothing outside of its memtable. -/
  inMemory : ∀ t ∈ s.appends, ∀ g ∈ t.pending, ∀ p ∈ g.points,
    p.slot ∈ stored.map DataPoint.slot →
      p.slot ∈ (s.memtables g.shard).entries.points.map DataPoint.slot
  apart : s.sweeper.isNext = true ∨ ∀ t ∈ s.appends, t.acked = true

namespace Overwriting

variable {U : SeriesKey → Prop} {stored : List DataPoint} {live flight merged : List Chunk}

theorem fresh (U : SeriesKey → Prop) (cfg : StorageConfig) :
    Overwriting U cfg (.fresh cfg) [] [] [] [] [] where
  store := storeOk_fresh U cfg
  last p := by
    constructor
    · simp [Server.fresh, Server.start, pendingPoints, LastWrites.overlay]
    · exact fun h => h.mem
  distinct := List.nodup_nil
  keys := by simp [Server.fresh, Server.start, pendingPoints]
  inMemory := by simp [Server.fresh, Server.start]
  apart := .inl rfl

/-- With no call in progress the stored points are the last writes. -/
theorem mem_stored (h : Overwriting U cfg s tr stored live flight merged)
    (hnil : pendingPoints s.appends = []) (p : DataPoint) :
    p ∈ stored ↔ LastWrites.IsLast DataPoint.slot (requestedPoints tr) p := by
  rw [← h.last p, hnil, LastWrites.mem_overlay]
  simp

/-- A call arrives. -/
theorem append (h : Overwriting U cfg s tr stored live flight merged) (hrouted : Routed cfg s)
    {points : List DataPoint} {indexed : List (Nat × Nat)}
    (hsorted : SortedByShard points cfg.numShards indexed)
    (hseq : s.sweeper.isNext = true ∧ ∀ t ∈ s.appends, t.acked = true)
    (hdist : Distinct points) (hkeys : ∀ p ∈ points, U p.key)
    (hmem : RewritesInMemory cfg s tr (.append points indexed)) :
    Overwriting U cfg
      { s with appends := s.appends ++ [⟨points, shardGroups points indexed, false⟩] }
      (tr ++ [.requested points]) stored live flight merged := by
  have hnil := hrouted.pendingPoints_eq_nil hseq.2
  have hpending : (pendingPoints (s.appends ++ [⟨points, shardGroups points indexed, false⟩])).Perm
      points := by
    rw [pendingPoints_append, hnil, List.nil_append]
    simpa [pendingPoints] using shardGroups_perm hsorted
  have hrequested : requestedPoints (tr ++ [.requested points]) = requestedPoints tr ++ points := by
    simp [requestedPoints]
  exact
    { store := by
        have hcreated : createdChunks (tr ++ [.requested points]) = createdChunks tr := by
          simp [createdChunks]
        rw [hcreated]
        exact h.store
      last := by
        intro p
        rw [hrequested, LastWrites.isLast_append hdist, LastWrites.mem_overlay, hpending.mem_iff,
          (hpending.map _).mem_iff, h.mem_stored hnil]
      distinct := hdist.of_perm hpending.symm
      keys := fun p hp => hkeys p (hpending.mem_iff.mp hp)
      inMemory := by
        intro t ht g hg p hp hslot
        rcases List.mem_append.mp ht with ht | ht
        · exact h.inMemory t ht g hg p hp hslot
        · rw [List.mem_singleton.mp ht] at hg
          obtain ⟨q, hq, hqslot⟩ := List.mem_map.mp hslot
          have hpoint : p ∈ points :=
            (shardGroups_perm hsorted).mem_iff.mp (List.mem_flatMap.mpr ⟨g, hg, hp⟩)
          rw [← shardGroups_routed hsorted hg hp]
          refine hmem p hpoint (List.mem_map.mpr ⟨q, ?_, hqslot⟩)
          exact ((h.mem_stored hnil q).mp hq).mem
      apart := .inl hseq.1 }

/-- Replies of the WAL task. -/
theorem delivered (h : Overwriting U cfg s tr stored live flight merged)
    (replies : List (Nat × (Nat × Nat) × List DataPoint)) :
    Overwriting U cfg { s with appends := deliver s.appends replies } tr
      stored live flight merged where
  store := h.store
  last := by
    rw [pendingPoints_deliver]
    exact h.last
  distinct := by
    rw [pendingPoints_deliver]
    exact h.distinct
  keys := by
    rw [pendingPoints_deliver]
    exact h.keys
  inMemory t ht g hg p hp := by
    obtain ⟨t₀, ht₀, -, -, hgroup⟩ := mem_deliver _ _ ht
    obtain ⟨g₀, hg₀, hpoints, hshard⟩ := hgroup g hg
    rw [hshard]
    exact h.inMemory t₀ ht₀ g₀ hg₀ p (hpoints ▸ hp)
  apart := by
    refine h.apart.imp_right fun hacked t ht => ?_
    obtain ⟨t₀, ht₀, hacked₀, -⟩ := mem_deliver _ _ ht
    rw [hacked₀]
    exact hacked t₀ ht₀

/-- A call inserts its next group. -/
theorem memInsert (h : Overwriting U cfg s tr stored live flight merged) (hrouted : Routed cfg s)
    (hsweep : SweepOk cfg s) {k : Nat} {points : List DataPoint} {g : Group} {rest : List Group}
    {acked : Bool} (hk : s.appends[k]? = some ⟨points, g :: rest, acked⟩) :
    Overwriting U cfg
      { s with
        memtables := Function.update s.memtables g.shard
          ((s.memtables g.shard).insertAll g.points)
        appends := s.appends.set k ⟨points, rest, acked⟩ } tr
      (LastWrites.overlay DataPoint.slot stored g.points) live flight merged := by
  have htask := List.mem_of_getElem? hk
  have hnext : s.sweeper.isNext = true := by
    refine h.apart.resolve_right fun hacked => ?_
    exact absurd (hrouted.acked _ htask (hacked _ htask)) (by simp)
  obtain ⟨calls, hcalls, hset⟩ := Bags.perm_flatMap_set
    (fun t : AppendTask => t.pending.flatMap Group.points) hk
  -- the group first, then what is left
  have hpending : (pendingPoints s.appends).Perm
      (g.points ++ pendingPoints (s.appends.set k ⟨points, rest, acked⟩)) := by
    refine hcalls.trans (.trans ?_ ((hset ⟨points, rest, acked⟩).symm.append_left _))
    rw [List.flatMap_cons, List.append_assoc]
  have hdist := h.distinct.of_perm hpending
  have hgroup : Distinct g.points := hdist.sublist (List.sublist_append_left ..)
  exact
    { store := by
        refine StoreOk.overwrite h.store hsweep.settled rfl hnext (hrouted.shards _ htask g (by simp))
          hgroup (fun p hp => h.keys p ?_) (h.inMemory _ htask g (by simp))
        exact hpending.mem_iff.mpr (List.mem_append_left _ hp)
      last := by
        intro p
        rw [← h.last p, ← LastWrites.mem_overlay_append hdist, LastWrites.mem_overlay,
          LastWrites.mem_overlay, hpending.mem_iff, (hpending.map _).mem_iff]
      distinct := hdist.sublist (List.sublist_append_right ..)
      keys := fun p hp => h.keys p (hpending.mem_iff.mpr (List.mem_append_right _ hp))
      inMemory := by
        intro t ht g' hg' p hp hslot
        have hleft : p ∈ pendingPoints (s.appends.set k ⟨points, rest, acked⟩) :=
          List.mem_flatMap.mpr ⟨t, ht, List.mem_flatMap.mpr ⟨g', hg', hp⟩⟩
        have hother : p.slot ∉ g.points.map DataPoint.slot := by
          rw [Distinct, List.map_append] at hdist
          exact fun hmem => List.disjoint_of_nodup_append hdist hmem (List.mem_map_of_mem hleft)
        have hold : p.slot ∈ stored.map DataPoint.slot := by
          obtain ⟨q, hq, hqp⟩ := List.mem_map.mp hslot
          rcases LastWrites.mem_overlay.mp hq with hq | ⟨hq, -⟩
          · exact absurd (List.mem_map.mpr ⟨q, hq, hqp⟩) hother
          · exact List.mem_map.mpr ⟨q, hq, hqp⟩
        have hwas : p.slot ∈ (s.memtables g'.shard).entries.points.map DataPoint.slot := by
          rcases List.mem_or_eq_of_mem_set ht with ht | rfl
          · exact h.inMemory t ht g' hg' p hp hold
          · exact h.inMemory _ htask g' (List.mem_cons_of_mem g hg') p hp hold
        -- the slot stays in the memtable, also in that of the group
        change p.slot ∈ (Function.update s.memtables g.shard _ g'.shard).entries.points.map _
        by_cases hshard : g'.shard = g.shard
        · rw [hshard] at hwas ⊢
          obtain ⟨q, hq, hqp⟩ := List.mem_map.mp hwas
          rw [Function.update_self, Memtable.entries_insertAll]
          refine List.mem_map.mpr ⟨q, ?_, hqp⟩
          rw [(SeriesData.insertPoints_overlay (hsweep.memtables _) hgroup).mem_iff,
            LastWrites.mem_overlay, hqp]
          exact .inr ⟨hq, hother⟩
        · rwa [Function.update_of_ne hshard]
      apart := .inl hnext }

/-- A call is answered. -/
theorem ack (h : Overwriting U cfg s tr stored live flight merged) {k : Nat}
    {points : List DataPoint} (hk : s.appends[k]? = some ⟨points, [], false⟩) (seq : Nat) :
    Overwriting U cfg
      { s with
        appends := s.appends.set k ⟨points, [], true⟩
        appendSeq := seq } (tr ++ [.acked points seq]) stored live flight merged := by
  obtain ⟨calls, hcalls, hset⟩ := Bags.perm_flatMap_set
    (fun t : AppendTask => t.pending.flatMap Group.points) hk
  have hpending : (pendingPoints (s.appends.set k ⟨points, [], true⟩)).Perm
      (pendingPoints s.appends) := (hset _).trans hcalls.symm
  have hcreated : createdChunks (tr ++ [.acked points seq]) = createdChunks tr := by
    simp [createdChunks]
  have hrequested : requestedPoints (tr ++ [.acked points seq]) = requestedPoints tr := by
    simp [requestedPoints]
  exact
    { store := by
        rw [hcreated]
        exact { h.store with }
      last := by
        intro p
        rw [hrequested, ← h.last p, LastWrites.mem_overlay, LastWrites.mem_overlay, hpending.mem_iff,
          (hpending.map _).mem_iff]
      distinct := h.distinct.of_perm hpending.symm
      keys := fun p hp => h.keys p (hpending.mem_iff.mp hp)
      inMemory := by
        intro t ht g hg
        rcases List.mem_or_eq_of_mem_set ht with ht | rfl
        · exact h.inMemory t ht g hg
        · cases hg
      apart := by
        refine h.apart.imp_right fun hacked t ht => ?_
        rcases List.mem_or_eq_of_mem_set ht with ht | rfl
        · exact hacked t ht
        · rfl }

/-- A sweep starts only between two calls. -/
theorem apart_step (h : Overwriting U cfg s tr stored live flight merged) (hsweep : SweepOk cfg s)
    (hstep : Step cfg s a s' es) (ha : a.ofCalls = false) (hseq : Sequential s a) :
    s'.sweeper.isNext = true ∨ ∀ t ∈ s.appends, t.acked = true := by
  refine h.apart.elim (fun hnext => ?_) .inr
  -- a sweep in progress contradicts `hnext`
  have hbusy : ∀ {sweeper : Sweeper}, s.sweeper = sweeper → sweeper.isNext = false → False := by
    intro sweeper hs hfalse
    rw [hs, hfalse] at hnext
    cases hnext
  cases hstep with
  | append _ => cases ha
  | walCommit _ _ _ _ _ => cases ha
  | memInsert _ _ => cases ha
  | ack _ => cases ha
  | walDrain hfinish => exact (hbusy (hsweep.drain _ _ hfinish) rfl).elim
  | sweepDrain _ _ => exact .inr hseq
  | sweepSkip _ _ => exact .inl rfl
  | sweepWrite hs _ _ => exact (hbusy hs rfl).elim
  | sweepFail hs _ => exact (hbusy hs rfl).elim
  | sweepRegister hs _ => exact (hbusy hs rfl).elim
  | sweepReadSequence hs => exact (hbusy hs rfl).elim
  | sweepPublish hs => exact (hbusy hs rfl).elim
  | sweepRequestDrain hs => exact (hbusy hs rfl).elim
  | sweepDelete hs => exact (hbusy hs rfl).elim
  | sweepDone hs => exact (hbusy hs rfl).elim
  | _ => exact .inl hnext

/-- A step of another task. -/
theorem others (hlaw : Crates.LawfulLz4) (hU : KeysOk U)
    (h : Overwriting U cfg s tr stored live flight merged) (hrouted : Routed cfg s)
    (hsweep : SweepOk cfg s) (hstep : Step cfg s a s' es) (ha : a.ofCalls = false)
    (hok : SequentialOk U s tr a) :
    ∃ live flight merged, Overwriting U cfg s' (tr ++ es) stored live flight merged := by
  obtain ⟨hseq, -, -, hsize, hfresh⟩ := hok
  obtain ⟨happends, hsettled⟩ := hstep.settled ha
  have hno : ∀ points indexed, a ≠ .append points indexed := by
    rintro points indexed rfl
    cases ha
  obtain ⟨live, flight, merged, hstore⟩ :=
    h.store.step hlaw hU hsweep.settled hno hsize.settled hfresh hsettled
  have hrequested : requestedPoints (tr ++ es) = requestedPoints tr := by
    rw [requestedPoints_append, requestedPoints_step hstep, Action.points_of_ne hno, List.append_nil]
  refine ⟨live, flight, merged, ?_⟩
  exact
    { store := by
        rw [createdChunks_append]
        exact hstore
      last := by
        rw [happends, hrequested]
        exact h.last
      distinct := happends ▸ h.distinct
      keys := happends ▸ h.keys
      inMemory := by
        rw [happends]
        intro t ht g hg
        by_cases hlock : a = .sweepLock
        · subst hlock
          rw [hrouted.acked t ht (hseq t ht)] at hg
          cases hg
        · rw [hstep.memtables_eq ha hlock]
          exact h.inMemory t ht g hg
      apart := by
        rw [happends]
        exact h.apart_step hsweep hstep ha hseq }

end Overwriting

/-- `Overwriting` for some points and chunks, with what holds of every run. -/
def OverwriteInv (U : SeriesKey → Prop) (cfg : StorageConfig) (s : Server) (tr : List Event) : Prop :=
  SweepOk cfg s ∧ Routed cfg s ∧
    ∃ stored live flight merged, Overwriting U cfg s tr stored live flight merged

theorem overwriteInv_fresh (U : SeriesKey → Prop) (cfg : StorageConfig) :
    OverwriteInv U cfg (.fresh cfg) [] :=
  ⟨SweepOk.fresh cfg, Routed.fresh cfg, [], [], [], [], Overwriting.fresh U cfg⟩

/-- **One step** keeps the last writes, if it rewrites in memory. -/
theorem OverwriteInv.step (hlaw : Crates.LawfulLz4) {U : SeriesKey → Prop} (hU : KeysOk U)
    (h : OverwriteInv U cfg s tr) (hok : SequentialOk U s tr a)
    (hmem : RewritesInMemory cfg s tr a) (hstep : Step cfg s a s' es) :
    OverwriteInv U cfg s' (tr ++ es) := by
  obtain ⟨hsweep, hrouted, stored, live, flight, merged, h⟩ := h
  refine ⟨hsweep.step hstep, hrouted.step hstep, ?_⟩
  cases ha : a.ofCalls with
  | false => exact ⟨stored, h.others hlaw hU hrouted hsweep hstep ha hok⟩
  | true =>
    cases hstep with
    | append hsorted =>
      exact ⟨stored, live, flight, merged,
        h.append hrouted hsorted hok.1 hok.2.1 hok.2.2.1 hmem⟩
    | @walCommit i refs drain hi hidle hrequest hnodup hwait =>
      refine ⟨stored, live, flight, merged, ?_⟩
      have hdelivered := h.delivered (numbered (s.wals i).writer.currentSeq (messagesAt s.appends refs))
      exact
        { hdelivered with
          store := by
            rw [createdChunks_append, createdChunks_committed, List.append_nil]
            exact { h.store with }
          last := by
            rw [requestedPoints_append, requestedPoints_committed, List.append_nil]
            exact hdelivered.last }
    | memInsert hk hall =>
      rw [List.append_nil]
      exact ⟨_, live, flight, merged, h.memInsert hrouted hsweep hk⟩
    | ack hk => exact ⟨stored, live, flight, merged, h.ack hk _⟩
    | _ => cases ha

/-- In a quiescent state the points in memtables and chunks are the last writes. -/
theorem OverwriteInv.query_perm (hlaw : Crates.LawfulLz4) {U : SeriesKey → Prop} (hU : KeysOk U)
    (h : OverwriteInv U cfg s tr) (hquiet : s.Quiescent) :
    ∃ stored, Distinct stored ∧ (∀ p ∈ stored, U p.key) ∧
      (∀ p, p ∈ stored ↔ LastWrites.IsLast DataPoint.slot (requestedPoints tr) p) ∧
      ∀ q, (s.query cfg q).Perm ((stored.filter q.selects).map DataPoint.response) := by
  obtain ⟨-, hrouted, stored, live, flight, merged, h⟩ := h
  have hnil := hrouted.pendingPoints_eq_nil hquiet.1
  refine ⟨stored, h.store.distinct, h.store.keys, h.mem_stored hnil, fun q => ?_⟩
  have hsettled : s.settled.Quiescent := ⟨by simp [Server.settled], hquiet.2⟩
  have hperm := h.store.points_of_quiescent hsettled
  exact (h.store.query_perm hlaw hU q).trans ((hperm.symm.filter _).map _)

/-! ## Runs without a sweep -/

omit [Crates] in
/-- The step starts the sweep of a shard or belongs to the compaction worker. -/
def Action.movesPoints : Action → Bool
  | sweepLock => true
  | a => a.isCompaction

/-- No sweep has started and no chunk was written. -/
structure Unswept (s : Server) (tr : List Event) : Prop where
  next : s.sweeper.isNext = true
  created : createdChunks tr = []

theorem Unswept.step (h : Unswept s tr) (hsweep : SweepOk cfg s) (hstep : Step cfg s a s' es)
    (ha : a.movesPoints = false) : Unswept s' (tr ++ es) := by
  have hquiet : createdChunks es = [] → createdChunks (tr ++ es) = [] := by
    intro hes
    rw [createdChunks_append, h.created, hes]
    rfl
  have hbusy : ∀ {sweeper : Sweeper}, s.sweeper = sweeper → sweeper.isNext = false → False := by
    intro sweeper hs hfalse
    have hnext := h.next
    rw [hs, hfalse] at hnext
    cases hnext
  cases hstep with
  | walCommit _ _ _ _ _ => exact ⟨h.next, hquiet (createdChunks_committed _ _ _)⟩
  | walDrain hfinish => exact (hbusy (hsweep.drain _ _ hfinish) rfl).elim
  | sweepDrain _ _ => cases ha
  | sweepSkip _ _ => cases ha
  | sweepWrite hs _ _ => exact (hbusy hs rfl).elim
  | sweepFail hs _ => exact (hbusy hs rfl).elim
  | sweepRegister hs _ => exact (hbusy hs rfl).elim
  | sweepReadSequence hs => exact (hbusy hs rfl).elim
  | sweepPublish hs => exact (hbusy hs rfl).elim
  | sweepRequestDrain hs => exact (hbusy hs rfl).elim
  | sweepDelete hs => exact (hbusy hs rfl).elim
  | sweepDone hs => exact (hbusy hs rfl).elim
  | compactFind _ _ => cases ha
  | compactMerge _ _ _ => cases ha
  | compactFail _ _ => cases ha
  | compactCommit _ _ => cases ha
  | compactDelete _ => cases ha
  | compactNext _ => cases ha
  | compactEnd _ => cases ha
  | _ => exact ⟨h.next, hquiet rfl⟩

/-- Without a sweep every slot is still in its memtable. -/
theorem OverwriteInv.rewritesInMemory {U : SeriesKey → Prop} (h : OverwriteInv U cfg s tr)
    (hunswept : Unswept s tr) (hseq : Sequential s a) : RewritesInMemory cfg s tr a := by
  obtain ⟨-, hrouted, stored, live, flight, merged, h⟩ := h
  intro p hp hslot
  cases a with
  | append points indexed =>
    obtain ⟨q, hlast, hqp⟩ := LastWrites.exists_isLast hslot
    have hq := (h.mem_stored (hrouted.pendingPoints_eq_nil hseq.2) q).mpr hlast
    have hnone : ∀ c, c ∈ flight ++ live → False := by
      intro c hc
      have hid := h.store.files.created c (List.mem_append_right _ hc)
      rw [hunswept.created] at hid
      cases hid
    have hdrained : s.sweeper.drainedPoints = [] := by
      have hnext := hunswept.next
      cases hs : s.sweeper <;> first | rfl | (rw [hs] at hnext; cases hnext)
    have hqmem : q ∈ memPoints cfg.numShards s.memtables := by
      have hplaces := h.store.points.mem_iff.mp hq
      rw [List.mem_append, List.mem_append, List.mem_append] at hplaces
      rcases hplaces with hpend | hmem | hdr | hchunks
      · cases hpend
      · exact hmem
      · rw [show s.settled.sweeper.drainedPoints = [] from hdrained] at hdr
        cases hdr
      · rw [livePoints, livePoints, ← List.flatMap_append] at hchunks
        obtain ⟨c, hc, -⟩ := List.mem_flatMap.mp hchunks
        exact (hnone c hc).elim
    obtain ⟨i, -, hqi⟩ := List.mem_flatMap.mp hqmem
    rw [← Routed.shardIndex_of_slot hqp, hrouted.memtables i q hqi]
    exact List.mem_map.mpr ⟨q, hqi, hqp⟩
  | _ => cases hp

/-- **Overwrites.** Open empty directories and run append calls in sequence
with sweeps between them. If every slot is rewritten while it is in memory,
then in every quiescent state a query streams each slot once, with the value
written last, and the same points as in any run of the same requests in
which no sweep starts. -/
theorem query_overwrites (hlaw : Crates.LawfulLz4) (cfg : StorageConfig) {U : SeriesKey → Prop}
    (hU : KeysOk U) (chunkIds : Nat → ChunkId) {s₀ s : Server} (actions : List Action)
    {tr : List Event} (hopen : (openStore cfg chunkIds .empty).1 = .ok s₀)
    (hsteps : Runs.Along (step cfg)
      (fun s tr a => SequentialOk U s tr a ∧ RewritesInMemory cfg s tr a) s₀ [] actions)
    (hrun : Runs.run (step cfg) s₀ actions = some (s, tr)) (hquiet : s.Quiescent) (q : Query) :
    ((s.query cfg q).map fun r => (r.seriesId, r.timestampNs)).Nodup ∧
    (∀ r, r ∈ s.query cfg q ↔ ∃ p, LastWrites.IsLast DataPoint.slot (requestedPoints tr) p ∧
      q.selects p = true ∧ p.response = r) ∧
    ∀ actions' s' tr', (∀ a ∈ actions', a.movesPoints = false) →
      Runs.Along (step cfg) (SequentialOk U) s₀ [] actions' →
      Runs.run (step cfg) s₀ actions' = some (s', tr') →
      requestedPoints tr' = requestedPoints tr → s'.Quiescent →
        (s.query cfg q).Perm (s'.query cfg q) := by
  obtain rfl := fresh_of_openStore hopen
  have hinv : ∀ {actions : List Action} {s : Server} {tr : List Event},
      Runs.Along (step cfg) (fun s tr a => SequentialOk U s tr a ∧ RewritesInMemory cfg s tr a)
        (.fresh cfg) [] actions →
      Runs.run (step cfg) (.fresh cfg) actions = some (s, tr) → OverwriteInv U cfg s ([] ++ tr) :=
    Runs.run_invariant (I := OverwriteInv U cfg)
      (fun h hok hstep => h.step hlaw hU hok.1 hok.2 (step_sound hstep)) (overwriteInv_fresh U cfg)
  obtain ⟨stored, hdist, hkeys, hlast, hperm⟩ := (hinv hsteps hrun).query_perm hlaw hU hquiet
  refine ⟨?_, fun r => ?_, ?_⟩
  · -- points of different slots have different ids or timestamps
    rw [((hperm q).map _).nodup_iff, List.map_map]
    refine (List.nodup_map_iff_inj_on (hdist.of_map.filter _)).mpr fun p hp p' hp' heq => ?_
    have hp := List.mem_of_mem_filter hp
    have hp' := List.mem_of_mem_filter hp'
    obtain ⟨hid, hts⟩ := Prod.mk.inj heq
    exact List.inj_on_of_nodup_map hdist hp hp'
      (Prod.ext (hU.inj _ _ (hkeys p hp) (hkeys p' hp') hid) hts)
  · rw [(hperm q).mem_iff, List.mem_map]
    constructor
    · rintro ⟨p, hp, rfl⟩
      exact ⟨p, (hlast p).mp (List.mem_of_mem_filter hp), (List.mem_filter.mp hp).2, rfl⟩
    · rintro ⟨p, hp, hsel, rfl⟩
      exact ⟨p, List.mem_filter.mpr ⟨(hlast p).mpr hp, hsel⟩, rfl⟩
  · intro actions' s' tr' hmoves hsteps' hrun' hsame hquiet'
    -- the other run rewrites in memory as well
    have halong : Runs.Along (step cfg)
        (fun s tr a => SequentialOk U s tr a ∧ RewritesInMemory cfg s tr a) (.fresh cfg) []
          actions' := by
      refine Runs.Along.of_invariant (Q := fun s tr a => SequentialOk U s tr a ∧ a.movesPoints = false)
        (I := fun s tr => OverwriteInv U cfg s tr ∧ Unswept s tr)
        (fun hI hQ => ⟨hQ.1, hI.1.rewritesInMemory hI.2 hQ.1.1⟩)
        (fun hI hP hQ hstep => ⟨hI.1.step hlaw hU hP.1 hP.2 (step_sound hstep),
          hI.2.step hI.1.1 (step_sound hstep) hQ.2⟩)
        ⟨overwriteInv_fresh U cfg, rfl, rfl⟩ ?_
      exact Runs.Along.and hsteps' (Runs.along_of_forall hmoves _ _)
    obtain ⟨stored', hdist', -, hlast', hperm'⟩ := (hinv halong hrun').query_perm hlaw hU hquiet'
    have hboth : stored.Perm stored' := by
      refine (List.perm_ext_iff_of_nodup hdist.of_map hdist'.of_map).mpr fun p => ?_
      rw [hlast p, hlast' p]
      show _ ↔ LastWrites.IsLast DataPoint.slot (requestedPoints tr') p
      rw [hsame]
      rfl
    exact (hperm q).trans (((hboth.filter _).map _).trans (hperm' q).symm)

end

/-! ## Runs that write a slot twice -/

section Example

attribute [local instance] Reference.crates

/-- A slot rewritten in memory, a sweep and one more point. -/
def rewrittenRun : List Action :=
  appendSteps 0 (cpuPoint 5 7) ++ appendSteps 1 (cpuPoint 5 8) ++ sweepSteps 100 0 ++
    appendSteps 2 (cpuPoint 6 9)

/-- The same requests without the sweep. -/
def unsweptRun : List Action :=
  appendSteps 0 (cpuPoint 5 7) ++ appendSteps 1 (cpuPoint 5 8) ++ appendSteps 2 (cpuPoint 6 9)

theorem query_overwrites_rewritten : ∃ s tr s' tr',
    Runs.run (step oneShard) (.fresh oneShard) rewrittenRun = some (s, tr) ∧
    Runs.run (step oneShard) (.fresh oneShard) unsweptRun = some (s', tr') ∧
    ((s.query oneShard (.all "cpu")).map fun r => (r.seriesId, r.timestampNs)).Nodup ∧
    (∀ r, r ∈ s.query oneShard (.all "cpu") ↔
      ∃ p, LastWrites.IsLast DataPoint.slot (requestedPoints tr) p ∧
        (Query.all "cpu").selects p = true ∧ p.response = r) ∧
    (s.query oneShard (.all "cpu")).Perm (s'.query oneShard (.all "cpu")) := by
  have hrun : ((Runs.run (step oneShard) (.fresh oneShard) rewrittenRun).any fun r =>
      r.1.isQuiescent ∧ requestedPoints r.2 = [cpuPoint 5 7, cpuPoint 5 8, cpuPoint 6 9]) = true := by
    decide +kernel
  have hrun' : ((Runs.run (step oneShard) (.fresh oneShard) unsweptRun).any fun r =>
      r.1.isQuiescent ∧ requestedPoints r.2 = [cpuPoint 5 7, cpuPoint 5 8, cpuPoint 6 9]) = true := by
    decide +kernel
  obtain ⟨s, tr, hrun, hstate⟩ := Runs.exists_of_any hrun
  obtain ⟨s', tr', hrun', hstate'⟩ := Runs.exists_of_any hrun'
  obtain ⟨hquiet, hreq⟩ := of_decide_eq_true hstate
  obtain ⟨hquiet', hreq'⟩ := of_decide_eq_true hstate'
  obtain ⟨hnodup, hmem, hsame⟩ := query_overwrites Reference.lawful.lz4 oneShard keysOk_cpu (fun _ => 0)
    rewrittenRun (openStore_empty oneShard _) (by decide +kernel) hrun
    (Server.quiescent_of_isQuiescent hquiet) (.all "cpu")
  exact ⟨s, tr, s', tr', hrun, hrun', hnodup, hmem,
    hsame unsweptRun s' tr' (by decide) (by decide +kernel) hrun' (hreq'.trans hreq.symm)
      (Server.quiescent_of_isQuiescent hquiet')⟩

/-- A slot written again after a sweep: the query streams both values. -/
theorem rewrite_after_sweep : ∃ s tr,
    (openStore oneShard (fun _ => 0) .empty).1 = .ok (.fresh oneShard) ∧
    Runs.run (step oneShard) (.fresh oneShard)
      (appendSteps 0 (cpuPoint 5 7) ++ sweepSteps 100 0 ++ appendSteps 1 (cpuPoint 5 8)) =
        some (s, tr) ∧
    s.Quiescent ∧
    s.query oneShard (.all "cpu") = [(cpuPoint 5 8).response, (cpuPoint 5 7).response] := by
  have hrun : ((Runs.run (step oneShard) (.fresh oneShard)
      (appendSteps 0 (cpuPoint 5 7) ++ sweepSteps 100 0 ++ appendSteps 1 (cpuPoint 5 8))).any
        fun r => r.1.isQuiescent ∧ r.1.query oneShard (.all "cpu") =
          [(cpuPoint 5 8).response, (cpuPoint 5 7).response]) = true := by decide +kernel
  obtain ⟨s, tr, hrun, hstate⟩ := Runs.exists_of_any hrun
  obtain ⟨hquiet, hquery⟩ := of_decide_eq_true hstate
  exact ⟨s, tr, openStore_empty oneShard _, hrun, Server.quiescent_of_isQuiescent hquiet, hquery⟩

end Example

end Micius

import Mathlib.Data.List.Induction
import Micius.Index.ChunkIndex
import Micius.Reference.Instance

/-!
# Which registered chunks a lookup finds

The identity of an entry is its series and chunk; `time_index` keys it by
series and start. A history is a list of `register` and `deregister` calls.
A pair of series and chunk that is registered and not deregistered is found
by an unrestricted `prune_chunks` after every call exactly when each entry
is registered in a free slot.
-/

namespace Micius

/-- A call to one of the two methods that change the index. -/
inductive IndexCall
  | register (key : SeriesKey) (entry : SeriesChunkEntry) (stats : SeriesChunkStats)
      (chunkMeta : ChunkMeta)
  | deregister (seriesId : SeriesId) (chunkId : ChunkId) (timeStartNs : Int64)

section

variable [Crates]

/-- The effect of a call. -/
def ChunkIndex.call (idx : ChunkIndex) : IndexCall → ChunkIndex
  | .register key entry stats chunkMeta => idx.register key entry stats chunkMeta
  | .deregister sid c t => idx.deregister sid c t

/-- The index after a history. -/
def indexAfter (calls : List IndexCall) : ChunkIndex := calls.foldl ChunkIndex.call .new

/-- The history registers the chunk for the series at the given start. -/
def Registered (calls : List IndexCall) (sid : SeriesId) (c : ChunkId) (t : Int64) : Prop :=
  ∃ key entry stats chunkMeta, .register key entry stats chunkMeta ∈ calls ∧ key.id = sid ∧
    entry.chunkId = c ∧ entry.timeStartNs = t

/-- The pair is registered and not deregistered. -/
def StillRegistered (calls : List IndexCall) (sid : SeriesId) (c : ChunkId) : Prop :=
  (∃ t, Registered calls sid c t) ∧ ∀ t, .deregister sid c t ∉ calls

/-- An unrestricted lookup returns the pair. -/
def ChunkIndex.Finds (idx : ChunkIndex) (sid : SeriesId) (c : ChunkId) : Prop :=
  ∃ e ∈ idx.pruneChunks sid Int64.minValue Int64.maxValue none, e.chunkId = c

/-- A series gets a chunk once, and what is deregistered was registered. -/
def CallOk (calls : List IndexCall) : IndexCall → Prop
  | .register key entry _ _ => ∀ t, ¬ Registered calls key.id entry.chunkId t
  | .deregister sid c t => Registered calls sid c t

/-- An entry is registered in a free slot. -/
def SlotFree (idx : ChunkIndex) : IndexCall → Prop
  | .register key entry _ _ => idx.entryAt key.id entry.timeStartNs = none
  | .deregister _ _ _ => True

/-- Every call of the history is as it should be after the calls before it. -/
def CallsOk (calls : List IndexCall) : Prop :=
  ∀ earlier call, earlier ++ [call] <+: calls → CallOk earlier call

/-- The calls register in free slots. -/
def FreeSlots (calls : List IndexCall) : Prop :=
  ∀ earlier call, earlier ++ [call] <+: calls → SlotFree (indexAfter earlier) call

theorem indexAfter_concat (calls : List IndexCall) (call : IndexCall) :
    indexAfter (calls ++ [call]) = (indexAfter calls).call call := by
  simp [indexAfter]

omit [Crates] in
theorem ChunkIndex.finds_iff {idx : ChunkIndex} {sid : SeriesId} {c : ChunkId} :
    idx.Finds sid c ↔ ∃ t e, idx.entryAt sid t = some e ∧ e.chunkId = c := by
  constructor
  · rintro ⟨e, he, hc⟩
    obtain ⟨t, hget, -, -⟩ := mem_pruneChunks.mp he
    exact ⟨t, e, hget, hc⟩
  · rintro ⟨t, e, hget, hc⟩
    exact ⟨e, mem_pruneChunks.mpr ⟨t, hget, Int64.le_maxValue t, Int64.minValue_le _⟩, hc⟩

/-! ## Histories -/

section History

variable {calls : List IndexCall} {call : IndexCall} {sid : SeriesId} {c : ChunkId} {t : Int64}

theorem Registered.mono (h : Registered calls sid c t) (later : List IndexCall) :
    Registered (calls ++ later) sid c t := by
  obtain ⟨key, entry, stats, m, hmem, hsid, hc, ht⟩ := h
  exact ⟨key, entry, stats, m, List.mem_append_left _ hmem, hsid, hc, ht⟩

theorem registered_concat : Registered (calls ++ [call]) sid c t ↔
    Registered calls sid c t ∨ ∃ key entry stats chunkMeta,
      call = .register key entry stats chunkMeta ∧ key.id = sid ∧ entry.chunkId = c ∧
        entry.timeStartNs = t := by
  constructor
  · rintro ⟨key, entry, stats, m, hmem, h⟩
    rcases List.mem_append.mp hmem with hmem | hmem
    · exact .inl ⟨key, entry, stats, m, hmem, h⟩
    · exact .inr ⟨key, entry, stats, m, (List.mem_singleton.mp hmem).symm, h⟩
  · rintro (h | ⟨key, entry, stats, m, rfl, h⟩)
    · exact h.mono _
    · exact ⟨key, entry, stats, m, by simp, h⟩

theorem CallsOk.init (h : CallsOk (calls ++ [call])) : CallsOk calls :=
  fun earlier call' hpre => h earlier call' (hpre.trans (List.prefix_append ..))

theorem CallsOk.last (h : CallsOk (calls ++ [call])) : CallOk calls call :=
  h calls call (List.prefix_refl _)

/-- A pair has one start. -/
theorem CallsOk.start_unique (h : CallsOk calls) {t' : Int64} (hr : Registered calls sid c t)
    (hr' : Registered calls sid c t') : t = t' := by
  induction calls using List.reverseRecOn with
  | nil =>
    obtain ⟨key, entry, stats, m, hmem, -⟩ := hr
    cases hmem
  | append_singleton calls call ih =>
    rcases registered_concat.mp hr with hold | ⟨key, entry, stats, m, rfl, rfl, rfl, rfl⟩
    · rcases registered_concat.mp hr' with hold' | ⟨key, entry, stats, m, rfl, rfl, rfl, rfl⟩
      · exact ih h.init hold hold'
      · exact absurd hold (h.last t)
    · rcases registered_concat.mp hr' with hold' | ⟨key', entry', stats', m', heq, -, -, rfl⟩
      · exact absurd hold' (h.last t')
      · cases heq
        rfl

/-- What is deregistered was registered. -/
theorem CallsOk.registered (h : CallsOk calls) (hmem : .deregister sid c t ∈ calls) :
    Registered calls sid c t := by
  induction calls using List.reverseRecOn with
  | nil => cases hmem
  | append_singleton calls call ih =>
    rcases List.mem_append.mp hmem with hmem | hmem
    · exact (ih h.init hmem).mono _
    · obtain rfl := List.mem_singleton.mp hmem
      exact Registered.mono h.last _

/-- A pair still registered before a call of another kind or for another pair stays so. -/
theorem StillRegistered.concat (h : StillRegistered calls sid c)
    (hcall : ∀ t, call ≠ .deregister sid c t) : StillRegistered (calls ++ [call]) sid c := by
  obtain ⟨⟨t, hr⟩, hnot⟩ := h
  refine ⟨⟨t, hr.mono _⟩, fun t' hmem => ?_⟩
  rcases List.mem_append.mp hmem with hmem | hmem
  · exact hnot t' hmem
  · exact hcall t' (List.mem_singleton.mp hmem).symm

theorem stillRegistered_of_register {key : SeriesKey} {entry : SeriesChunkEntry}
    {stats : SeriesChunkStats} {m : ChunkMeta} (h : CallsOk (calls ++ [.register key entry stats m])) :
    StillRegistered (calls ++ [.register key entry stats m]) key.id entry.chunkId := by
  refine ⟨⟨_, registered_concat.mpr (.inr ⟨key, entry, stats, m, rfl, rfl, rfl, rfl⟩)⟩, ?_⟩
  intro t hmem
  rcases List.mem_append.mp hmem with hmem | hmem
  · exact h.last t (h.init.registered hmem)
  · cases List.mem_singleton.mp hmem

end History

/-! ## Entries and pairs -/

section Entries

variable {calls : List IndexCall}

/-- Every entry of the index is that of a pair still registered, at its start. -/
theorem entry_stillRegistered (h : CallsOk calls) {sid : SeriesId} {t : Int64}
    {e : SeriesChunkEntry} (hget : (indexAfter calls).entryAt sid t = some e) :
    StillRegistered calls sid e.chunkId ∧ Registered calls sid e.chunkId t := by
  induction calls using List.reverseRecOn generalizing sid t e with
  | nil => simp [indexAfter, ChunkIndex.entryAt, ChunkIndex.new] at hget
  | append_singleton calls call ih =>
    rw [indexAfter_concat] at hget
    cases call with
    | register key entry stats m =>
      simp only [ChunkIndex.call, ChunkIndex.entryAt_register] at hget
      split at hget
      · next hslot =>
        obtain ⟨rfl, rfl⟩ := hslot
        obtain rfl := Option.some.inj hget
        exact ⟨stillRegistered_of_register h,
          registered_concat.mpr (.inr ⟨key, entry, stats, m, rfl, rfl, rfl, rfl⟩)⟩
      · obtain ⟨hstill, hr⟩ := ih h.init hget
        exact ⟨hstill.concat (by simp), hr.mono _⟩
    | deregister sid' c t' =>
      simp only [ChunkIndex.call, ChunkIndex.entryAt_deregister] at hget
      split at hget
      · cases hget
      · next hkept =>
        obtain ⟨hstill, hr⟩ := ih h.init hget
        refine ⟨hstill.concat fun t'' heq => ?_, hr.mono _⟩
        -- the pair's own slot would have been emptied
        obtain ⟨rfl, rfl, rfl⟩ := IndexCall.deregister.inj heq
        obtain rfl := h.init.start_unique hr h.last
        exact hkept ⟨rfl, rfl, by rw [hget, Option.map_some]⟩

/-- Registered in free slots, every pair still registered has its entry. -/
theorem finds_of_freeSlots (h : FreeSlots calls) {sid : SeriesId} {c : ChunkId}
    (hstill : StillRegistered calls sid c) : (indexAfter calls).Finds sid c := by
  induction calls using List.reverseRecOn generalizing sid c with
  | nil =>
    obtain ⟨⟨t, key, entry, stats, m, hmem, -⟩, -⟩ := hstill
    cases hmem
  | append_singleton calls call ih =>
    have hinit : FreeSlots calls :=
      fun earlier call' hpre => h earlier call' (hpre.trans (List.prefix_append ..))
    have hfree : SlotFree (indexAfter calls) call := h calls call (List.prefix_refl _)
    obtain ⟨⟨t, hr⟩, hnot⟩ := hstill
    have hnot' : ∀ t, .deregister sid c t ∉ calls := fun t hmem => hnot t (by simp [hmem])
    rw [indexAfter_concat, ChunkIndex.finds_iff]
    cases call with
    | register key entry stats m =>
      simp only [ChunkIndex.call, ChunkIndex.entryAt_register]
      rcases registered_concat.mp hr with hr | ⟨key', entry', stats', m', heq, rfl, rfl, rfl⟩
      · obtain ⟨t', e, hget, hc⟩ := ChunkIndex.finds_iff.mp (ih hinit ⟨⟨t, hr⟩, hnot'⟩)
        refine ⟨t', e, ?_, hc⟩
        rw [if_neg, hget]
        rintro ⟨rfl, rfl⟩
        rw [show (indexAfter calls).entryAt key.id entry.timeStartNs = none from hfree] at hget
        cases hget
      · obtain ⟨rfl, rfl, -, -⟩ := IndexCall.register.inj heq
        exact ⟨_, entry, if_pos ⟨rfl, rfl⟩, rfl⟩
    | deregister sid' c' t' =>
      rcases registered_concat.mp hr with hr | ⟨_, _, _, _, heq, -⟩
      · obtain ⟨t'', e, hget, rfl⟩ := ChunkIndex.finds_iff.mp (ih hinit ⟨⟨t, hr⟩, hnot'⟩)
        refine ⟨t'', e, ?_, rfl⟩
        simp only [ChunkIndex.call, ChunkIndex.entryAt_deregister]
        rw [if_neg, hget]
        rintro ⟨rfl, rfl, hc'⟩
        rw [hget, Option.map_some, Option.some.injEq] at hc'
        exact hnot t'' (by simp [hc'])
      · cases heq

end Entries

/-- **Registering a chunk hides no other** exactly when every entry is
registered in a free slot. -/
theorem finds_registered_iff {calls : List IndexCall} (hok : CallsOk calls) :
    (∀ earlier, earlier <+: calls → ∀ sid c, StillRegistered earlier sid c →
      (indexAfter earlier).Finds sid c) ↔ FreeSlots calls := by
  constructor
  · intro hfinds earlier call hpre
    cases call with
    | deregister _ _ _ => trivial
    | register key entry stats m =>
      have hokAll : CallsOk (earlier ++ [.register key entry stats m]) :=
        fun earlier' call' hpre' => hok earlier' call' (hpre'.trans hpre)
      show (indexAfter earlier).entryAt key.id entry.timeStartNs = none
      cases hget : (indexAfter earlier).entryAt key.id entry.timeStartNs with
      | none => rfl
      | some e =>
        exfalso
        -- the pair whose entry is overwritten is found no more
        obtain ⟨hstill, hr⟩ := entry_stillRegistered hokAll.init hget
        have hstill' : StillRegistered (earlier ++ [.register key entry stats m]) key.id e.chunkId :=
          hstill.concat (by simp)
        obtain ⟨t', e', hget', hc'⟩ := ChunkIndex.finds_iff.mp (hfinds _ hpre _ _ hstill')
        obtain ⟨-, hr'⟩ := entry_stillRegistered hokAll hget'
        rw [hc'] at hr'
        obtain rfl := hokAll.start_unique (hr.mono _) hr'
        rw [indexAfter_concat, ChunkIndex.call, ChunkIndex.entryAt_register,
          if_pos ⟨rfl, rfl⟩] at hget'
        obtain rfl := Option.some.inj hget'
        rw [← hc'] at hr
        exact hokAll.last _ hr
  · intro hfree earlier hpre sid c hstill
    exact finds_of_freeSlots (fun earlier' call hpre' => hfree earlier' call (hpre'.trans hpre))
      hstill

end

section Example

attribute [local instance] Reference.crates

/-- Chunk `c` of the series `cpu`, from `t` to `t + 2`. -/
def registerCpu (c : ChunkId) (t : Int64) : IndexCall :=
  .register ⟨"cpu", ∅⟩ ⟨c, SeriesKey.id ⟨"cpu", ∅⟩, t, t + 2, 100⟩ ⟨⟨0⟩, ⟨1⟩, 0⟩ ⟨c, 187⟩

/-- The calls of a history of two, each after those before it. -/
theorem forall_calls_two {P : List IndexCall → IndexCall → Prop} {first second : IndexCall}
    (hfirst : P [] first) (hsecond : P [first] second) :
    ∀ earlier call, earlier ++ [call] <+: [first, second] → P earlier call := by
  intro earlier call hpre
  rcases earlier with _ | ⟨x, _ | ⟨y, rest⟩⟩
  · obtain ⟨rfl, -⟩ := List.cons_prefix_cons.mp hpre
    exact hfirst
  · obtain ⟨hx, htail⟩ := List.cons_prefix_cons.mp hpre
    obtain ⟨hcall, -⟩ := List.cons_prefix_cons.mp htail
    rw [hx, hcall]
    exact hsecond
  · have hlen := hpre.length_le
    simp at hlen

theorem callsOk_registerCpu {c c' : ChunkId} (hc : c ≠ c') (t t' : Int64) :
    CallsOk [registerCpu c t, registerCpu c' t'] := by
  refine forall_calls_two ?_ ?_
  · rintro t ⟨_, _, _, _, hmem, -⟩
    cases hmem
  · rintro t ⟨_, _, _, _, hmem, -, heq, -⟩
    obtain ⟨-, rfl, -, -⟩ := IndexCall.register.inj (List.mem_singleton.mp hmem)
    exact hc heq

/-- Two chunks with different starts are both found. -/
theorem finds_registered_two : CallsOk [registerCpu 1 5, registerCpu 2 6] ∧
    ∀ earlier, earlier <+: [registerCpu 1 5, registerCpu 2 6] →
      ∀ sid c, StillRegistered earlier sid c → (indexAfter earlier).Finds sid c := by
  have hcalls := callsOk_registerCpu (by decide : (1 : ChunkId) ≠ 2) 5 6
  refine ⟨hcalls, (finds_registered_iff hcalls).mpr (forall_calls_two ?_ ?_)⟩
  · show (indexAfter []).entryAt (SeriesKey.id ⟨"cpu", ∅⟩) 5 = none
    decide +kernel
  · show (indexAfter [registerCpu 1 5]).entryAt (SeriesKey.id ⟨"cpu", ∅⟩) 6 = none
    decide +kernel

/-- Two chunks of a series with the same start: the first one is registered
and not found. -/
theorem register_hides_chunk :
    CallsOk [registerCpu 1 5, registerCpu 2 5] ∧
    StillRegistered [registerCpu 1 5, registerCpu 2 5] (SeriesKey.id ⟨"cpu", ∅⟩) 1 ∧
    ¬ (indexAfter [registerCpu 1 5, registerCpu 2 5]).Finds (SeriesKey.id ⟨"cpu", ∅⟩) 1 := by
  refine ⟨callsOk_registerCpu (by decide) 5 5, ⟨⟨5, _, _, _, _, List.mem_cons_self .., rfl, rfl, rfl⟩,
    by simp [registerCpu]⟩, ?_⟩
  have hnone : ∀ e ∈ (indexAfter [registerCpu 1 5, registerCpu 2 5]).pruneChunks
      (SeriesKey.id ⟨"cpu", ∅⟩) Int64.minValue Int64.maxValue none, e.chunkId ≠ 1 := by
    decide +kernel
  rintro ⟨e, he, hc⟩
  exact hnone e he hc

end Example

end Micius

import Micius.Wal.BatchSpec
import Micius.Reference.Instance

/-!
# Failed writes

A write that fails leaves part of a batch in the open segment. If the fsync
after it succeeds, the batch is answered with `Ok`, and the next batch with the
error that the file kept; if the fsync fails too, both are answered with
errors. The task then goes on with the same file: when the write stopped inside
a frame, whatever later batches write lies behind a frame that recovery cannot
read.
-/

namespace Micius

open WalMessage

/-- When everything is fsynced, a crash can leave the files as they are. -/
theorem LogView.crashImage_files {v : LogView} (h : v.synced = v.files) :
    v.CrashImage v.files := by
  intro seg
  cases hv : v.files[seg]? with
  | none => rfl
  | some file => exact ⟨file, rfl, by simp [h, hv], List.prefix_rfl⟩

section

variable [Crates]

/-- Every file is whole frames up to a torn tail, and the acknowledged
batches, given with their segments, lie in the fsynced part. -/
structure AckedSynced (acked : List (Nat × Batch)) (v : LogView) : Prop where
  absent : ∀ seg : Nat, v.files[seg]? = none → v.synced[seg]? = none
  mem : ∀ p ∈ acked, ∃ bytes, v.files[p.1]? = some bytes
  file : ∀ (seg : Nat) bytes, v.files[seg]? = some bytes →
    ∃ (f : SegFile) (ds : List Batch), f.bytes = bytes ∧ ds <+: f.batches ∧
      v.synced[seg]? = some (frames ds) ∧ ∀ b, (seg, b) ∈ acked → b ∈ ds

namespace AckedSynced

variable {acked : List (Nat × Batch)} {v : LogView}

/-- After a crash every acknowledged batch is recovered. -/
theorem recover (lawful : Crates.LawfulProst) (h : AckedSynced acked v) {dir : WalDir}
    (hcrash : v.CrashImage dir) (w : Nat) :
    ∃ bs files torn, Micius.recover dir w = .ok (.ofBatches w bs files torn) ∧
      ∀ p ∈ acked, p.2 ∈ bs := by
  have hfile : ∀ p ∈ dir.toList, ∃ g : SegFile, g.bytes = p.2 ∧
      ∀ b, (p.1, b) ∈ acked → b ∈ g.batches := by
    rintro ⟨seg, bytes⟩ hp
    rw [Std.ExtTreeMap.mem_toList_iff_getElem?_eq_some] at hp
    have hseg := hcrash seg
    cases hv : v.files[seg]? with
    | none =>
      rw [hv, hp] at hseg
      cases hseg
    | some file =>
      obtain ⟨f, ds, rfl, hds, hsynced, hacked⟩ := h.file seg file hv
      simp only [hv, hsynced, Option.getD_some, hp, Option.some.injEq, exists_eq_left'] at hseg
      obtain ⟨g, hg, hkeep⟩ := f.shorten hseg.2
      exact ⟨g, hg, fun b hb => (hkeep ds hds hseg.1).subset (hacked b hb)⟩
  obtain ⟨fs, hfs, hall⟩ := exists_segFiles
    (fun seg g => ∀ b, (seg, b) ∈ acked → b ∈ g.batches) dir.toList hfile
  refine ⟨fs.flatMap SegFile.batches, _, _, recover_segFiles lawful w fs hfs, ?_⟩
  rintro ⟨seg, b⟩ hp
  obtain ⟨bytes, hbytes⟩ := h.mem _ hp
  have hseg := hcrash seg
  simp only [hbytes] at hseg
  obtain ⟨bytes', hdir, -⟩ := hseg
  obtain ⟨g, hg, hb⟩ := hall (seg, bytes') (Std.ExtTreeMap.mem_toList_iff_getElem?_eq_some.mpr hdir)
  exact List.mem_flatMap.mpr ⟨g, hg, hb b hp⟩

/-- An acknowledged batch of a file that is whole frames is one of them. -/
theorem frames_file (lawful : Crates.LawfulProst) (h : AckedSynced acked v) {seg : Nat}
    {bs : List Batch} (hbs : ∀ b ∈ bs, b.Fits) (hfile : v.files[seg]? = some (frames bs)) :
    ∃ ds, ds <+: bs ∧ v.synced[seg]? = some (frames ds) ∧ ∀ b, (seg, b) ∈ acked → b ∈ ds := by
  obtain ⟨f, ds, hf, hds, hsynced, hacked⟩ := h.file seg _ hfile
  obtain ⟨rfl, -⟩ := f.eq_of_frames lawful hbs hf
  exact ⟨ds, hds, hsynced, hacked⟩

/-- Writing any prefix of new frames to a file that ends on a frame boundary. -/
theorem write (lawful : Crates.LawfulProst) (h : AckedSynced acked v) {seg : Nat}
    {bs new : List Batch} (hbs : ∀ b ∈ bs ++ new, b.Fits)
    (hfile : v.files[seg]? = some (frames bs)) {bytes : Bytes} (hbytes : bytes <+: frames new) :
    AckedSynced acked (v.step (.op (.write seg bytes))) := by
  obtain ⟨ds, hds, hsynced, hacked⟩ :=
    h.frames_file lawful (fun b hb => hbs b (List.mem_append_left _ hb)) hfile
  have hpre : frames bs ++ bytes <+: (SegFile.mk (bs ++ new) [] hbs (.inl rfl)).bytes := by
    rw [SegFile.bytes, List.append_nil, frames_append]
    exact (List.prefix_append_right_inj _).mpr hbytes
  obtain ⟨g, hg, hkeep⟩ := SegFile.shorten _ hpre
  have hget : ∀ seg' : Nat, (v.step (.op (.write seg bytes))).files[seg']? =
      if seg = seg' then some (frames bs ++ bytes) else v.files[seg']? := by
    intro seg'
    simp [LogView.step, WalDir.apply, Std.ExtTreeMap.getElem?_insert, hfile]
  refine ⟨?_, ?_, ?_⟩
  · intro seg' hnone
    rw [hget] at hnone
    split at hnone
    · cases hnone
    · exact h.absent seg' hnone
  · intro p hp
    rw [hget]
    split
    · exact ⟨_, rfl⟩
    · exact h.mem p hp
  · intro seg' file hseg'
    rw [hget] at hseg'
    split at hseg'
    · next heq =>
      subst heq
      obtain rfl := Option.some.inj hseg'
      refine ⟨g, ds, hg, hkeep ds (hds.trans (List.prefix_append ..)) ?_, hsynced, hacked⟩
      obtain ⟨es, rfl⟩ := hds
      rw [frames_append, List.append_assoc]
      exact List.prefix_append ..
    · exact h.file seg' file hseg'

/-- An fsync of a file of whole frames makes its batches durable. -/
theorem sync (lawful : Crates.LawfulProst) (h : AckedSynced acked v) {seg : Nat}
    {bs new : List Batch} (hbs : ∀ b ∈ bs, b.Fits) (hfile : v.files[seg]? = some (frames bs))
    (hnew : ∀ b ∈ new, b ∈ bs) :
    AckedSynced (acked ++ new.map (seg, ·)) (v.step (.op (.sync seg))) := by
  obtain ⟨ds, hds, -, hacked⟩ := h.frames_file lawful hbs hfile
  have hsync : ∀ seg' : Nat, (v.step (.op (.sync seg))).synced[seg']? =
      if seg = seg' then some (frames bs) else v.synced[seg']? := by
    intro seg'
    simp [LogView.step, Std.ExtTreeMap.getElem?_insert, hfile]
  refine ⟨?_, ?_, ?_⟩
  · intro seg' (hnone : v.files[seg']? = none)
    have hne : seg ≠ seg' := by
      rintro rfl
      rw [hfile] at hnone
      cases hnone
    rw [hsync, if_neg hne]
    exact h.absent seg' hnone
  · intro p hp
    rcases List.mem_append.mp hp with hp | hp
    · exact h.mem p hp
    · obtain ⟨b, -, rfl⟩ := List.mem_map.mp hp
      exact ⟨_, hfile⟩
  · intro seg' file (hseg' : v.files[seg']? = some file)
    rw [hsync]
    by_cases heq : seg = seg'
    · subst heq
      obtain rfl : frames bs = file := Option.some.inj (hfile.symm.trans hseg')
      refine ⟨⟨bs, [], hbs, .inl rfl⟩, bs, by simp [SegFile.bytes], List.prefix_rfl, by simp, ?_⟩
      intro b hb
      rcases List.mem_append.mp hb with hb | hb
      · exact hds.subset (hacked b hb)
      · obtain ⟨b', hb', heq⟩ := List.mem_map.mp hb
        cases heq
        exact hnew _ hb'
    · obtain ⟨f, ds', hf, hds', hsynced, hacked'⟩ := h.file seg' file hseg'
      refine ⟨f, ds', hf, hds', by rw [if_neg heq]; exact hsynced, ?_⟩
      intro b hb
      rcases List.mem_append.mp hb with hb | hb
      · exact hacked' b hb
      · obtain ⟨b', -, heq'⟩ := List.mem_map.mp hb
        exact absurd (congrArg Prod.fst heq') heq

theorem publish (h : AckedSynced acked v) (seq : Nat) :
    AckedSynced acked (v.step (.publish seq)) :=
  ⟨h.absent, h.mem, h.file⟩

/-- Opening a segment file. -/
theorem create (h : AckedSynced acked v) (seg : Nat) :
    AckedSynced acked (v.step (.op (.create seg))) := by
  cases hv : v.files[seg]? with
  | some file =>
    obtain ⟨-, ds, -, -, hsynced, -⟩ := h.file seg file hv
    have hmem : seg ∈ v.files := Std.ExtTreeMap.mem_iff_isSome_getElem?.mpr (by simp [hv])
    have hmem' : seg ∈ v.synced := Std.ExtTreeMap.mem_iff_isSome_getElem?.mpr (by simp [hsynced])
    simpa [LogView.step, WalDir.apply, hmem, hmem'] using h
  | none =>
    have hsynced := h.absent seg hv
    have hmem : seg ∉ v.files := by simp [Std.ExtTreeMap.mem_iff_isSome_getElem?, hv]
    have hmem' : seg ∉ v.synced := by simp [Std.ExtTreeMap.mem_iff_isSome_getElem?, hsynced]
    have hfiles : ∀ seg' : Nat, (v.step (.op (.create seg))).files[seg']? =
        if seg = seg' then some [] else v.files[seg']? := by
      intro seg'
      simp [LogView.step, WalDir.apply, hmem, Std.ExtTreeMap.getElem?_insert]
    have hsync : ∀ seg' : Nat, (v.step (.op (.create seg))).synced[seg']? =
        if seg = seg' then some [] else v.synced[seg']? := by
      intro seg'
      simp [LogView.step, WalDir.apply, hmem', Std.ExtTreeMap.getElem?_insert]
    refine ⟨?_, ?_, ?_⟩
    · intro seg' hnone
      rw [hfiles] at hnone
      rw [hsync]
      split at hnone
      · cases hnone
      · next hne => rw [if_neg hne]; exact h.absent seg' hnone
    · intro p hp
      rw [hfiles]
      split
      · exact ⟨_, rfl⟩
      · exact h.mem p hp
    · intro seg' file hseg'
      rw [hfiles] at hseg'
      rw [hsync]
      split at hseg'
      · next heq =>
        subst heq
        obtain rfl := Option.some.inj hseg'
        refine ⟨⟨[], [], by simp, .inl rfl⟩, [], rfl, List.prefix_rfl, by simp, ?_⟩
        intro b hb
        obtain ⟨bytes, hbytes⟩ := h.mem _ hb
        rw [hv] at hbytes
        cases hbytes
      · next hne =>
        obtain ⟨f, ds, hf, hds, hs, hacked⟩ := h.file seg' file hseg'
        exact ⟨f, ds, hf, hds, by rw [if_neg hne]; exact hs, hacked⟩

end AckedSynced

/-! ## Traces that never lose an acknowledged batch -/

/-- From a view where the batches of `acked` are durable, the trace keeps
them durable at every event, answers an append only with the number of a
durable batch, and ends with the batches of `acked'` durable. `num` gives
the number, points and reply channel of each append. -/
inductive SafeTrace (num : List (Nat × List DataPoint × Nat)) :
    List (Nat × Batch) → LogView → List WalEvent → List (Nat × Batch) → Prop
  | nil {acked v} : AckedSynced acked v → SafeTrace num acked v [] acked
  | cons {acked mid acked' v e es} : AckedSynced acked v →
      (∀ channel seq, e = .reply channel (.sequence (.ok seq)) →
        ∃ seg points, (seg, (seq, points)) ∈ acked ∧ (seq, points, channel) ∈ num) →
      acked ⊆ mid → SafeTrace num mid (v.step e) es acked' →
      SafeTrace num acked v (e :: es) acked'

namespace SafeTrace

variable {num : List (Nat × List DataPoint × Nat)} {acked mid acked' : List (Nat × Batch)}
  {v : LogView} {es es' : List WalEvent}

theorem append (h : SafeTrace num acked v es mid) (h' : SafeTrace num mid (v.after es) es' acked') :
    SafeTrace num acked v (es ++ es') acked' := by
  induction h with
  | nil _ => exact h'
  | cons hinv hack hsub _ ih => exact .cons hinv hack hsub (ih h')

theorem start (h : SafeTrace num acked v es acked') : AckedSynced acked v := by
  cases h <;> assumption

theorem final (h : SafeTrace num acked v es acked') : AckedSynced acked' (v.after es) := by
  induction h with
  | nil hinv => exact hinv
  | cons _ _ _ _ ih => exact ih

/-- At every point of the trace the batches answered so far are durable. -/
theorem durable_at (h : SafeTrace num acked v (es ++ es') acked') :
    ∃ mid, acked ⊆ mid ∧ AckedSynced mid (v.after es) ∧
      ∀ channel seq, .reply channel (.sequence (.ok seq)) ∈ es →
        ∃ seg points, (seg, (seq, points)) ∈ mid ∧ (seq, points, channel) ∈ num := by
  induction es generalizing acked v with
  | nil => exact ⟨acked, List.Subset.refl _, h.start, by simp⟩
  | cons e es ih =>
    cases h with
    | cons hinv hack hsub hrest =>
      obtain ⟨mid, hmid, hsynced, hacks⟩ := ih hrest
      refine ⟨mid, List.Subset.trans hsub hmid, hsynced, ?_⟩
      intro channel seq hmem
      rcases List.mem_cons.mp hmem with rfl | hmem
      · obtain ⟨seg, points, hp, hn⟩ := hack channel seq rfl
        exact ⟨seg, points, hmid (hsub hp), hn⟩
      · exact hacks channel seq hmem

/-- Opening files and answering drains and rotates. -/
theorem of_quiet (h : AckedSynced acked v) (hes : ∀ e ∈ es, e.Quiet) :
    SafeTrace num acked v es acked := by
  induction es generalizing v with
  | nil => exact .nil h
  | cons e es ih =>
    have he := hes e (by simp)
    refine .cons h (fun channel seq heq => absurd heq (he.ne_sequence channel _))
      (List.Subset.refl _) (ih ?_ fun e' he' => hes e' (by simp [he']))
    rcases he with ⟨seg, rfl⟩ | ⟨channel, r, rfl⟩
    · exact h.create seg
    · exact h

/-- Answering appends with the numbers of durable batches, or with errors. -/
theorem of_replies {α : Type} (h : AckedSynced acked v) {l : List α} {f : α → Nat}
    {g : α → WalReply} (hl : ∀ a ∈ l, ∀ seq, g a = .sequence (.ok seq) →
      ∃ seg points, (seg, (seq, points)) ∈ acked ∧ (seq, points, f a) ∈ num) :
    SafeTrace num acked v (l.map fun a => .reply (f a) (g a)) acked := by
  induction l with
  | nil => exact .nil h
  | cons a l ih =>
    refine .cons h ?_ (List.Subset.refl _) (ih fun a' ha' => hl a' (by simp [ha']))
    intro channel seq heq
    obtain ⟨rfl, hg⟩ : f a = channel ∧ g a = .sequence (.ok seq) := by simpa using heq
    exact hl a (by simp) seq hg

end SafeTrace

/-- The open segment ends on a frame boundary. -/
def OnFrameBoundary (w : WalWriter) (v : LogView) : Prop :=
  ∃ bs, (∀ b ∈ bs, Batch.Fits b) ∧ v.files[w.file]? = some (frames bs)

/-- The batch starts on a frame boundary, and its write does not fail in
silence. Nothing is asked of a batch without appends, or of one that finds an
error kept in the file: it writes nothing. -/
def WritesOnBoundary (w : WalWriter) (v : LogView) (batch : List WalMessage) (io : WriteIo) :
    Prop :=
  appends batch ≠ [] → w.lastWriteErr = false →
    OnFrameBoundary w v ∧ io.silent (batchFrames w batch) = false

section Batch

variable {acked : List (Nat × Batch)} {num : List (Nat × List DataPoint × Nat)} {w : WalWriter}
  {v : LogView} {batch : List WalMessage}

omit [Crates] in
theorem mem_numbered_points {b : Batch} :
    b ∈ numbered w.currentSeq ((appends batch).map Prod.fst) ↔
      ∃ p ∈ numbered w.currentSeq (appends batch), (p.1, p.2.1) = b := by
  rw [numbered_map, List.mem_map]

/-- A batch that is written whole and fsynced is durable before it is answered. -/
theorem safeTrace_commitEvents (lawful : Crates.LawfulProst) (h : AckedSynced acked v)
    {io : WriteIo} (has : appends batch ≠ [])
    (hwhole : io.written (batchFrames w batch) = batchFrames w batch)
    (hnum : ∀ p ∈ numbered w.currentSeq (appends batch), p ∈ num) {bs : List Batch}
    (hbs : ∀ b ∈ bs ++ numbered w.currentSeq ((appends batch).map Prod.fst), Batch.Fits b)
    (hfile : v.files[w.file]? = some (frames bs)) :
    ∃ acked', SafeTrace num acked v (commitEvents w batch io) acked' := by
  have hwrite := h.write lawful hbs hfile List.prefix_rfl
  have hfile' : (v.step (.op (.write w.file (batchFrames w batch)))).files[w.file]? =
      some (frames (bs ++ numbered w.currentSeq ((appends batch).map Prod.fst))) := by
    simp [LogView.step, WalDir.apply, hfile, frames_append, batchFrames]
  have hsync := hwrite.sync lawful hbs hfile' fun b hb => List.mem_append_right bs hb
  have hpublish := hsync.publish (w.currentSeq + (appends batch).length)
  refine ⟨acked ++ (numbered w.currentSeq ((appends batch).map Prod.fst)).map (w.file, ·), ?_⟩
  rw [commitEvents, if_neg has, hwhole]
  refine .cons h (fun _ _ heq => by cases heq) (List.Subset.refl _) ?_
  refine .cons hwrite (fun _ _ heq => by cases heq) (List.subset_append_left acked
    ((numbered w.currentSeq ((appends batch).map Prod.fst)).map (w.file, ·))) ?_
  refine .cons hsync (fun _ _ heq => by cases heq) (List.Subset.refl _) (.of_replies hpublish ?_)
  rintro p hp seq heq
  obtain rfl : p.1 = seq := by simpa using heq
  refine ⟨w.file, p.2.1, List.mem_append_right _ ?_, hnum p hp⟩
  exact List.mem_map.mpr ⟨_, mem_numbered_points.mpr ⟨p, hp, rfl⟩, rfl⟩

/-- Answering a batch with errors. -/
theorem safeTrace_failEvents (h : AckedSynced acked v) (e : IoError) (g : Gathered) :
    SafeTrace num acked v (failEvents e g) acked := by
  refine .append (.append (.of_replies h ?_) (.of_replies ?_ ?_)) (.of_replies ?_ ?_)
  · simp
  · rw [LogView.after_replies]
    exact h
  · simp
  · rw [LogView.after_append, LogView.after_replies _ _ Prod.snd, LogView.after_replies]
    exact h
  · simp

/-- One batch, whatever happens to its write and to its fsync. -/
theorem safeTrace_processBatch (lawful : Crates.LawfulProst) (h : AckedSynced acked v)
    (batch : List WalMessage) (io : BatchIo)
    (hnum : ∀ p ∈ numbered w.currentSeq (appends batch), p ∈ num)
    (hfits : ∀ p ∈ num, Batch.Fits (p.1, p.2.1))
    (hbound : WritesOnBoundary w v batch io.write) :
    ∃ acked', SafeTrace num acked v (processBatch w batch io).2 acked' := by
  have hreject : SafeTrace num acked v (rejectEvents (rotates batch).tail) acked :=
    .of_quiet h (quiet_rejectEvents _)
  have hview : v.after (rejectEvents (rotates batch).tail) = v :=
    LogView.after_replies v _ id fun _ => .paths (.error .concurrentRotate)
  have hnewFits : ∀ bs : List Batch, (∀ b ∈ bs, b.Fits) →
      ∀ b ∈ bs ++ numbered w.currentSeq ((appends batch).map Prod.fst), Batch.Fits b := by
    intro bs hbs b hb
    rcases List.mem_append.mp hb with hb | hb
    · exact hbs b hb
    · obtain ⟨p, hp, rfl⟩ := mem_numbered_points.mp hb
      exact hfits p (hnum p hp)
  by_cases hio : w.Acks batch io.write
  · obtain ⟨acked', hcommit⟩ : ∃ acked',
        SafeTrace num acked v (commitEvents w batch io.write) acked' := by
      by_cases has : appends batch = []
      · exact ⟨acked, by rw [commitEvents, if_pos has]; exact .nil h⟩
      · obtain ⟨hkept, hok⟩ := hio.resolve_left has
        obtain ⟨⟨bs, hbs, hfile⟩, hsilent⟩ := hbound has hkept
        exact safeTrace_commitEvents lawful h has (WriteIo.written_of_returnsOk hok hsilent).2 hnum
          (hnewFits bs hbs) hfile
    refine ⟨acked', ?_⟩
    rw [processBatch_ok w batch io hio, List.append_assoc]
    refine hreject.append ?_
    rw [hview]
    exact hcommit.append (.of_quiet hcommit.final (quiet_finishBatch _ _ _))
  · refine ⟨acked, ?_⟩
    rw [processBatch_failed w batch io hio, List.append_assoc]
    refine hreject.append ?_
    rw [hview, failedOps]
    cases hkept : w.lastWriteErr with
    | true => exact safeTrace_failEvents h _ _
    | false =>
      obtain ⟨⟨bs, hbs, hfile⟩, -⟩ := hbound (fun has => hio (.inl has)) hkept
      have hwrite := h.write lawful (hnewFits bs hbs) hfile
        (io.write.written_prefix (batchFrames w batch))
      exact .cons h (fun _ _ heq => by cases heq) (List.Subset.refl _)
        (safeTrace_failEvents hwrite _ _)

end Batch

/-! ## Whole runs -/

/-- Every batch of the run writes on a frame boundary. -/
def WritesOnBoundaries (maxBatch : Nat) :
    WalTask → LogView → List (List WalMessage × BatchIo) → Prop
  | _, _, [] => True
  | t, v, (arrived, io) :: rounds =>
    WritesOnBoundary t.writer v (receiveBatch maxBatch (t.queue ++ arrived)).1 io.write ∧
      WritesOnBoundaries maxBatch (t.round maxBatch arrived io).1
        (v.after (t.round maxBatch arrived io).2) rounds

theorem safeTrace_walTask (lawful : Crates.LawfulProst) {num : List (Nat × List DataPoint × Nat)}
    (hfits : ∀ p ∈ num, Batch.Fits (p.1, p.2.1)) (maxBatch : Nat)
    (rounds : List (List WalMessage × BatchIo)) {acked : List (Nat × Batch)} {t : WalTask}
    {v : LogView} (h : AckedSynced acked v)
    (hnum : ∀ p ∈ numbered t.writer.currentSeq (appends (t.queue ++ rounds.flatMap Prod.fst)),
      p ∈ num)
    (hbound : WritesOnBoundaries maxBatch t v rounds) :
    ∃ acked', SafeTrace num acked v (walTask maxBatch t rounds).2 acked' := by
  induction rounds generalizing acked t v with
  | nil => exact ⟨acked, .nil h⟩
  | cons round rounds ih =>
    obtain ⟨arrived, io⟩ := round
    obtain ⟨hfirst, hrest⟩ := hbound
    rw [List.flatMap_cons, ← List.append_assoc] at hnum
    rw [walTask]
    rcases t.round_cases maxBatch arrived io with ⟨hq, hround⟩ | ⟨batch, rest, -, hr, hq, hround⟩
    · have hqueue : t.queue = [] := by
        have := congrArg List.length hq
        rw [List.length_append, List.length_nil] at this
        exact List.eq_nil_of_length_eq_zero (by omega)
      rw [hround] at hrest ⊢
      rw [hq, List.nil_append] at hnum
      exact ih h (by rwa [hqueue, List.nil_append]) hrest
    · rw [hr] at hfirst
      rw [hround] at hrest ⊢
      rw [hq, List.append_assoc, appends_append, numbered_append] at hnum
      obtain ⟨mid, hbatch⟩ := safeTrace_processBatch lawful h batch io
        (fun p hp => hnum p (List.mem_append_left _ hp)) hfits hfirst
      obtain ⟨acked', hlater⟩ := ih hbatch.final (t := ⟨(processBatch t.writer batch io).1, rest⟩)
        (fun p hp => hnum p (List.mem_append_right _ (by
          rwa [currentSeq_processBatch] at hp))) hrest
      exact ⟨acked', hbatch.append hlater⟩

/-- **Acknowledged appends survive failed writes on frame boundaries.** The
task runs on a fresh directory; any write may stop anywhere, any fsync and
any rotation may fail. If every batch that writes starts on a segment that
ends on a frame boundary, and no write fails in silence, then after a crash
at any moment recovery replays every append that was answered with a sequence
number by then. -/
theorem acked_append_recovered (lawful : Crates.LawfulProst)
    (maxSegmentBytes resumeSeq maxBatch : Nat) (rounds : List (List WalMessage × BatchIo))
    (hfits : ∀ p ∈ numbered resumeSeq (appends (rounds.flatMap Prod.fst)),
      Batch.Fits (p.1, p.2.1))
    (hbound : WritesOnBoundaries maxBatch ⟨(WalWriter.openWal ∅ maxSegmentBytes resumeSeq).1, []⟩
      ((⟨∅, ∅, resumeSeq⟩ : LogView).after
        ((WalWriter.openWal ∅ maxSegmentBytes resumeSeq).2.map .op)) rounds) :
    let opened := WalWriter.openWal ∅ maxSegmentBytes resumeSeq
    let start := (⟨∅, ∅, resumeSeq⟩ : LogView).after (opened.2.map .op)
    let run := walTask maxBatch ⟨opened.1, []⟩ rounds
    ∀ pre post dir, run.2 = pre ++ post → (start.after pre).CrashImage dir →
      ∃ bs files torn, recover dir 0 = .ok (.ofBatches 0 bs files torn) ∧
        ∀ channel seq, .reply channel (.sequence (.ok seq)) ∈ pre → 0 < seq ∧
          ∃ points, (seq, points, channel) ∈
              numbered resumeSeq (appends (rounds.flatMap Prod.fst)) ∧
            (seq, points) ∈ bs := by
  intro opened start run pre post dir hrun hcrash
  have hempty : AckedSynced [] (⟨∅, ∅, resumeSeq⟩ : LogView) := ⟨by simp, by simp, by simp⟩
  have hstart : AckedSynced [] start := hempty.create 1
  obtain ⟨acked', htrace⟩ := safeTrace_walTask lawful hfits maxBatch rounds hstart
    (t := ⟨opened.1, []⟩) (fun p hp => hp) hbound
  rw [hrun] at htrace
  obtain ⟨mid, -, hsynced, hacks⟩ := htrace.durable_at
  obtain ⟨bs, files, torn, hrec, hmem⟩ := hsynced.recover lawful hcrash 0
  refine ⟨bs, files, torn, hrec, ?_⟩
  intro channel seq hreply
  obtain ⟨seg, points, hp, hn⟩ := hacks channel seq hreply
  exact ⟨by have := lt_of_mem_numbered hn; omega, points, hn, hmem _ hp⟩

end

/-! ## A failed write loses acknowledged appends -/

section Example

attribute [local instance] Reference.crates

/-- The writer and the files `WalWriter::open` makes of an empty directory. -/
def freshTask (maxSegmentBytes : Nat) : WalTask × LogView :=
  let opened := WalWriter.openWal ∅ maxSegmentBytes 0
  (⟨opened.1, []⟩, (⟨∅, ∅, 0⟩ : LogView).after (opened.2.map .op))

/-- Three appends; the first write stops after three bytes, and its fsync
succeeds. -/
def tornRounds : List (List WalMessage × BatchIo) :=
  [([.append [cpuPoint 5 7] 0], ⟨⟨some 3, true⟩, true, true⟩),
   ([.append [cpuPoint 6 8] 1], .ok),
   ([.append [cpuPoint 7 9] 2], .ok)]

/-- The first append is answered with `Ok` although its frame is cut, the second
one gets the error of that write, and the third one is written behind the cut
frame. Recovery replays nothing. -/
theorem torn_write_hides_ack :
    let run := walTask 8 (freshTask 1000).1 tornRounds
    .reply 0 (.sequence (.ok 1)) ∈ run.2 ∧
    .reply 1 (.sequence (.error (.io .os))) ∈ run.2 ∧
    .reply 2 (.sequence (.ok 3)) ∈ run.2 ∧
    ∃ dir, ((freshTask 1000).2.after run.2).CrashImage dir ∧
      (recover dir 0).map RecoveryResult.entriesReplayed = .ok 0 := by
  refine ⟨by decide +kernel, by decide +kernel, by decide +kernel, _,
    LogView.crashImage_files ?_, ?_⟩
  · rw [← Std.ExtTreeMap.toList_inj]
    decide +kernel
  · decide +kernel

/-- Four appends: the fsync of the first one fails; the write of the second one
fails before its first byte, and its fsync too, so that the third one finds the
error; the fourth one succeeds. -/
def failedRounds : List (List WalMessage × BatchIo) :=
  [([.append [cpuPoint 5 7] 0], ⟨⟨none, false⟩, true, true⟩),
   ([.append [cpuPoint 6 8] 1], ⟨⟨some 0, false⟩, true, true⟩),
   ([.append [cpuPoint 7 9] 2], .ok),
   ([.append [cpuPoint 8 1] 3], .ok)]

/-- The segment ends on a frame boundary throughout, and the append that is
answered with `Ok` is recovered. -/
theorem acked_append_recovered_after_failures :
    let run := walTask 8 (freshTask 1000).1 failedRounds
    ∃ bs files torn, recover ((freshTask 1000).2.after run.2).files 0 =
        .ok (.ofBatches 0 bs files torn) ∧ ∃ points, (4, points) ∈ bs := by
  have hbound : WritesOnBoundaries 8 (freshTask 1000).1 (freshTask 1000).2 failedRounds := by
    have hfits : Batch.Fits (1, [cpuPoint 5 7]) := by decide +kernel
    have hone : ∀ b ∈ [(1, [cpuPoint 5 7])], Batch.Fits b := by simpa using hfits
    refine ⟨fun _ _ => ⟨⟨[], by simp, by decide +kernel⟩, by decide +kernel⟩, fun _ _ =>
      ⟨⟨[(1, [cpuPoint 5 7])], hone, by decide +kernel⟩, by decide +kernel⟩, fun _ hkept => ?_,
      fun _ _ => ⟨⟨[(1, [cpuPoint 5 7])], hone, by decide +kernel⟩, by decide +kernel⟩, trivial⟩
    exact absurd hkept (by decide +kernel)
  intro run
  have hcrash : ((freshTask 1000).2.after run.2).CrashImage
      ((freshTask 1000).2.after run.2).files := by
    apply LogView.crashImage_files
    rw [← Std.ExtTreeMap.toList_inj]
    decide +kernel
  obtain ⟨bs, files, torn, hrec, hacks⟩ := acked_append_recovered Reference.lawful.prost 1000 0 8
    failedRounds (by decide +kernel) hbound run.2 [] _ (List.append_nil _).symm hcrash
  obtain ⟨-, points, -, hmem⟩ := hacks 3 4 (by decide +kernel)
  exact ⟨bs, files, torn, hrec, points, hmem⟩

end Example

end Micius

import Micius.Lib.TreeMap
import Micius.Wal.Frames

/-!
# Segmented logs

The abstract view of a WAL directory: numbered segments, each a list of
batches. `WalDir.Holds` says that the files are the frames of such a log.
Writing extends the last segment, rotating opens an empty one, and recovery
reads the batches back, so two directories that hold the same batches
recover the same points however the batches are split.
-/

namespace Micius

/-- A log split into numbered segments. -/
abbrev SegLog := List (Nat × List Batch)

/-- The batches of a log, oldest first. -/
def SegLog.batches (segs : SegLog) : List Batch := segs.flatMap Prod.snd

@[simp] theorem SegLog.batches_append (as bs : SegLog) :
    SegLog.batches (as ++ bs) = SegLog.batches as ++ SegLog.batches bs := by
  simp [SegLog.batches]

@[simp] theorem SegLog.batches_cons (s : Nat × List Batch) (bs : SegLog) :
    SegLog.batches (s :: bs) = s.2 ++ SegLog.batches bs := rfl

@[simp] theorem SegLog.batches_nil : SegLog.batches [] = [] := rfl

/-- Batches numbered upwards from `seq + 1`. -/
def numbered {α : Type} : Nat → List α → List (Nat × α)
  | _, [] => []
  | seq, a :: as => (seq + 1, a) :: numbered (seq + 1) as

@[simp] theorem length_numbered {α : Type} (seq : Nat) (as : List α) :
    (numbered seq as).length = as.length := by
  induction as generalizing seq with
  | nil => rfl
  | cons a as ih => simp [numbered, ih]

theorem numbered_append {α : Type} (seq : Nat) (as bs : List α) :
    numbered seq (as ++ bs) = numbered seq as ++ numbered (seq + as.length) bs := by
  induction as generalizing seq with
  | nil => simp [numbered]
  | cons a as ih =>
    have hseq : seq + 1 + as.length = seq + (a :: as).length := by
      rw [List.length_cons]
      omega
    rw [List.cons_append, numbered, numbered, ih, hseq, List.cons_append]

theorem lt_of_mem_numbered {α : Type} {seq : Nat} {as : List α} {p : Nat × α}
    (h : p ∈ numbered seq as) : seq < p.1 ∧ p.1 ≤ seq + as.length := by
  induction as generalizing seq with
  | nil => cases h
  | cons a as ih =>
    rw [List.length_cons]
    rcases List.mem_cons.mp h with rfl | h
    · exact ⟨by simp, by simp⟩
    · have := ih h
      omega

theorem numbered_map {α β : Type} (f : α → β) (seq : Nat) (as : List α) :
    numbered seq (as.map f) = (numbered seq as).map fun p => (p.1, f p.2) := by
  induction as generalizing seq with
  | nil => rfl
  | cons a as ih => simp [numbered, ih]

theorem map_snd_numbered {α : Type} (seq : Nat) (as : List α) :
    (numbered seq as).map Prod.snd = as := by
  induction as generalizing seq with
  | nil => rfl
  | cons a as ih => rw [numbered, List.map_cons, ih]

theorem mem_of_mem_numbered {α : Type} {seq : Nat} {as : List α} {p : Nat × α}
    (h : p ∈ numbered seq as) : p.2 ∈ as := by
  rw [← map_snd_numbered seq as]
  exact List.mem_map_of_mem h

theorem exists_mem_numbered {α : Type} (seq : Nat) {as : List α} {a : α} (h : a ∈ as) :
    ∃ n, (n, a) ∈ numbered seq as := by
  rw [← map_snd_numbered seq as] at h
  obtain ⟨p, hp, rfl⟩ := List.mem_map.mp h
  exact ⟨p.1, hp⟩

theorem numbered_pairwise {α : Type} (seq : Nat) (as : List α) :
    (numbered seq as).Pairwise fun p q => p.1 < q.1 := by
  induction as generalizing seq with
  | nil => exact .nil
  | cons a as ih => exact .cons (fun p hp => (lt_of_mem_numbered hp).1) (ih (seq + 1))

/-- Writing nothing to a segment. -/
theorem WalDir.apply_write_nil {dir : WalDir} {seg : Nat} (h : seg ∈ dir) :
    dir.apply (.write seg []) = dir := by
  obtain ⟨old, hold⟩ := Option.isSome_iff_exists.mp (Std.ExtTreeMap.mem_iff_isSome_getElem?.mp h)
  show dir.insert seg ((dir[seg]?).getD [] ++ []) = dir
  ext seg' : 1
  rw [TreeMap.getElem?_insert_eq]
  split
  · next hseg => rw [hseg, hold, Option.getD_some, List.append_nil]
  · rfl

/-- Deleting segment files. -/
theorem WalDir.getElem?_removes (dir : WalDir) (segs : List Nat) (seg : Nat) :
    (dir.run (segs.map .remove))[seg]? = if seg ∈ segs then none else dir[seg]? := by
  induction segs generalizing dir with
  | nil => rw [List.map_nil, WalDir.run_nil, if_neg List.not_mem_nil]
  | cons s segs ih =>
    rw [List.map_cons, WalDir.run_cons, ih, WalDir.apply, TreeMap.getElem?_erase_eq]
    by_cases hseg : seg ∈ segs
    · rw [if_pos hseg, if_pos (List.mem_cons_of_mem s hseg)]
    · rw [if_neg hseg]
      by_cases heq : seg = s
      · rw [if_pos heq, if_pos (List.mem_cons.mpr (.inl heq))]
      · rw [if_neg heq, if_neg fun hmem => (List.mem_cons.mp hmem).elim heq hseg]

/-- A number is used once. -/
theorem eq_of_mem_numbered {α : Type} {seq : Nat} {as : List α} {p q : Nat × α}
    (hp : p ∈ numbered seq as) (hq : q ∈ numbered seq as) (h : p.1 = q.1) : p = q := by
  have hnodup : ((numbered seq as).map Prod.fst).Nodup :=
    List.pairwise_map.mpr ((numbered_pairwise seq as).imp Nat.ne_of_lt)
  exact List.inj_on_of_nodup_map hnodup hp hq h

variable [Crates]

/-! ## Segment files and their recovery -/

/-- A segment file after a crash: whole frames, then nothing or a piece of
one more frame. -/
structure SegFile where
  batches : List Batch
  tail : Bytes
  fits : ∀ b ∈ batches, b.Fits
  torn : tail = [] ∨ TornTail tail

/-- The contents of the file. -/
def SegFile.bytes (f : SegFile) : Bytes := frames f.batches ++ f.tail

/-- The files of a directory parse to their batches. -/
theorem parseFiles_segFiles (lawful : Crates.LawfulProst) (fs : List SegFile) :
    parseFiles (fs.map SegFile.bytes) =
      .ok (fs.map fun f => (f.batches.map Batch.entry, decide (8 ≤ f.tail.length))) := by
  induction fs with
  | nil => rfl
  | cons f fs ih =>
    have hf : parseSegment f.bytes (f.bytes.length + 1) 0 =
        .ok (f.batches.map Batch.entry, decide (8 ≤ f.tail.length)) :=
      parseSegment_file lawful f.fits f.torn
    rw [List.map_cons, parseFiles, hf, ih]
    rfl

/-- The result of recovering the given batches above a watermark. -/
def RecoveryResult.ofBatches (w : Nat) (bs : List Batch) (files : Nat) (torn : Bool) :
    RecoveryResult :=
  let kept := bs.filter fun b => w < b.1
  { points := kept.flatMap Prod.snd
    lastSequence := (kept.map Prod.fst).foldl max 0
    segmentsReplayed := files
    entriesReplayed := kept.length
    tornWriteDetected := torn }

/-- **What recovery returns**: the batches of the whole frames, filtered by
the watermark. -/
theorem recover_segFiles (lawful : Crates.LawfulProst) {dir : WalDir} (w : Nat) (fs : List SegFile)
    (hdir : dir.files = fs.map SegFile.bytes) :
    recover dir w = .ok (.ofBatches w (fs.flatMap SegFile.batches) fs.length
      (fs.any fun f => 8 ≤ f.tail.length)) := by
  have habove : RecoveryResult.above w
      ((fs.map fun f => (f.batches.map Batch.entry, decide (8 ≤ f.tail.length))).flatMap
        Prod.fst) = ((fs.flatMap SegFile.batches).filter fun b => w < b.1).map Batch.entry := by
    rw [List.flatMap_map, ← List.map_flatMap, above_map_entry]
  rw [recover_eq, hdir, parseFiles_segFiles lawful, Except.map, RecoveryResult.ofParsed, habove]
  simp [RecoveryResult.ofBatches, List.flatMap_map, Function.comp_def]

/-- Recovery of a directory whose files are known one by one. -/
theorem recover_files (lawful : Crates.LawfulProst) {dir : WalDir} (file : Nat → SegFile)
    (hfile : ∀ (seg : Nat) (bytes : Bytes), dir[seg]? = some bytes → bytes = (file seg).bytes)
    (w : Nat) : ∃ r, recover dir w = .ok r ∧
      r.lastSequence = (((dir.toList.flatMap fun e => (file e.1).batches).filter fun b =>
        w < b.1).map Prod.fst).foldl max 0 ∧
      ∀ p, p ∈ r.points ↔ ∃ seg ∈ dir, ∃ b ∈ (file seg).batches, w < b.1 ∧ p ∈ b.2 := by
  have hdir : dir.files = (dir.toList.map fun e => file e.1).map SegFile.bytes := by
    rw [WalDir.files, List.map_map]
    refine List.map_congr_left fun e he => ?_
    exact hfile e.1 e.2 (Std.ExtTreeMap.mem_toList_iff_getElem?_eq_some.mp he)
  have hrecover := recover_segFiles lawful w _ hdir
  rw [List.flatMap_map] at hrecover
  refine ⟨_, hrecover, rfl, fun p => ?_⟩
  show p ∈ (List.filter _ _).flatMap Prod.snd ↔ _
  simp only [List.mem_flatMap, List.mem_filter, decide_eq_true_eq]
  constructor
  · rintro ⟨b, ⟨⟨e, he, hb⟩, hw⟩, hp⟩
    refine ⟨e.1, ?_, b, hb, hw, hp⟩
    rw [Std.ExtTreeMap.mem_iff_isSome_getElem?,
      Std.ExtTreeMap.mem_toList_iff_getElem?_eq_some.mp he]
    rfl
  · rintro ⟨seg, hseg, b, hb, hw, hp⟩
    obtain ⟨bytes, hget⟩ := Option.isSome_iff_exists.mp
      (Std.ExtTreeMap.mem_iff_isSome_getElem?.mp hseg)
    exact ⟨b, ⟨⟨(seg, bytes), Std.ExtTreeMap.mem_toList_iff_getElem?_eq_some.mpr hget, hb⟩, hw⟩, hp⟩

/-! ## Cutting a file -/

/-- The batches of a file whose frames lie entirely in its first `cut` bytes. -/
def framesBefore : Nat → List Batch → List Batch
  | _, [] => []
  | cut, b :: bs =>
    if b.frame.length ≤ cut then b :: framesBefore (cut - b.frame.length) bs else []

theorem framesBefore_sublist (cut : Nat) (bs : List Batch) :
    (framesBefore cut bs).Sublist bs := by
  induction bs generalizing cut with
  | nil => exact List.Sublist.refl _
  | cons b bs ih =>
    rw [framesBefore]
    split
    · exact (ih _).cons_cons b
    · exact List.nil_sublist _

/-- Cutting a run of frames leaves the whole frames and a torn tail. -/
theorem take_frames {bs : List Batch} (hbs : ∀ b ∈ bs, b.Fits) (cut : Nat) :
    ∃ tail, (frames bs).take cut = frames (framesBefore cut bs) ++ tail ∧
      (tail = [] ∨ TornTail tail) := by
  induction bs generalizing cut with
  | nil => exact ⟨[], by simp [framesBefore], .inl rfl⟩
  | cons b bs ih =>
    rw [frames_cons, framesBefore]
    by_cases h : b.frame.length ≤ cut
    · obtain ⟨tail, htake, htail⟩ :=
        ih (fun b' hb' => hbs b' (by simp [hb'])) (cut - b.frame.length)
      refine ⟨tail, ?_, htail⟩
      rw [if_pos h, List.take_append, List.take_of_length_le h, htake, frames_cons,
        List.append_assoc]
    · have hlt : cut < b.frame.length := by omega
      refine ⟨b.frame.take cut, ?_, .inr ⟨b, hbs b (by simp), List.take_prefix _ _, ?_⟩⟩
      · rw [if_neg h, List.take_append_of_le_length (by omega), frames_nil, List.nil_append]
      · rw [List.length_take]
        omega

/-- Whole frames that fit before the cut are kept. -/
theorem prefix_framesBefore {ds bs : List Batch} (hds : ds <+: bs) {cut : Nat}
    (hcut : (frames ds).length ≤ cut) : ds <+: framesBefore cut bs := by
  induction bs generalizing ds cut with
  | nil => exact List.prefix_nil.mp hds ▸ List.nil_prefix
  | cons b bs ih =>
    cases ds with
    | nil => exact List.nil_prefix
    | cons d ds =>
      obtain ⟨rfl, hrest⟩ := List.cons_prefix_cons.mp hds
      rw [frames_cons, List.length_append] at hcut
      rw [framesBefore, if_pos (by omega)]
      exact List.cons_prefix_cons.mpr ⟨rfl, ih hrest (by omega)⟩

theorem TornTail.shorten {tail tail' : Bytes} (h : TornTail tail) (hp : tail' <+: tail) :
    TornTail tail' := by
  obtain ⟨b, hb, hpre, hlt⟩ := h
  exact ⟨b, hb, hp.trans hpre, Nat.lt_of_le_of_lt hp.length_le hlt⟩

/-- A prefix of a segment file is a segment file, and it keeps the whole
frames it covers. -/
theorem SegFile.shorten (f : SegFile) {bytes : Bytes} (h : bytes <+: f.bytes) :
    ∃ g : SegFile, g.bytes = bytes ∧
      ∀ ds, ds <+: f.batches → frames ds <+: bytes → ds <+: g.batches := by
  obtain ⟨cut, hcut⟩ : ∃ cut, bytes = f.bytes.take cut :=
    ⟨bytes.length, (List.prefix_iff_eq_take.mp h)⟩
  by_cases hle : cut ≤ (frames f.batches).length
  · obtain ⟨tail, htake, htail⟩ := take_frames f.fits cut
    refine ⟨⟨framesBefore cut f.batches, tail, ?_, htail⟩, ?_, ?_⟩
    · exact fun b hb => f.fits b ((framesBefore_sublist cut f.batches).subset hb)
    · rw [hcut, SegFile.bytes, SegFile.bytes, List.take_append_of_le_length hle, htake]
    · intro ds hds hpre
      apply prefix_framesBefore hds
      have := hpre.length_le
      rw [hcut, List.length_take] at this
      omega
  · have htail : f.tail.take (cut - (frames f.batches).length) <+: f.tail := List.take_prefix _ _
    refine ⟨⟨f.batches, f.tail.take (cut - (frames f.batches).length), f.fits, ?_⟩, ?_, ?_⟩
    · rcases f.torn with hnil | htorn
      · exact .inl (by rw [hnil, List.take_nil])
      · exact .inr (htorn.shorten htail)
    · have hall : (frames f.batches).take cut = frames f.batches :=
        List.take_of_length_le (by omega)
      rw [hcut, SegFile.bytes, SegFile.bytes, List.take_append, hall]
    · exact fun ds hds _ => hds

/-- The batches of a file that ends on a frame boundary. -/
theorem SegFile.eq_of_frames (lawful : Crates.LawfulProst) (f : SegFile) {bs : List Batch}
    (hbs : ∀ b ∈ bs, b.Fits) (h : f.bytes = frames bs) : f.batches = bs ∧ f.tail = [] := by
  have hf := parseSegment_file lawful f.fits f.torn
  have hg := parseSegment_file lawful hbs (.inl rfl : ([] : Bytes) = [] ∨ TornTail [])
  rw [List.append_nil] at hg
  rw [← SegFile.bytes, h, hg] at hf
  have hentries : bs.map Batch.entry = f.batches.map Batch.entry := by
    exact congrArg Prod.fst (Except.ok.inj hf)
  have hbatches : f.batches = bs := by
    have hinv : ∀ l : List Batch, (l.map Batch.entry).map (fun e =>
        (e.sequence, e.points.map WalDataPoint.toDataPoint)) = l := by
      intro l
      rw [List.map_map]
      exact List.map_id'' (fun b => by simp) l
    rw [← hinv bs, hentries, hinv]
  refine ⟨hbatches, ?_⟩
  rw [SegFile.bytes, hbatches] at h
  exact List.append_right_eq_self.mp h

/-- Files that are segment files one by one are so as a list. -/
theorem exists_segFiles (P : Nat → SegFile → Prop) (l : List (Nat × Bytes))
    (h : ∀ p ∈ l, ∃ g : SegFile, g.bytes = p.2 ∧ P p.1 g) :
    ∃ fs : List SegFile, l.map Prod.snd = fs.map SegFile.bytes ∧
      ∀ p ∈ l, ∃ g ∈ fs, P p.1 g := by
  induction l with
  | nil => exact ⟨[], rfl, by simp⟩
  | cons p l ih =>
    obtain ⟨g, hg, hP⟩ := h p (by simp)
    obtain ⟨fs, hfs, hall⟩ := ih fun p' hp' => h p' (by simp [hp'])
    refine ⟨g :: fs, by simp [hg, hfs], ?_⟩
    intro p' hp'
    rcases List.mem_cons.mp hp' with rfl | hp'
    · exact ⟨g, by simp, hP⟩
    · obtain ⟨g', hg', hP'⟩ := hall p' hp'
      exact ⟨g', by simp [hg'], hP'⟩

/-! ## Directories of whole frames -/

/-- The files of `dir` are the frames of the segments of `segs`. -/
def WalDir.Holds (dir : WalDir) (segs : SegLog) : Prop :=
  dir.toList = segs.map fun s => (s.1, frames s.2)

namespace WalDir.Holds

variable {dir : WalDir} {init : SegLog} {seg : Nat} {bs : List Batch}

theorem toList_snoc (h : dir.Holds (init ++ [(seg, bs)])) :
    dir.toList = (init.map fun s => (s.1, frames s.2)) ++ [(seg, frames bs)] := by
  rw [h, List.map_append]
  rfl

/-- Writing frames to the last segment. -/
theorem write (h : dir.Holds (init ++ [(seg, bs)])) (new : List Batch) :
    (dir.apply (.write seg (frames new))).Holds (init ++ [(seg, bs ++ new)]) := by
  have hget : dir[seg]? = some (frames bs) := by
    rw [← Std.ExtTreeMap.mem_toList_iff_getElem?_eq_some, h.toList_snoc]
    simp
  unfold WalDir.Holds
  rw [WalDir.apply, hget, Option.getD_some, ← frames_append,
    TreeMap.toList_insert_last h.toList_snoc, List.map_append]
  rfl

/-- Opening the segment after the last one. -/
theorem create (h : dir.Holds (init ++ [(seg, bs)])) :
    (dir.apply (.create (seg + 1))).Holds (init ++ [(seg, bs), (seg + 1, [])]) := by
  have hlt : ∀ kv ∈ dir.toList, compare kv.1 (seg + 1) = .lt := by
    intro kv hkv
    rw [h.toList_snoc, List.mem_append] at hkv
    rcases hkv with hkv | hkv
    · have := TreeMap.lt_of_toList_snoc h.toList_snoc kv hkv
      rw [Nat.compare_eq_lt] at this ⊢
      omega
    · rw [List.mem_singleton.mp hkv, Nat.compare_eq_lt]
      exact Nat.lt_succ_self seg
  have hnot : seg + 1 ∉ dir := by
    intro hmem
    obtain ⟨v, hv⟩ := Option.isSome_iff_exists.mp (Std.ExtTreeMap.mem_iff_isSome_getElem?.mp hmem)
    have := hlt _ (Std.ExtTreeMap.mem_toList_iff_getElem?_eq_some.mpr hv)
    simp at this
  unfold WalDir.Holds
  rw [WalDir.apply, if_neg hnot, TreeMap.toList_insert_snoc [] hlt, h.toList_snoc]
  simp

/-- The bytes of all files, in order. -/
theorem flatten_files {segs : SegLog} (h : dir.Holds segs) :
    dir.files.flatten = frames segs.batches := by
  rw [WalDir.files, h, List.map_map, frames, SegLog.batches, List.flatMap_assoc, List.flatMap_def]
  rfl

/-- Recovery of a directory of whole frames. -/
theorem recover (lawful : Crates.LawfulProst) {segs : SegLog} (h : dir.Holds segs)
    (hfits : ∀ b ∈ segs.batches, b.Fits) (w : Nat) :
    recover dir w = .ok (.ofBatches w segs.batches segs.length false) := by
  have hseg : ∀ s ∈ segs, ∀ b ∈ s.2, b.Fits :=
    fun s hs b hb => hfits b (List.mem_flatMap.mpr ⟨s, hs, hb⟩)
  let fs : List SegFile := segs.attach.map fun s => ⟨s.1.2, [], hseg s.1 s.2, .inl rfl⟩
  have hdir : dir.files = fs.map SegFile.bytes := by
    rw [WalDir.files, h, List.map_map, List.map_map]
    simp [Function.comp_def, SegFile.bytes, List.map_attach_eq_pmap]
  have hbatches : fs.flatMap SegFile.batches = segs.batches := by
    rw [List.flatMap_def, List.map_map]
    exact congrArg List.flatten (List.attach_map_val (f := Prod.snd))
  have htorn : (fs.any fun f => 8 ≤ f.tail.length) = false := by simp [fs]
  rw [recover_segFiles lawful w fs hdir, hbatches, htorn]
  simp [fs]

end WalDir.Holds

end Micius

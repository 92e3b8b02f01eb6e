import Micius.Reference.Instance
import Micius.Wal.Segments

/-!
# Recovery of a truncated log

A log split over segment files at frame boundaries, with the last file cut
at an arbitrary byte. `recover` returns the batches above the watermark
whose frames lie entirely before the cut.
-/

namespace Micius

section

variable [Crates]

/-- The last of a list of files, cut to its first `cut` bytes. -/
def truncateLast (cut : Nat) : List Bytes → List Bytes
  | [] => []
  | [file] => [file.take cut]
  | file :: next :: files => file :: truncateLast cut (next :: files)

/-- The batches that remain whole when the last segment is cut. -/
def keptSegments (cut : Nat) : List (List Batch) → List (List Batch)
  | [] => []
  | [seg] => [framesBefore cut seg]
  | seg :: next :: segs => seg :: keptSegments cut (next :: segs)

theorem length_keptSegments (cut : Nat) (segs : List (List Batch)) :
    (keptSegments cut segs).length = segs.length := by
  match segs with
  | [] => rfl
  | [seg] => rfl
  | seg :: next :: segs => simp [keptSegments, length_keptSegments cut (next :: segs)]

/-- The files of a truncated log are segment files of the kept batches. -/
theorem truncateLast_segFiles (cut : Nat) (segs : List (List Batch))
    (hfits : ∀ b ∈ segs.flatten, b.Fits) :
    ∃ fs : List SegFile, truncateLast cut (segs.map frames) = fs.map SegFile.bytes ∧
      fs.map SegFile.batches = keptSegments cut segs := by
  match segs with
  | [] => exact ⟨[], rfl, rfl⟩
  | [seg] =>
    have hseg : ∀ b ∈ seg, b.Fits := fun b hb => hfits b (by simpa using hb)
    obtain ⟨tail, htake, htail⟩ := take_frames hseg cut
    refine ⟨[⟨framesBefore cut seg, tail, ?_, htail⟩], ?_, rfl⟩
    · exact fun b hb => hseg b ((framesBefore_sublist cut seg).subset hb)
    · simp [truncateLast, SegFile.bytes, htake]
  | seg :: next :: segs =>
    have hseg : ∀ b ∈ seg, b.Fits := fun b hb => hfits b (by simp [hb])
    obtain ⟨fs, hbytes, hbatches⟩ := truncateLast_segFiles cut (next :: segs)
      (fun b hb => hfits b (by rw [List.flatten_cons]; exact List.mem_append_right _ hb))
    refine ⟨⟨seg, [], hseg, .inl rfl⟩ :: fs, ?_, ?_⟩
    · rw [List.map_cons] at hbytes
      simp [truncateLast, SegFile.bytes, hbytes]
    · simp [keptSegments, hbatches]

/-- **Recovery inverts writing up to the torn tail.** The files of `dir`
hold the frames of a log split into segments in any way, the last file cut
at any byte. `recover` returns the points of the batches above the watermark
whose frame lies entirely before the cut, in order, with their number, their
greatest sequence and the number of files. The sequence numbers need not be
increasing. -/
theorem recover_truncated (lawful : Crates.LawfulProst) (segs : List (List Batch)) (cut w : Nat)
    (dir : WalDir)
    (hfits : ∀ b ∈ segs.flatten, Batch.Fits b)
    (hdir : dir.files = truncateLast cut (segs.map frames)) :
    ∃ r, recover dir w = .ok r ∧
      let kept := (keptSegments cut segs).flatten.filter fun b => w < b.1
      r.points = kept.flatMap Prod.snd ∧
      r.entriesReplayed = kept.length ∧
      (kept = [] → r.lastSequence = 0) ∧
      (kept ≠ [] → r.lastSequence ∈ kept.map Prod.fst) ∧
      (∀ b ∈ kept, b.1 ≤ r.lastSequence) ∧
      r.segmentsReplayed = segs.length := by
  obtain ⟨fs, hbytes, hbatches⟩ := truncateLast_segFiles cut segs hfits
  have hlog : fs.flatMap SegFile.batches = (keptSegments cut segs).flatten := by
    rw [List.flatMap_def, hbatches]
  have hlen : fs.length = segs.length := by
    rw [← length_keptSegments cut segs, ← hbatches, List.length_map]
  refine ⟨_, recover_segFiles lawful w fs (by rw [hdir, hbytes]), ?_⟩
  rw [hlog]
  refine ⟨rfl, rfl, ?_, ?_, ?_, hlen⟩
  · intro hnil
    simp [RecoveryResult.ofBatches, hnil]
  · intro hne
    apply foldl_max_mem
    obtain ⟨b, hb⟩ := List.exists_mem_of_ne_nil _ hne
    have hle : b.1 ≤ (((keptSegments cut segs).flatten.filter fun b => w < b.1).map
        Prod.fst).foldl max 0 := le_foldl_max (.inl (List.mem_map_of_mem hb))
    have hw : w < b.1 := by simpa using List.of_mem_filter hb
    omega
  · intro b hb
    exact le_foldl_max (.inl (List.mem_map_of_mem hb))

end

/-! ## A cut log -/

section Example

attribute [local instance] Reference.crates

/-- Two segments of one batch each, the second cut after ten bytes. -/
theorem recover_truncated_two_segments :
    ∃ r, recover (((∅ : WalDir).insert 1 (encodeFrame 1 [cpuPoint 5 7])).insert 2
        ((encodeFrame 2 [cpuPoint 6 8]).take 10)) 0 = .ok r ∧
      r.points = [cpuPoint 5 7] ∧ r.entriesReplayed = 1 ∧ r.lastSequence = 1 ∧
      r.segmentsReplayed = 2 := by
  have hkept : (keptSegments 10 [[(1, [cpuPoint 5 7])], [(2, [cpuPoint 6 8])]]).flatten.filter
      (fun b => 0 < b.1) = [(1, [cpuPoint 5 7])] := by
    have hlen : ¬ (Batch.frame (2, [cpuPoint 6 8])).length ≤ 10 := by decide +kernel
    simp [keptSegments, framesBefore, hlen]
  obtain ⟨r, hr, hpoints, hcount, -, hmem, -, hfiles⟩ := recover_truncated Reference.lawful.prost
    [[(1, [cpuPoint 5 7])], [(2, [cpuPoint 6 8])]] 10 0
    (((∅ : WalDir).insert 1 (encodeFrame 1 [cpuPoint 5 7])).insert 2
      ((encodeFrame 2 [cpuPoint 6 8]).take 10))
    (by decide +kernel) (by decide +kernel)
  rw [hkept] at hpoints hcount hmem
  exact ⟨r, hr, hpoints, hcount, by simpa using hmem (by simp), hfiles⟩

end Example

end Micius

import Micius.Reference.Instance
import Micius.Wal.Segments

/-!
# A damaged frame

A log split over segment files, with the bytes of one frame altered so that the
frame loop rejects it. The loop stops there for this file only: `recover` goes
on with the next file, so the batches behind the damage in the same segment are
lost and those of the later segments are replayed.
-/

namespace Micius

open LittleEndian

section

variable [Crates]

/-- The rest of a file that starts with a frame the loop rejects: the stored
length runs past the end of the file, or the stored checksum is not that of the
payload. -/
def Damaged (rest : Bytes) : Prop :=
  rest.length < fromLe (slice rest 0 4) + 8 ∨
    fromLe (slice rest 4 4) ≠ (Crates.crc32 (slice rest 8 (fromLe (slice rest 0 4)))).toNat

instance (rest : Bytes) : Decidable (Damaged rest) := instDecidableOr

/-- The loop stops at a damaged frame and sets the torn flag. -/
theorem parseSegment_damaged {rest : Bytes} (h8 : 8 ≤ rest.length) (h : Damaged rest) (pre : Bytes)
    (fuel : Nat) : parseSegment (pre ++ rest) (fuel + 1) pre.length = .ok ([], true) := by
  have hlength : slice (pre ++ rest) pre.length 4 = slice rest 0 4 := slice_append_right pre rest 0 4
  rw [parseSegment, List.length_append, if_neg (by omega)]
  simp only [hlength, slice_append_right]
  rcases h with h | h
  · rw [if_pos (by omega)]
  · rw [if_pos h]
    split <;> rfl

/-- Files that parse to batches numbered from 1 on are replayed as they are. -/
theorem points_of_parsed_files {dir : WalDir} {log : List (Bytes × List Batch)}
    (hdir : dir.files = log.map Prod.fst) (hpos : ∀ f ∈ log, ∀ b ∈ f.2, 0 < b.1)
    (hparse : ∀ f ∈ log, ∃ torn,
      parseSegment f.1 (f.1.length + 1) 0 = .ok (f.2.map Batch.entry, torn)) :
    ∃ r, recover dir 0 = .ok r ∧ r.points = (log.flatMap Prod.snd).flatMap Prod.snd := by
  obtain ⟨ps, hps⟩ : ∃ ps, parseFiles dir.files = .ok ps := by
    refine parseFiles_ok_iff.mpr fun buf hbuf => ?_
    rw [hdir] at hbuf
    obtain ⟨f, hf, rfl⟩ := List.mem_map.mp hbuf
    obtain ⟨torn, htorn⟩ := hparse f hf
    exact ⟨_, htorn⟩
  have hrecover : recover dir 0 = .ok (.ofParsed 0 ps) := recover_ok_iff.mpr ⟨ps, hps, rfl⟩
  refine ⟨_, hrecover, ?_⟩
  rw [points_recover hrecover, hdir, List.flatMap_map, List.flatMap_assoc]
  refine List.flatMap_congr fun f hf => ?_
  obtain ⟨torn, htorn⟩ := hparse f hf
  have habove : RecoveryResult.above 0 (f.2.map Batch.entry) = f.2.map Batch.entry := by
    rw [above_map_entry, List.filter_eq_self.mpr fun b hb => decide_eq_true (hpos f hf b hb)]
  simp only [segmentPoints, segmentEntries, htorn, habove, List.flatMap_map, Batch.entry_points]

/-- **Replay past a damaged frame.** `recover` returns the points of the
batches before the damaged frame and those of all later segments. That is the
points before the damaged frame exactly if the later segments hold none. -/
theorem replay_stops_at_damage_iff (lawful : Crates.LawfulProst) (before after : List (List Batch))
    (seg lost : List Batch) (b : Batch) (bytes : Bytes) (dir : WalDir)
    (hfits : ∀ c ∈ before.flatten ++ seg ++ b :: lost ++ after.flatten, c.Fits)
    (hpos : ∀ c ∈ before.flatten ++ seg ++ b :: lost ++ after.flatten, 0 < c.1)
    (hlen : bytes.length = b.frame.length) (hdamaged : Damaged (bytes ++ frames lost))
    (hdir : dir.files = before.map frames ++ (frames seg ++ (bytes ++ frames lost)) ::
      after.map frames) :
    ∃ r, recover dir 0 = .ok r ∧
      r.points = (before.flatten ++ seg ++ after.flatten).flatMap Prod.snd ∧
      (r.points = (before.flatten ++ seg).flatMap Prod.snd ↔ ∀ c ∈ after.flatten, c.2 = []) := by
  -- the batches each file parses to
  let whole := fun bs : List Batch => (frames bs, bs)
  let log := before.map whole ++ (frames seg ++ (bytes ++ frames lost), seg) :: after.map whole
  have hmem : ∀ f ∈ log, ∀ c ∈ f.2, c ∈ before.flatten ++ seg ++ b :: lost ++ after.flatten := by
    intro f hf c hc
    rcases List.mem_append.mp hf with hf | hf
    · obtain ⟨bs, hbs, rfl⟩ := List.mem_map.mp hf
      simp [List.mem_flatten_of_mem hbs hc]
    · rcases List.mem_cons.mp hf with rfl | hf
      · simp [show c ∈ seg from hc]
      · obtain ⟨bs, hbs, rfl⟩ := List.mem_map.mp hf
        simp [List.mem_flatten_of_mem hbs hc]
  have hwhole : ∀ bs : List Batch, (∀ c ∈ bs, c.Fits) →
      parseSegment (frames bs) ((frames bs).length + 1) 0 = .ok (bs.map Batch.entry, false) := by
    intro bs hbs
    have hparse := parseSegment_file lawful hbs (.inl rfl : ([] : Bytes) = [] ∨ TornTail [])
    rwa [List.append_nil] at hparse
  have hparse : ∀ f ∈ log, ∃ torn,
      parseSegment f.1 (f.1.length + 1) 0 = .ok (f.2.map Batch.entry, torn) := by
    intro f hf
    have hbs : ∀ c ∈ f.2, c.Fits := fun c hc => hfits c (hmem f hf c hc)
    rcases List.mem_append.mp hf with hf | hf
    · obtain ⟨bs, -, rfl⟩ := List.mem_map.mp hf
      exact ⟨false, hwhole bs hbs⟩
    · rcases List.mem_cons.mp hf with rfl | hf
      · have h8 : 8 ≤ (bytes ++ frames lost).length := by
          have := b.length_frame
          rw [List.length_append]
          omega
        exact ⟨true, parseSegment_frames_rest lawful hbs
          (parseSegment_damaged h8 hdamaged (frames seg))⟩
      · obtain ⟨bs, -, rfl⟩ := List.mem_map.mp hf
        exact ⟨false, hwhole bs hbs⟩
  obtain ⟨r, hr, hpoints⟩ := points_of_parsed_files
    (show dir.files = log.map Prod.fst by simp [hdir, log, whole, Function.comp_def])
    (fun f hf c hc => hpos c (hmem f hf c hc)) hparse
  have hlog : log.flatMap Prod.snd = before.flatten ++ seg ++ after.flatten := by
    simp [log, whole, List.flatMap_map, List.flatMap_id']
  rw [hlog] at hpoints
  refine ⟨r, hr, hpoints, ?_⟩
  rw [hpoints, List.flatMap_append, List.append_right_eq_self,
    List.flatMap_eq_nil_iff]

end

/-! ## One of two frames overwritten -/

section Example

attribute [local instance] Reference.crates

/-- The frame of a batch, every byte overwritten with `0xff`. -/
def overwritten (b : Batch) : Bytes := List.replicate b.frame.length 255

/-- One segment of two batches, the second one overwritten. -/
theorem replay_stops_at_damage_last : ∃ r,
    recover ((∅ : WalDir).insert 1
      (frames [(1, [cpuPoint 5 7])] ++ overwritten (2, [cpuPoint 6 8]))) 0 = .ok r ∧
    r.points = [cpuPoint 5 7] := by
  obtain ⟨r, hr, -, hiff⟩ := replay_stops_at_damage_iff Reference.lawful.prost [] [] [(1, [cpuPoint 5 7])]
    [] (2, [cpuPoint 6 8]) (overwritten (2, [cpuPoint 6 8]))
    ((∅ : WalDir).insert 1 (frames [(1, [cpuPoint 5 7])] ++ overwritten (2, [cpuPoint 6 8])))
    (by decide +kernel) (by decide) (by decide +kernel) (by decide +kernel) (by decide +kernel)
  exact ⟨r, hr, hiff.mpr (by simp)⟩

/-- Two segments of one batch each, the first one overwritten: nothing comes
before the damage, and the batch behind it is replayed. -/
theorem replay_goes_on_after_damage :
    Damaged (overwritten (1, [cpuPoint 5 7])) ∧
    (recover (((∅ : WalDir).insert 1 (overwritten (1, [cpuPoint 5 7]))).insert 2
      (frames [(2, [cpuPoint 6 8])])) 0).map RecoveryResult.points = .ok [cpuPoint 6 8] := by
  decide +kernel

end Example

end Micius

import Micius.Wal.Damage

/-!
# Damaged log files

Each frame of the log carries the CRC-32 of its payload. Frames whose stored
checksum is altered, or whose payload is altered in a burst of at most four
bytes, are recognised by the frame loop, in any number and in any segments.
Recovery then returns batches as they were appended: of every segment those
before its first damaged frame.
-/

namespace Micius

open LittleEndian

section

variable [Crates]

/-- What damage can make of the frame of a batch: another stored checksum, or a
payload altered in one burst of at most four bytes. -/
inductive Batch.DamagedTo (b : Batch) : Bytes → Prop
  | checksum (stored : Bytes) (hlen : stored.length = 4)
      (hne : stored ≠ toLe 4 (Crates.crc32 (payloadOf b.1 b.2)).toNat) :
      b.DamagedTo (toLe 4 (payloadOf b.1 b.2).length ++ (stored ++ payloadOf b.1 b.2))
  | payload (bytes : Bytes) (hburst : Crc.Burst 4 (payloadOf b.1 b.2) bytes) :
      b.DamagedTo (toLe 4 (payloadOf b.1 b.2).length ++
        (toLe 4 (Crates.crc32 (payloadOf b.1 b.2)).toNat ++ bytes))

/-- A frame whose length field is intact is rejected if its checksum is not
that of its payload. -/
theorem damaged_of_checksum {stored payload : Bytes} (hlen : stored.length = 4)
    (hfits : payload.length < 2 ^ 32) (hne : fromLe stored ≠ (Crates.crc32 payload).toNat)
    (after : Bytes) :
    Damaged (toLe 4 payload.length ++ (stored ++ payload) ++ after) := by
  have hlength : fromLe (slice (toLe 4 payload.length ++ (stored ++ payload) ++ after) 0 4) =
      payload.length := by
    have hfield : slice (toLe 4 payload.length ++ (stored ++ payload) ++ after) 0 4 =
        toLe 4 payload.length := by
      rw [List.append_assoc]
      exact @slice_append [] _ _ _ _ rfl (length_toLe ..).symm
    rw [hfield, fromLe_toLe_of_lt (show payload.length < 256 ^ 4 from hfits)]
  refine .inr ?_
  rw [hlength]
  have hstored : slice (toLe 4 payload.length ++ (stored ++ payload) ++ after) 4 4 = stored := by
    rw [List.append_assoc, List.append_assoc]
    exact slice_append (by simp) hlen.symm
  have hpayload : slice (toLe 4 payload.length ++ (stored ++ payload) ++ after) 8
      payload.length = payload := by
    rw [← List.append_assoc, List.append_assoc]
    exact slice_append (by simp [hlen]) rfl
  rwa [hstored, hpayload]

/-- The frame loop recognises a damaged frame. -/
theorem Batch.DamagedTo.damaged (hcrc : Crates.ComputesCrc32) {b : Batch} (hfits : b.Fits)
    {bytes : Bytes} (h : b.DamagedTo bytes) (after : Bytes) : Damaged (bytes ++ after) := by
  cases h with
  | checksum stored hlen hne =>
    refine damaged_of_checksum hlen hfits.length (fun heq => hne ?_) after
    exact fromLe_injective (by simp [hlen]) (by rw [heq, fromLe_toLe_u32])
  | payload payload hburst =>
    rw [← hburst.length]
    refine damaged_of_checksum (length_toLe ..) (by rw [hburst.length]; exact hfits.length) ?_ after
    rw [fromLe_toLe_u32]
    exact fun heq => hcrc.burst hburst (UInt32.toNat_inj.mp heq)

theorem Batch.DamagedTo.length {b : Batch} {bytes : Bytes} (h : b.DamagedTo bytes) :
    8 ≤ bytes.length := by
  cases h with
  | checksum stored hlen hne =>
    simp only [List.length_append, length_toLe, hlen]
    omega
  | payload payload hburst =>
    simp only [List.length_append, length_toLe]
    omega

/-- A segment file: whole frames, then nothing more or a damaged frame and
anything behind it. -/
structure DamagedFile where
  batches : List Batch
  rest : Bytes
  fits : ∀ b ∈ batches, b.Fits
  hit : rest = [] ∨ ∃ (b : Batch) (bytes after : Bytes),
    b.Fits ∧ b.DamagedTo bytes ∧ rest = bytes ++ after

/-- The contents of the file. -/
def DamagedFile.bytes (f : DamagedFile) : Bytes := frames f.batches ++ f.rest

/-- The file parses to the batches before the damage. -/
theorem DamagedFile.parse (lawful : Crates.LawfulProst) (hcrc : Crates.ComputesCrc32)
    (f : DamagedFile) : parseSegment f.bytes (f.bytes.length + 1) 0 =
      .ok (f.batches.map Batch.entry, !f.rest.isEmpty) := by
  refine parseSegment_frames_rest lawful f.fits fun fuel => ?_
  rcases f.hit with hrest | ⟨b, bytes, after, hfits, hdamaged, hrest⟩
  · rw [hrest, List.append_nil]
    exact parseSegment_end (frames f.batches) fuel
  · have hlen := hdamaged.length
    have hne : bytes ++ after ≠ [] := by
      intro h
      rw [(List.append_eq_nil_iff.mp h).1] at hlen
      simp at hlen
    rw [hrest, parseSegment_damaged (by rw [List.length_append]; omega)
      (hdamaged.damaged hcrc hfits after), List.isEmpty_eq_false_iff.mpr hne]
    rfl

/-- **Replay of a damaged log.** `recover` returns, above the watermark, the
batches that stand before the first damaged frame of their segment, unaltered
and in order, and reports damage exactly if there is some. -/
theorem damaged_log_replayed (lawful : Crates.LawfulProst) (hcrc : Crates.ComputesCrc32)
    (log : List DamagedFile) {dir : WalDir} (hdir : dir.files = log.map DamagedFile.bytes)
    (w : Nat) : recover dir w = .ok (.ofBatches w (log.flatMap DamagedFile.batches) log.length
      (log.any fun f => !f.rest.isEmpty)) := by
  have hparse : parseFiles (log.map DamagedFile.bytes) =
      .ok (log.map fun f => (f.batches.map Batch.entry, !f.rest.isEmpty)) := by
    clear hdir
    induction log with
    | nil => rfl
    | cons f log ih =>
      rw [List.map_cons, parseFiles, f.parse lawful hcrc, ih]
      rfl
  have habove : RecoveryResult.above w
      ((log.map fun f => (f.batches.map Batch.entry, !f.rest.isEmpty)).flatMap Prod.fst) =
      ((log.flatMap DamagedFile.batches).filter fun b => w < b.1).map Batch.entry := by
    rw [List.flatMap_map, ← List.map_flatMap, above_map_entry]
  rw [recover_eq, hdir, hparse, Except.map, RecoveryResult.ofParsed, habove]
  simp [RecoveryResult.ofBatches, List.flatMap_map, Function.comp_def]

end

/-! ## Two segments, the second frame of the first one damaged -/

section Example

attribute [local instance] Reference.crates

/-- The payload of the second batch, its last four bytes altered. -/
def alteredPayload : Bytes :=
  (payloadOf 2 [cpuPoint 6 8]).take ((payloadOf 2 [cpuPoint 6 8]).length - 4) ++ [1, 2, 3, 4]

/-- A frame, the damaged frame of the second batch, and another frame. -/
def hitFile : DamagedFile where
  batches := [(1, [cpuPoint 5 7])]
  rest := (toLe 4 (payloadOf 2 [cpuPoint 6 8]).length ++
    (toLe 4 (Crates.crc32 (payloadOf 2 [cpuPoint 6 8])).toNat ++ alteredPayload)) ++
      frames [(3, [cpuPoint 7 9])]
  fits := by decide +kernel
  hit := .inr ⟨(2, [cpuPoint 6 8]), _, _, by decide +kernel,
    .payload alteredPayload ⟨_, (payloadOf 2 [cpuPoint 6 8]).drop
      ((payloadOf 2 [cpuPoint 6 8]).length - 4), [1, 2, 3, 4], [], by decide +kernel, rfl,
      by decide +kernel, by decide +kernel, by decide +kernel⟩, rfl⟩

/-- A whole file. -/
def wholeFile : DamagedFile where
  batches := [(4, [cpuPoint 8 1])]
  rest := []
  fits := by decide +kernel
  hit := .inl rfl

theorem damaged_log_replayed_twoSegments :
    recover (((∅ : WalDir).insert 1 hitFile.bytes).insert 2 wholeFile.bytes) 0 =
      .ok ⟨[cpuPoint 5 7, cpuPoint 8 1], 4, 2, 2, true⟩ :=
  damaged_log_replayed Reference.lawful.prost Reference.computesCrc32 [hitFile, wholeFile]
    (by decide +kernel) 0

end Example

end Micius

import Micius.Chunk.Consistency

/-!
# Damaged chunk files

The last four bytes of a chunk file are the CRC-32 of all bytes before them,
and both readers check them before they look at anything else. A burst of at
most four altered bytes, wherever it is, is therefore always reported; no
altered point is returned.
-/

namespace Micius

open LittleEndian

section

variable [Crates]

/-- The errors of the checks that a reader starts with. -/
inductive ChunkError.Rejects : ChunkError → Prop
  | magic (got : Nat) : Rejects (.invalidMagic Micius.magic got)
  | checksum (computed stored : Nat) : Rejects (.crcMismatch computed stored)

/-- A file that passes the checksum is sealed by it. -/
theorem sealed_of_isChecksumValid (hcrc : Crates.ComputesCrc32) {bytes : Bytes}
    (h : isChecksumValid bytes = .ok ()) : Crc.ieee.Sealed bytes := by
  by_cases hlen : bytes.length < checksumSize
  · rw [isChecksumValid, if_pos hlen] at h
    cases h
  · rw [isChecksumValid, if_neg hlen] at h
    refine ⟨_, _, (List.take_append_drop (bytes.length - checksumSize) bytes).symm, ?_, ?_⟩
    · rw [List.length_drop, checksumSize] at *
      show 8 * _ = 32
      omega
    · rw [← hcrc]
      by_contra hne
      simp only [hne] at h
      cases h

theorem isChecksumValid_error {bytes : Bytes} (hlen : checksumSize ≤ bytes.length)
    (h : isChecksumValid bytes ≠ .ok ()) :
    ∃ computed stored, isChecksumValid bytes = .error (.crcMismatch computed stored) := by
  rw [isChecksumValid, if_neg (by omega)] at *
  dsimp only [pure, Except.pure, bind, Except.bind] at *
  split at h
  · exact absurd rfl h
  · next hne => exact ⟨_, _, by rw [if_neg hne]; rfl⟩

omit [Crates] in
theorem isMagicValid_error {bytes : Bytes} (hlen : 4 ≤ bytes.length) :
    isMagicValid bytes = .ok () ∨ ∃ got, isMagicValid bytes = .error (.invalidMagic magic got) := by
  have hread : readU32 bytes 0 = .ok (fromLe (slice bytes 0 4)) := by
    rw [readU32, readSlice, if_pos (show 0 + u32Size ≤ bytes.length by rw [u32Size]; omega)]
    rfl
  rw [isMagicValid, hread]
  by_cases h : fromLe (slice bytes 0 4) = magic
  · exact .inl (if_pos h)
  · exact .inr ⟨_, if_neg h⟩

/-- A file without a valid checksum is rejected by both readers, with one error. -/
theorem rejected_of_checksum {bytes : Bytes} (hlen : checksumSize ≤ bytes.length)
    (h : isChecksumValid bytes ≠ .ok ()) : ∃ e : ChunkError, e.Rejects ∧
      readChunk bytes = .error e ∧ ∀ key lo hi, readSeries bytes key lo hi = .error e := by
  rcases isMagicValid_error hlen with hmagic | ⟨got, hmagic⟩
  · obtain ⟨computed, stored, hsum⟩ := isChecksumValid_error hlen h
    refine ⟨_, .checksum computed stored, ?_, fun key lo hi => ?_⟩
    · rw [readChunk, hmagic, hsum]
      rfl
    · rw [readSeries, hmagic, hsum]
      rfl
  · refine ⟨_, .magic got, ?_, fun key lo hi => ?_⟩
    · rw [readChunk, hmagic]
      rfl
    · rw [readSeries, hmagic]
      rfl

/-- A file that passes the checksum is rejected once a burst of at most four
bytes is altered. -/
theorem rejected_of_burst (hcrc : Crates.ComputesCrc32) {bytes damaged : Bytes}
    (hvalid : isChecksumValid bytes = .ok ()) (hburst : Crc.Burst 4 bytes damaged) :
    ∃ e : ChunkError, e.Rejects ∧ readChunk damaged = .error e ∧
      ∀ key lo hi, readSeries damaged key lo hi = .error e := by
  have hsealed := sealed_of_isChecksumValid hcrc hvalid
  refine rejected_of_checksum ?_ fun h => ?_
  · obtain ⟨data, stored, rfl, hlen, -⟩ := hsealed
    have : 8 * stored.length = 32 := hlen
    rw [hburst.length, List.length_append, checksumSize]
    omega
  · exact hsealed.burst (by decide) (by decide) hburst (sealed_of_isChecksumValid hcrc h)

theorem isChecksumValid_of_write {chunkId : ChunkId} {data : SeriesData} {bytes : Bytes}
    {result : ChunkWriteResult} (hw : ChunkWriter.write chunkId data = .ok (bytes, result)) :
    isChecksumValid bytes = .ok () := by
  obtain ⟨encoded, -, hwrite⟩ := write_eq chunkId (nonempty_of_write hw)
  obtain ⟨rest, -, hvalid⟩ := chunkBytes_eq chunkId data.size encoded
  rw [hwrite, Except.ok.injEq, Prod.mk.injEq] at hw
  rwa [← hw.1]

/-- **Damaged chunk files are rejected.** The file of any chunk, with one burst
of at most four bytes altered anywhere in it, is rejected by `read_chunk` and by
every `read_series`, by their first checks. -/
theorem damaged_chunk_rejected (hcrc : Crates.ComputesCrc32) {chunkId : ChunkId}
    {data : SeriesData} {bytes damaged : Bytes} {result : ChunkWriteResult}
    (hw : ChunkWriter.write chunkId data = .ok (bytes, result))
    (hburst : Crc.Burst 4 bytes damaged) :
    ∃ e : ChunkError, e.Rejects ∧ readChunk damaged = .error e ∧
      ∀ key lo hi, readSeries damaged key lo hi = .error e :=
  rejected_of_burst hcrc (isChecksumValid_of_write hw) hburst

end

/-! ## Four bytes of the file of one point -/

section Example

attribute [local instance] Reference.crates

/-- The file of one point. -/
def onePointFile : Bytes :=
  match ChunkWriter.write 1 onePoint with
  | .error _ => []
  | .ok (bytes, _) => bytes

/-- The four bytes of the entry count, at offset 55, altered. -/
theorem damaged_chunk_rejected_onePoint : ∃ e : ChunkError, e.Rejects ∧
    readChunk (onePointFile.take 55 ++ ([9, 9, 9, 9] ++ onePointFile.drop 59)) = .error e := by
  obtain ⟨encoded, -, hw⟩ := write_eq 1 (show onePoint.isEmpty = false by decide +kernel)
  have hfile : onePointFile = chunkBytes 1 onePoint.size encoded := by rw [onePointFile, hw]
  have hburst : Crc.Burst 4 onePointFile
      (onePointFile.take 55 ++ ([9, 9, 9, 9] ++ onePointFile.drop 59)) :=
    ⟨onePointFile.take 55, (onePointFile.drop 55).take 4, [9, 9, 9, 9], onePointFile.drop 59,
      by decide +kernel, rfl, by decide +kernel, by decide +kernel, by decide +kernel⟩
  rw [hfile] at hburst
  obtain ⟨e, he, hread, -⟩ := damaged_chunk_rejected Reference.computesCrc32 hw hburst
  rw [hfile]
  exact ⟨e, he, hread⟩

end Example

end Micius

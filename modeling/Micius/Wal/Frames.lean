import Micius.Wal.Replay

/-!
# Frames on disk

A segment file is a run of frames, possibly followed by a piece of one more
frame that a crash cut short. Parsing such a file gives back the batches of
the whole frames, in order, and nothing of the cut one.
-/

namespace Micius

open LittleEndian

/-- A batch as it stands in the log: its sequence number and its points. -/
abbrev Batch := Nat × List DataPoint

/-- The WAL record of a batch. -/
def Batch.entry (b : Batch) : WalEntry := ⟨b.1, b.2.map WalDataPoint.ofDataPoint⟩

@[simp] theorem Batch.entry_sequence (b : Batch) : (Batch.entry b).sequence = b.1 := rfl

@[simp] theorem Batch.entry_points (b : Batch) :
    (Batch.entry b).points.map WalDataPoint.toDataPoint = b.2 :=
  map_toDataPoint_ofDataPoint b.2

/-- Entries above a watermark are the records of the batches above it. -/
theorem above_map_entry (w : Nat) (bs : List Batch) :
    RecoveryResult.above w (bs.map Batch.entry) =
      (bs.filter fun b => w < b.1).map Batch.entry := by
  rw [RecoveryResult.above, List.filter_map]
  rfl

section

variable [Crates]

/-- The bytes of a batch's frame. -/
def Batch.frame (b : Batch) : Bytes := encodeFrame b.1 b.2

/-- The bytes of a run of frames. -/
def frames (bs : List Batch) : Bytes := bs.flatMap Batch.frame

/-- A batch that a frame keeps: the payload length fits the frame's `u32`
length field, and the record is one that the wire format keeps. -/
structure Batch.Fits (b : Batch) : Prop where
  length : (payloadOf b.1 b.2).length < 2 ^ 32
  sequence : b.1 < 2 ^ 64
  values : ∀ p ∈ b.2, p.value ≠ F64.negZero

instance Batch.decidableFits (b : Batch) : Decidable b.Fits :=
  decidable_of_iff ((payloadOf b.1 b.2).length < 2 ^ 32 ∧ b.1 < 2 ^ 64 ∧
      ∀ p ∈ b.2, p.value ≠ F64.negZero)
    ⟨fun h => ⟨h.1, h.2.1, h.2.2⟩, fun h => ⟨h.length, h.sequence, h.values⟩⟩

theorem Batch.Fits.plain {b : Batch} (h : b.Fits) : b.entry.Plain where
  sequence := h.sequence
  values p hp := by
    obtain ⟨q, hq, rfl⟩ := List.mem_map.mp hp
    exact h.values q hq

/-- The tail a crash can leave after the whole frames: a strict prefix of
some frame. -/
def TornTail (tail : Bytes) : Prop :=
  ∃ b : Batch, b.Fits ∧ tail <+: b.frame ∧ tail.length < b.frame.length

@[simp] theorem frames_nil : frames [] = [] := rfl

@[simp] theorem frames_cons (b : Batch) (bs : List Batch) :
    frames (b :: bs) = b.frame ++ frames bs := rfl

theorem frames_append (as bs : List Batch) : frames (as ++ bs) = frames as ++ frames bs := by
  simp [frames]

theorem Batch.length_frame (b : Batch) : b.frame.length = 8 + (payloadOf b.1 b.2).length :=
  length_encodeFrame b.1 b.2

/-! ## The three fields of a frame, read through the cursor -/

section Fields

variable (pre post : Bytes) (b : Batch)

theorem slice_length_field :
    slice (pre ++ (b.frame ++ post)) pre.length 4 = toLe 4 (payloadOf b.1 b.2).length := by
  rw [Batch.frame, encodeFrame, List.append_assoc, List.append_assoc]
  exact slice_append rfl (by simp)

theorem slice_checksum_field :
    slice (pre ++ (b.frame ++ post)) (pre.length + 4) 4 =
      toLe 4 (Crates.crc32 (payloadOf b.1 b.2)).toNat := by
  rw [Batch.frame, encodeFrame, List.append_assoc, List.append_assoc, ← List.append_assoc pre]
  exact slice_append (by simp) (by simp)

theorem slice_payload_field :
    slice (pre ++ (b.frame ++ post)) (pre.length + 8) (payloadOf b.1 b.2).length =
      payloadOf b.1 b.2 := by
  rw [Batch.frame, encodeFrame, List.append_assoc, ← List.append_assoc pre]
  exact slice_append (by simp) rfl

end Fields

/-! ## Parsing -/

/-- One turn of the loop over a whole frame. -/
theorem parseSegment_frame (lawful : Crates.LawfulProst) {b : Batch} (hb : b.Fits)
    (pre post : Bytes) (fuel : Nat) :
    parseSegment (pre ++ (b.frame ++ post)) (fuel + 1) pre.length =
      (parseSegment (pre ++ (b.frame ++ post)) fuel (pre.length + b.frame.length)).map
        fun p => (b.entry :: p.1, p.2) := by
  have hlen : (pre ++ (b.frame ++ post)).length =
      pre.length + (8 + (payloadOf b.1 b.2).length + post.length) := by
    rw [List.length_append, List.length_append, Batch.length_frame]
  have hfield : fromLe (toLe 4 (payloadOf b.1 b.2).length) = (payloadOf b.1 b.2).length :=
    fromLe_toLe_of_lt hb.length
  have hdec : Crates.walDecode (payloadOf b.1 b.2) = some b.entry := lawful _ hb.plain
  rw [parseSegment, if_neg (by omega)]
  simp only [slice_length_field, hfield, slice_checksum_field, slice_payload_field,
    fromLe_toLe_u32]
  rw [if_neg (by omega), if_neg (by simp), hdec, Batch.length_frame, Nat.add_assoc]

/-- The loop over a run of whole frames. -/
theorem parseSegment_frames (lawful : Crates.LawfulProst) {bs : List Batch}
    (hbs : ∀ b ∈ bs, b.Fits) (pre post : Bytes) (fuel : Nat) :
    parseSegment (pre ++ (frames bs ++ post)) (bs.length + fuel) pre.length =
      (parseSegment (pre ++ (frames bs ++ post)) fuel (pre.length + (frames bs).length)).map
        fun p => (bs.map Batch.entry ++ p.1, p.2) := by
  induction bs generalizing pre with
  | nil =>
    simp only [frames_nil, List.length_nil, Nat.zero_add, Nat.add_zero, List.map_nil,
      List.nil_append]
    cases parseSegment (pre ++ post) fuel pre.length <;> rfl
  | cons b bs ih =>
    have hb : b.Fits := hbs b (by simp)
    have ih' := ih (fun b' hb' => hbs b' (by simp [hb'])) (pre ++ b.frame)
    rw [List.length_append] at ih'
    simp only [List.append_assoc] at ih'
    rw [frames_cons, List.append_assoc, List.length_cons,
      show bs.length + 1 + fuel = (bs.length + fuel) + 1 from by omega,
      parseSegment_frame lawful hb, ih', List.length_append, Nat.add_assoc]
    cases parseSegment (pre ++ (b.frame ++ (frames bs ++ post))) fuel
      (pre.length + (b.frame.length + (frames bs).length)) <;> rfl

/-- The loop at a torn tail: fewer than eight bytes end it silently, and a
whole header whose payload is cut off ends it with the torn flag. -/
theorem parseSegment_tornTail {tail : Bytes} (ht : TornTail tail) (pre : Bytes) (fuel : Nat) :
    parseSegment (pre ++ tail) (fuel + 1) pre.length = .ok ([], decide (8 ≤ tail.length)) := by
  obtain ⟨b, hb, ⟨rest, hrest⟩, hlt⟩ := ht
  rw [parseSegment, List.length_append]
  by_cases h8 : 8 ≤ tail.length
  · have hfield : fromLe (slice (pre ++ tail) pre.length 4) = (payloadOf b.1 b.2).length := by
      have h := slice_length_field pre [] b
      rw [List.append_nil, ← hrest, ← List.append_assoc, slice_append_left (by simp; omega)] at h
      rw [h]
      exact fromLe_toLe_of_lt hb.length
    rw [Batch.length_frame] at hlt
    rw [if_neg (by omega), hfield]
    simp only [h8, decide_true]
    rw [if_pos (by omega)]
  · rw [if_pos (by omega)]
    simp [h8]

/-- A frame loop that starts at the end of the file stops at once. -/
theorem parseSegment_end (buf : Bytes) (fuel : Nat) :
    parseSegment buf (fuel + 1) buf.length = .ok ([], false) := by
  rw [parseSegment, if_pos (by omega)]

theorem length_le_frames (bs : List Batch) : bs.length ≤ (frames bs).length := by
  induction bs with
  | nil => simp
  | cons b bs ih =>
    rw [frames_cons, List.length_append, List.length_cons, Batch.length_frame]
    omega

/-- A file of whole frames followed by bytes the loop ends at. -/
theorem parseSegment_frames_rest (lawful : Crates.LawfulProst) {bs : List Batch}
    (hbs : ∀ b ∈ bs, b.Fits) {rest : Bytes} {torn : Bool}
    (hrest : ∀ fuel, parseSegment (frames bs ++ rest) (fuel + 1) (frames bs).length = .ok ([], torn)) :
    parseSegment (frames bs ++ rest) ((frames bs ++ rest).length + 1) 0 =
      .ok (bs.map Batch.entry, torn) := by
  have hfuel : ∃ extra, (frames bs ++ rest).length + 1 = bs.length + (extra + 1) := by
    have := length_le_frames bs
    refine ⟨(frames bs ++ rest).length - bs.length, ?_⟩
    rw [List.length_append]
    omega
  obtain ⟨extra, he⟩ := hfuel
  have h := parseSegment_frames lawful hbs [] rest (extra + 1)
  simp only [List.nil_append, List.length_nil, Nat.zero_add] at h
  rw [he, h, hrest]
  simp [Except.map]

/-- The batches of a segment file with a torn tail. -/
theorem parseSegment_file (lawful : Crates.LawfulProst) {bs : List Batch}
    (hbs : ∀ b ∈ bs, b.Fits) {tail : Bytes} (ht : tail = [] ∨ TornTail tail) :
    parseSegment (frames bs ++ tail) ((frames bs ++ tail).length + 1) 0 =
      .ok (bs.map Batch.entry, decide (8 ≤ tail.length)) := by
  apply parseSegment_frames_rest lawful hbs
  intro fuel
  rcases ht with rfl | ht
  · simpa using parseSegment_end (frames bs) fuel
  · exact parseSegment_tornTail ht (frames bs) fuel

end

end Micius

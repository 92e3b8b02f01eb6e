import Mathlib.Data.List.Induction
import Micius.Reference.Instance
import Micius.Wal.Segments

/-!
# The torn flag of a cut segment

A run of frames cut at any byte. The frame loop reports the cut unless it falls
on a frame boundary or into the eight bytes of a frame header: with fewer than
eight bytes left the loop takes the file to be at its end.
-/

namespace Micius

section

variable [Crates]

/-- The cut falls between two frames, or at an end of the file. -/
def OnBoundary (bs : List Batch) (cut : Nat) : Prop :=
  ∃ ds, ds <+: bs ∧ (frames ds).length = cut

/-- The cut falls inside the header of a frame: one to seven of its bytes are
left. -/
def InHeader (bs : List Batch) (cut : Nat) : Prop :=
  ∃ ds b, ds ++ [b] <+: bs ∧ (frames ds).length < cut ∧ cut < (frames ds).length + 8

theorem length_frames_snoc (ds : List Batch) (b : Batch) :
    (frames (ds ++ [b])).length = (frames ds).length + b.frame.length := by
  rw [frames_append, List.length_append, frames_cons, frames_nil, List.append_nil]

theorem length_frames_le {ds bs : List Batch} (h : ds <+: bs) :
    (frames ds).length ≤ (frames bs).length := by
  obtain ⟨rest, rfl⟩ := h
  rw [frames_append, List.length_append]
  exact Nat.le_add_right _ _

/-- A cut falls on a boundary or inside a frame. -/
theorem cut_cases (bs : List Batch) {cut : Nat} (h : cut ≤ (frames bs).length) :
    OnBoundary bs cut ∨ ∃ ds b, ds ++ [b] <+: bs ∧ (frames ds).length < cut ∧
      cut < (frames (ds ++ [b])).length := by
  induction bs using List.reverseRecOn with
  | nil => exact .inl ⟨[], List.nil_prefix, (Nat.le_zero.mp h).symm⟩
  | append_singleton bs b ih =>
    by_cases hcut : cut ≤ (frames bs).length
    · rcases ih hcut with ⟨ds, hds, hlen⟩ | ⟨ds, b', hds, hcut⟩
      · exact .inl ⟨ds, hds.trans (List.prefix_append _ _), hlen⟩
      · exact .inr ⟨ds, b', hds.trans (List.prefix_append _ _), hcut⟩
    · by_cases hend : cut = (frames (bs ++ [b])).length
      · exact .inl ⟨bs ++ [b], List.prefix_rfl, hend.symm⟩
      · exact .inr ⟨bs, b, List.prefix_rfl, by omega, by omega⟩

omit [Crates] in
/-- Another prefix of the run ends before the frame `b`, or covers it. -/
theorem prefix_cases {bs ds ds' : List Batch} {b : Batch} (h : ds ++ [b] <+: bs) (h' : ds' <+: bs) :
    ds' <+: ds ∨ ds ++ [b] <+: ds' := by
  rcases List.prefix_or_prefix_of_prefix h' h with hpre | hpre
  · rcases List.prefix_concat_iff.mp hpre with rfl | hpre
    · exact .inr List.prefix_rfl
    · exact .inl hpre
  · exact .inr hpre

/-- On a boundary the cut is in no header. -/
theorem OnBoundary.not_inHeader {bs : List Batch} {cut : Nat} (h : OnBoundary bs cut) :
    ¬ InHeader bs cut := by
  rintro ⟨ds, b, hds, hlt, hlt'⟩
  obtain ⟨ds', hds', rfl⟩ := h
  have hsnoc := length_frames_snoc ds b
  have hframe := b.length_frame
  rcases prefix_cases hds hds' with hpre | hpre
  · have := length_frames_le hpre
    omega
  · have := length_frames_le hpre
    omega

section Inside

variable {bs ds : List Batch} {b : Batch} {cut : Nat} (hds : ds ++ [b] <+: bs)
  (hlt : (frames ds).length < cut) (hlt' : cut < (frames (ds ++ [b])).length)

include hds hlt hlt'

/-- A cut inside a frame is not on a boundary. -/
theorem not_onBoundary_of_inside : ¬ OnBoundary bs cut := by
  rintro ⟨ds', hds', hlen⟩
  rcases prefix_cases hds hds' with hpre | hpre
  · have := length_frames_le hpre
    omega
  · have := length_frames_le hpre
    omega

/-- It is in a header if it leaves fewer than eight bytes of the frame. -/
theorem inHeader_iff_of_inside : InHeader bs cut ↔ cut < (frames ds).length + 8 := by
  constructor
  · rintro ⟨ds', b', hds', hle, hlt8⟩
    have hsnoc := length_frames_snoc ds' b'
    have hframe := b'.length_frame
    rcases prefix_cases hds hds' with hpre | hpre
    · have := length_frames_le hpre
      omega
    · rcases List.prefix_concat_iff.mp hpre with heq | hpre
      · obtain ⟨rfl, -⟩ := List.append_inj' heq rfl
        exact hlt8
      · have := length_frames_le hpre
        omega
  · intro hlt8
    exact ⟨ds, b, hds, hlt, hlt8⟩

/-- What is left of the file: the frames before, and a piece of the frame. -/
theorem take_frames_of_inside : ∃ rest, (frames bs).take cut =
    frames ds ++ b.frame.take (cut - (frames ds).length) ∧ bs = ds ++ b :: rest := by
  obtain ⟨rest, rfl⟩ := hds
  rw [length_frames_snoc] at hlt'
  refine ⟨rest, ?_, by simp⟩
  rw [frames_append, frames_append, frames_cons, frames_nil, List.append_nil, List.append_assoc,
    List.take_append, List.take_of_length_le (by omega), List.take_append_of_le_length (by omega)]

end Inside

/-- **When a torn tail is reported**: the flag says whether the cut is off the
frame boundaries, exactly if the cut is not inside a frame header. -/
theorem torn_flag_exact_iff (lawful : Crates.LawfulProst) {bs : List Batch} (hbs : ∀ b ∈ bs, b.Fits)
    {cut : Nat} (hcut : cut ≤ (frames bs).length) {dir : WalDir}
    (hdir : dir.files = [(frames bs).take cut]) (w : Nat) :
    ∃ r, recover dir w = .ok r ∧
      ((r.tornWriteDetected = true ↔ ¬ OnBoundary bs cut) ↔ ¬ InHeader bs cut) := by
  -- the flag of a file that is whole frames and a tail
  have hrecover : ∀ f : SegFile, f.bytes = (frames bs).take cut → ∃ r, recover dir w = .ok r ∧
      (r.tornWriteDetected = true ↔ 8 ≤ f.tail.length) := by
    intro f hf
    refine ⟨_, recover_segFiles lawful w [f] (by rw [hdir, ← hf]; rfl), ?_⟩
    simp [RecoveryResult.ofBatches]
  rcases cut_cases bs hcut with hon | ⟨ds, b, hds, hlt, hlt'⟩
  · obtain ⟨ds, hds, hlen⟩ := hon
    have hbytes : frames ds ++ [] = (frames bs).take cut := by
      obtain ⟨rest, rfl⟩ := hds
      rw [frames_append, ← hlen, List.take_left, List.append_nil]
    obtain ⟨r, hr, htorn⟩ := hrecover ⟨ds, [], fun b hb => hbs b (hds.subset hb), .inl rfl⟩ hbytes
    have hon : OnBoundary bs cut := ⟨ds, hds, hlen⟩
    refine ⟨r, hr, ?_⟩
    simp [htorn, hon, hon.not_inHeader]
  · have hheader := inHeader_iff_of_inside hds hlt hlt'
    have hoff := not_onBoundary_of_inside hds hlt hlt'
    obtain ⟨rest, htake, rfl⟩ := take_frames_of_inside hds hlt hlt'
    have hsnoc := length_frames_snoc ds b
    have htail : (b.frame.take (cut - (frames ds).length)).length = cut - (frames ds).length := by
      rw [List.length_take]
      omega
    have htorn : TornTail (b.frame.take (cut - (frames ds).length)) :=
      ⟨b, hbs b (by simp), List.take_prefix _ _, by omega⟩
    obtain ⟨r, hr, hflag⟩ := hrecover
      ⟨ds, _, fun b' hb' => hbs b' (by simp [hb']), .inr htorn⟩ htake.symm
    refine ⟨r, hr, ?_⟩
    rw [hflag, hheader, htail]
    simp only [hoff, not_false_eq_true, iff_true]
    omega

end

/-! ## One frame, cut -/

section Example

attribute [local instance] Reference.crates

/-- The first bytes of a segment that holds one point. -/
def cutSegment (cut : Nat) : WalDir :=
  (∅ : WalDir).insert 1 ((frames [(1, [cpuPoint 5 7])]).take cut)

/-- A cut inside the payload is reported. -/
theorem torn_flag_exact_payload : ¬ InHeader [(1, [cpuPoint 5 7])] 10 ∧
    ∃ r, recover (cutSegment 10) 0 = .ok r ∧
      (r.tornWriteDetected = true ↔ ¬ OnBoundary [(1, [cpuPoint 5 7])] 10) := by
  have hlen : 10 < (frames ([] ++ [(1, [cpuPoint 5 7])])).length := by decide +kernel
  have hheader : ¬ InHeader [(1, [cpuPoint 5 7])] 10 := by
    intro h
    exact absurd ((inHeader_iff_of_inside List.prefix_rfl (by decide) hlen).mp h) (by decide)
  obtain ⟨r, hr, hiff⟩ := torn_flag_exact_iff Reference.lawful.prost
    (show ∀ b ∈ [(1, [cpuPoint 5 7])], Batch.Fits b by decide +kernel) (Nat.le_of_lt hlen)
    (show (cutSegment 10).files = _ by decide +kernel) 0
  exact ⟨hheader, r, hr, hiff.mpr hheader⟩

/-- A cut inside the header is not: three bytes are left of the only frame,
and `recover` does not set the flag. -/
theorem torn_header_unreported : ¬ OnBoundary [(1, [cpuPoint 5 7])] 3 ∧
    (recover (cutSegment 3) 0).map RecoveryResult.tornWriteDetected = .ok false := by
  have hlen : 3 < (frames ([] ++ [(1, [cpuPoint 5 7])])).length := by decide +kernel
  exact ⟨not_onBoundary_of_inside List.prefix_rfl (by decide) hlen, by decide +kernel⟩

end Example

end Micius

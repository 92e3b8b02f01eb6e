import Micius.Wal.Recovery

/-!
# What `recover` computes

`recover` interleaves parsing, watermark filtering and accounting in one
loop. Here the loop is split: `parseSegment` decodes a file into entries
and a torn flag, whatever the watermark, and `RecoveryResult.ofParsed`
does the rest. `recover_eq` is the one fact about `recover` that later
modules use.
-/

namespace Micius

open LittleEndian

/-- The entries one file yields, and whether a torn or corrupt frame ended it. -/
abbrev Parsed := List WalEntry × Bool

namespace RecoveryResult

/-- The entry branch of the loop body: skip at or below the watermark. -/
def step (watermark : Nat) (r : RecoveryResult) (e : WalEntry) : RecoveryResult :=
  if e.sequence ≤ watermark then r else r.addEntry e

/-- One parsed file, folded into the running result. -/
def addParsed (watermark : Nat) (r : RecoveryResult) (p : Parsed) : RecoveryResult :=
  let r' := p.1.foldl (step watermark) r
  if p.2 then r'.torn else r'

/-- The entries of a list above the watermark. -/
def above (watermark : Nat) (es : List WalEntry) : List WalEntry :=
  es.filter fun e => watermark < e.sequence

/-- The result for the parsed files, in closed form. -/
def ofParsed (watermark : Nat) (ps : List Parsed) : RecoveryResult :=
  let es := above watermark (ps.flatMap Prod.fst)
  { points := es.flatMap fun e => e.points.map WalDataPoint.toDataPoint
    lastSequence := (es.map WalEntry.sequence).foldl max 0
    segmentsReplayed := ps.length
    entriesReplayed := es.length
    tornWriteDetected := ps.any Prod.snd }

end RecoveryResult

section Parse

variable [Crates]

/-- The frame loop without the accounting: decode until the file ends or a
frame is bad. -/
def parseSegment (buf : Bytes) : Nat → Nat → Except RecoverError Parsed
  | 0, _ => .ok ([], false)
  | fuel + 1, cursor =>
    if cursor + 8 > buf.length then .ok ([], false)
    else
      let storedLength := fromLe (slice buf cursor 4)
      if cursor + storedLength + 8 > buf.length then .ok ([], true)
      else
        let storedChecksum := fromLe (slice buf (cursor + 4) 4)
        let payload := slice buf (cursor + 8) storedLength
        if storedChecksum ≠ (Crates.crc32 payload).toNat then .ok ([], true)
        else
          match Crates.walDecode payload with
          | none => .error .decode
          | some entry =>
            (parseSegment buf fuel (cursor + 8 + storedLength)).map
              fun p => (entry :: p.1, p.2)

/-- Every file of a directory, parsed in order. -/
def parseFiles : List Bytes → Except RecoverError (List Parsed)
  | [] => .ok []
  | buf :: files =>
    match parseSegment buf (buf.length + 1) 0 with
    | .error e => .error e
    | .ok p => (parseFiles files).map (p :: ·)

/-- The frame loop is parsing followed by accounting. -/
theorem replaySegment_eq_parse (w : Nat) (buf : Bytes) (fuel cursor : Nat)
    (r : RecoveryResult) :
    replaySegment w buf fuel cursor r =
      (parseSegment buf fuel cursor).map (r.addParsed w) := by
  induction fuel generalizing cursor r with
  | zero => rfl
  | succ fuel ih =>
    rw [replaySegment, parseSegment]
    split
    · rfl
    · dsimp only
      split
      · rfl
      · split
        · rfl
        · cases hd : Crates.walDecode (slice buf (cursor + 8) (fromLe (slice buf cursor 4))) with
          | none => rfl
          | some entry =>
            simp only [ih]
            cases parseSegment buf fuel (cursor + 8 + fromLe (slice buf cursor 4)) with
            | error e => split <;> rfl
            | ok p =>
              by_cases hw : entry.sequence ≤ w <;>
                simp [Except.map, RecoveryResult.addParsed, RecoveryResult.step, hw]

end Parse

/-! ## The closed form -/

theorem foldl_max_mem {l : List Nat} {a : Nat} (h : l.foldl max a ≠ a) : l.foldl max a ∈ l := by
  induction l generalizing a with
  | nil => exact absurd rfl h
  | cons x l ih =>
    rw [List.foldl_cons] at h ⊢
    by_cases hx : l.foldl max (max a x) = max a x
    · rw [hx] at h ⊢
      have : max a x = x := by omega
      simp [this]
    · exact List.mem_cons_of_mem _ (ih hx)

theorem le_foldl_max {l : List Nat} {a x : Nat} (h : x ∈ l ∨ x ≤ a) : x ≤ l.foldl max a := by
  induction l generalizing a with
  | nil => simpa using h
  | cons y l ih =>
    rw [List.foldl_cons]
    apply ih
    rcases h with h | h
    · rcases List.mem_cons.mp h with rfl | h
      · exact .inr (by omega)
      · exact .inl h
    · exact .inr (by omega)

namespace RecoveryResult

/-- What a fold of `step` adds, field by field. -/
theorem foldl_step (w : Nat) (es : List WalEntry) (r : RecoveryResult) :
    es.foldl (step w) r =
      { r with
        points := r.points ++
          (above w es).flatMap fun e => e.points.map WalDataPoint.toDataPoint
        lastSequence := ((above w es).map WalEntry.sequence).foldl max r.lastSequence
        entriesReplayed := r.entriesReplayed + (above w es).length } := by
  induction es generalizing r with
  | nil => simp [above]
  | cons e es ih =>
    rw [List.foldl_cons, ih]
    by_cases hw : e.sequence ≤ w
    · have hn : ¬ w < e.sequence := by omega
      simp [step, hw, hn, above]
    · have hn : w < e.sequence := by omega
      simp only [step, if_neg hw, addEntry, above, List.filter_cons, hn, decide_true, if_true,
        List.flatMap_cons, List.map_cons, List.foldl_cons, List.length_cons, List.append_assoc]
      congr 1
      omega

/-- The closed form of a running result extended by one more file. -/
theorem ofParsed_snoc (w : Nat) (ps : List Parsed) (p : Parsed) :
    ofParsed w (ps ++ [p]) =
      { (ofParsed w ps).addParsed w p with
        segmentsReplayed := (ofParsed w ps).segmentsReplayed + 1 } := by
  obtain ⟨es, torn⟩ := p
  cases torn <;>
    simp [ofParsed, addParsed, foldl_step, RecoveryResult.torn, above, List.flatMap_append,
      List.foldl_append]

end RecoveryResult

variable [Crates]

theorem replayFiles_eq (w : Nat) (files : List Bytes) (done : List Parsed) :
    replayFiles w files (.ofParsed w done) =
      (parseFiles files).map fun ps => RecoveryResult.ofParsed w (done ++ ps) := by
  induction files generalizing done with
  | nil => simp [replayFiles, parseFiles, Except.map]
  | cons buf files ih =>
    rw [replayFiles, parseFiles, replaySegment_eq_parse]
    cases parseSegment buf (buf.length + 1) 0 with
    | error e => rfl
    | ok p =>
      have hs : (((RecoveryResult.ofParsed w done).addParsed w p).segmentsReplayed) =
          (RecoveryResult.ofParsed w done).segmentsReplayed := by
        obtain ⟨es, torn⟩ := p
        cases torn <;>
          simp [RecoveryResult.addParsed, RecoveryResult.foldl_step, RecoveryResult.torn]
      simp only [Except.map, hs]
      rw [← RecoveryResult.ofParsed_snoc, ih (done ++ [p])]
      cases parseFiles files <;> simp [Except.map]

/-- **What `recover` returns**: the closed form over the parsed files. -/
theorem recover_eq (dir : WalDir) (w : Nat) :
    recover dir w = (parseFiles dir.files).map (RecoveryResult.ofParsed w) := by
  have h := replayFiles_eq w dir.files []
  have h0 : RecoveryResult.ofParsed w [] = RecoveryResult.empty := rfl
  rw [h0] at h
  simpa [recover] using h

/-! ## The entries of a log -/

/-- The entries of a segment file, up to a bad frame. -/
def segmentEntries (buf : Bytes) : List WalEntry :=
  match parseSegment buf (buf.length + 1) 0 with
  | .ok p => p.1
  | .error _ => []

/-- The entries in the segments of a shard, whatever their number. -/
def WalDir.entries (dir : WalDir) : List WalEntry := dir.files.flatMap segmentEntries

/-- The points a segment file adds to a replay above the watermark. -/
def segmentPoints (watermark : Nat) (buf : Bytes) : List DataPoint :=
  (RecoveryResult.above watermark (segmentEntries buf)).flatMap fun e =>
    e.points.map WalDataPoint.toDataPoint

theorem segmentEntries_nil : segmentEntries [] = [] := rfl

theorem parseFiles_cons {buf : Bytes} {files : List Bytes} {ps : List Parsed}
    (h : parseFiles (buf :: files) = .ok ps) : ∃ p ps', ps = p :: ps' ∧
      parseSegment buf (buf.length + 1) 0 = .ok p ∧ parseFiles files = .ok ps' := by
  rw [parseFiles] at h
  split at h
  · cases h
  · next p hp =>
    cases hrest : parseFiles files with
    | error e =>
      rw [hrest] at h
      cases h
    | ok ps' =>
      rw [hrest] at h
      exact ⟨p, ps', (Except.ok.inj h).symm, hp, rfl⟩

theorem entries_of_parseFiles {files : List Bytes} {ps : List Parsed}
    (h : parseFiles files = .ok ps) : ps.flatMap Prod.fst = files.flatMap segmentEntries := by
  induction files generalizing ps with
  | nil =>
    obtain rfl := Except.ok.inj h
    rfl
  | cons buf files ih =>
    obtain ⟨p, ps', rfl, hp, hrest⟩ := parseFiles_cons h
    rw [List.flatMap_cons, List.flatMap_cons, ih hrest, segmentEntries, hp]

theorem length_parseFiles {files : List Bytes} {ps : List Parsed} (h : parseFiles files = .ok ps) :
    ps.length = files.length := by
  induction files generalizing ps with
  | nil =>
    obtain rfl := Except.ok.inj h
    rfl
  | cons buf files ih =>
    obtain ⟨p, ps', rfl, -, hrest⟩ := parseFiles_cons h
    rw [List.length_cons, List.length_cons, ih hrest]

/-- The files parse if each of them does. -/
theorem parseFiles_ok_iff {files : List Bytes} : (∃ ps, parseFiles files = .ok ps) ↔
    ∀ buf ∈ files, ∃ p, parseSegment buf (buf.length + 1) 0 = .ok p := by
  induction files with
  | nil => exact ⟨fun _ => by simp, fun _ => ⟨[], rfl⟩⟩
  | cons buf files ih =>
    rw [List.forall_mem_cons, ← ih]
    constructor
    · rintro ⟨ps, hps⟩
      obtain ⟨p, ps', -, hp, hrest⟩ := parseFiles_cons hps
      exact ⟨⟨p, hp⟩, ps', hrest⟩
    · rintro ⟨⟨p, hp⟩, ps, hps⟩
      exact ⟨p :: ps, by rw [parseFiles, hp, hps]; rfl⟩

theorem recover_ok_iff {dir : WalDir} {w : Nat} {r : RecoveryResult} : recover dir w = .ok r ↔
    ∃ ps, parseFiles dir.files = .ok ps ∧ r = RecoveryResult.ofParsed w ps := by
  rw [recover_eq]
  cases parseFiles dir.files with
  | error e =>
    constructor
    · intro h
      cases h
    · rintro ⟨ps, hps, -⟩
      cases hps
  | ok ps =>
    constructor
    · intro h
      exact ⟨ps, rfl, (Except.ok.inj h).symm⟩
    · rintro ⟨ps', hps, rfl⟩
      obtain rfl := Except.ok.inj hps
      rfl

/-- Every file is counted. -/
theorem segmentsReplayed_recover {dir : WalDir} {w : Nat} {r : RecoveryResult}
    (h : recover dir w = .ok r) : r.segmentsReplayed = dir.files.length := by
  obtain ⟨ps, hps, rfl⟩ := recover_ok_iff.mp h
  exact length_parseFiles hps

/-- **What `recover` replays**: the points of the files, in their order. -/
theorem points_recover {dir : WalDir} {w : Nat} {r : RecoveryResult} (h : recover dir w = .ok r) :
    r.points = dir.files.flatMap (segmentPoints w) := by
  obtain ⟨ps, hps, rfl⟩ := recover_ok_iff.mp h
  show (RecoveryResult.above w (ps.flatMap Prod.fst)).flatMap _ = _
  rw [entries_of_parseFiles hps, RecoveryResult.above, List.filter_flatMap, List.flatMap_assoc]
  rfl

/-- `last_sequence` is the highest number above the watermark, or 0. -/
theorem lastSequence_recover {dir : WalDir} {w : Nat} {r : RecoveryResult}
    (h : recover dir w = .ok r) : r.lastSequence =
      ((RecoveryResult.above w dir.entries).map WalEntry.sequence).foldl max 0 := by
  obtain ⟨ps, hps, rfl⟩ := recover_ok_iff.mp h
  rw [WalDir.entries, ← entries_of_parseFiles hps]
  rfl

omit [Crates] in
theorem mem_above {w : Nat} {es : List WalEntry} {e : WalEntry} :
    e ∈ RecoveryResult.above w es ↔ e ∈ es ∧ w < e.sequence := by
  simp [RecoveryResult.above]

/-- **Where `recover` ends**: at or above the watermark exactly if there is
something above it. -/
theorem le_lastSequence_iff {dir : WalDir} {w : Nat} {r : RecoveryResult}
    (h : recover dir w = .ok r) :
    w ≤ r.lastSequence ↔ w = 0 ∨ ∃ e ∈ dir.entries, w < e.sequence := by
  rw [lastSequence_recover h]
  constructor
  · intro hle
    by_cases hw : w = 0
    · exact .inl hw
    · have hne : ((RecoveryResult.above w dir.entries).map WalEntry.sequence).foldl max 0 ≠ 0 := by
        omega
      obtain ⟨e, he, -⟩ := List.mem_map.mp (foldl_max_mem hne)
      exact .inr ⟨e, mem_above.mp he⟩
  · rintro (rfl | ⟨e, he, hlt⟩)
    · exact Nat.zero_le _
    · exact Nat.le_trans (Nat.le_of_lt hlt)
        (le_foldl_max (.inl (List.mem_map_of_mem (mem_above.mpr ⟨he, hlt⟩))))

theorem sequence_le_lastSequence {dir : WalDir} {w : Nat} {r : RecoveryResult}
    (h : recover dir w = .ok r) (hw : w ≤ r.lastSequence) {e : WalEntry} (he : e ∈ dir.entries) :
    e.sequence ≤ r.lastSequence := by
  by_cases hle : e.sequence ≤ w
  · exact Nat.le_trans hle hw
  · rw [lastSequence_recover h]
    exact le_foldl_max (.inl (List.mem_map_of_mem (mem_above.mpr ⟨he, Nat.lt_of_not_le hle⟩)))

end Micius

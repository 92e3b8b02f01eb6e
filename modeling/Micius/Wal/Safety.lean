import Micius.Lib.Machine
import Micius.Reference.Instance
import Micius.Wal.Replay

/-!
# The frame loop on arbitrary bytes (`wal/recovery.rs`)

One turn of the loop as a build with overflow checks runs it, with every cursor
addition and every slice. On any file that fits in memory no turn panics, the
loop comes to an end, and it returns what `parseSegment` computes. Two files of
which one is a prefix of the other run through the same turns up to the end of
the shorter one.
-/

namespace Micius

open LittleEndian Machine

section

variable [Crates]

/-- What a turn of the loop does with the file: stop, with or without the torn
flag, or take an entry and go on at a cursor. -/
inductive FrameTurn where
  | stop (torn : Bool)
  | entry (entry : WalEntry) (cursor : Nat)

/-- One turn of the frame loop. -/
def frameTurn (buf : Bytes) (cursor : Nat) : Call RecoverError FrameTurn := do
  -- Need at least 8 bytes for the frame header
  if (← usizeAdd cursor 8) > buf.length then return .stop false
  let storedLength := fromLe (← index buf cursor (← usizeAdd cursor 4))
  if (← usizeAdd (← usizeAdd cursor storedLength) 8) > buf.length then return .stop true
  let storedChecksum := fromLe (← index buf (← usizeAdd cursor 4) (← usizeAdd cursor 8))
  let cursor ← usizeAdd cursor 8
  let payload ← index buf cursor (← usizeAdd cursor storedLength)
  let cursor ← usizeAdd cursor storedLength
  if storedChecksum ≠ (Crates.crc32 payload).toNat then return .stop true
  match Crates.walDecode payload with
  | none => .err .decode
  | some entry => return .entry entry cursor

/-- The loop runs from a cursor to its end, without a panic on the way. -/
inductive FrameLoop (buf : Bytes) : Nat → Except RecoverError Parsed → Prop where
  | stop {cursor : Nat} {torn : Bool} (turn : frameTurn buf cursor = .ok (.stop torn)) :
      FrameLoop buf cursor (.ok ([], torn))
  | fail {cursor : Nat} {e : RecoverError} (turn : frameTurn buf cursor = .err e) :
      FrameLoop buf cursor (.error e)
  | entry {cursor next : Nat} {e : WalEntry} {r : Except RecoverError Parsed}
      (turn : frameTurn buf cursor = .ok (.entry e next)) (rest : FrameLoop buf next r) :
      FrameLoop buf cursor (r.map fun p => (e :: p.1, p.2))

/-! ## No turn panics -/

omit [Crates] in
theorem fromLe_slice_lt (buf : Bytes) (cursor : Nat) : fromLe (slice buf cursor 4) < 2 ^ 32 := by
  have hlen : (slice buf cursor 4).length ≤ 4 := by
    rw [length_slice]
    omega
  calc fromLe (slice buf cursor 4) < 256 ^ (slice buf cursor 4).length := fromLe_lt _
    _ ≤ 256 ^ 4 := Nat.pow_le_pow_right (by decide) hlen

omit [Crates] in
theorem index_slice {buf : Bytes} {cursor len : Nat} (h : cursor + len ≤ buf.length) :
    (index buf cursor (cursor + len) : Call RecoverError Bytes) = .ok (slice buf cursor len) :=
  index_of_le h

/-- A turn whose cursor is in the file. A file in memory has fewer than
`2 ^ 63` bytes. -/
theorem frameTurn_eq {buf : Bytes} {cursor : Nat} (hlen : buf.length < 2 ^ 63)
    (hcursor : cursor ≤ buf.length) : frameTurn buf cursor =
      if cursor + 8 > buf.length then .ok (.stop false)
      else if cursor + fromLe (slice buf cursor 4) + 8 > buf.length then .ok (.stop true)
      else if fromLe (slice buf (cursor + 4) 4) ≠
          (Crates.crc32 (slice buf (cursor + 8) (fromLe (slice buf cursor 4)))).toNat then
        .ok (.stop true)
      else match Crates.walDecode (slice buf (cursor + 8) (fromLe (slice buf cursor 4))) with
        | none => .err .decode
        | some entry => .ok (.entry entry (cursor + 8 + fromLe (slice buf cursor 4))) := by
  have hfield := fromLe_slice_lt buf cursor
  have hadd : ∀ {n}, n < 2 ^ 32 → (usizeAdd cursor n : Call RecoverError Nat) = .ok (cursor + n) :=
    fun hn => usizeAdd_of_lt (by omega)
  have hend : (usizeAdd (cursor + fromLe (slice buf cursor 4)) 8 : Call RecoverError Nat) =
      .ok (cursor + fromLe (slice buf cursor 4) + 8) := usizeAdd_of_lt (by omega)
  have hpayload : (usizeAdd (cursor + 8) (fromLe (slice buf cursor 4)) : Call RecoverError Nat) =
      .ok (cursor + 8 + fromLe (slice buf cursor 4)) := usizeAdd_of_lt (by omega)
  rw [frameTurn, hadd (by decide), hadd (by decide)]
  simp only [Call.ok_bind, Call.pure_eq]
  split
  · rfl
  · have hlength : (index buf cursor (cursor + 4) : Call RecoverError Bytes) =
        .ok (slice buf cursor 4) := index_slice (by omega)
    simp only [hlength, Call.ok_bind, hadd hfield, hend]
    split
    · rfl
    · have hchecksum : (index buf (cursor + 4) (cursor + 4 + 4) : Call RecoverError Bytes) =
          .ok (slice buf (cursor + 4) 4) := index_slice (by omega)
      have hslice : (index buf (cursor + 8) (cursor + 8 + fromLe (slice buf cursor 4)) :
          Call RecoverError Bytes) = .ok (slice buf (cursor + 8) _) := index_slice (by omega)
      rw [Nat.add_assoc] at hchecksum
      simp only [hchecksum, Call.ok_bind, hpayload, hslice]

/-- **The loop comes to an end** without a panic, with the result of
`parseSegment`. Every turn that goes on moves the cursor by at least eight. -/
theorem frameLoop_parseSegment {buf : Bytes} (hlen : buf.length < 2 ^ 63) {fuel cursor : Nat}
    (hcursor : cursor ≤ buf.length) (hfuel : buf.length < cursor + fuel) :
    FrameLoop buf cursor (parseSegment buf fuel cursor) := by
  have hturn := frameTurn_eq hlen hcursor
  induction fuel generalizing cursor with
  | zero => omega
  | succ fuel ih =>
    rw [parseSegment]
    split
    · next hheader =>
      rw [if_pos hheader] at hturn
      exact .stop hturn
    · next hheader =>
      rw [if_neg hheader] at hturn
      dsimp only
      split
      · next hend =>
        rw [if_pos hend] at hturn
        exact .stop hturn
      · next hend =>
        rw [if_neg hend] at hturn
        split
        · next hcrc =>
          rw [if_pos hcrc] at hturn
          exact .stop hturn
        · next hcrc =>
          rw [if_neg hcrc] at hturn
          cases hdecode : Crates.walDecode (slice buf (cursor + 8) (fromLe (slice buf cursor 4))) with
          | none =>
            rw [hdecode] at hturn
            exact .fail hturn
          | some entry =>
            rw [hdecode] at hturn
            have hnext : cursor + 8 + fromLe (slice buf cursor 4) ≤ buf.length := by omega
            exact .entry hturn (ih hnext (by omega) (frameTurn_eq hlen hnext))

/-! ## Prefixes -/

omit [Crates] in
theorem slice_eq_of_take {b b' : Bytes} (h : b <+: b') {cursor len : Nat}
    (hle : cursor + len ≤ b.length) : slice b' cursor len = slice b cursor len := by
  obtain ⟨rest, rfl⟩ := h
  exact slice_append_left hle

/-- Where the longer file parses, the shorter one parses to a prefix. -/
theorem parseSegment_monotone {b b' : Bytes} (h : b <+: b') {fuel fuel' : Nat} (hfuel : fuel ≤ fuel')
    {cursor : Nat} {p' : Parsed} (hp' : parseSegment b' fuel' cursor = .ok p') :
    ∃ p, parseSegment b fuel cursor = .ok p ∧ p.1 <+: p'.1 := by
  have hle := h.length_le
  induction fuel generalizing fuel' cursor p' with
  | zero => exact ⟨([], false), rfl, List.nil_prefix⟩
  | succ fuel ih =>
    obtain ⟨fuel', rfl⟩ : ∃ n, fuel' = n + 1 := ⟨fuel' - 1, by omega⟩
    rw [parseSegment]
    split
    · exact ⟨([], false), rfl, List.nil_prefix⟩
    · dsimp only
      split
      · exact ⟨([], true), rfl, List.nil_prefix⟩
      · -- the frame lies in both files, and both read the same fields
        rw [parseSegment, slice_eq_of_take h (by omega), slice_eq_of_take h (by omega),
          if_neg (by omega)] at hp'
        dsimp only at hp'
        rw [slice_eq_of_take h (by omega), if_neg (by omega)] at hp'
        split
        · exact ⟨([], true), rfl, List.nil_prefix⟩
        · next hcrc =>
          rw [if_neg hcrc] at hp'
          cases hdecode : Crates.walDecode (slice b (cursor + 8) (fromLe (slice b cursor 4))) with
          | none =>
            rw [hdecode] at hp'
            cases hp'
          | some entry =>
            rw [hdecode] at hp'
            cases hrest : parseSegment b' fuel' (cursor + 8 + fromLe (slice b cursor 4)) with
            | error e =>
              simp only [hrest] at hp'
              cases hp'
            | ok q' =>
              simp only [hrest] at hp'
              obtain rfl := Except.ok.inj hp'
              obtain ⟨q, hq, hpre⟩ := ih (by omega) hrest
              exact ⟨(entry :: q.1, q.2), by simp only [hq]; rfl,
                List.cons_prefix_cons.mpr ⟨rfl, hpre⟩⟩

/-- **WAL parsing is safe and prefix-monotone.** For any contents of a segment
file the frame loop ends without a panic; and where `recover` succeeds on it, it
succeeds on every prefix of it, and replays a prefix of the entries. -/
theorem frame_loop_safe_and_monotone {b b' : Bytes} (hlen : b'.length < 2 ^ 63) (h : b <+: b')
    {dir dir' : WalDir} (hdir : dir.files = [b]) (hdir' : dir'.files = [b']) (w : Nat) :
    FrameLoop b' 0 (parseSegment b' (b'.length + 1) 0) ∧
    ∀ r', recover dir' w = .ok r' → ∃ r, recover dir w = .ok r ∧
      r.entriesReplayed = (RecoveryResult.above w (segmentEntries b)).length ∧
      RecoveryResult.above w (segmentEntries b) <+: RecoveryResult.above w (segmentEntries b') ∧
      r.points <+: r'.points := by
  refine ⟨frameLoop_parseSegment hlen (Nat.zero_le _) (by omega), fun r' hr' => ?_⟩
  have hle := h.length_le
  obtain ⟨ps', hps', -⟩ := recover_ok_iff.mp hr'
  rw [hdir'] at hps'
  obtain ⟨p', -, -, hp', -⟩ := parseFiles_cons hps'
  obtain ⟨p, hp, hpre⟩ := parseSegment_monotone h (show b.length + 1 ≤ b'.length + 1 by omega) hp'
  have hentries : segmentEntries b = p.1 := by rw [segmentEntries, hp]
  have hentries' : segmentEntries b' = p'.1 := by rw [segmentEntries, hp']
  have habove : RecoveryResult.above w p.1 <+: RecoveryResult.above w p'.1 := hpre.filter _
  have hr : recover dir w = .ok (.ofParsed w [p]) := by
    refine recover_ok_iff.mpr ⟨[p], ?_, rfl⟩
    rw [hdir, parseFiles, hp]
    rfl
  refine ⟨_, hr, ?_, ?_, ?_⟩
  · simp [RecoveryResult.ofParsed, hentries]
  · rw [hentries, hentries']
    exact habove
  · rw [points_recover hr, points_recover hr', hdir, hdir']
    simp only [List.flatMap_cons, List.flatMap_nil, List.append_nil, segmentPoints, hentries,
      hentries']
    obtain ⟨later, hlater⟩ := habove
    rw [← hlater, List.flatMap_append]
    exact List.prefix_append _ _

end

section Example

attribute [local instance] Reference.crates

/-- A directory of one segment. -/
def oneSegment (bytes : Bytes) : WalDir := (∅ : WalDir).insert 1 bytes

/-- A frame and one byte more, and the frame alone. -/
theorem frame_loop_safe_one_frame :
    ∃ r, recover (oneSegment (encodeFrame 1 [cpuPoint 5 7])) 0 = .ok r ∧
      r.entriesReplayed = (RecoveryResult.above 0
        (segmentEntries (encodeFrame 1 [cpuPoint 5 7]))).length := by
  have hok : (recover (oneSegment (encodeFrame 1 [cpuPoint 5 7] ++ [0])) 0).isOk = true := by
    decide +kernel
  obtain ⟨-, hmono⟩ := frame_loop_safe_and_monotone
    (show (encodeFrame 1 [cpuPoint 5 7] ++ [0]).length < 2 ^ 63 by decide +kernel)
    (List.prefix_append (encodeFrame 1 [cpuPoint 5 7]) [0])
    (show (oneSegment (encodeFrame 1 [cpuPoint 5 7])).files = _ by decide +kernel)
    (show (oneSegment (encodeFrame 1 [cpuPoint 5 7] ++ [0])).files = _ by decide +kernel) 0
  cases hr' : recover (oneSegment (encodeFrame 1 [cpuPoint 5 7] ++ [0])) 0 with
  | error e =>
    rw [hr'] at hok
    cases hok
  | ok r' =>
    obtain ⟨r, hr, hcount, -⟩ := hmono r' hr'
    exact ⟨r, hr, hcount⟩

end Example

end Micius

import Micius.Wal.Writer

/-!
# WAL recovery (`wal/recovery.rs`)

`recover` reads every segment file in name order and walks each one with a
byte cursor. The inner loop gets fuel: every turn that goes on moves the
cursor by at least eight bytes, so one turn more than there are bytes is
enough (`replaySegment_fuel`).
-/

namespace Micius

open LittleEndian

/-- `RecoveryResult`. -/
structure RecoveryResult where
  points : List DataPoint
  lastSequence : Nat
  segmentsReplayed : Nat
  entriesReplayed : Nat
  tornWriteDetected : Bool

/-- The result `recover` starts from. -/
def RecoveryResult.empty : RecoveryResult := ⟨[], 0, 0, 0, false⟩

/-- The error `recover` can return on files it can read: a payload that has
the right checksum and is no `WalEntry`. -/
inductive RecoverError
  | decode
  deriving DecidableEq, Repr

namespace RecoveryResult

/-- What one replayed entry adds to the result. -/
def addEntry (r : RecoveryResult) (e : WalEntry) : RecoveryResult :=
  { r with
    lastSequence := max r.lastSequence e.sequence
    entriesReplayed := r.entriesReplayed + 1
    points := r.points ++ e.points.map WalDataPoint.toDataPoint }

/-- A torn or corrupt frame was met. -/
def torn (r : RecoveryResult) : RecoveryResult := { r with tornWriteDetected := true }

end RecoveryResult

variable [Crates]

/-- The frame loop of `recover` over one file. -/
def replaySegment (watermark : Nat) (buf : Bytes) :
    Nat → Nat → RecoveryResult → Except RecoverError RecoveryResult
  | 0, _, r => .ok r
  | fuel + 1, cursor, r =>
    -- Need at least 8 bytes for the frame header
    if cursor + 8 > buf.length then .ok r
    else
      let storedLength := fromLe (slice buf cursor 4)
      if cursor + storedLength + 8 > buf.length then .ok r.torn
      else
        let storedChecksum := fromLe (slice buf (cursor + 4) 4)
        let payload := slice buf (cursor + 8) storedLength
        if storedChecksum ≠ (Crates.crc32 payload).toNat then .ok r.torn
        else
          match Crates.walDecode payload with
          | none => .error .decode
          | some entry =>
            if entry.sequence ≤ watermark then
              replaySegment watermark buf fuel (cursor + 8 + storedLength) r
            else
              replaySegment watermark buf fuel (cursor + 8 + storedLength) (r.addEntry entry)

/-- Any fuel above the number of bytes left gives the same result. -/
theorem replaySegment_fuel (w : Nat) (buf : Bytes) {fuel fuel' cursor : Nat} (r : RecoveryResult)
    (h : buf.length < cursor + fuel) (h' : buf.length < cursor + fuel') :
    replaySegment w buf fuel cursor r = replaySegment w buf fuel' cursor r := by
  induction fuel generalizing fuel' cursor r with
  | zero =>
    have hend : cursor + 8 > buf.length := by omega
    cases fuel' with
    | zero => rfl
    | succ fuel' => rw [replaySegment, replaySegment, if_pos hend]
  | succ fuel ih =>
    cases fuel' with
    | zero =>
      have hend : cursor + 8 > buf.length := by omega
      rw [replaySegment, replaySegment, if_pos hend]
    | succ fuel' =>
      have hgo : ∀ r', replaySegment w buf fuel (cursor + 8 + fromLe (slice buf cursor 4)) r' =
          replaySegment w buf fuel' (cursor + 8 + fromLe (slice buf cursor 4)) r' :=
        fun r' => ih r' (by omega) (by omega)
      simp only [replaySegment, hgo]

/-- The loop of `recover` over the files, given by their contents. -/
def replayFiles (watermark : Nat) :
    List Bytes → RecoveryResult → Except RecoverError RecoveryResult
  | [], r => .ok r
  | buf :: files, r =>
    match replaySegment watermark buf (buf.length + 1) 0 r with
    | .error e => .error e
    | .ok r' => replayFiles watermark files { r' with segmentsReplayed := r'.segmentsReplayed + 1 }

/-- `recover`: replay the segments of a shard directory in name order,
skipping the entries at or below the snapshot watermark. -/
def recover (dir : WalDir) (snapshotWatermark : Nat) :
    Except RecoverError RecoveryResult :=
  replayFiles snapshotWatermark dir.files .empty

end Micius

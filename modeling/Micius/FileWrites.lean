import Micius.Types

/-!
# Writing to a file (`tokio::fs::File`)

The engine writes its segment and chunk files by `write_all(..).await?` and
then `sync_all().await?`. `write_all` hands the bytes to a blocking thread in
pieces of at most `maxBufSize` bytes. It waits for a piece only to hand over
the next one, so it returns the error of every piece but the last.
`sync_all` waits for the last piece and returns the result of the fsync alone:
an error of the piece is kept in the file, and the next write to the same file
returns it and writes nothing.
-/

namespace Micius

/-- `DEFAULT_MAX_BUF_SIZE`: the bytes of one piece. -/
def maxBufSize : Nat := 2 * 1024 * 1024

/-- What the operating system does with a write and with the fsync after it. -/
structure WriteIo where
  /-- The bytes that reach the file before the write fails, if it does. -/
  stopsAt : Option Nat
  /-- Whether the fsync succeeds. -/
  synced : Bool
  deriving DecidableEq, Repr

namespace WriteIo

/-- No failure. -/
def ok : WriteIo := ⟨none, true⟩

/-- The bytes that reach the file. -/
def written (io : WriteIo) (bytes : Bytes) : Bytes := io.stopsAt.elim bytes bytes.take

/-- The write fails before its last byte. -/
def fails (io : WriteIo) (bytes : Bytes) : Bool := io.stopsAt.any (· < bytes.length)

/-- The write fails in a piece that another one follows, so that `write_all`
returns the error. -/
def seen (io : WriteIo) (bytes : Bytes) : Bool :=
  io.stopsAt.any fun n => (n / maxBufSize + 1) * maxBufSize < bytes.length

/-- `write_all` and `sync_all` both return `Ok`. -/
def returnsOk (io : WriteIo) (bytes : Bytes) : Bool := !io.seen bytes && io.synced

/-- `write_all` and `sync_all` both return `Ok`, and the file is cut short. -/
def silent (io : WriteIo) (bytes : Bytes) : Bool := io.returnsOk bytes && io.fails bytes

@[simp] theorem fails_ok (bytes : Bytes) : ok.fails bytes = false := rfl

@[simp] theorem silent_ok (bytes : Bytes) : ok.silent bytes = false := rfl

/-- What reaches the file is a first part of the bytes. -/
theorem written_prefix (io : WriteIo) (bytes : Bytes) : io.written bytes <+: bytes := by
  unfold written
  cases io.stopsAt with
  | none => exact List.prefix_rfl
  | some n => exact List.take_prefix n bytes

/-- A write that does not fail puts all its bytes in the file. -/
theorem written_of_not_fails {io : WriteIo} {bytes : Bytes} (h : io.fails bytes = false) :
    io.written bytes = bytes := by
  unfold fails at h
  unfold written
  cases hstop : io.stopsAt with
  | none => rfl
  | some n =>
    rw [hstop, Option.any_some, decide_eq_false_iff_not] at h
    exact List.take_of_length_le (by omega)

/-- Two `Ok`s mean a whole file, unless the write failed in silence. -/
theorem written_of_returnsOk {io : WriteIo} {bytes : Bytes} (hok : io.returnsOk bytes = true)
    (h : io.silent bytes = false) : io.fails bytes = false ∧ io.written bytes = bytes := by
  have hfails : io.fails bytes = false := by simpa [silent, hok] using h
  exact ⟨hfails, written_of_not_fails hfails⟩

end WriteIo

end Micius

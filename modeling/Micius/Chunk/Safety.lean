import Micius.Chunk.Consistency
import Micius.Chunk.Deltas

/-!
# The chunk reader on arbitrary bytes (`chunk/reader.rs`)

`read_series` and `read_chunk` as a build with overflow checks runs them. A file
in memory has fewer than `2 ^ 63` bytes, so a cursor over the directory cannot
overflow. The column offsets are read from the file and can be any `u64`, and so
can the deltas of a timestamp column: an offset within four of `2 ^ 64` or a sum
of deltas out of range panics.
-/

namespace Micius

open LittleEndian Machine

/-! ## The reader -/

/-- `slice`. -/
def readSliceChecked (bytes : Bytes) (offset len : Nat) : Call ChunkError Bytes := do
  match get? bytes offset (← usizeAdd offset len) with
  | some part => return part
  | none => .err (.truncated len offset bytes.length)

/-- A `u32` field. -/
def readU32Checked (bytes : Bytes) (offset : Nat) : Call ChunkError Nat := do
  return fromLe (← readSliceChecked bytes offset u32Size)

/-- A `u64` field. -/
def readU64Checked (bytes : Bytes) (offset : Nat) : Call ChunkError Nat := do
  return fromLe (← readSliceChecked bytes offset u64Size)

/-- An `i64` field. -/
def readI64Checked (bytes : Bytes) (offset : Nat) : Call ChunkError Int64 := do
  return i64FromLe (← readSliceChecked bytes offset u64Size)

/-- `is_magic_valid`. -/
def isMagicValidChecked (bytes : Bytes) : Call ChunkError Unit := do
  let got ← readU32Checked bytes 0
  if got = magic then return () else .err (.invalidMagic magic got)

/-- `parse_header`. -/
def parseHeaderChecked (bytes : Bytes) : Call ChunkError ChunkHeader := do
  if bytes.length < headerSize then .err .tooSmallForHeader
  else return {
    magic := ← readU32Checked bytes 0
    version := ((← readSliceChecked bytes 4 1).head?).getD 0
    chunkId := UInt64.ofNat (← readU64Checked bytes 8)
    timeStartNs := ← readI64Checked bytes 16
    timeEndNs := ← readI64Checked bytes 24
    seriesCount := ← readU32Checked bytes 32
    totalEntries := ← readU32Checked bytes 36
    colDataOffset := ← readU64Checked bytes 40 }

/-- Whether the directory entry at the cursor has the key. -/
def entryHasKeyChecked (bytes keyBytes : Bytes) (cursor keyLen : Nat) : Call ChunkError Bool := do
  if keyBytes.length = keyLen then
    return decide (keyBytes = (← readSliceChecked bytes (← usizeAdd cursor u32Size) keyLen))
  else return false

/-- The two column offsets of the directory entry at the cursor. -/
def readOffsetsChecked (bytes : Bytes) (cursor keyLen : Nat) : Call ChunkError (Nat × Nat) := do
  let tsCursor ← usizeAdd (← usizeAdd (← usizeAdd cursor u32Size) keyLen) u32Size
  let tsColOffset ← readU64Checked bytes tsCursor
  let valColOffset ← readU64Checked bytes (← usizeAdd tsCursor u64Size)
  return (tsColOffset, valColOffset)

/-- The loop of `find_series` over the directory. -/
def findSeriesFromChecked (bytes keyBytes : Bytes) :
    Nat → Nat → Call ChunkError (Option (Nat × Nat))
  | 0, _ => return none
  | count + 1, cursor => do
    let keyLen ← readU32Checked bytes cursor
    if ← entryHasKeyChecked bytes keyBytes cursor keyLen then
      return some (← readOffsetsChecked bytes cursor keyLen)
    else
      findSeriesFromChecked bytes keyBytes count
        (← usizeAdd cursor (← usizeAdd keyLen dirEntryFixedSize))

section

variable [Crates]

/-- `is_checksum_valid`. -/
def isChecksumValidChecked (bytes : Bytes) : Call ChunkError Unit := do
  if bytes.length < checksumSize then .err (.tooSmallForChecksum bytes.length)
  else
    let (data, stored) ← splitAt bytes (← usizeSub bytes.length checksumSize)
    let computed := (Crates.crc32 data).toNat
    if computed = fromLe stored then return ()
    else .err (.crcMismatch computed (fromLe stored))

/-- One compressed column. -/
def readColumnChecked (bytes : Bytes) (offset : Nat) : Call ChunkError Bytes := do
  let len ← readU32Checked bytes offset
  match Crates.lz4Decompress (← readSliceChecked bytes (← usizeAdd offset u32Size) len) with
  | some column => return column
  | none => .err .decompress

/-- `retrieve_data`. -/
def retrieveDataChecked (bytes : Bytes) (seriesKey : SeriesKey) (tsOffset valOffset : Nat)
    (timeStartNs timeEndNs : Option Int64) : Call ChunkError (List DataPoint) := do
  let tsDecompressed ← readColumnChecked bytes tsOffset
  let valDecompressed ← readColumnChecked bytes valOffset
  if valDecompressed.length ≠ tsDecompressed.length then .err .lengthMismatch
  else
    let tsDecoded ← deltaDecodeChecked (bytesToI64Slice tsDecompressed)
    let valDecoded := bytesToF64Slice valDecompressed
    let inRange := (tsDecoded.zip valDecoded).filter fun p =>
      timeStartNs.getD Int64.minValue ≤ p.1 && p.1 ≤ timeEndNs.getD Int64.maxValue
    return inRange.map fun p => ⟨seriesKey.metricName, seriesKey.tags, p.1, p.2⟩

/-- `ChunkReader::read_series`. -/
def readSeriesChecked (bytes : Bytes) (seriesKey : SeriesKey) (timeStartNs timeEndNs : Int64) :
    Call ChunkError (Option (List DataPoint)) := do
  isMagicValidChecked bytes
  isChecksumValidChecked bytes
  let header ← parseHeaderChecked bytes
  if isWithinGlobalRange timeStartNs timeEndNs header then
    match ← findSeriesFromChecked bytes seriesKey.toBytes header.seriesCount headerSize with
    | none => return none
    | some (tsOffset, valOffset) =>
      return some (← retrieveDataChecked bytes seriesKey tsOffset valOffset timeStartNs timeEndNs)
  else return none

/-- The loop of `read_chunk` over the directory. -/
def readChunkFromChecked (bytes : Bytes) : Nat → Nat → Call ChunkError (List DataPoint)
  | 0, _ => return []
  | count + 1, cursor => do
    let keyLen ← readU32Checked bytes cursor
    let keyBytes ← readSliceChecked bytes (← usizeAdd cursor u32Size) keyLen
    let seriesKey ← Call.ofExcept ((SeriesKey.fromBytes keyBytes).mapError .key)
    let (tsColOffset, valColOffset) ← readOffsetsChecked bytes cursor keyLen
    let series ← retrieveDataChecked bytes seriesKey tsColOffset valColOffset none none
    let rest ← readChunkFromChecked bytes count
      (← usizeAdd cursor (← usizeAdd keyLen dirEntryFixedSize))
    return series ++ rest

/-- `ChunkReader::read_chunk`. -/
def readChunkChecked (bytes : Bytes) : Call ChunkError (List DataPoint) := do
  isMagicValidChecked bytes
  isChecksumValidChecked bytes
  let header ← parseHeaderChecked bytes
  readChunkFromChecked bytes header.seriesCount headerSize

end

/-! ## Reads that cannot panic -/

section Reads

variable {bytes : Bytes} {offset len : Nat}

theorem readSliceChecked_eq (h : offset + len < 2 ^ 64) :
    readSliceChecked bytes offset len = Call.ofExcept (readSlice bytes offset len) := by
  rw [readSliceChecked, usizeAdd_of_lt h, Call.ok_bind, get?, readSlice]
  by_cases hle : offset + len ≤ bytes.length
  · rw [if_pos ⟨Nat.le_add_right .., hle⟩, if_pos hle, Nat.add_sub_cancel_left]
    rfl
  · rw [if_neg fun h => hle h.2, if_neg hle]
    rfl

theorem readSliceChecked_panic (h : 2 ^ 64 ≤ offset + len) :
    readSliceChecked bytes offset len = .panic := by
  rw [readSliceChecked, usizeAdd_of_le h]
  rfl

theorem readU32Checked_eq (h : offset + 4 < 2 ^ 64) :
    readU32Checked bytes offset = Call.ofExcept (readU32 bytes offset) := by
  rw [readU32Checked, readSliceChecked_eq (show offset + u32Size < 2 ^ 64 from h)]
  exact Call.ofExcept_bind fun _ _ => rfl

theorem readU64Checked_eq (h : offset + 8 < 2 ^ 64) :
    readU64Checked bytes offset = Call.ofExcept (readU64 bytes offset) := by
  rw [readU64Checked, readSliceChecked_eq (show offset + u64Size < 2 ^ 64 from h)]
  exact Call.ofExcept_bind fun _ _ => rfl

theorem readI64Checked_eq (h : offset + 8 < 2 ^ 64) :
    readI64Checked bytes offset = Call.ofExcept (readI64 bytes offset) := by
  rw [readI64Checked, readSliceChecked_eq (show offset + u64Size < 2 ^ 64 from h)]
  exact Call.ofExcept_bind fun _ _ => rfl

theorem isMagicValidChecked_eq (bytes : Bytes) :
    isMagicValidChecked bytes = Call.ofExcept (isMagicValid bytes) := by
  rw [isMagicValidChecked, readU32Checked_eq (by decide)]
  refine Call.ofExcept_bind fun got _ => ?_
  split <;> rfl

theorem parseHeaderChecked_eq (bytes : Bytes) :
    parseHeaderChecked bytes = Call.ofExcept (parseHeader bytes) := by
  rw [parseHeaderChecked, parseHeader]
  split
  · rfl
  · rw [readU32Checked_eq (by decide), readSliceChecked_eq (by decide), readU64Checked_eq (by decide),
      readI64Checked_eq (by decide), readI64Checked_eq (by decide), readU32Checked_eq (by decide),
      readU32Checked_eq (by decide), readU64Checked_eq (by decide)]
    exact Call.ofExcept_bind fun _ _ => Call.ofExcept_bind fun _ _ => Call.ofExcept_bind fun _ _ =>
      Call.ofExcept_bind fun _ _ => Call.ofExcept_bind fun _ _ => Call.ofExcept_bind fun _ _ =>
        Call.ofExcept_bind fun _ _ => Call.ofExcept_bind fun _ _ => rfl

theorem of_readSlice {part : Bytes} (h : readSlice bytes offset len = .ok part) :
    offset + len ≤ bytes.length ∧ part = slice bytes offset len := by
  rw [readSlice] at h
  split at h
  · next hle => exact ⟨hle, (Except.ok.inj h).symm⟩
  · cases h

theorem of_readU32 {n : Nat} (h : readU32 bytes offset = .ok n) :
    offset + 4 ≤ bytes.length ∧ n < 2 ^ 32 := by
  obtain ⟨part, hpart, h⟩ := bind_eq_ok.mp h
  obtain ⟨hle, rfl⟩ := of_readSlice hpart
  obtain rfl := Except.ok.inj h
  rw [u32Size] at hle ⊢
  have hlt := fromLe_lt (slice bytes offset 4)
  rw [length_slice, Nat.min_eq_left (by omega)] at hlt
  exact ⟨hle, hlt⟩

end Reads

theorem isChecksumValidChecked_eq [Crates] (bytes : Bytes) :
    isChecksumValidChecked bytes = Call.ofExcept (isChecksumValid bytes) := by
  rw [isChecksumValidChecked, isChecksumValid]
  split
  · rfl
  · next hlen =>
    rw [usizeSub, if_pos (Nat.not_lt.mp hlen), Call.ok_bind, splitAt, if_pos (Nat.sub_le ..),
      Call.ok_bind]
    dsimp only
    split <;> rfl

/-! ## The directory -/

section Directory

variable {bytes : Bytes} (hlen : bytes.length < 2 ^ 63) {cursor keyLen : Nat}
  (hcursor : cursor + 4 ≤ bytes.length) (hkey : keyLen < 2 ^ 32)

include hlen hcursor hkey

theorem entryHasKeyChecked_eq (keyBytes : Bytes) :
    entryHasKeyChecked bytes keyBytes cursor keyLen =
      Call.ofExcept (entryHasKey bytes keyBytes cursor keyLen) := by
  rw [entryHasKeyChecked, entryHasKey]
  split
  · rw [usizeAdd_of_lt (by rw [u32Size]; omega), Call.ok_bind,
      readSliceChecked_eq (by rw [u32Size]; omega)]
    exact Call.ofExcept_bind fun _ _ => rfl
  · rfl

theorem readOffsetsChecked_eq : readOffsetsChecked bytes cursor keyLen = Call.ofExcept (do
    let tsColOffset ← readU64 bytes (cursor + u32Size + keyLen + u32Size)
    let valColOffset ← readU64 bytes (cursor + u32Size + keyLen + u32Size + u64Size)
    return (tsColOffset, valColOffset)) := by
  simp only [readOffsetsChecked, u32Size, u64Size]
  rw [usizeAdd_of_lt (by omega), Call.ok_bind, usizeAdd_of_lt (by omega), Call.ok_bind,
    usizeAdd_of_lt (by omega), Call.ok_bind, readU64Checked_eq (by omega)]
  refine Call.ofExcept_bind fun _ _ => ?_
  rw [usizeAdd_of_lt (by omega), Call.ok_bind, readU64Checked_eq (by omega)]
  exact Call.ofExcept_bind fun _ _ => rfl

theorem nextCursor_bind {α : Type} (f : Nat → Call ChunkError α) :
    (do f (← usizeAdd cursor (← usizeAdd keyLen dirEntryFixedSize))) =
      f (cursor + (keyLen + dirEntryFixedSize)) := by
  rw [usizeAdd_of_lt (by rw [dirEntryFixedSize]; omega), Call.ok_bind,
    usizeAdd_of_lt (by rw [dirEntryFixedSize]; omega), Call.ok_bind]

end Directory

/-- The directory scan of `find_series` does not panic. -/
theorem findSeriesFromChecked_eq {bytes : Bytes} (hlen : bytes.length < 2 ^ 63) (keyBytes : Bytes)
    (count : Nat) {cursor : Nat} (hcursor : cursor < 2 ^ 63 + 2 ^ 33) :
    findSeriesFromChecked bytes keyBytes count cursor =
      Call.ofExcept (findSeriesFrom bytes keyBytes count cursor) := by
  induction count generalizing cursor with
  | zero => rfl
  | succ count ih =>
    rw [findSeriesFromChecked, findSeriesFrom, readU32Checked_eq (by omega)]
    refine Call.ofExcept_bind fun keyLen hread => ?_
    obtain ⟨hin, hkey⟩ := of_readU32 hread
    rw [entryHasKeyChecked_eq hlen hin hkey]
    refine Call.ofExcept_bind fun found _ => ?_
    split
    · rw [readOffsetsChecked_eq hlen hin hkey]
      refine (Call.ofExcept_bind (g := fun p => pure (some p)) fun _ _ => rfl).trans ?_
      simp only [bind_assoc, pure_bind]
    · rw [nextCursor_bind hlen hin hkey]
      exact ih (by rw [dirEntryFixedSize]; omega)

section

variable [Crates]

/-! ## The columns -/

/-- The column offsets of an entry leave room for the length field, as far as
they are looked at, and the timestamps decode within `i64`. -/
def ColumnsFit (bytes : Bytes) (offsets : Nat × Nat) : Prop :=
  offsets.1 + 4 < 2 ^ 64 ∧ ∀ tsColumn, readColumn bytes offsets.1 = .ok tsColumn →
    offsets.2 + 4 < 2 ^ 64 ∧ ∀ valColumn, readColumn bytes offsets.2 = .ok valColumn →
      valColumn.length = tsColumn.length → DeltasFit (bytesToI64Slice tsColumn)

section Columns

variable {bytes : Bytes} (hlen : bytes.length < 2 ^ 63)

include hlen in
theorem readColumnChecked_eq {offset : Nat} (h : offset + 4 < 2 ^ 64) :
    readColumnChecked bytes offset = Call.ofExcept (readColumn bytes offset) := by
  rw [readColumnChecked, readColumn, readU32Checked_eq h]
  refine Call.ofExcept_bind fun len hread => ?_
  obtain ⟨hin, hcol⟩ := of_readU32 hread
  rw [usizeAdd_of_lt (show offset + u32Size < 2 ^ 64 from h), Call.ok_bind,
    readSliceChecked_eq (by rw [u32Size]; omega)]
  refine Call.ofExcept_bind fun block _ => ?_
  cases Crates.lz4Decompress block with
  | none => rfl
  | some column => rfl

theorem readColumnChecked_panic {offset : Nat} (h : ¬ offset + 4 < 2 ^ 64) :
    readColumnChecked bytes offset = .panic := by
  rw [readColumnChecked, readU32Checked,
    readSliceChecked_panic (show 2 ^ 64 ≤ offset + u32Size from Nat.not_lt.mp h)]
  rfl

variable {key : SeriesKey} {offsets : Nat × Nat} {timeStartNs timeEndNs : Option Int64}

include hlen

theorem retrieveDataChecked_eq (h : ColumnsFit bytes offsets) :
    retrieveDataChecked bytes key offsets.1 offsets.2 timeStartNs timeEndNs =
      Call.ofExcept (retrieveData bytes key offsets.1 offsets.2 timeStartNs timeEndNs) := by
  rw [retrieveDataChecked, retrieveData, readColumnChecked_eq hlen h.1]
  refine Call.ofExcept_bind fun tsColumn hts => ?_
  obtain ⟨hval, hdeltas⟩ := h.2 tsColumn hts
  rw [readColumnChecked_eq hlen hval]
  refine Call.ofExcept_bind fun valColumn hcol => ?_
  split
  · rfl
  · next hsame =>
    rw [deltaDecodeChecked_of_fit (hdeltas valColumn hcol (not_not.mp hsame))]
    rfl

theorem retrieveDataChecked_panic (h : ¬ ColumnsFit bytes offsets) :
    retrieveDataChecked bytes key offsets.1 offsets.2 timeStartNs timeEndNs = .panic := by
  rw [retrieveDataChecked]
  by_cases hts : offsets.1 + 4 < 2 ^ 64
  · rw [readColumnChecked_eq hlen hts]
    -- the first column is read, since nothing else can be wrong
    obtain ⟨tsColumn, hread, hrest⟩ : ∃ tsColumn, readColumn bytes offsets.1 = .ok tsColumn ∧
        ¬ (offsets.2 + 4 < 2 ^ 64 ∧ ∀ valColumn, readColumn bytes offsets.2 = .ok valColumn →
          valColumn.length = tsColumn.length → DeltasFit (bytesToI64Slice tsColumn)) := by
      by_contra hnone
      refine h ⟨hts, fun tsColumn hread => ?_⟩
      by_contra hrest
      exact hnone ⟨tsColumn, hread, hrest⟩
    rw [hread, Call.ofExcept_ok, Call.ok_bind]
    by_cases hval : offsets.2 + 4 < 2 ^ 64
    · rw [readColumnChecked_eq hlen hval]
      obtain ⟨valColumn, hread', hsame, hdeltas⟩ : ∃ valColumn,
          readColumn bytes offsets.2 = .ok valColumn ∧ valColumn.length = tsColumn.length ∧
            ¬ DeltasFit (bytesToI64Slice tsColumn) := by
        by_contra hnone
        refine hrest ⟨hval, fun valColumn hread' hsame => ?_⟩
        by_contra hdeltas
        exact hnone ⟨valColumn, hread', hsame, hdeltas⟩
      rw [hread', Call.ofExcept_ok, Call.ok_bind, if_neg (not_not.mpr hsame),
        deltaDecodeChecked_of_not_fit hdeltas]
      rfl
    · rw [readColumnChecked_panic hval]
      rfl
  · rw [readColumnChecked_panic hts]
    rfl

end Columns

/-! ## Reading a chunk -/

/-- The column offsets that the loop of `read_chunk` goes to: those of every
entry up to the first one it fails at. -/
def chunkColumnsFrom (bytes : Bytes) : Nat → Nat → List (Nat × Nat)
  | 0, _ => []
  | count + 1, cursor =>
    match readDirEntry bytes cursor with
    | .error _ => []
    | .ok e => (e.tsColOffset, e.valColOffset) ::
      match retrieveData bytes e.key e.tsColOffset e.valColOffset none none with
      | .error _ => []
      | .ok _ => chunkColumnsFrom bytes count (cursor + (e.keyLen + dirEntryFixedSize))

/-- What both readers do first: the checks, and the header. -/
def readHeader (bytes : Bytes) : Except ChunkError ChunkHeader := do
  isMagicValid bytes
  isChecksumValid bytes
  parseHeader bytes

/-- The column offsets that `read_chunk` goes to. -/
def chunkColumns (bytes : Bytes) : List (Nat × Nat) :=
  match readHeader bytes with
  | .error _ => []
  | .ok header => chunkColumnsFrom bytes header.seriesCount headerSize

/-- The column offsets that `read_series` goes to, if it finds the series. -/
def seriesColumns (bytes : Bytes) (key : SeriesKey) (timeStartNs timeEndNs : Int64) :
    List (Nat × Nat) :=
  match readHeader bytes with
  | .error _ => []
  | .ok header =>
    if isWithinGlobalRange timeStartNs timeEndNs header then
      match findSeries bytes header.seriesCount key with
      | .ok (some offsets) => [offsets]
      | _ => []
    else []

section Chunk

variable {bytes : Bytes} (hlen : bytes.length < 2 ^ 63)

omit [Crates] in
theorem of_readDirEntry {cursor : Nat} {e : DirFields} (h : readDirEntry bytes cursor = .ok e) :
    cursor + 4 ≤ bytes.length ∧ e.keyLen < 2 ^ 32 := by
  obtain ⟨keyLen, hread, h⟩ := bind_eq_ok.mp h
  obtain ⟨keyBytes, -, h⟩ := bind_eq_ok.mp h
  obtain ⟨key, -, h⟩ := bind_eq_ok.mp h
  obtain ⟨tsColOffset, -, h⟩ := bind_eq_ok.mp h
  obtain ⟨valColOffset, -, h⟩ := bind_eq_ok.mp h
  obtain rfl := Except.ok.inj h
  exact of_readU32 hread

include hlen

/-- One turn of the loop: the directory entry, and then its columns. -/
theorem readChunkFromChecked_succ (count : Nat) {cursor : Nat} (hcursor : cursor + 4 < 2 ^ 64) :
    readChunkFromChecked bytes (count + 1) cursor = do
      let e ← Call.ofExcept (readDirEntry bytes cursor)
      let series ← retrieveDataChecked bytes e.key e.tsColOffset e.valColOffset none none
      let rest ← readChunkFromChecked bytes count (cursor + (e.keyLen + dirEntryFixedSize))
      return series ++ rest := by
  rw [readChunkFromChecked, readDirEntry, readU32Checked_eq hcursor]
  cases hread : readU32 bytes cursor with
  | error e => rfl
  | ok keyLen =>
    obtain ⟨hin, hkey⟩ := of_readU32 hread
    rw [Call.ofExcept_ok, Call.ok_bind, usizeAdd_of_lt (by rw [u32Size]; omega), Call.ok_bind,
      readSliceChecked_eq (by rw [u32Size]; omega), readOffsetsChecked_eq hlen hin hkey]
    simp only [nextCursor_bind hlen hin hkey, Call.ofExcept_bind_eq, bind_assoc, Call.ofExcept_ok,
      Call.ok_bind, Call.ofExcept_pure, pure_bind]

/-- The loop of `read_chunk` panics exactly at columns that do not fit. -/
theorem readChunkFromChecked_eq (count : Nat) {cursor : Nat} (hcursor : cursor < 2 ^ 63 + 2 ^ 33)
    (h : ∀ offsets ∈ chunkColumnsFrom bytes count cursor, ColumnsFit bytes offsets) :
    readChunkFromChecked bytes count cursor = Call.ofExcept (readChunkFrom bytes count cursor) := by
  induction count generalizing cursor with
  | zero => rfl
  | succ count ih =>
    rw [readChunkFromChecked_succ hlen count (by omega), readChunkFrom_succ]
    refine Call.ofExcept_bind fun e he => ?_
    obtain ⟨hin, hkey⟩ := of_readDirEntry he
    rw [chunkColumnsFrom, he] at h
    have hfit := h (e.tsColOffset, e.valColOffset) List.mem_cons_self
    rw [retrieveDataChecked_eq hlen hfit]
    refine Call.ofExcept_bind fun series hseries => ?_
    rw [ih (by rw [dirEntryFixedSize]; omega) fun offsets hmem => h offsets ?_]
    · exact Call.ofExcept_bind fun _ _ => rfl
    · dsimp only at hseries ⊢
      rw [hseries]
      exact List.mem_cons_of_mem _ hmem

theorem readChunkFromChecked_panic (count : Nat) {cursor : Nat} (hcursor : cursor < 2 ^ 63 + 2 ^ 33)
    {offsets : Nat × Nat} (hmem : offsets ∈ chunkColumnsFrom bytes count cursor)
    (h : ¬ ColumnsFit bytes offsets) : readChunkFromChecked bytes count cursor = .panic := by
  induction count generalizing cursor with
  | zero => cases hmem
  | succ count ih =>
    rw [readChunkFromChecked_succ hlen count (by omega)]
    rw [chunkColumnsFrom] at hmem
    cases he : readDirEntry bytes cursor with
    | error err =>
      rw [he] at hmem
      cases hmem
    | ok e =>
      obtain ⟨hin, hkey⟩ := of_readDirEntry he
      rw [he] at hmem
      rw [Call.ofExcept_ok, Call.ok_bind]
      by_cases hfit : ColumnsFit bytes (e.tsColOffset, e.valColOffset)
      · rw [retrieveDataChecked_eq hlen hfit]
        -- the entry is read, and the loop panics at a later one
        have hrest := (List.mem_cons.mp hmem).resolve_left fun heq => h (heq ▸ hfit)
        cases hseries : retrieveData bytes e.key e.tsColOffset e.valColOffset none none with
        | error err =>
          rw [hseries] at hrest
          cases hrest
        | ok series =>
          rw [hseries] at hrest
          rw [Call.ofExcept_ok, Call.ok_bind, ih (by rw [dirEntryFixedSize]; omega) hrest,
            Call.panic_bind]
      · rw [retrieveDataChecked_panic hlen hfit, Call.panic_bind]

/-! ## The readers -/

omit hlen in
theorem readHeader_bind {α : Type} (f : ChunkHeader → Except ChunkError α) :
    (do isMagicValid bytes; isChecksumValid bytes; f (← parseHeader bytes)) =
      readHeader bytes >>= f := by
  simp only [readHeader, bind_assoc]

omit hlen in
theorem readHeaderChecked_bind {α : Type} (f : ChunkHeader → Call ChunkError α) :
    (do isMagicValidChecked bytes; isChecksumValidChecked bytes; f (← parseHeaderChecked bytes)) =
      Call.ofExcept (readHeader bytes) >>= f := by
  rw [isMagicValidChecked_eq, isChecksumValidChecked_eq, parseHeaderChecked_eq]
  simp only [readHeader, Call.ofExcept_bind_eq, bind_assoc]

/-- `read_chunk` without a panic is `readChunk`. -/
theorem readChunkChecked_eq (h : ∀ offsets ∈ chunkColumns bytes, ColumnsFit bytes offsets) :
    readChunkChecked bytes = Call.ofExcept (readChunk bytes) := by
  rw [readChunkChecked, readHeaderChecked_bind, readChunk, readHeader_bind]
  refine Call.ofExcept_bind fun header hheader => ?_
  rw [chunkColumns, hheader] at h
  exact readChunkFromChecked_eq hlen header.seriesCount (by decide) h

theorem readChunkChecked_panic {offsets : Nat × Nat} (hmem : offsets ∈ chunkColumns bytes)
    (h : ¬ ColumnsFit bytes offsets) : readChunkChecked bytes = .panic := by
  rw [readChunkChecked, readHeaderChecked_bind]
  rw [chunkColumns] at hmem
  split at hmem
  · cases hmem
  · next header hheader =>
    rw [hheader, Call.ofExcept_ok, Call.ok_bind]
    exact readChunkFromChecked_panic hlen header.seriesCount (by decide) hmem h

variable {key : SeriesKey} {timeStartNs timeEndNs : Int64}

/-- `read_series` without a panic is `readSeries`. -/
theorem readSeriesChecked_eq
    (h : ∀ offsets ∈ seriesColumns bytes key timeStartNs timeEndNs, ColumnsFit bytes offsets) :
    readSeriesChecked bytes key timeStartNs timeEndNs =
      Call.ofExcept (readSeries bytes key timeStartNs timeEndNs) := by
  rw [readSeriesChecked, readHeaderChecked_bind, readSeries, readHeader_bind]
  refine Call.ofExcept_bind fun header hheader => ?_
  rw [seriesColumns, hheader] at h
  dsimp only at h
  by_cases hrange : isWithinGlobalRange timeStartNs timeEndNs header
  · rw [if_pos hrange] at h ⊢
    rw [if_pos hrange, findSeriesFromChecked_eq hlen _ _ (by decide)]
    refine Call.ofExcept_bind fun found hfound => ?_
    cases found with
    | none => rfl
    | some offsets =>
      rw [findSeries, hfound] at h
      dsimp only
      rw [retrieveDataChecked_eq hlen (h offsets List.mem_cons_self)]
      exact Call.ofExcept_bind fun _ _ => rfl
  · rw [if_neg hrange, if_neg hrange]
    rfl

theorem readSeriesChecked_panic {offsets : Nat × Nat}
    (hmem : offsets ∈ seriesColumns bytes key timeStartNs timeEndNs)
    (h : ¬ ColumnsFit bytes offsets) :
    readSeriesChecked bytes key timeStartNs timeEndNs = .panic := by
  rw [readSeriesChecked, readHeaderChecked_bind]
  rw [seriesColumns] at hmem
  split at hmem
  · cases hmem
  · next header hheader =>
    rw [hheader, Call.ofExcept_ok, Call.ok_bind]
    split at hmem
    · next hrange =>
      rw [if_pos hrange, findSeriesFromChecked_eq hlen _ _ (by decide)]
      split at hmem
      · next found hfound =>
        obtain rfl := List.mem_singleton.mp hmem
        rw [findSeries] at hfound
        rw [hfound, Call.ofExcept_ok, Call.ok_bind]
        dsimp only
        rw [retrieveDataChecked_panic hlen h, Call.panic_bind]
      · cases hmem
    · cases hmem

/-- The readers return on every file, unless an entry they come to has a column
offset within four of `2 ^ 64` or timestamps that do not decode within `i64`. -/
theorem chunk_reader_returns_iff (key : SeriesKey) (timeStartNs timeEndNs : Int64) :
    (readSeriesChecked bytes key timeStartNs timeEndNs ≠ .panic ↔
      ∀ offsets ∈ seriesColumns bytes key timeStartNs timeEndNs, ColumnsFit bytes offsets) ∧
    (readChunkChecked bytes ≠ .panic ↔
      ∀ offsets ∈ chunkColumns bytes, ColumnsFit bytes offsets) := by
  constructor
  · constructor
    · intro hret offsets hmem
      by_contra hfit
      exact hret (readSeriesChecked_panic hlen hmem hfit)
    · intro hfit
      rw [readSeriesChecked_eq hlen hfit]
      exact Call.ofExcept_ne_panic _
  · constructor
    · intro hret offsets hmem
      by_contra hfit
      exact hret (readChunkChecked_panic hlen hmem hfit)
    · intro hfit
      rw [readChunkChecked_eq hlen hfit]
      exact Call.ofExcept_ne_panic _

end Chunk

end

section Example

attribute [local instance] Reference.crates

/-- The file of one point with another offset of the timestamp column, and the
checksum computed again. -/
def withTsOffset (offset : Nat) : Bytes :=
  match ChunkWriter.write 1 onePoint with
  | .error _ => []
  | .ok (bytes, _) =>
    let buf := bytes.take 59 ++ toLe 8 offset ++ slice bytes 67 (bytes.length - checksumSize - 67)
    buf ++ toLe 4 (Crates.crc32 buf).toNat

/-- The earliest and the latest timestamp: their distance wraps around to -1. -/
def endPoints : SeriesData :=
  (∅ : SeriesData).insert ⟨"cpu", ∅⟩ [(Int64.minValue, ⟨7⟩), (Int64.maxValue, ⟨8⟩)]

def endPointsFile : Bytes :=
  match ChunkWriter.write 1 endPoints with
  | .error _ => []
  | .ok (bytes, _) => bytes

/-- The file as it is written is read without a panic, and its columns fit. -/
theorem chunk_reader_returns_onePoint :
    readChunkChecked (withTsOffset 91) ≠ .panic ∧ (chunkColumns (withTsOffset 91)).length = 1 ∧
      ∀ offsets ∈ chunkColumns (withTsOffset 91), ColumnsFit (withTsOffset 91) offsets := by
  have hret : readChunkChecked (withTsOffset 91) ≠ .panic := by decide +kernel
  exact ⟨hret, by decide +kernel,
    (chunk_reader_returns_iff (by decide +kernel) ⟨"cpu", ∅⟩ 0 9).2.mp hret⟩

/-- An offset of `2 ^ 64 - 1`, and a delta that leaves `i64`: both readers panic. -/
theorem chunk_reader_panics :
    readChunkChecked (withTsOffset (2 ^ 64 - 1)) = .panic ∧
    readSeriesChecked (withTsOffset (2 ^ 64 - 1)) ⟨"cpu", ∅⟩ 0 9 = .panic ∧
    readChunkChecked endPointsFile = .panic ∧
    readSeriesChecked endPointsFile ⟨"cpu", ∅⟩ 0 9 = .panic := by
  decide +kernel

end Example

end Micius

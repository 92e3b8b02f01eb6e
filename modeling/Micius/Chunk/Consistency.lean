import Micius.Chunk.RoundTrip

/-!
# What an accepted chunk file says about itself (`chunk/reader.rs`)

`read_chunk` checks the magic number and the checksum. The version, the entry
counts of the directory and the total of the header are parsed or skipped, and
compared with nothing.
-/

namespace Micius

open LittleEndian

/-- The fields of a directory entry: those `read_chunk` reads, and the entry
count it skips. -/
structure DirFields where
  keyLen : Nat
  key : SeriesKey
  entryCount : Nat
  tsColOffset : Nat
  valColOffset : Nat

/-- The directory entry at a cursor, as `read_chunk` reads it. -/
def readDirEntry (bytes : Bytes) (cursor : Nat) : Except ChunkError DirFields := do
  let keyLen ← readU32 bytes cursor
  let keyBytes ← readSlice bytes (cursor + u32Size) keyLen
  let key ← (SeriesKey.fromBytes keyBytes).mapError .key
  let tsCursor := cursor + u32Size + keyLen + u32Size
  let tsColOffset ← readU64 bytes tsCursor
  let valColOffset ← readU64 bytes (tsCursor + u64Size)
  return ⟨keyLen, key, fromLe (slice bytes (cursor + u32Size + keyLen) u32Size), tsColOffset,
    valColOffset⟩

/-- The directory, entry by entry. -/
def readDirectory (bytes : Bytes) : Nat → Nat → Except ChunkError (List DirFields)
  | 0, _ => return []
  | count + 1, cursor => do
    let e ← readDirEntry bytes cursor
    let rest ← readDirectory bytes count (cursor + (e.keyLen + dirEntryFixedSize))
    return e :: rest

section

variable [Crates]

/-- What a file says about itself: the version is the reader's, every entry
count is the number of values in the timestamp column of its entry, and the
total is the sum of the entry counts. -/
structure Consistent (bytes : Bytes) (header : ChunkHeader) (dir : List DirFields) : Prop where
  version : bytes[4]? = some version
  columns : ∀ e ∈ dir, ∀ column, readColumn bytes e.tsColOffset = .ok column →
    column.length / 8 = e.entryCount
  total : header.totalEntries = (dir.map DirFields.entryCount).sum

/-! ## The loop, entry by entry -/

omit [Crates] in
theorem bind_eq_ok {ε α β : Type} {x : Except ε α} {f : α → Except ε β} {b : β} :
    (x >>= f) = .ok b ↔ ∃ a, x = .ok a ∧ f a = .ok b := by
  cases x with
  | error e => simp [bind, Except.bind]
  | ok a => simp [bind, Except.bind]

/-- One turn of the loop of `read_chunk`. -/
theorem readChunkFrom_succ (bytes : Bytes) (count cursor : Nat) :
    readChunkFrom bytes (count + 1) cursor = do
      let e ← readDirEntry bytes cursor
      let series ← retrieveData bytes e.key e.tsColOffset e.valColOffset none none
      let rest ← readChunkFrom bytes count (cursor + (e.keyLen + dirEntryFixedSize))
      return series ++ rest := by
  rw [readChunkFrom, readDirEntry]
  simp only [bind_assoc, pure_bind]

/-- The series a directory entry yields. -/
def Yields (bytes : Bytes) (e : DirFields) (series : List DataPoint) : Prop :=
  retrieveData bytes e.key e.tsColOffset e.valColOffset none none = .ok series

/-- A file that is read has a directory, and every entry of it yields a series. -/
theorem readChunkFrom_ok {bytes : Bytes} {count cursor : Nat} {points : List DataPoint}
    (h : readChunkFrom bytes count cursor = .ok points) :
    ∃ dir series, readDirectory bytes count cursor = .ok dir ∧
      List.Forall₂ (Yields bytes) dir series ∧ points = series.flatten := by
  induction count generalizing cursor points with
  | zero =>
    obtain rfl := Except.ok.inj h
    exact ⟨[], [], rfl, .nil, rfl⟩
  | succ count ih =>
    rw [readChunkFrom_succ] at h
    obtain ⟨e, he, h⟩ := bind_eq_ok.mp h
    obtain ⟨ps, hps, h⟩ := bind_eq_ok.mp h
    obtain ⟨rest, hrest, h⟩ := bind_eq_ok.mp h
    obtain rfl := Except.ok.inj h
    obtain ⟨dir, series, hdir, hseries, rfl⟩ := ih hrest
    refine ⟨e :: dir, ps :: series, ?_, .cons hps hseries, rfl⟩
    exact bind_eq_ok.mpr ⟨e, he, bind_eq_ok.mpr ⟨dir, hdir, rfl⟩⟩

/-! ## The number of points of an entry -/

omit [Crates] in
theorem length_sumsFrom (prev : Int64) (ds : List Int64) : (sumsFrom prev ds).length = ds.length := by
  induction ds generalizing prev with
  | nil => rfl
  | cons d ds ih => rw [sumsFrom, List.length_cons, List.length_cons, ih]

omit [Crates] in
theorem length_deltaDecode (ds : List Int64) : (deltaDecode ds).length = ds.length := by
  cases ds with
  | nil => rfl
  | cons x ds => rw [deltaDecode, List.length_cons, List.length_cons, length_sumsFrom]

omit [Crates] in
theorem length_chunksExact8 (bytes : Bytes) : (chunksExact8 bytes).length = bytes.length / 8 := by
  rw [chunksExact8, List.length_map, List.length_range]

/-- Without a time range all values of the columns become points. -/
theorem Yields.length {bytes : Bytes} {e : DirFields} {series : List DataPoint}
    (h : Yields bytes e series) : ∃ column, readColumn bytes e.tsColOffset = .ok column ∧
      series.length = column.length / 8 := by
  rw [Yields, retrieveData] at h
  obtain ⟨tsColumn, hts, h⟩ := bind_eq_ok.mp h
  obtain ⟨valColumn, -, h⟩ := bind_eq_ok.mp h
  refine ⟨tsColumn, hts, ?_⟩
  split at h
  · cases h
  · next hlen =>
    have hlen : valColumn.length = tsColumn.length := not_not.mp hlen
    have hall : ∀ p : Int64 × F64, (decide (Int64.minValue ≤ p.1) &&
        decide (p.1 ≤ Int64.maxValue)) = true := by
      intro p
      simp [Int64.minValue_le, Int64.le_maxValue]
    obtain rfl := Except.ok.inj h
    simp only [List.length_map, Option.getD_none, hall, List.filter_true, List.length_zip,
      length_deltaDecode, bytesToI64Slice, bytesToF64Slice, length_chunksExact8, hlen, Nat.min_self]

/-- Every entry count is that of the points returned exactly if it is that of
the column. -/
theorem forall₂_length_iff {bytes : Bytes} {dir : List DirFields} {series : List (List DataPoint)}
    (h : List.Forall₂ (Yields bytes) dir series) :
    List.Forall₂ (fun e ps => ps.length = e.entryCount) dir series ↔
      ∀ e ∈ dir, ∀ column, readColumn bytes e.tsColOffset = .ok column →
        column.length / 8 = e.entryCount := by
  induction h with
  | nil => simp
  | @cons e ps dir series hps _ ih =>
    obtain ⟨column, hcolumn, hlen⟩ := hps.length
    rw [List.forall₂_cons, ih, List.forall_mem_cons, hlen]
    refine and_congr_left fun _ => ⟨?_, fun hall => hall column hcolumn⟩
    intro heq column' hcolumn'
    rw [hcolumn, Except.ok.injEq] at hcolumn'
    rw [← hcolumn', heq]

omit [Crates] in
theorem length_flatten_of_forall₂ {dir : List DirFields} {series : List (List DataPoint)}
    (h : List.Forall₂ (fun e ps => ps.length = e.entryCount) dir series) :
    series.flatten.length = (dir.map DirFields.entryCount).sum := by
  induction h with
  | nil => rfl
  | cons hps _ ih => rw [List.flatten_cons, List.length_append, hps, ih, List.map_cons, List.sum_cons]

omit [Crates] in
theorem version_parseHeader {bytes : Bytes} {header : ChunkHeader}
    (h : parseHeader bytes = .ok header) : bytes[4]? = some header.version := by
  rw [parseHeader] at h
  split at h
  · cases h
  · next hlen =>
    have h5 : 5 ≤ bytes.length := by
      rw [headerSize] at hlen
      omega
    obtain ⟨magic, -, h⟩ := bind_eq_ok.mp h
    obtain ⟨field, hfield, h⟩ := bind_eq_ok.mp h
    obtain ⟨chunkId, -, h⟩ := bind_eq_ok.mp h
    obtain ⟨timeStart, -, h⟩ := bind_eq_ok.mp h
    obtain ⟨timeEnd, -, h⟩ := bind_eq_ok.mp h
    obtain ⟨seriesCount, -, h⟩ := bind_eq_ok.mp h
    obtain ⟨totalEntries, -, h⟩ := bind_eq_ok.mp h
    obtain ⟨colDataOffset, -, h⟩ := bind_eq_ok.mp h
    obtain rfl := Except.ok.inj h
    rw [readSlice, if_pos h5, Except.ok.injEq] at hfield
    have hget : field.head? = bytes[4]? := by
      rw [← hfield, slice, List.head?_take, if_neg (by decide), List.head?_drop]
    rw [hget, List.getElem?_eq_getElem h5]
    rfl

/-- **What acceptance means.** A file that `read_chunk` accepts has the right
magic number and checksum. It has the reader's version, as many points in every
entry as the entry says, and as many in all as the header says, exactly if it is
consistent. -/
theorem readChunk_accepts_consistent_iff {bytes : Bytes} {points : List DataPoint}
    (h : readChunk bytes = .ok points) :
    isMagicValid bytes = .ok () ∧ isChecksumValid bytes = .ok () ∧
    ∃ header dir series, parseHeader bytes = .ok header ∧
      readDirectory bytes header.seriesCount headerSize = .ok dir ∧
      List.Forall₂ (Yields bytes) dir series ∧ points = series.flatten ∧
      (header.version = version ∧
        List.Forall₂ (fun e ps => ps.length = e.entryCount) dir series ∧
        points.length = header.totalEntries ↔ Consistent bytes header dir) := by
  obtain ⟨⟨⟩, hmagic, h⟩ := bind_eq_ok.mp h
  obtain ⟨⟨⟩, hsum, h⟩ := bind_eq_ok.mp h
  obtain ⟨header, hheader, h⟩ := bind_eq_ok.mp h
  obtain ⟨dir, series, hdir, hseries, rfl⟩ := readChunkFrom_ok h
  refine ⟨hmagic, hsum, header, dir, series, hheader, hdir, hseries, rfl, ?_⟩
  have hversion := version_parseHeader hheader
  have hcounts := forall₂_length_iff hseries
  constructor
  · rintro ⟨hv, hlen, htotal⟩
    exact ⟨hversion.trans (congrArg some hv), hcounts.mp hlen,
      htotal.symm.trans (length_flatten_of_forall₂ hlen)⟩
  · rintro ⟨hv, hcolumns, htotal⟩
    have hlen := hcounts.mpr hcolumns
    exact ⟨Option.some.inj (hversion.symm.trans hv), hlen,
      (length_flatten_of_forall₂ hlen).trans htotal.symm⟩

end

section Example

attribute [local instance] Reference.crates

/-- One point of `cpu`. -/
def onePoint : SeriesData := (∅ : SeriesData).insert ⟨"cpu", ∅⟩ [(5, ⟨7⟩)]

/-- The file of one point, with one byte changed and the checksum computed
again. -/
def resealed (i : Nat) (b : UInt8) : Bytes :=
  match ChunkWriter.write 1 onePoint with
  | .error _ => []
  | .ok (bytes, _) =>
    let buf := (bytes.take (bytes.length - checksumSize)).set i b
    buf ++ toLe 4 (Crates.crc32 buf).toNat

/-- The written file is accepted and consistent. -/
theorem readChunk_accepts_consistent_onePoint : ∃ points header dir,
    readChunk (resealed 4 1) = .ok points ∧ parseHeader (resealed 4 1) = .ok header ∧
      Consistent (resealed 4 1) header dir := by
  have hread : (readChunk (resealed 4 1)).toOption = some [cpuPoint 5 7] := by decide +kernel
  have hok : readChunk (resealed 4 1) = .ok [cpuPoint 5 7] := by
    cases h : readChunk (resealed 4 1) with
    | error e => simp [h, Except.toOption] at hread
    | ok points => simpa [h, Except.toOption] using hread
  obtain ⟨-, -, header, dir, series, hheader, hdir, hseries, hflat, hiff⟩ :=
    readChunk_accepts_consistent_iff hok
  have hfields : (parseHeader (resealed 4 1)).toOption.map (fun h => (h.version, h.totalEntries)) =
      some (1, 1) := by decide +kernel
  have hcounts : (parseHeader (resealed 4 1) >>= fun h =>
      readDirectory (resealed 4 1) h.seriesCount headerSize).toOption.map
        (List.map DirFields.entryCount) = some [1] := by decide +kernel
  simp only [hheader, hdir, bind, Except.bind, Except.toOption, Option.map_some, Option.some.injEq,
    Prod.mk.injEq] at hfields hcounts
  refine ⟨_, header, dir, hok, hheader, hiff.mp ⟨hfields.1, ?_, hfields.2.symm⟩⟩
  -- one entry, and its series is the whole of what was read
  obtain ⟨e, rfl, he⟩ := List.map_eq_singleton_iff.mp hcounts
  obtain ⟨ps, rest, hps, hrest, rfl⟩ := List.forall₂_cons_left_iff.mp hseries
  obtain rfl := List.forall₂_nil_left_iff.mp hrest
  rw [List.flatten_singleton] at hflat
  exact .cons (by rw [← hflat, he]; rfl) .nil

/-- Version 2, a total of 9 points, and 9 points in the entry of `cpu`: each of
the three files is accepted, and one point is returned. -/
theorem readChunk_accepts_inconsistent :
    ((readChunk (resealed 4 2)).toOption = some [cpuPoint 5 7] ∧
      (parseHeader (resealed 4 2)).toOption.map ChunkHeader.version = some 2) ∧
    ((readChunk (resealed 36 9)).toOption = some [cpuPoint 5 7] ∧
      (parseHeader (resealed 36 9)).toOption.map ChunkHeader.totalEntries = some 9) ∧
    (readChunk (resealed 55 9)).toOption = some [cpuPoint 5 7] ∧
      (readDirEntry (resealed 55 9) 48).toOption.map DirFields.entryCount = some 9 := by
  decide +kernel

end Example

end Micius

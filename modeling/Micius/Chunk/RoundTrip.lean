import Mathlib.Data.List.Forall2
import Micius.Chunk.Reader
import Micius.Reference.Instance

/-!
# Reading back a written chunk

The reader finds every field where the writer put it: the header, the
directory entries behind the cursor, and the columns at the offsets that
the two-pass writer computed before it knew where they would stand.
-/

namespace Micius

open LittleEndian

/-! ## Slices of a concatenation -/

theorem readSlice_append {pre mid post : Bytes} {offset len : Nat} (hoff : offset = pre.length)
    (hlen : len = mid.length) : readSlice (pre ++ (mid ++ post)) offset len = .ok mid := by
  have hle : offset + len ≤ (pre ++ (mid ++ post)).length := by
    rw [List.length_append, List.length_append]
    omega
  rw [readSlice, if_pos hle, slice_append hoff hlen]

theorem readU32_append {pre post : Bytes} {offset n : Nat} (hoff : offset = pre.length)
    (hn : n < 2 ^ 32) : readU32 (pre ++ (toLe 4 n ++ post)) offset = .ok n := by
  have hslice : readSlice (pre ++ (toLe 4 n ++ post)) offset u32Size = .ok (toLe 4 n) :=
    readSlice_append hoff (length_toLe 4 n).symm
  have hval : fromLe (toLe 4 n) = n := fromLe_toLe_of_lt hn
  simp [readU32, hslice, hval, bind, Except.bind, pure, Except.pure]

theorem readU64_append {pre post : Bytes} {offset n : Nat} (hoff : offset = pre.length)
    (hn : n < 2 ^ 64) : readU64 (pre ++ (toLe 8 n ++ post)) offset = .ok n := by
  have hslice : readSlice (pre ++ (toLe 8 n ++ post)) offset u64Size = .ok (toLe 8 n) :=
    readSlice_append hoff (length_toLe 8 n).symm
  have hval : fromLe (toLe 8 n) = n := fromLe_toLe_of_lt hn
  simp [readU64, hslice, hval, bind, Except.bind, pure, Except.pure]

theorem readI64_append {pre post : Bytes} {offset : Nat} (hoff : offset = pre.length)
    (x : Int64) : readI64 (pre ++ (i64ToLe x ++ post)) offset = .ok x := by
  have hslice : readSlice (pre ++ (i64ToLe x ++ post)) offset u64Size = .ok (i64ToLe x) :=
    readSlice_append hoff (length_i64ToLe x).symm
  simp [readI64, hslice, bind, Except.bind, pure, Except.pure]

/-! ## The header -/

section Header

variable (h : ChunkHeader) (rest : Bytes)

theorem readU32_magic (hm : h.magic < 2 ^ 32) : readU32 (h.toBytes ++ rest) 0 = .ok h.magic := by
  rw [ChunkHeader.toBytes, List.append_assoc]
  exact @readU32_append [] _ 0 h.magic rfl hm

theorem isMagicValid_toBytes (hm : h.magic = magic) :
    isMagicValid (h.toBytes ++ rest) = .ok () := by
  have hlt : h.magic < 2 ^ 32 := by
    rw [hm, magic]
    omega
  rw [isMagicValid, readU32_magic h rest hlt]
  simp only [bind, Except.bind]
  rw [if_pos hm]
  rfl

theorem readI64_timeStartNs : readI64 (h.toBytes ++ rest) 16 = .ok h.timeStartNs := by
  have hsplit : h.toBytes ++ rest =
      (toLe 4 h.magic ++ [h.version] ++ [0, 0, 0] ++ toLe 8 h.chunkId.toNat) ++
        (i64ToLe h.timeStartNs ++ (i64ToLe h.timeEndNs ++ (toLe 4 h.seriesCount ++
          (toLe 4 h.totalEntries ++ (toLe 8 h.colDataOffset ++ rest))))) := by
    simp [ChunkHeader.toBytes]
  rw [hsplit]
  exact readI64_append (by simp) _

theorem readI64_timeEndNs : readI64 (h.toBytes ++ rest) 24 = .ok h.timeEndNs := by
  have hsplit : h.toBytes ++ rest =
      (toLe 4 h.magic ++ [h.version] ++ [0, 0, 0] ++ toLe 8 h.chunkId.toNat ++
        i64ToLe h.timeStartNs) ++ (i64ToLe h.timeEndNs ++ (toLe 4 h.seriesCount ++
          (toLe 4 h.totalEntries ++ (toLe 8 h.colDataOffset ++ rest)))) := by
    simp [ChunkHeader.toBytes]
  rw [hsplit]
  exact readI64_append (by simp) _

theorem readU32_seriesCount (hcount : h.seriesCount < 2 ^ 32) :
    readU32 (h.toBytes ++ rest) 32 = .ok h.seriesCount := by
  have hsplit : h.toBytes ++ rest =
      (toLe 4 h.magic ++ [h.version] ++ [0, 0, 0] ++ toLe 8 h.chunkId.toNat ++
        i64ToLe h.timeStartNs ++ i64ToLe h.timeEndNs) ++ (toLe 4 h.seriesCount ++
          (toLe 4 h.totalEntries ++ (toLe 8 h.colDataOffset ++ rest))) := by
    simp [ChunkHeader.toBytes]
  rw [hsplit]
  exact readU32_append (by simp) hcount

/-- A read inside the file succeeds. -/
theorem readSlice_of_le {bytes : Bytes} {offset len : Nat} (hle : offset + len ≤ bytes.length) :
    readSlice bytes offset len = .ok (slice bytes offset len) := by
  rw [readSlice, if_pos hle]

/-- The fields of the header that reads depend on. -/
theorem parseHeader_toBytes (hcount : h.seriesCount < 2 ^ 32) :
    ∃ h', parseHeader (h.toBytes ++ rest) = .ok h' ∧ h'.timeStartNs = h.timeStartNs ∧
      h'.timeEndNs = h.timeEndNs ∧ h'.seriesCount = h.seriesCount := by
  have hlen : headerSize ≤ (h.toBytes ++ rest).length := by
    rw [List.length_append, ChunkHeader.length_toBytes]
    omega
  have hfield : ∀ offset len, offset + len ≤ headerSize →
      ∃ field, readSlice (h.toBytes ++ rest) offset len = .ok field :=
    fun offset len hle => ⟨_, readSlice_of_le (hle.trans hlen)⟩
  obtain ⟨f0, h0⟩ := hfield 0 u32Size (by decide)
  obtain ⟨f4, h4⟩ := hfield 4 1 (by decide)
  obtain ⟨f8, h8⟩ := hfield 8 u64Size (by decide)
  obtain ⟨f36, h36⟩ := hfield 36 u32Size (by decide)
  obtain ⟨f40, h40⟩ := hfield 40 u64Size (by decide)
  refine ⟨⟨fromLe f0, (f4.head?).getD 0, UInt64.ofNat (fromLe f8), h.timeStartNs, h.timeEndNs,
    h.seriesCount, fromLe f36, fromLe f40⟩, ?_, rfl, rfl, rfl⟩
  simp only [parseHeader, if_neg (Nat.not_lt.mpr hlen), readI64_timeStartNs, readI64_timeEndNs,
    readU32_seriesCount h rest hcount, bind, Except.bind, pure, Except.pure]
  simp only [readU32, readU64, h0, h4, h8, h36, h40, bind, Except.bind, pure, Except.pure]

end Header

/-! ## The directory -/

/-- A directory entry as the writer emits it: the series and its column offsets. -/
abbrev DirEntry := EncodedSeries × (Nat × Nat)

/-- The bytes of a directory entry. -/
def DirEntry.bytes (e : DirEntry) : Bytes := buildDirectoryEntry e.1 e.2.1 e.2.2

/-- The fields of a directory entry that reads depend on fit their widths. -/
structure DirEntry.Fits (e : DirEntry) : Prop where
  keyLen : e.1.keyBytes.length < 2 ^ 32
  tsOffset : e.2.1 < 2 ^ 64
  valOffset : e.2.2 < 2 ^ 64

theorem DirEntry.length_bytes (e : DirEntry) :
    e.bytes.length = e.1.keyBytes.length + dirEntryFixedSize := by
  simp only [DirEntry.bytes, buildDirectoryEntry, List.length_append, length_toLe, length_f64ToLe,
    dirEntryFixedSize]
  omega

section Directory

variable {e : DirEntry} (pre post : Bytes)

theorem readU32_keyLen (he : e.Fits) :
    readU32 (pre ++ (e.bytes ++ post)) pre.length = .ok e.1.keyBytes.length := by
  rw [DirEntry.bytes, buildDirectoryEntry, List.append_assoc]
  exact readU32_append rfl he.keyLen

theorem readSlice_key : readSlice (pre ++ (e.bytes ++ post)) (pre.length + u32Size)
    e.1.keyBytes.length = .ok e.1.keyBytes := by
  have hsplit : pre ++ (e.bytes ++ post) = (pre ++ toLe 4 e.1.keyBytes.length) ++
      (e.1.keyBytes ++ (toLe 4 e.1.entryCount ++ (toLe 8 e.2.1 ++ (toLe 8 e.2.2 ++
        (f64ToLe e.1.stats.minValue ++ (f64ToLe e.1.stats.maxValue ++ post)))))) := by
    simp [DirEntry.bytes, buildDirectoryEntry]
  rw [hsplit]
  exact readSlice_append (by simp [u32Size]) rfl

theorem readU64_tsOffset (he : e.Fits) : readU64 (pre ++ (e.bytes ++ post))
    (pre.length + u32Size + e.1.keyBytes.length + u32Size) = .ok e.2.1 := by
  have hsplit : pre ++ (e.bytes ++ post) =
      (pre ++ toLe 4 e.1.keyBytes.length ++ e.1.keyBytes ++ toLe 4 e.1.entryCount) ++
        (toLe 8 e.2.1 ++ (toLe 8 e.2.2 ++
          (f64ToLe e.1.stats.minValue ++ (f64ToLe e.1.stats.maxValue ++ post)))) := by
    simp [DirEntry.bytes, buildDirectoryEntry]
  rw [hsplit]
  exact readU64_append (by simp [u32Size, Nat.add_assoc]) he.tsOffset

theorem readU64_valOffset (he : e.Fits) : readU64 (pre ++ (e.bytes ++ post))
    (pre.length + u32Size + e.1.keyBytes.length + u32Size + u64Size) = .ok e.2.2 := by
  have hsplit : pre ++ (e.bytes ++ post) =
      (pre ++ toLe 4 e.1.keyBytes.length ++ e.1.keyBytes ++ toLe 4 e.1.entryCount ++
        toLe 8 e.2.1) ++ (toLe 8 e.2.2 ++
          (f64ToLe e.1.stats.minValue ++ (f64ToLe e.1.stats.maxValue ++ post))) := by
    simp [DirEntry.bytes, buildDirectoryEntry]
  rw [hsplit]
  exact readU64_append (by simp [u32Size, u64Size, Nat.add_assoc]) he.valOffset

theorem entryHasKey_eq (keyBytes : Bytes) :
    entryHasKey (pre ++ (e.bytes ++ post)) keyBytes pre.length e.1.keyBytes.length =
      .ok (decide (e.1.keyBytes = keyBytes)) := by
  rw [entryHasKey, readSlice_key]
  by_cases hlen : keyBytes.length = e.1.keyBytes.length
  · rw [if_pos hlen]
    simp [bind, Except.bind, pure, Except.pure, eq_comm]
  · have hne : e.1.keyBytes ≠ keyBytes := fun h => hlen (by rw [h])
    rw [if_neg hlen, decide_eq_false hne]
    rfl

end Directory

/-- The bytes before the next entry. -/
theorem append_entry (pre post : Bytes) (e : DirEntry) (es : List DirEntry) :
    pre ++ ((e :: es).flatMap DirEntry.bytes ++ post) =
      (pre ++ e.bytes) ++ (es.flatMap DirEntry.bytes ++ post) := by
  simp

/-- **Directory lookup.** `find_series` returns the offsets of the first
entry with the key. -/
theorem findSeriesFrom_directory {es : List DirEntry} (hes : ∀ e ∈ es, e.Fits)
    (keyBytes pre post : Bytes) :
    findSeriesFrom (pre ++ (es.flatMap DirEntry.bytes ++ post)) keyBytes es.length pre.length =
      .ok ((es.find? fun e => e.1.keyBytes = keyBytes).map Prod.snd) := by
  induction es generalizing pre with
  | nil => rfl
  | cons e es ih =>
    have he := hes e (by simp)
    have hnext := ih (fun e' h => hes e' (by simp [h])) (pre ++ e.bytes)
    -- the cursor moves past this entry
    rw [List.length_append, DirEntry.length_bytes, ← append_entry] at hnext
    rw [List.flatMap_cons, List.append_assoc] at hnext ⊢
    simp only [List.length_cons, findSeriesFrom, readU32_keyLen _ _ he, entryHasKey_eq,
      readU64_tsOffset _ _ he, readU64_valOffset _ _ he, hnext, bind, Except.bind, pure, Except.pure]
    by_cases hk : e.1.keyBytes = keyBytes
    · simp [hk]
    · simp [hk]

/-! ## The columns -/

/-- The bytes at an offset are a length-prefixed block. -/
def BlockAt (bytes : Bytes) (offset : Nat) (block : Bytes) : Prop :=
  ∃ pre post, bytes = pre ++ (toLe 4 block.length ++ (block ++ post)) ∧ offset = pre.length

/-- **Offsets.** Each column stands where the first pass computed it. -/
theorem blockAt_columnOffsets {encoded : List EncodedSeries} {bytes pre post : Bytes}
    (hb : bytes = pre ++ (encoded.flatMap EncodedSeries.columns ++ post)) :
    ∀ e ∈ encoded.zip (columnOffsets pre.length encoded),
      BlockAt bytes e.2.1 e.1.tsCompressed ∧ BlockAt bytes e.2.2 e.1.valCompressed := by
  induction encoded generalizing pre with
  | nil => simp
  | cons s encoded ih =>
    have hlen : (pre ++ s.columns).length = pre.length + (u32Size + s.tsCompressed.length) +
        (u32Size + s.valCompressed.length) := by
      simp only [EncodedSeries.columns, List.length_append, length_toLe, u32Size]
      omega
    rw [columnOffsets, List.zip_cons_cons]
    intro e he
    rcases List.mem_cons.mp he with rfl | he
    · refine ⟨⟨pre, ?_, ?_, rfl⟩, ⟨pre ++ toLe 4 s.tsCompressed.length ++ s.tsCompressed, ?_, ?_, ?_⟩⟩
      · exact toLe 4 s.valCompressed.length ++ (s.valCompressed ++
          (encoded.flatMap EncodedSeries.columns ++ post))
      · simp [hb, EncodedSeries.columns]
      · exact encoded.flatMap EncodedSeries.columns ++ post
      · simp [hb, EncodedSeries.columns]
      · simp [u32Size]
    · have hb' : bytes = (pre ++ s.columns) ++
          (encoded.flatMap EncodedSeries.columns ++ post) := by
        simp [hb]
      have := ih hb'
      rw [hlen] at this
      exact this e he

/-- The directory of a chunk, entry by entry. -/
def dirEntries (encoded : List EncodedSeries) : List DirEntry :=
  encoded.zip (columnOffsets (headerSize + dirSize encoded) encoded)

theorem length_columnOffsets (offset : Nat) (encoded : List EncodedSeries) :
    (columnOffsets offset encoded).length = encoded.length := by
  induction encoded generalizing offset with
  | nil => rfl
  | cons s encoded ih => rw [columnOffsets, List.length_cons, List.length_cons, ih]

theorem length_dirEntries (encoded : List EncodedSeries) :
    (dirEntries encoded).length = encoded.length := by
  rw [dirEntries, List.length_zip, length_columnOffsets, Nat.min_self]

theorem map_fst_dirEntries (encoded : List EncodedSeries) :
    (dirEntries encoded).map Prod.fst = encoded :=
  List.map_fst_zip (length_columnOffsets _ encoded).ge

theorem length_flatMap_entryBytes (es : List DirEntry) :
    (es.flatMap DirEntry.bytes).length = dirSize (es.map Prod.fst) := by
  induction es with
  | nil => rfl
  | cons e es ih =>
    rw [List.flatMap_cons, List.length_append, ih, DirEntry.length_bytes]
    simp only [dirSize, List.map_cons, List.sum_cons]
    omega

theorem chunkBody_eq (chunkId : ChunkId) (encoded : List EncodedSeries) :
    chunkBody chunkId encoded = (chunkHeader chunkId encoded).toBytes ++
      ((dirEntries encoded).flatMap DirEntry.bytes ++
        encoded.flatMap EncodedSeries.columns) := rfl

/-- The bytes in front of the columns. -/
theorem length_beforeColumns (chunkId : ChunkId) (encoded : List EncodedSeries) :
    ((chunkHeader chunkId encoded).toBytes ++
      (dirEntries encoded).flatMap DirEntry.bytes).length = headerSize + dirSize encoded := by
  rw [List.length_append, ChunkHeader.length_toBytes, length_flatMap_entryBytes,
    map_fst_dirEntries]

/-- The columns of every entry are in place in a file that starts with the chunk's body. -/
theorem blockAt_dirEntries (chunkId : ChunkId) (encoded : List EncodedSeries) (rest : Bytes) :
    ∀ e ∈ dirEntries encoded,
      BlockAt (chunkBody chunkId encoded ++ rest) e.2.1 e.1.tsCompressed ∧
        BlockAt (chunkBody chunkId encoded ++ rest) e.2.2 e.1.valCompressed := by
  have hb : chunkBody chunkId encoded ++ rest = ((chunkHeader chunkId encoded).toBytes ++
      (dirEntries encoded).flatMap DirEntry.bytes) ++
        (encoded.flatMap EncodedSeries.columns ++ rest) := by
    simp [chunkBody_eq]
  have hcols := blockAt_columnOffsets hb
  rw [length_beforeColumns] at hcols
  exact hcols

theorem BlockAt.offset_le {bytes block : Bytes} {offset : Nat} (h : BlockAt bytes offset block) :
    offset ≤ bytes.length := by
  obtain ⟨pre, post, rfl, rfl⟩ := h
  simp

theorem dirEntries_fits {chunkId : ChunkId} {encoded : List EncodedSeries}
    (hkeys : ∀ s ∈ encoded, s.keyBytes.length < 2 ^ 32)
    (hbody : (chunkBody chunkId encoded).length < 2 ^ 64) : ∀ e ∈ dirEntries encoded, e.Fits := by
  intro e he
  have hmem : e.1 ∈ encoded := by
    rw [← map_fst_dirEntries encoded]
    exact List.mem_map_of_mem he
  have hcols := blockAt_dirEntries chunkId encoded [] e he
  rw [List.append_nil] at hcols
  exact ⟨hkeys e.1 hmem, hcols.1.offset_le.trans_lt hbody, hcols.2.offset_le.trans_lt hbody⟩

/-! ## The global time range -/

/-- The first timestamp of a series. -/
def firstTimestamp (points : List (Int64 × F64)) : Int64 := (points.head?.map Prod.fst).getD 0

/-- The last timestamp of a series. -/
def lastTimestamp (points : List (Int64 × F64)) : Int64 := (points.getLast?.map Prod.fst).getD 0

/-- The bound on the first timestamps that the header stores. -/
theorem foldl_min_ts_le {α : Type} (f : α → Int64) (l : List α) (m : Int64) :
    l.foldl (fun m a => min m (f a)) m ≤ m ∧
      ∀ a ∈ l, l.foldl (fun m a => min m (f a)) m ≤ f a := by
  induction l generalizing m with
  | nil => exact ⟨Int64.le_refl m, by simp⟩
  | cons b l ih =>
    obtain ⟨hm, hall⟩ := ih (min m (f b))
    refine ⟨Int64.le_trans hm Std.min_le_left, ?_⟩
    rintro a (_ | ⟨_, ha⟩)
    · exact Int64.le_trans hm Std.min_le_right
    · exact hall a ha

theorem le_max_ts (a b : Int64) : a ≤ max a b ∧ b ≤ max a b := by
  show a ≤ (if a ≤ b then b else a) ∧ b ≤ (if a ≤ b then b else a)
  by_cases h : a ≤ b
  · rw [if_pos h]
    exact ⟨h, Int64.le_refl b⟩
  · rw [if_neg h]
    exact ⟨Int64.le_refl a, (Int64.le_total a b).resolve_left h⟩

/-- The bound on the last timestamps that the header stores. -/
theorem le_foldl_max_ts {α : Type} (f : α → Int64) (l : List α) (m : Int64) :
    m ≤ l.foldl (fun m a => max m (f a)) m ∧
      ∀ a ∈ l, f a ≤ l.foldl (fun m a => max m (f a)) m := by
  induction l generalizing m with
  | nil => exact ⟨Int64.le_refl m, by simp⟩
  | cons b l ih =>
    obtain ⟨hm, hall⟩ := ih (max m (f b))
    refine ⟨Int64.le_trans (le_max_ts m (f b)).1 hm, ?_⟩
    rintro a (_ | ⟨_, ha⟩)
    · exact Int64.le_trans (le_max_ts m (f b)).2 hm
    · exact hall a ha

/-- The first and last timestamps bound a sorted point list. -/
theorem bounds_of_sorted {points : List (Int64 × F64)}
    (hs : points.Pairwise fun p q => p.1 < q.1) :
    ∀ p ∈ points, firstTimestamp points ≤ p.1 ∧ p.1 ≤ lastTimestamp points := by
  intro p hp
  constructor
  · cases points with
    | nil => cases hp
    | cons q points =>
      show q.1 ≤ p.1
      rcases List.mem_cons.mp hp with rfl | hp
      · exact Int64.le_refl _
      · exact Int64.le_of_lt ((List.pairwise_cons.mp hs).1 p hp)
  · rcases List.eq_nil_or_concat points with rfl | ⟨init, q, rfl⟩
    · cases hp
    · rw [List.concat_eq_append] at hp hs ⊢
      have hlast : lastTimestamp (init ++ [q]) = q.1 := by simp [lastTimestamp]
      rw [hlast]
      rcases List.mem_append.mp hp with hp | hp
      · exact Int64.le_of_lt ((List.pairwise_append.mp hs).2.2 p hp q (by simp))
      · rw [List.mem_singleton.mp hp]
        exact Int64.le_refl _

/-- The points of a series as data points. -/
def pointsOf (key : SeriesKey) (points : List (Int64 × F64)) : List DataPoint :=
  points.map fun p => ⟨key.metricName, key.tags, p.1, p.2⟩

/-- The points of a series between two times. -/
def pointsBetween (key : SeriesKey) (lo hi : Int64) (points : List (Int64 × F64)) :
    List DataPoint :=
  pointsOf key (points.filter fun p => lo ≤ p.1 && p.1 ≤ hi)

theorem pointsBetween_all (key : SeriesKey) (points : List (Int64 × F64)) :
    pointsBetween key Int64.minValue Int64.maxValue points = pointsOf key points := by
  rw [pointsBetween, List.filter_eq_self.mpr]
  intro p _
  simp [Int64.minValue_le, Int64.le_maxValue]

/-- `is_within_global_range` on a chunk of the given series. -/
def overlaps (l : List (SeriesKey × List (Int64 × F64))) (lo hi : Int64) : Bool :=
  !(decide (lo > l.foldl (fun m kp => max m (lastTimestamp kp.2)) Int64.minValue) ||
    decide (hi < l.foldl (fun m kp => min m (firstTimestamp kp.2)) Int64.maxValue))

/-- What `read_series` returns on a chunk of the given series. -/
def seriesIn (l : List (SeriesKey × List (Int64 × F64))) (key : SeriesKey) (lo hi : Int64) :
    Option (List DataPoint) :=
  if overlaps l lo hi then
    (l.find? fun kp => kp.1.toBytes = key.toBytes).map fun kp => pointsBetween key lo hi kp.2
  else none

/-- A chunk outside of the query range has no point in the range. -/
theorem pointsBetween_eq_nil {l : List (SeriesKey × List (Int64 × F64))} {lo hi : Int64}
    (hout : overlaps l lo hi = false) {kp : SeriesKey × List (Int64 × F64)} (hkp : kp ∈ l)
    (hsort : kp.2.Pairwise fun p q => p.1 < q.1) (key : SeriesKey) :
    pointsBetween key lo hi kp.2 = [] := by
  have hfirst := (foldl_min_ts_le (fun kp => firstTimestamp kp.2) l Int64.maxValue).2 kp hkp
  have hlast := (le_foldl_max_ts (fun kp => lastTimestamp kp.2) l Int64.minValue).2 kp hkp
  rw [pointsBetween, pointsOf, List.map_eq_nil_iff, List.filter_eq_nil_iff]
  intro p hp hin
  obtain ⟨hge, hle⟩ := bounds_of_sorted hsort p hp
  simp only [Bool.and_eq_true, decide_eq_true_eq] at hin
  rw [overlaps, Bool.not_eq_false', Bool.or_eq_true, decide_eq_true_eq, decide_eq_true_eq] at hout
  rcases hout with hout | hout
  · exact Int64.not_le.mpr hout (Int64.le_trans hin.1 (Int64.le_trans hle hlast))
  · exact Int64.not_le.mpr hout (Int64.le_trans hfirst (Int64.le_trans hge hin.2))

/-! ## The encoding of one series -/

/-- The uncompressed timestamp column. -/
def tsColumn (points : List (Int64 × F64)) : Bytes :=
  i64SliceToBytes (deltaEncode (points.map Prod.fst))

/-- The uncompressed value column. -/
def valColumn (points : List (Int64 × F64)) : Bytes := f64SliceToBytes (points.map Prod.snd)

@[simp] theorem length_tsColumn (points : List (Int64 × F64)) :
    (tsColumn points).length = 8 * points.length := by
  rw [tsColumn, i64SliceToBytes, length_flatMap_eight _ length_i64ToLe, length_deltaEncode,
    List.length_map]

@[simp] theorem length_valColumn (points : List (Int64 × F64)) :
    (valColumn points).length = 8 * points.length := by
  rw [valColumn, f64SliceToBytes, length_flatMap_eight _ length_f64ToLe, List.length_map]

/-- The decoded columns of a series, side by side, are its points. -/
theorem zip_decoded_columns (points : List (Int64 × F64)) :
    (deltaDecode (bytesToI64Slice (tsColumn points))).zip (bytesToF64Slice (valColumn points)) =
      points := by
  rw [tsColumn, valColumn, bytesToI64Slice_i64SliceToBytes, bytesToF64Slice_f64SliceToBytes,
    deltaDecode_deltaEncode, ← List.unzip_fst, ← List.unzip_snd, List.zip_unzip]

theorem fromValues_cons (v : F64) (vs : List F64) : ∃ stats,
    SeriesChunkStats.fromValues (v :: vs) = some stats :=
  ⟨_, rfl⟩

section Files

variable [Crates]

theorem readColumn_of_blockAt {bytes block column : Bytes} {offset : Nat}
    (h : BlockAt bytes offset block) (hlen : block.length < 2 ^ 32)
    (hdec : Crates.lz4Decompress block = some column) : readColumn bytes offset = .ok column := by
  obtain ⟨pre, post, rfl, rfl⟩ := h
  have hblock : readSlice (pre ++ (toLe 4 block.length ++ (block ++ post)))
      (pre.length + u32Size) block.length = .ok block := by
    rw [← List.append_assoc]
    exact readSlice_append (by simp [u32Size]) rfl
  simp [readColumn, readU32_append rfl hlen, hblock, hdec, bind, Except.bind, pure, Except.pure]

/-- `s` encodes the non-empty point list of a series. -/
structure EncodedSeries.Encodes (s : EncodedSeries) (key : SeriesKey)
    (points : List (Int64 × F64)) : Prop where
  key_eq : s.key = key
  keyBytes_eq : s.keyBytes = key.toBytes
  head : points.head?.map Prod.fst = some s.timeStartNs
  last : points.getLast?.map Prod.fst = some s.timeEndNs
  ts : s.tsCompressed = Crates.lz4Compress (tsColumn points)
  val : s.valCompressed = Crates.lz4Compress (valColumn points)

/-- A non-empty series is encoded. -/
theorem encodeSeries_encodes (key : SeriesKey) {points : List (Int64 × F64)} (h : points ≠ []) :
    ∃ s, encodeSeries key points = .ok (some s) ∧ s.Encodes key points := by
  obtain ⟨first, rest, rfl⟩ := List.exists_cons_of_ne_nil h
  obtain ⟨stats, hstats⟩ := fromValues_cons first.2 (rest.map Prod.snd)
  rw [encodeSeries]
  simp only [List.map_cons, hstats]
  refine ⟨_, rfl, rfl, rfl, rfl, ?_, rfl, rfl⟩
  rw [List.getLastD_eq_getLast?]
  simp [List.getLast?_cons, List.getLast?_map]

/-- The series of a list of entries that have points; the others are not written. -/
def nonEmptySeries (l : List (SeriesKey × List (Int64 × F64))) :
    List (SeriesKey × List (Int64 × F64)) := l.filter fun kp => !kp.2.isEmpty

/-- Pass 1 never fails and encodes the series that have points, in order. -/
theorem encodeAll_encodes (l : List (SeriesKey × List (Int64 × F64))) :
    ∃ encoded, encodeAll l = .ok encoded ∧
      List.Forall₂ (fun s kp => EncodedSeries.Encodes s kp.1 kp.2) encoded (nonEmptySeries l) := by
  induction l with
  | nil => exact ⟨[], rfl, .nil⟩
  | cons kp rest ih =>
    obtain ⟨encoded, hrest, hall⟩ := ih
    obtain ⟨key, points⟩ := kp
    cases hp : points with
    | nil => exact ⟨encoded, by simp [encodeAll, encodeSeries, hrest], hall⟩
    | cons p ps =>
      obtain ⟨s, hs, hsp⟩ := encodeSeries_encodes key (List.cons_ne_nil p ps)
      exact ⟨s :: encoded, by simp [encodeAll, hs, hrest], .cons hsp hall⟩

/-- The sizes of one series' fields. -/
def SeriesFits (key : SeriesKey) (points : List (Int64 × F64)) : Prop :=
  key.toBytes.length < 2 ^ 32 ∧ 8 * points.length < 2 ^ 32 ∧
    (Crates.lz4Compress (tsColumn points)).length < 2 ^ 32 ∧
    (Crates.lz4Compress (valColumn points)).length < 2 ^ 32

instance decidableSeriesFits (key : SeriesKey) (points : List (Int64 × F64)) :
    Decidable (SeriesFits key points) :=
  inferInstanceAs (Decidable (_ ∧ _ ∧ _ ∧ _))

variable (hlaw : Crates.LawfulLz4)
include hlaw

/-- `retrieve_data` at the columns of a series. -/
theorem retrieveData_encodes {s : EncodedSeries} {key : SeriesKey} {points : List (Int64 × F64)}
    (hs : s.Encodes key points) (hfit : SeriesFits key points) {bytes : Bytes}
    {tsOffset valOffset : Nat} (hts : BlockAt bytes tsOffset s.tsCompressed)
    (hval : BlockAt bytes valOffset s.valCompressed) (key' : SeriesKey) (lo hi : Option Int64) :
    retrieveData bytes key' tsOffset valOffset lo hi =
      .ok (pointsBetween key' (lo.getD Int64.minValue) (hi.getD Int64.maxValue) points) := by
  obtain ⟨-, hlen, htsLen, hvalLen⟩ := hfit
  rw [hs.ts] at hts
  rw [hs.val] at hval
  have hdts := hlaw (tsColumn points) (by simpa using hlen)
  have hdval := hlaw (valColumn points) (by simpa using hlen)
  have hsame : ¬ (valColumn points).length ≠ (tsColumn points).length := by simp
  simp only [retrieveData, readColumn_of_blockAt hts htsLen hdts,
    readColumn_of_blockAt hval hvalLen hdval, bind, Except.bind, if_neg hsame, pure, Except.pure,
    zip_decoded_columns, pointsBetween, pointsOf]

/-- The loop of `read_chunk` over directory entries whose columns are in place. -/
theorem readChunkFrom_directory {es : List DirEntry} {l : List (SeriesKey × List (Int64 × F64))}
    (henc : List.Forall₂ (fun e kp => EncodedSeries.Encodes e.1 kp.1 kp.2) es l)
    (hkeys : ∀ kp ∈ l, SeriesKey.fromBytes kp.1.toBytes = .ok kp.1)
    (hfits : ∀ kp ∈ l, SeriesFits kp.1 kp.2) (hes : ∀ e ∈ es, e.Fits)
    {bytes pre post : Bytes} (hb : bytes = pre ++ (es.flatMap DirEntry.bytes ++ post))
    (hcols : ∀ e ∈ es, BlockAt bytes e.2.1 e.1.tsCompressed ∧
      BlockAt bytes e.2.2 e.1.valCompressed) :
    readChunkFrom bytes es.length pre.length =
      .ok (l.flatMap fun kp => pointsOf kp.1 kp.2) := by
  induction henc generalizing pre with
  | nil => rfl
  | @cons e kp es l he _ ih =>
    have heFits := hes e (by simp)
    have hcol := hcols e (by simp)
    have hnext := ih (fun kp h => hkeys kp (by simp [h])) (fun kp h => hfits kp (by simp [h]))
      (fun e h => hes e (by simp [h])) (hb.trans (append_entry pre post e es))
      (fun e h => hcols e (by simp [h]))
    rw [List.length_append, DirEntry.length_bytes] at hnext
    have hseries := retrieveData_encodes hlaw he (hfits kp (by simp)) hcol.1 hcol.2 kp.1 none none
    have hsplit : bytes = pre ++ (e.bytes ++ (es.flatMap DirEntry.bytes ++ post)) := by
      rw [hb, List.flatMap_cons, List.append_assoc]
    have hkey : SeriesKey.fromBytes e.1.keyBytes = .ok kp.1 := by
      rw [he.keyBytes_eq]
      exact hkeys kp (by simp)
    have hlen : readU32 bytes pre.length = .ok e.1.keyBytes.length := by
      rw [hsplit]
      exact readU32_keyLen _ _ heFits
    have hslice : readSlice bytes (pre.length + u32Size) e.1.keyBytes.length =
        .ok e.1.keyBytes := by
      rw [hsplit]
      exact readSlice_key _ _
    have hts := readU64_tsOffset pre (es.flatMap DirEntry.bytes ++ post) heFits
    have hval := readU64_valOffset pre (es.flatMap DirEntry.bytes ++ post) heFits
    rw [← hsplit] at hts hval
    simp only [List.length_cons, readChunkFrom, hlen, hslice, hkey, hts, hval, hseries, hnext, bind,
      Except.bind, pure, Except.pure, Except.mapError, List.flatMap_cons, Option.getD_none,
      pointsBetween_all]

omit hlaw

/-! ## The whole file -/

theorem isChecksumValid_append (buf : Bytes) :
    isChecksumValid (buf ++ toLe 4 (Crates.crc32 buf).toNat) = .ok () := by
  have hlen : (buf ++ toLe 4 (Crates.crc32 buf).toNat).length - checksumSize = buf.length := by
    rw [List.length_append, length_toLe, checksumSize, Nat.add_sub_cancel]
  have hge : ¬ (buf ++ toLe 4 (Crates.crc32 buf).toNat).length < checksumSize := by
    rw [List.length_append, length_toLe, checksumSize]
    omega
  rw [isChecksumValid, if_neg hge, hlen, List.take_left, List.drop_left, fromLe_toLe_u32]
  simp [pure, Except.pure]

/-- A chunk file starts with the chunk's body and passes the checksum. -/
theorem chunkBytes_eq (chunkId : ChunkId) (items : Nat) (encoded : List EncodedSeries) :
    ∃ rest, chunkBytes chunkId items encoded = chunkBody chunkId encoded ++ rest ∧
      isChecksumValid (chunkBytes chunkId items encoded) = .ok () :=
  ⟨_, List.append_assoc .., isChecksumValid_append _⟩

/-! ## Sizes -/

/-- The bytes a series takes in the directory and in the columns. -/
def seriesSize (key : SeriesKey) (points : List (Int64 × F64)) : Nat :=
  dirEntryFixedSize + key.toBytes.length +
    (u32Size + (Crates.lz4Compress (tsColumn points)).length) +
    (u32Size + (Crates.lz4Compress (valColumn points)).length)

/-- All lengths and offsets of the chunk fit their fields. -/
structure SeriesData.Fits (data : SeriesData) : Prop where
  count : data.toList.length < 2 ^ 32
  series : ∀ kp ∈ data.toList, SeriesFits kp.1 kp.2
  total : headerSize + (data.toList.map fun kp => seriesSize kp.1 kp.2).sum < 2 ^ 64

instance SeriesData.decidableFits (data : SeriesData) : Decidable data.Fits :=
  decidable_of_iff (data.toList.length < 2 ^ 32 ∧
      (∀ kp ∈ data.toList, SeriesFits kp.1 kp.2) ∧
      headerSize + (data.toList.map fun kp => seriesSize kp.1 kp.2).sum < 2 ^ 64)
    ⟨fun h => ⟨h.1, h.2.1, h.2.2⟩, fun h => ⟨h.count, h.series, h.total⟩⟩

/-- The lengths and offsets of the given series fit their fields. -/
structure FieldsFit (l : List (SeriesKey × List (Int64 × F64))) : Prop where
  count : l.length < 2 ^ 32
  series : ∀ kp ∈ l, SeriesFits kp.1 kp.2
  total : headerSize + (l.map fun kp => seriesSize kp.1 kp.2).sum < 2 ^ 64

theorem length_chunkBody {encoded : List EncodedSeries}
    {l : List (SeriesKey × List (Int64 × F64))}
    (henc : List.Forall₂ (fun s kp => EncodedSeries.Encodes s kp.1 kp.2) encoded l)
    (chunkId : ChunkId) : (chunkBody chunkId encoded).length =
      headerSize + (l.map fun kp => seriesSize kp.1 kp.2).sum := by
  have hsum : dirSize encoded + (encoded.flatMap EncodedSeries.columns).length =
      (l.map fun kp => seriesSize kp.1 kp.2).sum := by
    induction henc with
    | nil => rfl
    | @cons s kp encoded l hs _ ih =>
      have hsize : seriesSize kp.1 kp.2 =
          dirEntryFixedSize + s.keyBytes.length + s.columns.length := by
        simp only [seriesSize, EncodedSeries.columns, List.length_append, length_toLe, u32Size,
          hs.ts, hs.val, hs.keyBytes_eq]
        omega
      rw [List.map_cons, List.sum_cons, hsize, ← ih, List.flatMap_cons, List.length_append]
      simp only [dirSize, List.map_cons, List.sum_cons]
      omega
  have hdir := length_beforeColumns chunkId encoded
  rw [chunkBody_eq, ← List.append_assoc, List.length_append, hdir, ← hsum, Nat.add_assoc]

omit [Crates] in
theorem sum_nonEmptySeries_le (f : SeriesKey × List (Int64 × F64) → Nat)
    (l : List (SeriesKey × List (Int64 × F64))) :
    ((nonEmptySeries l).map f).sum ≤ (l.map f).sum := by
  induction l with
  | nil => exact Nat.le_refl _
  | cons kp l ih =>
    rw [nonEmptySeries, List.filter_cons]
    split
    · exact Nat.add_le_add_left ih _
    · exact ih.trans (Nat.le_add_left ..)

/-- The series that are written fit if all do. -/
theorem SeriesData.Fits.written {data : SeriesData} (h : data.Fits) :
    FieldsFit (nonEmptySeries data.toList) where
  count := (List.length_filter_le ..).trans_lt h.count
  series kp hkp := h.series kp (List.mem_of_mem_filter hkp)
  total := (Nat.add_le_add_left (sum_nonEmptySeries_le _ _) _).trans_lt h.total

omit [Crates] in
/-- The skipped series contribute no points. -/
theorem flatMap_nonEmptySeries (l : List (SeriesKey × List (Int64 × F64))) :
    ((nonEmptySeries l).flatMap fun kp => pointsOf kp.1 kp.2) =
      l.flatMap fun kp => pointsOf kp.1 kp.2 := by
  induction l with
  | nil => rfl
  | cons kp l ih =>
    rw [nonEmptySeries, List.filter_cons]
    split
    · rw [List.flatMap_cons, List.flatMap_cons, ← ih, nonEmptySeries]
    · rename_i hempty
      have hnil : kp.2 = [] := by simpa using hempty
      rw [List.flatMap_cons, hnil, ← ih]
      rfl

/-! ## Writing, then reading -/

omit [Crates] in
theorem exists_of_mem_left {α β : Type} {R : α → β → Prop} {l₁ : List α} {l₂ : List β}
    (h : List.Forall₂ R l₁ l₂) : ∀ a ∈ l₁, ∃ b ∈ l₂, R a b := by
  induction h with
  | nil => simp
  | cons hab _ ih =>
    rintro a (_ | ⟨_, ha⟩)
    · exact ⟨_, by simp, hab⟩
    · obtain ⟨b, hb, hr⟩ := ih a ha
      exact ⟨b, by simp [hb], hr⟩

omit [Crates] in
/-- A key has one entry in a map. -/
theorem points_eq_of_key_eq {data : SeriesData} {kp kp' : SeriesKey × List (Int64 × F64)}
    (h : kp ∈ data.toList) (h' : kp' ∈ data.toList) (hkey : kp.1 = kp'.1) : kp.2 = kp'.2 := by
  have hget := Std.ExtTreeMap.mem_toList_iff_getElem?_eq_some.mp h
  have hget' := Std.ExtTreeMap.mem_toList_iff_getElem?_eq_some.mp h'
  rw [hkey, hget', Option.some.injEq] at hget
  exact hget.symm

omit [Crates] in
/-- The points of a written series between two times. -/
theorem seriesIn_getD {data : SeriesData}
    (hsort : ∀ kp ∈ data.toList, kp.2.Pairwise fun p q : Int64 × F64 => p.1 < q.1)
    (hkeys : ∀ kp ∈ data.toList, ∀ kp' ∈ data.toList,
      kp.1.toBytes = kp'.1.toBytes → kp.1 = kp'.1)
    {kp : SeriesKey × List (Int64 × F64)} (hkp : kp ∈ data.toList) {key : SeriesKey}
    (hkey : kp.1.toBytes = key.toBytes) (lo hi : Int64) :
    (seriesIn (nonEmptySeries data.toList) key lo hi).getD [] = pointsBetween key lo hi kp.2 := by
  by_cases hmem : kp ∈ nonEmptySeries data.toList
  · unfold seriesIn
    split
    · obtain ⟨kp', hfind⟩ := Option.isSome_iff_exists.mp
        (List.find?_isSome (p := fun kp => kp.1.toBytes = key.toBytes).mpr ⟨kp, hmem, by simpa⟩)
      have hkp' : kp' ∈ data.toList := List.mem_of_mem_filter (List.mem_of_find?_eq_some hfind)
      have hkey' : kp'.1.toBytes = key.toBytes := by simpa using List.find?_some hfind
      have heq := points_eq_of_key_eq hkp' hkp (hkeys kp' hkp' kp hkp (hkey'.trans hkey.symm))
      rw [hfind, Option.map_some, Option.getD_some, heq]
    · next hout =>
      exact (pointsBetween_eq_nil (by simpa using hout) hmem (hsort kp hkp) key).symm
  · -- a series without points is not written
    have hnil : kp.2 = [] := by simpa [nonEmptySeries, hkp] using hmem
    have hnone : (nonEmptySeries data.toList).find? (fun kp => kp.1.toBytes = key.toBytes) =
        none := by
      rw [List.find?_eq_none]
      intro kp' hkp' hkey'
      have hdata : kp' ∈ data.toList := List.mem_of_mem_filter hkp'
      have hbytes : kp'.1.toBytes = kp.1.toBytes := by simpa [hkey] using hkey'
      have heq := points_eq_of_key_eq hdata hkp (hkeys kp' hdata kp hkp hbytes)
      simp [nonEmptySeries, heq, hnil] at hkp'
    rw [seriesIn, hnone, hnil]
    split <;> rfl

/-- What `ChunkWriter::write` returns: it fails on an empty map only. -/
theorem write_eq (chunkId : ChunkId) {data : SeriesData} (h : data.isEmpty = false) :
    ∃ encoded, List.Forall₂ (fun s kp => EncodedSeries.Encodes s kp.1 kp.2) encoded
        (nonEmptySeries data.toList) ∧
      ChunkWriter.write chunkId data = .ok (chunkBytes chunkId data.size encoded,
        ⟨chunkId, ⟨chunkId, (chunkBytes chunkId data.size encoded).length⟩,
          encoded.map (seriesResult chunkId)⟩) := by
  obtain ⟨encoded, henc, hall⟩ := encodeAll_encodes data.toList
  refine ⟨encoded, hall, ?_⟩
  simp [ChunkWriter.write, h, henc]

/-- The index entry of a series in a chunk. -/
def entryOf (chunkId : ChunkId) (key : SeriesKey) (points : List (Int64 × F64)) :
    SeriesChunkEntry where
  chunkId := chunkId
  seriesId := key.id
  timeStartNs := firstTimestamp points
  timeEndNs := lastTimestamp points
  sizeBytes := (Crates.lz4Compress (tsColumn points)).length +
    (Crates.lz4Compress (valColumn points)).length + u32Size * 2

theorem nonempty_of_write {chunkId : ChunkId} {data : SeriesData} {bytes : Bytes}
    {result : ChunkWriteResult} (hw : ChunkWriter.write chunkId data = .ok (bytes, result)) :
    data.isEmpty = false := by
  by_contra hne
  rw [ChunkWriter.write, if_pos (by simpa using hne)] at hw
  cases hw

theorem chunkId_of_write {chunkId : ChunkId} {data : SeriesData} {bytes : Bytes}
    {result : ChunkWriteResult} (hw : ChunkWriter.write chunkId data = .ok (bytes, result)) :
    result.chunkId = chunkId := by
  obtain ⟨encoded, -, hwrite⟩ := write_eq chunkId (nonempty_of_write hw)
  rw [hwrite, Except.ok.injEq, Prod.mk.injEq] at hw
  rw [← hw.2]

/-- The index metadata that `ChunkWriter::write` returns. -/
theorem write_result {chunkId : ChunkId} {data : SeriesData} {bytes : Bytes}
    {result : ChunkWriteResult} (hw : ChunkWriter.write chunkId data = .ok (bytes, result)) :
    result.chunkMeta = ⟨chunkId, bytes.length⟩ ∧
      List.Forall₂ (fun s kp => s.seriesKey = kp.1 ∧ s.entry = entryOf chunkId kp.1 kp.2)
        result.seriesResults (nonEmptySeries data.toList) := by
  obtain ⟨encoded, henc, hwrite⟩ := write_eq chunkId (nonempty_of_write hw)
  rw [hwrite, Except.ok.injEq, Prod.mk.injEq] at hw
  obtain ⟨rfl, rfl⟩ := hw
  refine ⟨rfl, List.forall₂_map_left_iff.mpr (henc.imp ?_)⟩
  intro s kp hs
  refine ⟨hs.key_eq, ?_⟩
  rw [seriesResult, entryOf, firstTimestamp, lastTimestamp, hs.head, hs.last, hs.ts, hs.val,
    hs.keyBytes_eq]
  rfl

theorem forall₂_dirEntries {encoded : List EncodedSeries}
    {l : List (SeriesKey × List (Int64 × F64))}
    (henc : List.Forall₂ (fun s kp => EncodedSeries.Encodes s kp.1 kp.2) encoded l) :
    List.Forall₂ (fun e kp => EncodedSeries.Encodes e.1 kp.1 kp.2) (dirEntries encoded) l := by
  rw [← map_fst_dirEntries encoded] at henc
  exact List.forall₂_map_left_iff.mp henc

/-- The first directory entry with a key is the entry of the first series
with these key bytes. -/
theorem find_entry {es : List DirEntry} {l : List (SeriesKey × List (Int64 × F64))}
    (henc : List.Forall₂ (fun e kp => EncodedSeries.Encodes e.1 kp.1 kp.2) es l)
    (keyBytes : Bytes) :
    (es.find? (fun e => e.1.keyBytes = keyBytes) = none ∧
      l.find? (fun kp => kp.1.toBytes = keyBytes) = none) ∨
      ∃ e ∈ es, ∃ kp ∈ l, es.find? (fun e => e.1.keyBytes = keyBytes) = some e ∧
        l.find? (fun kp => kp.1.toBytes = keyBytes) = some kp ∧ e.1.Encodes kp.1 kp.2 := by
  induction henc with
  | nil => exact .inl ⟨rfl, rfl⟩
  | @cons e kp es l he _ ih =>
    by_cases hk : e.1.keyBytes = keyBytes
    · have hk' : kp.1.toBytes = keyBytes := he.keyBytes_eq.symm.trans hk
      rw [List.find?_cons_of_pos (by simpa using hk), List.find?_cons_of_pos (by simpa using hk')]
      exact .inr ⟨e, by simp, kp, by simp, rfl, rfl, he⟩
    · have hk' : kp.1.toBytes ≠ keyBytes := fun h => hk (he.keyBytes_eq.trans h)
      rw [List.find?_cons_of_neg (by simpa using hk), List.find?_cons_of_neg (by simpa using hk')]
      rcases ih with hnone | ⟨e', he', kp', hkp', hfind, hfind', henc'⟩
      · exact .inl hnone
      · exact .inr ⟨e', by simp [he'], kp', by simp [hkp'], hfind, hfind', henc'⟩

theorem foldl_timeStart {encoded : List EncodedSeries}
    {l : List (SeriesKey × List (Int64 × F64))}
    (henc : List.Forall₂ (fun s kp => EncodedSeries.Encodes s kp.1 kp.2) encoded l) (m : Int64) :
    encoded.foldl (fun m s => min m s.timeStartNs) m =
      l.foldl (fun m kp => min m (firstTimestamp kp.2)) m := by
  induction henc generalizing m with
  | nil => rfl
  | @cons s kp encoded l hs _ ih =>
    rw [List.foldl_cons, List.foldl_cons, ih, firstTimestamp, hs.head, Option.getD_some]

theorem foldl_timeEnd {encoded : List EncodedSeries}
    {l : List (SeriesKey × List (Int64 × F64))}
    (henc : List.Forall₂ (fun s kp => EncodedSeries.Encodes s kp.1 kp.2) encoded l) (m : Int64) :
    encoded.foldl (fun m s => max m s.timeEndNs) m =
      l.foldl (fun m kp => max m (lastTimestamp kp.2)) m := by
  induction henc generalizing m with
  | nil => rfl
  | @cons s kp encoded l hs _ ih =>
    rw [List.foldl_cons, List.foldl_cons, ih, lastTimestamp, hs.last, Option.getD_some]

section Written

variable (hlaw : Crates.LawfulLz4) {data : SeriesData}
  (hfit : FieldsFit (nonEmptySeries data.toList)) {chunkId : ChunkId} {bytes : Bytes}
  {result : ChunkWriteResult} (hw : ChunkWriter.write chunkId data = .ok (bytes, result))

include hfit hw in
/-- The parts of a written file that the readers look at. -/
theorem written_parts : ∃ (encoded : List EncodedSeries) (rest : Bytes),
    List.Forall₂ (fun s kp => EncodedSeries.Encodes s kp.1 kp.2) encoded
      (nonEmptySeries data.toList) ∧
    bytes = chunkBody chunkId encoded ++ rest ∧ isMagicValid bytes = .ok () ∧
    isChecksumValid bytes = .ok () ∧
    (∃ h, parseHeader bytes = .ok h ∧
      h.timeStartNs = (chunkHeader chunkId encoded).timeStartNs ∧
      h.timeEndNs = (chunkHeader chunkId encoded).timeEndNs ∧
      h.seriesCount = (dirEntries encoded).length) ∧
    (∀ e ∈ dirEntries encoded, e.Fits) := by
  obtain ⟨encoded, henc, hwrite⟩ := write_eq chunkId (nonempty_of_write hw)
  rw [hwrite, Except.ok.injEq, Prod.mk.injEq] at hw
  obtain ⟨rest, hbytes, hsum⟩ := chunkBytes_eq chunkId data.size encoded
  rw [hw.1] at hbytes hsum
  have hsplit : bytes = (chunkHeader chunkId encoded).toBytes ++
      ((dirEntries encoded).flatMap DirEntry.bytes ++
        (encoded.flatMap EncodedSeries.columns ++ rest)) := by
    rw [hbytes, chunkBody_eq]
    simp
  have hcount : (chunkHeader chunkId encoded).seriesCount < 2 ^ 32 :=
    henc.length_eq.trans_lt hfit.count
  have hbody : (chunkBody chunkId encoded).length < 2 ^ 64 := by
    rw [length_chunkBody henc]
    exact hfit.total
  have hkeys : ∀ s ∈ encoded, s.keyBytes.length < 2 ^ 32 := by
    intro s hs
    obtain ⟨kp, hkp, hsp⟩ := exists_of_mem_left henc s hs
    rw [hsp.keyBytes_eq]
    exact (hfit.series kp hkp).1
  refine ⟨encoded, rest, henc, hbytes, ?_, hsum, ?_, dirEntries_fits hkeys hbody⟩
  · rw [hsplit]
    exact isMagicValid_toBytes _ _ rfl
  · obtain ⟨h, hparse, hstart, hend, hseries⟩ := parseHeader_toBytes (chunkHeader chunkId encoded)
      ((dirEntries encoded).flatMap DirEntry.bytes ++
        (encoded.flatMap EncodedSeries.columns ++ rest)) hcount
    rw [← hsplit] at hparse
    exact ⟨h, hparse, hstart, hend, hseries.trans (length_dirEntries encoded).symm⟩

include hlaw hfit hw

/-- **Reading a series back.** What `read_series` returns depends on the
written series alone. -/
theorem readSeries_written (key : SeriesKey) (lo hi : Int64) :
    readSeries bytes key lo hi = .ok (seriesIn (nonEmptySeries data.toList) key lo hi) := by
  obtain ⟨encoded, rest, henc, hbytes, hmagic, hsum, ⟨h, hparse, hstart, hend, hcount⟩, hes⟩ :=
    written_parts hfit hw
  have hfind : findSeries bytes h.seriesCount key = .ok (((dirEntries encoded).find?
      fun e => e.1.keyBytes = key.toBytes).map Prod.snd) := by
    have hdir := findSeriesFrom_directory hes key.toBytes (chunkHeader chunkId encoded).toBytes
      (encoded.flatMap EncodedSeries.columns ++ rest)
    rw [ChunkHeader.length_toBytes] at hdir
    rw [findSeries, hcount, hbytes, chunkBody_eq, ← hdir]
    simp
  have hrange : isWithinGlobalRange lo hi h =
      overlaps (nonEmptySeries data.toList) lo hi := by
    rw [isWithinGlobalRange, overlaps, hstart, hend, chunkHeader, foldl_timeStart henc,
      foldl_timeEnd henc]
  simp only [readSeries, hmagic, hsum, hparse, hfind, hrange, bind, Except.bind, pure, Except.pure,
    seriesIn]
  split
  · rcases find_entry (forall₂_dirEntries henc) key.toBytes with
      ⟨hnone, hnone'⟩ | ⟨e, he, kp, hkp, hsome, hsome', hekp⟩
    · rw [hnone, hnone']
      rfl
    · have hcols := blockAt_dirEntries chunkId encoded rest e he
      rw [← hbytes] at hcols
      have hseries : retrieveData bytes key e.2.1 e.2.2 lo hi =
          .ok (pointsBetween key lo hi kp.2) :=
        retrieveData_encodes hlaw hekp (hfit.series kp hkp) hcols.1
          hcols.2 key lo hi
      rw [hsome, hsome']
      simp [hseries]
  · rfl

/-- **Reading a chunk back.** All series in key order, each point with its key. -/
theorem readChunk_written
    (hkeys : ∀ kp ∈ data.toList, SeriesKey.fromBytes kp.1.toBytes = .ok kp.1) :
    readChunk bytes = .ok (data.toList.flatMap fun kp => pointsOf kp.1 kp.2) := by
  obtain ⟨encoded, rest, henc, hbytes, hmagic, hsum, ⟨h, hparse, -, -, hcount⟩, hes⟩ :=
    written_parts hfit hw
  have hsplit : bytes = (chunkHeader chunkId encoded).toBytes ++
      ((dirEntries encoded).flatMap DirEntry.bytes ++
        (encoded.flatMap EncodedSeries.columns ++ rest)) := by
    rw [hbytes, chunkBody_eq]
    simp
  have hcols := blockAt_dirEntries chunkId encoded rest
  rw [← hbytes] at hcols
  have hloop := readChunkFrom_directory hlaw (forall₂_dirEntries henc)
    (fun kp hkp => hkeys kp (List.mem_of_mem_filter hkp))
    hfit.series hes hsplit hcols
  rw [ChunkHeader.length_toBytes, ← hcount] at hloop
  simp only [readChunk, hmagic, hsum, hparse, hloop, bind, Except.bind]
  rw [flatMap_nonEmptySeries]

end Written

omit [Crates] in
theorem seriesIn_of_absent {l : List (SeriesKey × List (Int64 × F64))} {key : SeriesKey}
    (h : ∀ kp ∈ l, kp.1.toBytes ≠ key.toBytes) (lo hi : Int64) : seriesIn l key lo hi = none := by
  have hnone : l.find? (fun kp => kp.1.toBytes = key.toBytes) = none := by
    rw [List.find?_eq_none]
    intro kp hkp
    simpa using h kp hkp
  rw [seriesIn, hnone]
  split <;> rfl

/-- **Chunk file round trip.** A non-empty map of sorted series whose keys
have different bytes is written, and both readers give its points back:
`read_series` those of the asked series in the asked range, `read_chunk` all
of them with their keys. -/
theorem chunk_roundTrip (hlaw : Crates.LawfulLz4) {data : SeriesData} (hne : data.isEmpty = false)
    (hsort : ∀ kp ∈ data.toList, kp.2.Pairwise fun p q : Int64 × F64 => p.1 < q.1)
    (hkeys : ∀ kp ∈ data.toList, ∀ kp' ∈ data.toList,
      kp.1.toBytes = kp'.1.toBytes → kp.1 = kp'.1)
    (hfit : FieldsFit (nonEmptySeries data.toList)) (chunkId : ChunkId) :
    ∃ bytes result, ChunkWriter.write chunkId data = .ok (bytes, result) ∧
      (∀ key lo hi, ∃ points, readSeries bytes key lo hi = .ok points ∧
        (∀ kp ∈ data.toList, kp.1.toBytes = key.toBytes →
          points.getD [] = pointsBetween key lo hi kp.2) ∧
        ((∀ kp ∈ data.toList, kp.1.toBytes ≠ key.toBytes) → points = none)) ∧
      ((∀ kp ∈ data.toList, SeriesKey.fromBytes kp.1.toBytes = .ok kp.1) →
        readChunk bytes = .ok (data.toList.flatMap fun kp => pointsOf kp.1 kp.2)) := by
  obtain ⟨encoded, -, hw⟩ := write_eq chunkId hne
  refine ⟨_, _, hw, fun key lo hi => ?_, readChunk_written hlaw hfit hw⟩
  refine ⟨_, readSeries_written hlaw hfit hw key lo hi, ?_, ?_⟩
  · intro kp hkp hkey
    exact seriesIn_getD hsort hkeys hkp hkey lo hi
  · intro habsent
    exact seriesIn_of_absent (fun kp hkp => habsent kp (List.mem_of_mem_filter hkp)) lo hi

end Files

section Example

attribute [local instance] Reference.crates

/-- Two points of `cpu`, and a tagged series without points. -/
def twoSeries : SeriesData :=
  ((∅ : SeriesData).insert ⟨"cpu", ∅⟩ [(5, ⟨7⟩), (6, ⟨8⟩)]).insert
    ⟨"mem", (∅ : BTreeMap String String).insert "host" "a"⟩ []

theorem chunk_roundTrip_twoSeries : ∃ bytes result,
    ChunkWriter.write 1 twoSeries = .ok (bytes, result) ∧
      ∃ points, readSeries bytes ⟨"cpu", ∅⟩ 6 9 = .ok points ∧
        points.getD [] = pointsBetween ⟨"cpu", ∅⟩ 6 9 [(5, ⟨7⟩), (6, ⟨8⟩)] := by
  have hfit : FieldsFit (nonEmptySeries twoSeries.toList) :=
    ⟨by decide +kernel, by decide +kernel, by decide +kernel⟩
  have hkeys : ∀ kp ∈ twoSeries.toList, ∀ kp' ∈ twoSeries.toList,
      kp.1.toBytes = kp'.1.toBytes → kp.1 = kp'.1 := by decide +kernel
  obtain ⟨bytes, result, hw, hread, -⟩ := chunk_roundTrip Reference.lawful.lz4
    (show twoSeries.isEmpty = false by decide +kernel) (by decide +kernel) hkeys hfit 1
  obtain ⟨points, hpoints, hmem, -⟩ := hread ⟨"cpu", ∅⟩ 6 9
  have hcpu : (⟨"cpu", ∅⟩, [(5, ⟨7⟩), (6, ⟨8⟩)]) ∈ twoSeries.toList := by
    rw [Std.ExtTreeMap.mem_toList_iff_getElem?_eq_some]
    decide +kernel
  exact ⟨bytes, result, hw, points, hpoints, hmem _ hcpu rfl⟩

end Example

end Micius

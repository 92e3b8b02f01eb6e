import Micius.Crates
import Micius.Lib.LittleEndian

/-!
# Chunk file format (`chunk/format.rs`)

Sizes and constants of the layout, the 48-byte header, delta encoding of
timestamps and the little-endian columns. Integer arithmetic wraps, as in a
release build.
-/

namespace Micius

open LittleEndian

/-! ## Constants -/

/-- `MAGIC`: the bytes `MICI`. -/
def magic : Nat := 0x4D494349

/-- `VERSION`. -/
def version : UInt8 := 1

/-- `HEADER_SIZE`. -/
def headerSize : Nat := 48

/-- `U32_SIZE`. -/
def u32Size : Nat := 4

/-- `U64_SIZE`. -/
def u64Size : Nat := 8

/-- `DIR_ENTRY_FIXED_SIZE`: a directory entry without its key bytes. -/
def dirEntryFixedSize : Nat := 40

/-- `CHECKSUM_SIZE`. -/
def checksumSize : Nat := 4

/-! ## Scalars -/

/-- `i64::to_le_bytes`. -/
def i64ToLe (x : Int64) : Bytes := toLe 8 x.toUInt64.toNat

/-- `i64::from_le_bytes`. -/
def i64FromLe (bs : Bytes) : Int64 := (UInt64.ofNat (fromLe bs)).toInt64

/-- `f64::to_le_bytes`. -/
def f64ToLe (x : F64) : Bytes := toLe 8 x.bits.toNat

/-- `f64::from_le_bytes`. -/
def f64FromLe (bs : Bytes) : F64 := ⟨UInt64.ofNat (fromLe bs)⟩

theorem ofNat_fromLe_toLe (x : UInt64) : UInt64.ofNat (fromLe (toLe 8 x.toNat)) = x := by
  rw [fromLe_toLe_of_lt x.toNat_lt, UInt64.ofNat_toNat]

@[simp] theorem i64FromLe_i64ToLe (x : Int64) : i64FromLe (i64ToLe x) = x := by
  rw [i64FromLe, i64ToLe, ofNat_fromLe_toLe]
  rfl

@[simp] theorem f64FromLe_f64ToLe (x : F64) : f64FromLe (f64ToLe x) = x := by
  rw [f64FromLe, f64ToLe, ofNat_fromLe_toLe]

@[simp] theorem length_i64ToLe (x : Int64) : (i64ToLe x).length = 8 := length_toLe ..

@[simp] theorem length_f64ToLe (x : F64) : (f64ToLe x).length = 8 := length_toLe ..

/-! ## The header -/

/-- `ChunkHeader`. -/
structure ChunkHeader where
  magic : Nat
  version : UInt8
  chunkId : ChunkId
  timeStartNs : Int64
  timeEndNs : Int64
  seriesCount : Nat
  totalEntries : Nat
  colDataOffset : Nat

/-- `ChunkHeader::to_bytes`. -/
def ChunkHeader.toBytes (h : ChunkHeader) : Bytes :=
  toLe 4 h.magic ++ ([h.version] ++ ([0, 0, 0] ++ (toLe 8 h.chunkId.toNat ++
    (i64ToLe h.timeStartNs ++ (i64ToLe h.timeEndNs ++ (toLe 4 h.seriesCount ++
      (toLe 4 h.totalEntries ++ toLe 8 h.colDataOffset)))))))

@[simp] theorem ChunkHeader.length_toBytes (h : ChunkHeader) : h.toBytes.length = headerSize := by
  simp [ChunkHeader.toBytes, headerSize]

/-! ## Delta encoding -/

/-- The differences of a list from a first value on. -/
def deltasFrom (prev : Int64) : List Int64 → List Int64
  | [] => []
  | x :: xs => (x - prev) :: deltasFrom x xs

/-- `delta_encode`. -/
def deltaEncode : List Int64 → List Int64
  | [] => []
  | x :: xs => x :: deltasFrom x xs

/-- The running sums of a list from a first value on. -/
def sumsFrom (prev : Int64) : List Int64 → List Int64
  | [] => []
  | d :: ds => (prev + d) :: sumsFrom (prev + d) ds

/-- `delta_decode`. -/
def deltaDecode : List Int64 → List Int64
  | [] => []
  | x :: ds => x :: sumsFrom x ds

theorem sumsFrom_deltasFrom (prev : Int64) (xs : List Int64) :
    sumsFrom prev (deltasFrom prev xs) = xs := by
  induction xs generalizing prev with
  | nil => rfl
  | cons x xs ih =>
    have hx : prev + (x - prev) = x := by rw [Int64.add_comm, Int64.sub_add_cancel]
    rw [deltasFrom, sumsFrom, hx, ih]

/-- Delta decoding inverts delta encoding, wrap-around included. -/
theorem deltaDecode_deltaEncode (xs : List Int64) : deltaDecode (deltaEncode xs) = xs := by
  cases xs with
  | nil => rfl
  | cons x xs => rw [deltaEncode, deltaDecode, sumsFrom_deltasFrom]

theorem length_deltasFrom (prev : Int64) (xs : List Int64) :
    (deltasFrom prev xs).length = xs.length := by
  induction xs generalizing prev with
  | nil => rfl
  | cons x xs ih => rw [deltasFrom, List.length_cons, List.length_cons, ih]

@[simp] theorem length_deltaEncode (xs : List Int64) : (deltaEncode xs).length = xs.length := by
  cases xs with
  | nil => rfl
  | cons x xs => rw [deltaEncode, List.length_cons, List.length_cons, length_deltasFrom]

/-! ## Columns -/

/-- `i64_slice_to_bytes`. -/
def i64SliceToBytes (values : List Int64) : Bytes := values.flatMap i64ToLe

/-- `f64_slice_to_bytes`. -/
def f64SliceToBytes (values : List F64) : Bytes := values.flatMap f64ToLe

/-- `chunks_exact(8)`: the whole pieces of eight bytes; a shorter rest is dropped. -/
def chunksExact8 (bytes : Bytes) : List Bytes :=
  (List.range (bytes.length / 8)).map fun i => slice bytes (8 * i) 8

/-- `bytes_to_i64_slice`. -/
def bytesToI64Slice (bytes : Bytes) : List Int64 := (chunksExact8 bytes).map i64FromLe

/-- `bytes_to_f64_slice`. -/
def bytesToF64Slice (bytes : Bytes) : List F64 := (chunksExact8 bytes).map f64FromLe

theorem length_flatMap_eight {α : Type} (f : α → Bytes) (hf : ∀ a, (f a).length = 8)
    (xs : List α) : (xs.flatMap f).length = 8 * xs.length := by
  induction xs with
  | nil => rfl
  | cons x xs ih =>
    rw [List.flatMap_cons, List.length_append, hf, ih, List.length_cons]
    omega

/-- Cutting a column of eight-byte values gives the values back. -/
theorem chunksExact8_flatMap {α : Type} (f : α → Bytes) (hf : ∀ a, (f a).length = 8)
    (xs : List α) : chunksExact8 (xs.flatMap f) = xs.map f := by
  rw [chunksExact8, length_flatMap_eight f hf, Nat.mul_div_cancel_left _ (by decide)]
  induction xs with
  | nil => rfl
  | cons x xs ih =>
    have hhead : slice ([] ++ (f x ++ xs.flatMap f)) (8 * 0) 8 = f x :=
      slice_append rfl (hf x).symm
    have htail : ∀ i, slice (f x ++ xs.flatMap f) (8 * (i + 1)) 8 =
        slice (xs.flatMap f) (8 * i) 8 := by
      intro i
      rw [← slice_append_right (f x) (xs.flatMap f) (8 * i) 8, hf,
        show 8 * (i + 1) = 8 + 8 * i from by omega]
    rw [List.length_cons, List.range_succ_eq_map, List.map_cons, List.map_map, List.flatMap_cons,
      ← List.nil_append (f x ++ xs.flatMap f), hhead, List.map_cons, ← ih]
    simp [Function.comp_def, htail]

theorem bytesToI64Slice_i64SliceToBytes (xs : List Int64) :
    bytesToI64Slice (i64SliceToBytes xs) = xs := by
  rw [bytesToI64Slice, i64SliceToBytes, chunksExact8_flatMap _ length_i64ToLe, List.map_map]
  exact List.map_id'' (fun x => i64FromLe_i64ToLe x) xs

theorem bytesToF64Slice_f64SliceToBytes (xs : List F64) :
    bytesToF64Slice (f64SliceToBytes xs) = xs := by
  rw [bytesToF64Slice, f64SliceToBytes, chunksExact8_flatMap _ length_f64ToLe, List.map_map]
  exact List.map_id'' (fun x => f64FromLe_f64ToLe x) xs

end Micius

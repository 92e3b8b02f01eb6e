import Mathlib.Data.List.Basic

/-!
# Core types (`types.rs`)

`BTreeMap` is `Std`'s extensional ordered map: two maps with the same
entries are equal, and `toList` is the iteration in key order. The hash
maps of the source are modelled by the same type; wherever the source
iterates over one, the model takes the iteration order as an argument or
states its result up to a permutation.

An `i64` is an `Int64`, a `u64` identifier is a `UInt64`, and an `f64` is
its 64-bit pattern. A WAL sequence number (`Sequence`, a `u64` counter that
goes up by one for each append) is a `Nat`: a log of `2 ^ 64` appends is
outside the model.
-/

namespace Micius

abbrev Bytes := List UInt8

instance instOrdProd {α β : Type} [Ord α] [Ord β] : Ord (α × β) := lexOrd

abbrev BTreeMap (κ ν : Type) [Ord κ] := Std.ExtTreeMap κ ν compare

abbrev BTreeSet (κ : Type) [Ord κ] := Std.ExtTreeSet κ compare

/-- `SeriesId`: the xxh64 hash of the canonical key bytes. -/
abbrev SeriesId := UInt64

/-- `ChunkId`: nanoseconds since the epoch at flush time. -/
abbrev ChunkId := UInt64

/-! ## `f64` as a bit pattern -/

/-- An `f64`, by its bits. -/
structure F64 where
  bits : UInt64
  deriving DecidableEq, Repr

namespace F64

/-- Exponent all ones and a non-zero mantissa. -/
def isNaN (x : F64) : Bool :=
  x.bits &&& 0x7fffffffffffffff > 0x7ff0000000000000

/-- The order of the non-NaN values: sign and magnitude, both zeros at `0`. -/
def rank (x : F64) : Int :=
  if x.bits < 0x8000000000000000 then x.bits.toNat
  else -((x.bits &&& 0x7fffffffffffffff).toNat : Int)

def lt (x y : F64) : Bool := !x.isNaN && !y.isNaN && decide (x.rank < y.rank)

def le (x y : F64) : Bool := !x.isNaN && !y.isNaN && decide (x.rank ≤ y.rank)

/-- `f64::min`: a NaN argument is ignored. -/
def min (x y : F64) : F64 :=
  if x.isNaN then y else if y.isNaN then x else if x.le y then x else y

/-- `f64::max`: a NaN argument is ignored. -/
def max (x y : F64) : F64 :=
  if x.isNaN then y else if y.isNaN then x else if y.le x then x else y

end F64

/-! ## Points and series keys -/

/-- `DataPoint`: a single measurement at a point in time. -/
structure DataPoint where
  metricName : String
  tags : BTreeMap String String
  timestampNs : Int64
  value : F64
  deriving DecidableEq

/-- `SeriesKey`: metric name and complete tag set. -/
@[ext] structure SeriesKey where
  metricName : String
  tags : BTreeMap String String

/-- The series a point belongs to. -/
def DataPoint.key (p : DataPoint) : SeriesKey := ⟨p.metricName, p.tags⟩

namespace SeriesKey

/-- The derived order: by metric name, then by the tag entries in key order. -/
instance : Ord SeriesKey where
  compare a b := (compare a.metricName b.metricName).then (compare a.tags.toList b.tags.toList)

theorem compare_def (a b : SeriesKey) :
    compare a b = (compare a.metricName b.metricName).then
      (compare a.tags.toList b.tags.toList) := rfl

instance : Std.LawfulEqOrd SeriesKey where
  compare_self {a} := by simp [compare_def]
  eq_of_compare {a b} h := by
    rw [compare_def, Ordering.then_eq_eq, Std.LawfulEqOrd.compare_eq_iff_eq,
      Std.LawfulEqOrd.compare_eq_iff_eq, Std.ExtTreeMap.toList_inj] at h
    exact SeriesKey.ext h.1 h.2

instance : Std.TransOrd SeriesKey :=
  inferInstanceAs (Std.TransCmp (compareLex (compareOn fun k : SeriesKey => k.metricName)
    (compareOn fun k : SeriesKey => k.tags.toList)))

instance : DecidableEq SeriesKey := fun a b =>
  decidable_of_iff (a.metricName = b.metricName ∧ a.tags = b.tags)
    ⟨fun h => SeriesKey.ext h.1 h.2, fun h => h ▸ ⟨rfl, rfl⟩⟩

/-- The bytes of a string, as `as_bytes` gives them. -/
def strBytes (s : String) : Bytes := s.toByteArray.data.toList

/-- `SeriesKey::to_bytes`: `metric_name,k1=v1,k2=v2`, tags in key order. -/
def toBytes (k : SeriesKey) : Bytes :=
  strBytes k.metricName ++
    k.tags.toList.flatMap fun kv => 44 :: (strBytes kv.1 ++ 61 :: strBytes kv.2)

/-- `str::split_once`: the text before and after the first `c`. -/
def splitOnce (c : Char) : List Char → Option (List Char × List Char)
  | [] => none
  | d :: s => if d = c then some ([], s) else (splitOnce c s).map fun p => (d :: p.1, p.2)

/-- The errors of `SeriesKey::from_bytes`. -/
inductive KeyError
  | invalidUtf8
  | emptyKey
  | malformedTagPair (kv : String)

/-- The tag loop of `from_bytes`: a later pair with an equal tag key wins. -/
def parseTags : List (List Char) → BTreeMap String String →
    Except KeyError (BTreeMap String String)
  | [], tags => .ok tags
  | kv :: parts, tags =>
    match splitOnce '=' kv with
    | none => .error (.malformedTagPair (String.ofList kv))
    | some (k, v) => parseTags parts (tags.insert (String.ofList k) (String.ofList v))

/-- `SeriesKey::from_bytes`: split at every `,`, and each part after the
first at its first `=`. -/
def fromBytes (bytes : Bytes) : Except KeyError SeriesKey :=
  match String.fromUTF8? ⟨bytes.toArray⟩ with
  | none => .error .invalidUtf8
  | some s =>
    match s.toList.splitOn ',' with
    | [] => .error .emptyKey
    | name :: parts =>
      match parseTags parts ∅ with
      | .error e => .error e
      | .ok tags => .ok ⟨String.ofList name, tags⟩

end SeriesKey

/-! ## Index records -/

/-- `SeriesChunkEntry`: a series' presence within one chunk file. -/
structure SeriesChunkEntry where
  chunkId : ChunkId
  seriesId : SeriesId
  timeStartNs : Int64
  timeEndNs : Int64
  sizeBytes : Nat
  deriving DecidableEq, Repr

/-- `SeriesChunkStats`: value statistics of one series within one chunk. -/
structure SeriesChunkStats where
  minValue : F64
  maxValue : F64
  nullCount : Nat
  deriving DecidableEq, Repr

/-- `reduce`: fold a non-empty list from its first element. -/
def reduce {α : Type} (f : α → α → α) : List α → Option α
  | [] => none
  | x :: xs => some (xs.foldl f x)

/-- `SeriesChunkStats::from_values`: `None` on an empty slice. -/
def SeriesChunkStats.fromValues (values : List F64) : Option SeriesChunkStats :=
  match reduce F64.min values, reduce F64.max values with
  | some lo, some hi => some ⟨lo, hi, 0⟩
  | _, _ => none

/-! ## Value predicates -/

/-- `ValuePredicate`. -/
inductive ValuePredicate
  | greaterThan (threshold : F64)
  | lessThan (threshold : F64)
  | between (lo hi : F64)

namespace ValuePredicate

/-- `ValuePredicate::matches`: whether a chunk with this value range can
contain matching points. -/
def matchesRange (minVal maxVal : F64) : ValuePredicate → Bool
  | greaterThan t => t.lt maxVal
  | lessThan t => minVal.lt t
  | between lo hi => minVal.le hi && lo.le maxVal

/-- `ValuePredicate::satisfies`. -/
def satisfies (value : F64) : ValuePredicate → Bool
  | greaterThan t => t.lt value
  | lessThan t => value.lt t
  | between lo hi => lo.le value && value.le hi

end ValuePredicate

/-! ## Chunk files -/

/-- A chunk file path. `ChunkWriter::write` formats it from the chunk id
alone (`chunk-{id:016x}.mcs`), so it is named by that id. -/
abbrev ChunkPath := ChunkId

/-- `ChunkMeta`: path and size of a chunk file. -/
structure ChunkMeta where
  filePath : ChunkPath
  fileSize : Nat
  deriving DecidableEq, Repr

end Micius

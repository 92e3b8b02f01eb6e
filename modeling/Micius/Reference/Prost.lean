import Micius.Lib.Protobuf
import Micius.Lib.TreeMap
import Micius.Wal.Proto

/-!
# prost on the WAL messages

A concrete `WalEntry` encoder and decoder, used to show that
`Crates.LawfulProst` can be met. The encoder writes the bytes prost writes:
fields in tag order, default values left out, `-0.0` among them. The decoder
reads what the encoder writes and rejects fields in any other order, which
prost accepts.
-/

namespace Micius.Prost

open Protobuf LittleEndian

/-- The bytes of a string. -/
def encodeString (s : String) : Bytes := SeriesKey.strBytes s

/-- Decode UTF-8. -/
def decodeString (bs : Bytes) : Option String := String.fromUTF8? ⟨bs.toArray⟩

theorem decodeString_encodeString (s : String) : decodeString (encodeString s) = some s := by
  have h : (⟨s.toByteArray.data.toList.toArray⟩ : ByteArray) = s.toByteArray := by simp
  rw [decodeString, encodeString, SeriesKey.strBytes, h, String.fromUTF8?,
    dif_pos s.isValidUTF8]
  rfl

/-! ## Tags -/

def encodeTag (kv : String × String) : Bytes :=
  optionalField 0x0a (encodeString kv.1) ++ optionalField 0x12 (encodeString kv.2)

def decodeTag (bs : Bytes) : Option (String × String) := do
  let (k, bs) ← readOptional 0x0a bs
  let (v, bs) ← readOptional 0x12 bs
  if bs = [] then return (← decodeString k, ← decodeString v) else none

theorem head_optionalField {tag b : UInt8} {bs : Bytes} (rest : Bytes)
    (h : b ∈ (optionalField tag bs ++ rest).head?) : b = tag ∨ b ∈ rest.head? := by
  unfold optionalField at h
  split at h
  · exact .inr (by simpa using h)
  · exact .inl (by simpa [eq_comm] using h)

theorem head_scalar {tag b : UInt8} {d : Bool} {bs : Bytes} (rest : Bytes)
    (h : b ∈ (scalar tag d bs ++ rest).head?) : b = tag ∨ b ∈ rest.head? := by
  unfold scalar at h
  split at h
  · exact .inr (by simpa using h)
  · exact .inl (by simpa [eq_comm] using h)

theorem head_repeated {tag b : UInt8} {items : List Bytes} (rest : Bytes)
    (h : b ∈ (repeated tag items ++ rest).head?) : b = tag ∨ b ∈ rest.head? := by
  cases items with
  | nil => exact .inr (by simpa [repeated] using h)
  | cons item items => exact .inl (by simpa [repeated, eq_comm] using h)

theorem decodeTag_encodeTag (kv : String × String) : decodeTag (encodeTag kv) = some kv := by
  have hv : ∀ b ∈ (optionalField 0x12 (encodeString kv.2)).head?, b ≠ 0x0a := by
    intro b hb
    have hb' := head_optionalField [] (by simpa using hb)
    rcases hb' with rfl | hb'
    · decide
    · simp at hb'
  have h1 := readOptional_optionalField 0x0a (encodeString kv.1) _ hv
  have h2 : readOptional 0x12 (optionalField 0x12 (encodeString kv.2)) =
      some (encodeString kv.2, []) := by
    simpa using readOptional_optionalField 0x12 (encodeString kv.2) [] (by simp)
  simp [decodeTag, encodeTag, h1, h2, decodeString_encodeString]

/-! ## Points -/

/-- The value field; it is left out for both zeros. -/
def encodeValue (v : F64) : Bytes :=
  scalar 0x21 (v.bits = 0 ∨ v = F64.negZero) (toLe 8 v.bits.toNat)

/-- The timestamp and value fields that close a point message. -/
def encodeScalars (p : WalDataPoint) : Bytes :=
  scalar 0x18 (p.timestampNs = 0) (varint (zigzag p.timestampNs.toInt)) ++ encodeValue p.value

def encodePoint (p : WalDataPoint) : Bytes :=
  optionalField 0x0a (encodeString p.metricName) ++
    (repeated 0x12 (p.tags.toList.map encodeTag) ++ encodeScalars p)

def decodeTimestamp : Bytes → Option (Int64 × Bytes)
  | 0x18 :: bs => (readVarint bs).map fun p => (Int64.ofInt (unzigzag p.1), p.2)
  | bs => some (0, bs)

def decodeValue : Bytes → Option (F64 × Bytes)
  | 0x21 :: bs => if 8 ≤ bs.length then
      some (⟨UInt64.ofNat (fromLe (bs.take 8))⟩, bs.drop 8) else none
  | bs => some (⟨0⟩, bs)

def decodePoint (bs : Bytes) : Option WalDataPoint := do
  let (name, bs) ← readOptional 0x0a bs
  let (items, bs) ← readRepeated 0x12 bs.length bs
  let tags ← items.mapM decodeTag
  let (ts, bs) ← decodeTimestamp bs
  let (value, bs) ← decodeValue bs
  if bs = [] then
    return ⟨← decodeString name, Std.ExtTreeMap.ofList tags compare, ts, value⟩
  else none

theorem decodeValue_encodeValue {v : F64} (hv : v ≠ F64.negZero) :
    decodeValue (encodeValue v) = some (v, []) := by
  simp only [encodeValue, hv, or_false]
  obtain ⟨bits⟩ := v
  by_cases h : bits = 0
  · simp [h, scalar, decodeValue]
  · have hback : fromLe (toLe 8 bits.toNat) = bits.toNat :=
      fromLe_toLe_of_lt (by simpa using bits.toNat_lt)
    have htake : (toLe 8 bits.toNat).take 8 = toLe 8 bits.toNat :=
      List.take_of_length_le (by simp)
    simp [h, scalar, decodeValue, htake, hback]

theorem decodeTimestamp_scalar (ts : Int64) {rest : Bytes}
    (hrest : ∀ b ∈ rest.head?, b ≠ 0x18) :
    decodeTimestamp (scalar 0x18 (ts = 0) (varint (zigzag ts.toInt)) ++ rest) =
      some (ts, rest) := by
  by_cases h : ts = 0
  · simp only [h, scalar, decide_true, if_true, List.nil_append]
    cases rest with
    | nil => rfl
    | cons b rest =>
      have hb : b ≠ 0x18 := hrest b (by simp)
      unfold decodeTimestamp
      split
      · next bs heq => exact absurd (List.cons.inj heq).1 hb
      · rfl
  · simp [h, scalar, decodeTimestamp, readVarint_varint, unzigzag_zigzag]

theorem mapM_decodeTag (kvs : List (String × String)) :
    (kvs.map encodeTag).mapM decodeTag = some kvs := by
  induction kvs with
  | nil => rfl
  | cons kv kvs ih => simp [List.mapM_cons, decodeTag_encodeTag, ih]

theorem length_repeated (tag : UInt8) (items : List Bytes) :
    items.length ≤ (repeated tag items).length := by
  induction items with
  | nil => simp
  | cons item items ih =>
    simp only [repeated, List.flatMap_cons, List.cons_append, List.length_cons,
      List.length_append] at ih ⊢
    omega

theorem head_encodeValue {v : F64} {b : UInt8} (h : b ∈ (encodeValue v).head?) : b = 0x21 := by
  rw [← List.append_nil (encodeValue v), encodeValue] at h
  rcases head_scalar [] h with h | h
  · exact h
  · simp at h

theorem head_encodeScalars {p : WalDataPoint} {b : UInt8} (h : b ∈ (encodeScalars p).head?) :
    b = 0x18 ∨ b = 0x21 := by
  rcases head_scalar _ h with rfl | h
  · exact .inl rfl
  · exact .inr (head_encodeValue h)

theorem decodePoint_encodePoint {p : WalDataPoint} (hp : p.value ≠ F64.negZero) :
    decodePoint (encodePoint p) = some p := by
  have hname : ∀ b ∈ (repeated 0x12 (p.tags.toList.map encodeTag) ++ encodeScalars p).head?,
      b ≠ 0x0a := by
    intro b hb
    rcases head_repeated _ hb with rfl | hb
    · decide
    · rcases head_encodeScalars hb with rfl | rfl <;> decide
  have htags : ∀ b ∈ (encodeScalars p).head?, b ≠ 0x12 := by
    intro b hb
    rcases head_encodeScalars hb with rfl | rfl <;> decide
  have hvalue : ∀ b ∈ (encodeValue p.value).head?, b ≠ 0x18 := by
    rintro b hb
    obtain rfl := head_encodeValue hb
    decide
  have hfuel : (p.tags.toList.map encodeTag).length ≤
      (repeated 0x12 (p.tags.toList.map encodeTag) ++ encodeScalars p).length := by
    have := length_repeated 0x12 (p.tags.toList.map encodeTag)
    rw [List.length_append]
    omega
  have h1 := readOptional_optionalField 0x0a (encodeString p.metricName) _ hname
  have h2 := readRepeated_repeated 0x12 (p.tags.toList.map encodeTag) _ htags hfuel
  have h3 : decodeTimestamp (encodeScalars p) = some (p.timestampNs, _) :=
    decodeTimestamp_scalar p.timestampNs hvalue
  simp [decodePoint, encodePoint, h1, h2, h3, mapM_decodeTag, decodeValue_encodeValue hp,
    decodeString_encodeString, TreeMap.ofList_toList, -List.mapM_map, -List.length_append]

/-! ## Entries -/

/-- `WalEntry::encode_to_vec`. -/
def encodeEntry (e : WalEntry) : Bytes :=
  scalar 0x08 (e.sequence = 0) (varint e.sequence) ++ repeated 0x12 (e.points.map encodePoint)

def decodeSequence : Bytes → Option (Nat × Bytes)
  | 0x08 :: bs => readVarint bs
  | bs => some (0, bs)

/-- `WalEntry::decode`. -/
def decodeEntry (bs : Bytes) : Option WalEntry := do
  let (seq, bs) ← decodeSequence bs
  let (items, bs) ← readRepeated 0x12 bs.length bs
  if bs = [] then return ⟨seq, ← items.mapM decodePoint⟩ else none

theorem mapM_decodePoint {ps : List WalDataPoint} (hps : ∀ p ∈ ps, p.value ≠ F64.negZero) :
    (ps.map encodePoint).mapM decodePoint = some ps := by
  induction ps with
  | nil => rfl
  | cons p ps ih =>
    have hp := decodePoint_encodePoint (hps p (by simp))
    simp [List.mapM_cons, hp, ih fun q hq => hps q (by simp [hq])]

theorem decodeSequence_scalar (seq : Nat) {rest : Bytes} (hrest : ∀ b ∈ rest.head?, b ≠ 0x08) :
    decodeSequence (scalar 0x08 (seq = 0) (varint seq) ++ rest) = some (seq, rest) := by
  by_cases h : seq = 0
  · simp only [h, scalar, decide_true, if_true, List.nil_append]
    unfold decodeSequence
    split
    · next bs heq => exact absurd rfl (hrest 0x08 (by simp))
    · rfl
  · simp [h, scalar, decodeSequence, readVarint_varint]

theorem decodeEntry_encodeEntry {e : WalEntry} (he : e.Plain) :
    decodeEntry (encodeEntry e) = some e := by
  have hseq : ∀ b ∈ (repeated 0x12 (e.points.map encodePoint)).head?, b ≠ 0x08 := by
    intro b hb
    rcases head_repeated [] (by simpa using hb) with rfl | hb
    · decide
    · simp at hb
  have h1 := decodeSequence_scalar e.sequence hseq
  have h2 : readRepeated 0x12 (repeated 0x12 (e.points.map encodePoint)).length
      (repeated 0x12 (e.points.map encodePoint)) = some (e.points.map encodePoint, []) := by
    have h := readRepeated_repeated 0x12 (e.points.map encodePoint) []
      (by simp) (length_repeated 0x12 (e.points.map encodePoint))
    rwa [List.append_nil] at h
  simp [decodeEntry, encodeEntry, h1, h2, mapM_decodePoint he.values, -List.mapM_map]

end Micius.Prost

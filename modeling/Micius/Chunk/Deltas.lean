import Micius.Chunk.Format
import Micius.Lib.Machine

/-!
# Delta coding with overflow checks (`chunk/format.rs`)

`delta_encode` and `delta_decode` in a build that checks `i64` arithmetic. The
timestamps are arbitrary, so the gap between two neighbours need not fit an
`i64`, even in a list that is in order.
-/

namespace Micius

open Machine

variable {ε : Type}

/-- The loop of `delta_encode`, from the timestamp before on. -/
def deltasFromChecked (prev : Int64) : List Int64 → Call ε (List Int64)
  | [] => return []
  | x :: xs => do
    let delta ← i64Sub x prev
    let deltas ← deltasFromChecked x xs
    return delta :: deltas

/-- `delta_encode`. -/
def deltaEncodeChecked : List Int64 → Call ε (List Int64)
  | [] => return []
  | x :: xs => do
    let deltas ← deltasFromChecked x xs
    return x :: deltas

/-- The loop of `delta_decode`, from the timestamp before on. -/
def sumsFromChecked (prev : Int64) : List Int64 → Call ε (List Int64)
  | [] => return []
  | d :: ds => do
    let sum ← i64Add prev d
    let sums ← sumsFromChecked sum ds
    return sum :: sums

/-- `delta_decode`. -/
def deltaDecodeChecked : List Int64 → Call ε (List Int64)
  | [] => return []
  | x :: ds => do
    let sums ← sumsFromChecked x ds
    return x :: sums

/-- Every timestamp is less than `2 ^ 63` above the one before it. -/
def GapsFit (xs : List Int64) : Prop := xs.IsChain fun x y => y.toInt - x.toInt < 2 ^ 63

instance (xs : List Int64) : Decidable (GapsFit xs) :=
  inferInstanceAs (Decidable (List.IsChain _ xs))

/-! ## Encoding -/

/-- The loop panics at the first difference that leaves the range. -/
theorem deltasFromChecked_eq (prev : Int64) (xs : List Int64) :
    (deltasFromChecked prev xs : Call ε (List Int64)) =
      if (prev :: xs).IsChain (fun x y => InI64 (y.toInt - x.toInt)) then .ok (deltasFrom prev xs)
      else .panic := by
  induction xs generalizing prev with
  | nil => simp [deltasFromChecked, deltasFrom]
  | cons x xs ih =>
    rw [deltasFromChecked, ih, i64Sub]
    by_cases hx : InI64 (x.toInt - prev.toInt)
    · by_cases hxs : (x :: xs).IsChain fun x y => InI64 (y.toInt - x.toInt)
      · simp [hx, hxs, deltasFrom]
      · simp [hx, hxs]
    · simp [hx]

theorem deltaEncodeChecked_eq (xs : List Int64) :
    (deltaEncodeChecked xs : Call ε (List Int64)) =
      if xs.IsChain (fun x y => InI64 (y.toInt - x.toInt)) then .ok (deltaEncode xs)
      else .panic := by
  cases xs with
  | nil => simp [deltaEncodeChecked, deltaEncode]
  | cons x xs =>
    rw [deltaEncodeChecked, deltasFromChecked_eq]
    split <;> rfl

/-! ## Decoding -/

/-- All running sums from a first value on are in range. -/
def SumsFit (prev : Int) : List Int64 → Prop
  | [] => True
  | d :: ds => InI64 (prev + d.toInt) ∧ SumsFit (prev + d.toInt) ds

/-- The running sums of a column of deltas are in range. -/
def DeltasFit : List Int64 → Prop
  | [] => True
  | x :: ds => SumsFit x.toInt ds

/-- The loop panics at the first sum that leaves the range. -/
theorem sumsFromChecked_of_fit {prev : Int64} {ds : List Int64} (h : SumsFit prev.toInt ds) :
    (sumsFromChecked prev ds : Call ε (List Int64)) = .ok (sumsFrom prev ds) := by
  induction ds generalizing prev with
  | nil => rfl
  | cons d ds ih =>
    have hsum := toInt_add_of_inI64 h.1
    rw [sumsFromChecked, i64Add, if_pos h.1, Call.ok_bind, ih (hsum ▸ h.2)]
    rfl

theorem sumsFromChecked_of_not_fit {prev : Int64} {ds : List Int64} (h : ¬ SumsFit prev.toInt ds) :
    (sumsFromChecked prev ds : Call ε (List Int64)) = .panic := by
  induction ds generalizing prev with
  | nil => exact absurd trivial h
  | cons d ds ih =>
    rw [sumsFromChecked, i64Add]
    by_cases hd : InI64 (prev.toInt + d.toInt)
    · have hsum := toInt_add_of_inI64 hd
      rw [if_pos hd, Call.ok_bind, ih fun hds => h ⟨hd, hsum ▸ hds⟩]
      rfl
    · rw [if_neg hd]
      rfl

theorem deltaDecodeChecked_of_fit {ds : List Int64} (h : DeltasFit ds) :
    (deltaDecodeChecked ds : Call ε (List Int64)) = .ok (deltaDecode ds) := by
  cases ds with
  | nil => rfl
  | cons x ds =>
    rw [deltaDecodeChecked, sumsFromChecked_of_fit h]
    rfl

theorem deltaDecodeChecked_of_not_fit {ds : List Int64} (h : ¬ DeltasFit ds) :
    (deltaDecodeChecked ds : Call ε (List Int64)) = .panic := by
  cases ds with
  | nil => exact absurd trivial h
  | cons x ds =>
    rw [deltaDecodeChecked, sumsFromChecked_of_not_fit h]
    rfl

/-- The sums of differences in range are the timestamps again. -/
theorem sumsFit_deltasFrom {prev : Int64} {xs : List Int64}
    (h : (prev :: xs).IsChain fun x y => InI64 (y.toInt - x.toInt)) :
    SumsFit prev.toInt (deltasFrom prev xs) := by
  induction xs generalizing prev with
  | nil => trivial
  | cons x xs ih =>
    rw [List.isChain_cons_cons] at h
    have hx : prev.toInt + (x - prev).toInt = x.toInt := by
      rw [toInt_sub_of_inI64 h.1]
      omega
    rw [deltasFrom, SumsFit, hx]
    exact ⟨inI64_toInt x, ih h.2⟩

theorem deltasFit_deltaEncode {xs : List Int64}
    (h : xs.IsChain fun x y => InI64 (y.toInt - x.toInt)) : DeltasFit (deltaEncode xs) := by
  cases xs with
  | nil => trivial
  | cons x xs => exact sumsFit_deltasFrom h

/-! ## Both -/

/-- In a strictly increasing list a difference is in range if it is below
`2 ^ 63`. -/
theorem gapsFit_iff {xs : List Int64} (h : xs.Pairwise (· < ·)) :
    GapsFit xs ↔ xs.IsChain fun x y => InI64 (y.toInt - x.toInt) := by
  rw [GapsFit, List.isChain_iff_getElem, List.isChain_iff_getElem]
  refine forall₂_congr fun i hi => ?_
  have hlt : xs[i].toInt < xs[i + 1].toInt :=
    Int64.lt_iff_toInt_lt.mp (List.pairwise_iff_getElem.mp h i (i + 1) _ hi (Nat.lt_succ_self i))
  rw [InI64]
  omega

/-- **Delta coding of timestamps in order** stays within `i64`, and gives the
timestamps back, exactly if every gap is below `2 ^ 63`. -/
theorem delta_coding_fits_iff {xs : List Int64} (h : xs.Pairwise (· < ·)) :
    (∃ deltas, (deltaEncodeChecked xs : Call ε (List Int64)) = .ok deltas ∧
      (deltaDecodeChecked deltas : Call ε (List Int64)) = .ok xs) ↔ GapsFit xs := by
  rw [gapsFit_iff h]
  constructor
  · rintro ⟨deltas, hencode, -⟩
    rw [deltaEncodeChecked_eq] at hencode
    by_contra hnot
    rw [if_neg hnot] at hencode
    cases hencode
  · intro hin
    refine ⟨deltaEncode xs, by rw [deltaEncodeChecked_eq, if_pos hin], ?_⟩
    rw [deltaDecodeChecked_of_fit (deltasFit_deltaEncode hin), deltaDecode_deltaEncode]

/-- Two timestamps a second apart. -/
theorem delta_coding_fits_second :
    ∃ deltas, (deltaEncodeChecked [0, 1000000000] : Call Empty (List Int64)) = .ok deltas ∧
      (deltaDecodeChecked deltas : Call Empty (List Int64)) = .ok [0, 1000000000] :=
  (delta_coding_fits_iff (by decide)).mpr (by decide)

/-- The gap from `-1` to the last timestamp is `2 ^ 63`: encoding panics. -/
theorem delta_encode_overflows : [(-1 : Int64), Int64.maxValue].Pairwise (· < ·) ∧
    (deltaEncodeChecked [-1, Int64.maxValue] : Call Empty (List Int64)) = .panic := by
  decide

end Micius

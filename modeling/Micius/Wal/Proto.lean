import Mathlib.Algebra.Group.Nat.Defs
import Micius.Types

/-!
# WAL records (`wal/proto.rs`)

The two protobuf messages of a WAL frame and their conversions. The wire
encoding is prost's; it is a parameter of the model (`Crates.walEncode`).
-/

namespace Micius

/-- `WalDataPoint`: the protobuf form of a data point. -/
structure WalDataPoint where
  metricName : String
  tags : BTreeMap String String
  timestampNs : Int64
  value : F64

/-- `WalEntry`: one batch of points under its sequence number. -/
structure WalEntry where
  sequence : Nat
  points : List WalDataPoint

/-- `-0.0`. -/
def F64.negZero : F64 := ⟨0x8000000000000000⟩

/-- What the wire format keeps: a sequence number that is a `u64`, and values
other than `-0.0`. As `-0.0 == 0.0`, prost takes it for the default and leaves
it out, and the missing field is read as `0.0`. -/
structure WalEntry.Plain (e : WalEntry) : Prop where
  sequence : e.sequence < 2 ^ 64
  values : ∀ p ∈ e.points, p.value ≠ F64.negZero

/-- `From<&DataPoint> for WalDataPoint`. -/
def WalDataPoint.ofDataPoint (pt : DataPoint) : WalDataPoint :=
  ⟨pt.metricName, pt.tags, pt.timestampNs, pt.value⟩

/-- `From<WalDataPoint> for DataPoint`. -/
def WalDataPoint.toDataPoint (pt : WalDataPoint) : DataPoint :=
  ⟨pt.metricName, pt.tags, pt.timestampNs, pt.value⟩

@[simp] theorem WalDataPoint.toDataPoint_ofDataPoint (pt : DataPoint) :
    (WalDataPoint.ofDataPoint pt).toDataPoint = pt := rfl

/-- A batch survives the conversion to the wire form and back. -/
@[simp] theorem map_toDataPoint_ofDataPoint (pts : List DataPoint) :
    (pts.map WalDataPoint.ofDataPoint).map WalDataPoint.toDataPoint = pts := by
  simp [Function.comp_def]

end Micius

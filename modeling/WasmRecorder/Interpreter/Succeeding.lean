import WasmRecorder.Interpreter.VariableReaders

/-!
# Readers that do not fail

A reader succeeds if the slices it takes are long enough; registering a type always succeeds.
-/

namespace Interpreter

open LittleEndian Stateful

/-- The slice from `low` to `high`. -/
def Raw.cut (raw : Raw) (low high : Int) : Raw := ⟨raw.bytes.drop low.toNat, (high - low).toNat⟩

/-- Is there such a slice? -/
def Raw.Inside (raw : Raw) (low high : Int) : Prop := 0 ≤ low ∧ low ≤ high ∧ high ≤ raw.bytes.length

theorem succeeds_typeIdOf (module : Nat) (name : Text) (kind : TypeKind)
    (info : TypeSpecificInfo) : Succeeds (typeIdOf module name kind info) fun _ => True := by
  refine succeeds_get.bind fun r _ => .ite (fun _ => .pure trivial) fun _ => ?_
  exact (succeeds_modify _).bind fun _ _ => (succeeds_modify _).bind fun _ _ => .pure trivial

theorem succeeds_sub {raw : Raw} {low high : Int} (h : raw.Inside low high) :
    Succeeds (raw.sub low high) fun part => part = raw.cut low high := by
  exact .ite (fun _ => .pure rfl) fun hn => absurd h hn

theorem succeeds_uint {raw : Raw} {width : Nat} (h : width ≤ raw.length) :
    Succeeds (raw.uint width) fun n => n = decode (raw.bytes.take width) := by
  rw [Raw.uint, if_pos h]
  exact .pure rfl

namespace Hook

variable {h : Hook}

theorem succeeds_typed {t : DwarfType} {kind : TypeKind} {info : TypeSpecificInfo}
    {value : Nat → ValueRecord} :
    Succeeds (h.typed t kind info value) fun r => ∃ typeId, r = ⟨some (value typeId), typeId, false⟩ :=
  (succeeds_typeIdOf _ _ _ _).bind fun typeId _ => .pure ⟨typeId, rfl⟩

end Hook

end Interpreter

import ClientTable.Float.Widen
import ClientTable.Schema

namespace ClientTable

/-- One decoded element. -/
inductive Scalar where
  | int (kind : IntKind) (bits : BitVec kind.bits)
  | f32 (bits : BitVec 32)
  | f64 (bits : BitVec 64)
  | text (text : String)
  deriving DecidableEq, Repr

/-- The integer that a bit pattern stands for. -/
def IntKind.toInt (kind : IntKind) (bits : BitVec kind.bits) : Int :=
  if kind.signed then bits.toInt else bits.toNat

namespace Scalar

/-- The element of kind `kind` whose bits are the low bits of a word. -/
def ofWord (word : BitVec 64) : FieldKind → Except Error Scalar
  | .int kind => return .int kind (word.setWidth kind.bits)
  | .f32 => return .f32 (word.setWidth 32)
  | .f64 => return .f64 word
  | .text => throw (.unsupported .stringFromBits)

/-- The integer, if the element is one that a signed 64-bit number can hold. -/
def toInt? : Scalar → Option Int
  | int kind bits => if kind.toInt bits < 0x8000000000000000 then some (kind.toInt bits) else none
  | _ => none

/-- The integer, if the element is one that an unsigned 32-bit number can hold. -/
def toWord? (s : Scalar) : Option UInt32 :=
  match s.toInt? with
  | some n => if 0 ≤ n ∧ n < 0x100000000 then some (UInt32.ofNat n.toNat) else none
  | none => none

def toF32? : Scalar → Option (BitVec 32)
  | f32 bits => some bits
  | _ => none

def toF64? : Scalar → Option (BitVec 64)
  | f32 bits => some (Float.widen bits)
  | f64 bits => some bits
  | _ => none

def toText? : Scalar → Option String
  | text t => some t
  | _ => none

/-- An integer of the same kind that holds a key, or as much of it as fits. -/
def withKey (key : UInt32) : Scalar → Except Error Scalar
  | int kind _ => return .int kind (BitVec.ofNat kind.bits key.toNat)
  | _ => throw (.unsupported .keyNotInteger)

end Scalar

/-- What a field of a record holds. -/
inductive Value where
  | scalar (s : Scalar)
  | array (elements : List Value)
  deriving Repr

namespace Value

/-- The element that is the whole value, unless it is an array. -/
def scalar? : Value → Option Scalar
  | scalar s => some s
  | array _ => none

def toList? : Value → Option (List Value)
  | scalar _ => none
  | array elements => some elements

def toInt? (v : Value) : Option Int :=
  v.scalar?.bind Scalar.toInt?

def toWord? (v : Value) : Option UInt32 :=
  v.scalar?.bind Scalar.toWord?

def toF32? (v : Value) : Option (BitVec 32) :=
  v.scalar?.bind Scalar.toF32?

def toF64? (v : Value) : Option (BitVec 64) :=
  v.scalar?.bind Scalar.toF64?

def toText? (v : Value) : Option String :=
  v.scalar?.bind Scalar.toText?

def withKey (key : UInt32) : Value → Except Error Value
  | scalar s => return .scalar (← s.withKey key)
  | array _ => throw (.unsupported .keyNotInteger)

mutual

def decideEq : (v w : Value) → Decidable (v = w)
  | scalar s, scalar t =>
    if h : s = t then .isTrue (h ▸ rfl) else .isFalse fun e => h (scalar.inj e)
  | array vs, array ws =>
    match decideEqList vs ws with
    | .isTrue h => .isTrue (h ▸ rfl)
    | .isFalse h => .isFalse fun e => h (array.inj e)
  | scalar _, array _ => .isFalse nofun
  | array _, scalar _ => .isFalse nofun

def decideEqList : (vs ws : List Value) → Decidable (vs = ws)
  | [], [] => .isTrue rfl
  | v :: vs, w :: ws =>
    match decideEq v w, decideEqList vs ws with
    | .isTrue hv, .isTrue hvs => .isTrue (hv ▸ hvs ▸ rfl)
    | .isFalse hv, _ => .isFalse fun e => hv (List.cons.inj e).1
    | _, .isFalse hvs => .isFalse fun e => hvs (List.cons.inj e).2
  | [], _ :: _ => .isFalse nofun
  | _ :: _, [] => .isFalse nofun

end

instance : DecidableEq Value :=
  decideEq

end Value

end ClientTable

import ClientTable.Error
import ClientTable.Quantity

namespace ClientTable

/-- The widths of integers. -/
inductive IntWidth where
  | w8
  | w16
  | w32
  | w64
  deriving DecidableEq, Repr

def IntWidth.bits : IntWidth → Nat
  | w8 => 8
  | w16 => 16
  | w32 => 32
  | w64 => 64

/-- An integer type of fixed width. -/
structure IntKind where
  width : IntWidth
  signed : Bool
  deriving DecidableEq, Repr

def IntKind.bits (k : IntKind) : Nat :=
  k.width.bits

/-- The type of one element of a field. -/
inductive FieldKind where
  | int (kind : IntKind)
  | f32
  | f64
  | text
  deriving DecidableEq, Repr

namespace FieldKind

def i8 : FieldKind := int ⟨.w8, true⟩

def u8 : FieldKind := int ⟨.w8, false⟩

def i16 : FieldKind := int ⟨.w16, true⟩

def u16 : FieldKind := int ⟨.w16, false⟩

def i32 : FieldKind := int ⟨.w32, true⟩

def u32 : FieldKind := int ⟨.w32, false⟩

def i64 : FieldKind := int ⟨.w64, true⟩

def u64 : FieldKind := int ⟨.w64, false⟩

/-- The natural width of an element in bits. A string is stored as a 32-bit offset. -/
def bits : FieldKind → Nat
  | int kind => kind.bits
  | f32 => 32
  | f64 => 64
  | text => 32

def isSigned : FieldKind → Bool
  | int kind => kind.signed
  | _ => false

end FieldKind

/-- One field of the caller's record type. An array has more than one element, and no field has
none. -/
structure Field where
  name : String
  kind : FieldKind
  arity : Nat
  arity_pos : 0 < arity
  arity_lt : arity < wordLimit
  deriving DecidableEq, Repr

namespace Field

def scalar (name : String) (kind : FieldKind) : Field :=
  ⟨name, kind, 1, by decide, by decide⟩

/-- A field of `size` elements; one of none counts as one of one. -/
def array (name : String) (kind : FieldKind) (size : UInt32) : Field where
  name := name
  kind := kind
  arity := max size.toNat 1
  arity_pos := by omega
  arity_lt := by
    have h : size.toNat < wordLimit := size.toNat_lt
    simp only [wordLimit] at h ⊢
    omega

def isArray (f : Field) : Bool :=
  1 < f.arity

end Field

/-- The fields of the caller's record type, in order. -/
structure Schema where
  fields : List Field
  deriving DecidableEq, Repr

namespace Schema

def empty : Schema :=
  ⟨[]⟩

def push (s : Schema) (f : Field) : Schema :=
  ⟨s.fields ++ [f]⟩

def ofList (fields : List Field) : Schema :=
  fields.foldl push empty

def size (s : Schema) : Nat :=
  s.fields.length

def isEmpty (s : Schema) : Bool :=
  s.fields.isEmpty

def position? (s : Schema) (name : String) : Option Nat :=
  s.fields.findIdx? fun f => f.name = name

@[simp]
theorem fields_ofList (fields : List Field) : (ofList fields).fields = fields := by
  suffices h : ∀ s : Schema, (fields.foldl push s).fields = s.fields ++ fields by
    exact h empty
  induction fields with
  | nil => simp
  | cons f fields ih => intro s; simp [ih, push]

end Schema

end ClientTable

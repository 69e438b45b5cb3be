namespace CompilerPlugin.Wire

inductive WireType where
  | varint | sixtyFourBit | lengthDelimited | startGroup | endGroup | thirtyTwoBit
deriving DecidableEq, Repr

namespace WireType

def code : WireType → Nat
  | varint => 0
  | sixtyFourBit => 1
  | lengthDelimited => 2
  | startGroup => 3
  | endGroup => 4
  | thirtyTwoBit => 5

def ofCode? : Nat → Option WireType
  | 0 => some varint
  | 1 => some sixtyFourBit
  | 2 => some lengthDelimited
  | 3 => some startGroup
  | 4 => some endGroup
  | 5 => some thirtyTwoBit
  | _ => none

def name : WireType → String
  | varint => "Varint"
  | sixtyFourBit => "SixtyFourBit"
  | lengthDelimited => "LengthDelimited"
  | startGroup => "StartGroup"
  | endGroup => "EndGroup"
  | thirtyTwoBit => "ThirtyTwoBit"

@[simp] theorem ofCode?_code (t : WireType) : ofCode? t.code = some t := by
  cases t <;> rfl

theorem code_lt (t : WireType) : t.code < 8 := by
  cases t <;> decide

theorem code_of_ofCode? {n : Nat} {t : WireType} (h : ofCode? n = some t) : t.code = n := by
  unfold ofCode? at h
  split at h <;> cases h <;> rfl

end WireType

/-- What stops a reader: a number that is too long or cut off, a key out of range, a value of the
wrong shape, too few bytes, text that is no text, nesting beyond the allowance, a value that ends
past the end of its message, an end of a group that was not begun. -/
inductive Fault where
  | varint
  | key (value : UInt64)
  | wireType (code : Nat)
  | fieldNumber
  | mismatch (found expected : WireType)
  | underflow
  | notUtf8
  | depth
  | overrun
  | strayEndGroup
deriving DecidableEq, Repr

def Fault.message : Fault → String
  | varint => "invalid varint"
  | key value => "invalid key value: " ++ toString value.toNat
  | wireType code => "invalid wire type value: " ++ toString code
  | fieldNumber => "invalid tag value: 0"
  | mismatch found expected => "invalid wire type: " ++ found.name ++ " (expected " ++ expected.name ++ ")"
  | underflow => "buffer underflow"
  | notUtf8 => "invalid string value: data is not UTF-8 encoded"
  | depth => "recursion limit reached"
  | overrun => "delimited length exceeded"
  | strayEndGroup => "unexpected end group tag"

/-- A fault and the known fields around it, the innermost first. -/
structure ReadError where
  fault : Fault
  fields : List String := []
deriving DecidableEq, Repr

namespace ReadError

def message (e : ReadError) : String :=
  "failed to decode Protobuf message: " ++ String.join (e.fields.map (· ++ ": ")) ++ e.fault.message

def inField (field : String) (e : ReadError) : ReadError :=
  ⟨e.fault, e.fields ++ [field]⟩

end ReadError

end CompilerPlugin.Wire

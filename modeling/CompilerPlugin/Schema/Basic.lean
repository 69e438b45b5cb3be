namespace CompilerPlugin.Schema

/-- What a field holds that is not a message. An enumeration is an `int32` that may have any value. -/
inductive Scalar where
  | int32 | int64 | uint64 | bool | double | text | bytes
deriving DecidableEq, Repr

inductive MessageType where
  | request | version | encodedDescriptors | response | generatedFile
  | file | message | extensionRange | reservedRange | extensionRangeOptions | field | oneof
  | enum | enumReservedRange | enumValue | service | method
  | fileOptions | messageOptions | fieldOptions | oneofOptions | enumOptions | enumValueOptions
  | serviceOptions | methodOptions | uninterpretedOption | namePart
  | sourceCodeInfo | location | generatedCodeInfo | codeSpan
deriving DecidableEq, Repr

inductive FieldType where
  | scalar (s : Scalar)
  | message (t : MessageType)
deriving DecidableEq, Repr

/-- How often a field occurs. A required field that is missing has a value all the same; the numbers
of a packed field share one occurrence. -/
inductive Label where
  | optional | required | repeated | packed
deriving DecidableEq, Repr

def Label.isList : Label → Bool
  | .repeated | .packed => true
  | .optional | .required => false

structure Field where
  number : Nat
  name : String
  type : FieldType
  label : Label
deriving DecidableEq, Repr

namespace Field

def one (number : Nat) (name : String) (s : Scalar) : Field :=
  ⟨number, name, .scalar s, .optional⟩

def required (number : Nat) (name : String) (s : Scalar) : Field :=
  ⟨number, name, .scalar s, .required⟩

def many (number : Nat) (name : String) (s : Scalar) : Field :=
  ⟨number, name, .scalar s, .repeated⟩

def packed (number : Nat) (name : String) (s : Scalar) : Field :=
  ⟨number, name, .scalar s, .packed⟩

def sub (number : Nat) (name : String) (t : MessageType) : Field :=
  ⟨number, name, .message t, .optional⟩

def subs (number : Nat) (name : String) (t : MessageType) : Field :=
  ⟨number, name, .message t, .repeated⟩

end Field

end CompilerPlugin.Schema

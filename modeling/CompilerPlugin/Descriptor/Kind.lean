import CompilerPlugin.Schema.Fields

namespace CompilerPlugin.Descriptor

open Schema

inductive Kind where
  | file | message | field | oneof | extensionRange | enum | enumValue | service | method
deriving DecidableEq, Repr

structure Slot where
  tag : Nat
  kind : Kind
deriving DecidableEq, Repr

namespace Kind

def all : List Kind :=
  [file, message, field, oneof, extensionRange, enum, enumValue, service, method]

def name : Kind → String
  | file => "File"
  | message => "Message"
  | field => "Field"
  | oneof => "Oneof"
  | extensionRange => "ExtensionRange"
  | enum => "Enum"
  | enumValue => "EnumValue"
  | service => "Service"
  | method => "Method"

def ofName? (s : String) : Option Kind :=
  all.find? (·.name = s)

def optionsTag : Kind → Nat
  | file | field => 8
  | message => 7
  | oneof => 2
  | extensionRange | enum | enumValue | service => 3
  | method => 4

def slots : Kind → List Slot
  | file => [⟨4, message⟩, ⟨5, enum⟩, ⟨6, service⟩, ⟨7, field⟩]
  | message =>
    [⟨2, field⟩, ⟨3, message⟩, ⟨4, enum⟩, ⟨5, extensionRange⟩, ⟨6, field⟩, ⟨8, oneof⟩]
  | enum => [⟨2, enumValue⟩]
  | service => [⟨2, method⟩]
  | field | oneof | extensionRange | enumValue | method => []

def slot? (kind : Kind) (tag : Nat) : Option Slot :=
  kind.slots.find? (·.tag = tag)

def recordType : Kind → MessageType
  | file => .file
  | message => .message
  | field => .field
  | oneof => .oneof
  | extensionRange => .extensionRange
  | enum => .enum
  | enumValue => .enumValue
  | service => .service
  | method => .method

def optionsMessage : Kind → String
  | file => "google.protobuf.FileOptions"
  | message => "google.protobuf.MessageOptions"
  | field => "google.protobuf.FieldOptions"
  | oneof => "google.protobuf.OneofOptions"
  | extensionRange => "google.protobuf.ExtensionRangeOptions"
  | enum => "google.protobuf.EnumOptions"
  | enumValue => "google.protobuf.EnumValueOptions"
  | service => "google.protobuf.ServiceOptions"
  | method => "google.protobuf.MethodOptions"

/-- The kind whose options message has this name. The name may have one dot in front. -/
def ofOptionsMessage? (message : String) : Option Kind :=
  all.find? fun kind => kind.optionsMessage = message ∨ "." ++ kind.optionsMessage = message

theorem tag_ne_optionsTag {kind : Kind} {s : Slot} (mem : s ∈ kind.slots) :
    s.tag ≠ kind.optionsTag := by
  revert s
  cases kind <;> decide

end Kind

/-- Where a record or one of its options stands in a file: field numbers and indices by turns. -/
abbrev Address := List Int

inductive Retention where
  | runtime | source
deriving DecidableEq, Repr

abbrev Resolver := Kind → Int → Retention

end CompilerPlugin.Descriptor

import CompilerPlugin.Descriptor.Node
import CompilerPlugin.Message.Decode
import CompilerPlugin.Request.Basic

/-!
A file descriptor as a tree of records. It is read from bytes and written to bytes directly, so the
options that the types of the records do not know survive.
-/

namespace CompilerPlugin.Descriptor

open Wire

namespace Kind

def child? (kind : Kind) (e : Entry) : Option (Slot × List UInt8) :=
  match e.body.payload?, kind.slot? e.key.number with
  | some payload, some slot => some (slot, payload)
  | _, _ => none

def options? (kind : Kind) (e : Entry) : Option (List UInt8) :=
  if e.key.number = kind.optionsTag then e.body.payload? else none

def isOwn (kind : Kind) (e : Entry) : Bool :=
  (kind.child? e).isNone && (kind.options? e).isNone

/-- What is wrong with a row of entries that ends early. Options and children that are said to be
longer than the record are told apart from other faults. -/
def endingError? (kind : Kind) : Ending → Option TreeError
  | .complete => none
  | .badKey e => some (.decode e)
  | .badValue key e =>
    if key.wireType = .lengthDelimited ∧ e.fault = .underflow ∧
        (key.number = kind.optionsTag ∨ (kind.slot? key.number).isSome) then
      some .truncated
    else some (.decode e)

def readOptions (kind : Kind) (resolve : Resolver) (entries : List Entry) :
    Except TreeError (Option OptionSet) :=
  match entries.filterMap kind.options? with
  | [] => .ok none
  | payloads => (OptionSet.decode resolve kind payloads.flatten).map some

def readRecord (kind : Kind) (entries : List Entry) : Except TreeError Message :=
  (Message.decode kind.recordType ((entries.filter kind.isOwn).flatMap (·.raw))).mapError .decode

def arrange (kind : Kind) (children : List (Slot × Node)) : List (Slot × List Node) :=
  kind.slots.map fun slot =>
    (slot, children.filterMap fun child => if child.1 = slot then some child.2 else none)

theorem length_lt_of_child? {kind : Kind} {bytes payload : List UInt8} {slot : Slot}
    (mem : (slot, payload) ∈ (split bytes).1.filterMap kind.child?) :
    payload.length < bytes.length := by
  obtain ⟨e, he, h⟩ := List.mem_filterMap.1 mem
  unfold child? at h
  split at h
  · rename_i body _
    cases h
    exact delimited_length_lt_of_mem_split he (Body.payload?_eq_some.1 body)
  · cases h

end Kind

/-- Reads a record of a kind. A child's fault comes before one further on in the row of entries, and
both before one in the options or in the record's own fields. -/
def Node.decode (resolve : Resolver) (kind : Kind) (bytes : List UInt8) : Except TreeError Node := do
  let children ← ((split bytes).1.filterMap kind.child?).attach.mapM fun ⟨(slot, payload), _⟩ => do
    return (slot, ← Node.decode resolve slot.kind payload)
  match kind.endingError? (split bytes).2 with
  | some e => throw e
  | none =>
    let options ← kind.readOptions resolve (split bytes).1
    let record ← kind.readRecord (split bytes).1
    return .mk kind record options (kind.arrange children)
termination_by bytes.length
decreasing_by exact Kind.length_lt_of_child? ‹_›

def sourceInfoTag : Nat := 9

structure Tree where
  root : Node
  sourceInfo : Option Message
deriving DecidableEq

namespace Tree

def ofNode : Node → Tree
  | .mk kind record options rows =>
    ⟨.mk kind (record.without sourceInfoTag) options rows, record.message? sourceInfoTag⟩

def decode (resolve : Resolver) (bytes : List UInt8) : Except TreeError Tree :=
  (Node.decode resolve .file bytes).map ofNode

def encodeSourceInfo : Option Message → List UInt8
  | none => []
  | some info => Key.encode ⟨sourceInfoTag, .lengthDelimited⟩ ++ encodeDelimited info.encode

def encode (t : Tree) : List UInt8 :=
  t.root.encode ++ encodeSourceInfo t.sourceInfo

/-- The tree of a descriptor that was decoded, and so has lost its custom options. -/
def ofDescriptor (resolve : Resolver) (d : FileDescriptor) : Except TreeError Tree :=
  decode resolve d.encode

def toDescriptor (t : Tree) : Except TreeError FileDescriptor :=
  (FileDescriptor.decode t.encode).mapError .decode

def addressOf (location : Message) : Address :=
  (location.ints 1).map (·.toInt)

def locations (t : Tree) : Option (List Address) :=
  t.sourceInfo.map fun info => (info.messages 1).map addressOf

end Tree

end CompilerPlugin.Descriptor

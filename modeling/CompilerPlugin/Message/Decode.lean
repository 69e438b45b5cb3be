import CompilerPlugin.Message.Basic
import CompilerPlugin.Wire.Entry

/-!
Reading a message of a known type. Fields may come in any order: the parts are collected as they
arrive, and `canonical` puts them in the order of the schema, where the last value of a singular
field counts, repeated ones add up, and a message that comes again goes on from what it was.
-/

namespace CompilerPlugin

open Wire Schema

namespace Schema

def Scalar.wireType : Scalar → WireType
  | .int32 | .int64 | .uint64 | .bool => .varint
  | .double => .sixtyFourBit
  | .text | .bytes => .lengthDelimited

def Scalar.default : Scalar → Value
  | .int32 | .int64 | .uint64 | .bool => .word 0
  | .double => .double 0
  | .text => .text ""
  | .bytes => .bytes []

def FieldType.default : FieldType → Value
  | .scalar s => s.default
  | .message _ => .message []

def Field.settle (f : Field) (arrived : List Value) : List Value :=
  match f.label with
  | .optional => arrived.getLast?.toList
  | .required => [arrived.getLast?.getD f.type.default]
  | .repeated => arrived
  | .packed =>
    match (arrived.filterMap Value.words?).flatten with
    | [] => []
    | words => [.words words]

def Field.numbers (f : Field) (words : List UInt64) : List Value :=
  match f.label with
  | .packed => [.words words]
  | _ => words.map .word

def MessageType.canonical (t : MessageType) (arrived : Message) : Message :=
  t.fields.flatMap fun f => (f.settle (arrived.values f.number)).map fun v => (f.number, v)

end Schema

namespace Wire

def normalizeWord : Scalar → UInt64 → UInt64
  | .int32, w => Word.ofInt32 (Word.toInt32 w)
  | .bool, w => if w = 0 then 0 else 1
  | _, w => w

def decodeText (bytes : List UInt8) : Except Fault Value :=
  match String.fromUTF8? ⟨bytes.toArray⟩ with
  | some s => .ok (.text s)
  | none => .error .notUtf8

def readScalar : Scalar → Step Value
  | .double => readFixed64.map .double
  | .text => readDelimited.refine decodeText
  | .bytes => readDelimited.map .bytes
  | s => readVarint.map fun w => .word (normalizeWord s w)

def expecting {α : Type} (expected : WireType) (key : Key) (s : Step α) : Step α :=
  if key.wireType = expected then s else Step.fail (.mismatch key.wireType expected)

def readWord (s : Scalar) (words : List UInt64) : Step (List UInt64) :=
  readVarint.map fun w => normalizeWord s w :: words

/-- Numbers in a list come one by one or many in a row, whichever way they are meant to be written. -/
def readNumbers (f : Field) (s : Scalar) (key : Key) : Step (List Value) :=
  if key.wireType = .lengthDelimited then
    (delimited (readWord s) []).map fun words => f.numbers words.reverse
  else
    expecting .varint key ((readWord s []).map f.numbers)

def soFar (f : Field) (arrived : Message) : Message :=
  match f.label with
  | .repeated | .packed => []
  | .optional | .required =>
    match arrived.find? (·.1 = f.number) with
    | some (_, .message m) => m
    | _ => []

def readValues (nested : MessageType → Message → Step Message) (f : Field) (key : Key)
    (arrived : Message) : Step (List Value) :=
  match f.type with
  | .message t =>
    expecting .lengthDelimited key ((nested t (soFar f arrived)).map fun m => [.message m])
  | .scalar s =>
    if f.label.isList ∧ s = .int32 then readNumbers f s key
    else expecting s.wireType key ((readScalar s).map fun v => [v])

/-- One field occurrence, its parts put in front of those that arrived before it. A number that the
type does not know is stepped over. -/
def readPart (depth : Nat) (nested : MessageType → Message → Step Message) (t : MessageType)
    (arrived : Message) : Step Message :=
  readKey.andThen fun key =>
    match t.field? key.number with
    | none => (readBody depth key).map fun _ => arrived
    | some f =>
      ((readValues nested f key arrived).map fun vs =>
        (vs.map fun v => (f.number, v)).reverse ++ arrived).inField (t.qualified f)

/-- A message in a message, which goes on from `before`. Each level of nesting takes one from the
allowance. -/
def readNested : (depth : Nat) → MessageType → Message → Step Message
  | 0, _, _ => Step.fail .depth
  | depth + 1, t, before =>
    (delimited (readPart depth (readNested depth) t) before.reverse).map fun arrived =>
      t.canonical arrived.reverse

end Wire

def Message.decode (t : MessageType) (bytes : List UInt8) : Except ReadError Message :=
  match readAll (readPart maxDepth (readNested maxDepth) t) [] bytes with
  | .error e => .error e
  | .ok arrived => .ok (t.canonical arrived.reverse)

end CompilerPlugin

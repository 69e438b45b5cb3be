import CompilerPlugin.Request.Check
import CompilerPlugin.Request.CompilerVersion
import CompilerPlugin.Descriptor.Declared
import CompilerPlugin.Error

namespace CompilerPlugin.Request

open Descriptor (Declared Tree)

structure Accepted where
  request : Request
  encoded : EncodedDescriptors
  check_eq : request.check = .ok ()

def accept (r : Request) (encoded : EncodedDescriptors) : Except Error Accepted :=
  match h : r.check with
  | .error v => .error (.request v)
  | .ok () => .ok ⟨r, encoded, h⟩

namespace Accepted

def ofRequest (r : Request) : Except Error Accepted :=
  r.accept (.ofRequest r)

def ofBytes (bytes : List UInt8) : Except Error Accepted := do
  let r ← (Request.decode bytes).mapError .decode
  let encoded ← (EncodedDescriptors.decode bytes).mapError .decode
  r.accept encoded

def parameter (a : Accepted) : String :=
  a.request.parameter.getD ""

def filesToGenerate (a : Accepted) : List String :=
  a.request.filesToGenerate

def isFileToGenerate (a : Accepted) (path : String) : Bool :=
  a.filesToGenerate.contains path

def descriptors (a : Accepted) (withSource : Bool) : Except Error (List FileDescriptor) :=
  if !withSource then .ok a.request.protoFiles
  else if a.request.sourceFiles.isEmpty then .error .missingSourceRetentionData
  else .ok a.request.sourceFiles

def encodedDescriptors (a : Accepted) (withSource : Bool) : List (List UInt8) :=
  if withSource then a.encoded.sourceFiles else a.encoded.protoFiles

/-- Where the descriptor of a name stands in a list. Of several the last would count. -/
def position? (descriptors : List FileDescriptor) (path : String) : Option Nat :=
  ((descriptors.zipIdx.filter fun d => d.1.name = path).getLast?).map (·.2)

def find? {α : Type} [Inhabited α] (descriptors : List FileDescriptor) (values : List α)
    (path : String) : Option α :=
  (position? descriptors path).map fun i => values[i]!

def toGenerate (a : Accepted) (withSource : Bool) : Except Error (List FileDescriptor) := do
  let ds ← a.descriptors withSource
  return a.filesToGenerate.filterMap (find? ds ds)

def encodedToGenerate (a : Accepted) (withSource : Bool) : Except Error (List (List UInt8)) := do
  let ds ← a.descriptors withSource
  return a.filesToGenerate.filterMap (find? ds (a.encodedDescriptors withSource))

/-- All descriptors in the order in which they came, those of files to generate in the copy that is
asked for. -/
def all (a : Accepted) (withSource : Bool) : Except Error (List FileDescriptor) :=
  if !withSource then .ok a.request.protoFiles
  else do
    let ds ← a.descriptors true
    return a.request.protoFiles.map fun d => (find? ds ds d.name).getD d

def hasCopy (a : Accepted) (path : String) (withSource : Bool) : Bool :=
  withSource && a.isFileToGenerate path

def descriptor? (a : Accepted) (path : String) (withSource : Bool) :
    Except Error (Option FileDescriptor) := do
  let ds ← a.descriptors (a.hasCopy path withSource)
  return find? ds ds path

def encoded? (a : Accepted) (path : String) (withSource : Bool) :
    Except Error (Option (List UInt8)) := do
  let ds ← a.descriptors (a.hasCopy path withSource)
  return find? ds (a.encodedDescriptors (a.hasCopy path withSource)) path

def declared (a : Accepted) : Except Error Declared :=
  (Declared.ofFiles a.encoded.protoFiles).mapError .descriptor

def tree? (a : Accepted) (path : String) (withSource : Bool) : Except Error (Option Tree) := do
  match ← a.encoded? path withSource with
  | none => return none
  | some bytes =>
    let declared ← a.declared
    let tree ← (Tree.decode declared.resolver bytes).mapError .descriptor
    return some tree

def compilerVersion (a : Accepted) : Option CompilerVersion :=
  a.request.compilerVersion.map CompilerVersion.ofVersion

def describe (a : Accepted) : String :=
  "Request \x7b file_to_generate: " ++ Text.quotedList a.filesToGenerate ++ ", parameter: " ++
    Text.quoted a.parameter ++ ", proto_files: " ++ toString a.request.protoFiles.length ++
    ", .. \x7d"

end Accepted

end CompilerPlugin.Request

import CompilerPlugin.Path

namespace CompilerPlugin.Request

inductive DescriptorList where
  | protoFile | sourceFile
deriving DecidableEq, Repr

def DescriptorList.field : DescriptorList → String
  | .protoFile => "proto_file"
  | .sourceFile => "source_file_descriptors"

inductive PathField where
  | filesToGenerate
  | name (list : DescriptorList)
  | dependency (list : DescriptorList)
  | descriptors (list : DescriptorList)
deriving DecidableEq, Repr

def PathField.field : PathField → String
  | .filesToGenerate => "file_to_generate"
  | .name list => list.field ++ ".name"
  | .dependency list => list.field ++ ".dependency"
  | .descriptors list => list.field

inductive VersionPart where
  | major | minor | patch
deriving DecidableEq, Repr

def VersionPart.name : VersionPart → String
  | .major => "major"
  | .minor => "minor"
  | .patch => "patch"

inductive Violation where
  | empty (field : PathField)
  | invalidPath (field : PathField) (error : PathError)
  | duplicatePath (field : PathField) (path : String)
  | missingDescriptor (list : DescriptorList) (path : String)
  | unexpectedDescriptor (list : DescriptorList) (path : String)
  | negativeVersion (part : VersionPart) (value : Int32)
deriving DecidableEq, Repr

def Violation.message : Violation → String
  | .empty field => field.field ++ ": empty"
  | .invalidPath field e => field.field ++ ": " ++ e.message
  | .duplicatePath field path => field.field ++ ": duplicate path " ++ Text.quoted path
  | .missingDescriptor list path =>
    "file_to_generate: path " ++ Text.quoted path ++ " is not contained within " ++ list.field
  | .unexpectedDescriptor list path =>
    list.field ++ ": path " ++ Text.quoted path ++ " is not contained within file_to_generate"
  | .negativeVersion part value =>
    "compiler_version: " ++ part.name ++ ": negative: " ++ toString value.toInt

end CompilerPlugin.Request

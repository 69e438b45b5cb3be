import CompilerPlugin.Request.Basic
import CompilerPlugin.Request.Violation

namespace CompilerPlugin.Request

def checkUnique (field : PathField) : List String → List String → Except Violation Unit
  | _, [] => .ok ()
  | seen, path :: rest =>
    match Path.checkProto path with
    | .error e => .error (.invalidPath field e)
    | .ok () =>
      if seen.contains path then .error (.duplicatePath field path)
      else checkUnique field (path :: seen) rest

def checkDescriptors (list : DescriptorList) :
    List String → List FileDescriptor → Except Violation Unit
  | _, [] => .ok ()
  | seen, d :: rest =>
    match Path.checkProto d.name with
    | .error e => .error (.invalidPath (.name list) e)
    | .ok () =>
      match checkUnique (.dependency list) [] d.dependencies with
      | .error v => .error v
      | .ok () =>
        if seen.contains d.name then .error (.duplicatePath (.descriptors list) d.name)
        else checkDescriptors list (d.name :: seen) rest

def checkCoverage (list : DescriptorList) (names filesToGenerate : List String) :
    Except Violation Unit :=
  match filesToGenerate.find? fun path => !names.contains path with
  | some path => .error (.missingDescriptor list path)
  | none => .ok ()

def checkExpected (list : DescriptorList) (names filesToGenerate : List String) :
    Except Violation Unit :=
  match names.find? fun name => !filesToGenerate.contains name with
  | some name => .error (.unexpectedDescriptor list name)
  | none => .ok ()

def checkVersionPart (part : VersionPart) (value : Option Int32) : Except Violation Unit :=
  if value.getD 0 < 0 then .error (.negativeVersion part (value.getD 0)) else .ok ()

def checkVersion (v : Version) : Except Violation Unit := do
  checkVersionPart .major v.major
  checkVersionPart .minor v.minor
  checkVersionPart .patch v.patch

def checkProtoFiles (r : Request) : Except Violation Unit := do
  checkDescriptors .protoFile [] r.protoFiles
  checkCoverage .protoFile (r.protoFiles.map FileDescriptor.name) r.filesToGenerate

def checkSourceFiles (r : Request) : Except Violation Unit :=
  if r.sourceFiles.isEmpty then .ok ()
  else do
    let names := r.sourceFiles.map FileDescriptor.name
    checkDescriptors .sourceFile [] r.sourceFiles
    checkCoverage .sourceFile names r.filesToGenerate
    checkExpected .sourceFile names r.filesToGenerate

def check (r : Request) : Except Violation Unit := do
  if r.protoFiles.isEmpty then throw (.empty (.descriptors .protoFile))
  if r.filesToGenerate.isEmpty then throw (.empty .filesToGenerate)
  checkUnique .filesToGenerate [] r.filesToGenerate
  r.checkProtoFiles
  r.checkSourceFiles
  match r.compilerVersion with
  | some v => checkVersion v
  | none => return ()

end CompilerPlugin.Request

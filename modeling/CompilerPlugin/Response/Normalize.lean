import CompilerPlugin.Response.Basic
import CompilerPlugin.Response.Issue

namespace CompilerPlugin

def GeneratedFile.extend (f : GeneratedFile) (more : Option String) : GeneratedFile :=
  match more with
  | none => f
  | some text => { f with content := some (f.content.getD "" ++ text) }

namespace Response

def mergeInto (current : GeneratedFile) :
    List GeneratedFile → Except Violation (List GeneratedFile)
  | [] => .ok [current]
  | f :: rest =>
    if f.nameText ≠ "" then (mergeInto f rest).map (current :: ·)
    else if f.isInsertion then .error .insertionWithoutName
    else mergeInto (current.extend f.content) rest

def mergeContinuations : List GeneratedFile → Except Violation (List GeneratedFile)
  | [] => .ok []
  | f :: rest => if f.nameText = "" then .error .leadingWithoutName else mergeInto f rest

/-- Gives every record its canonical name and leaves out a plain file whose name is taken. The names
of insertions count as taken too. -/
def reconcile (mode : Mode) : List String → List GeneratedFile → Judged (List GeneratedFile)
  | _, [] => .accept []
  | taken, f :: rest =>
    match Path.normalize f.nameText with
    | .error e => .refuse (.invalidPath e)
    | .ok name => do
      if name ≠ f.nameText then
        mode.report (.unnormalizedName f.nameText name)
      if !f.isInsertion && taken.contains name then
        mode.report (.duplicateName name)
        reconcile mode taken rest
      else
        let kept ← reconcile mode (name :: taken) rest
        return { f with name := some name } :: kept

def checkEditions (minimum maximum : Int32) : Except Violation Unit :=
  if minimum = 0 then .error .missingMinimum
  else if maximum = 0 then .error .missingMaximum
  else if maximum < minimum then .error (.invertedEditions minimum maximum)
  else .ok ()

def checkSupport (r : Response) : Except Violation Unit :=
  match Features.ofBits (r.supportedFeatures.getD 0) with
  | .error u => .error (.unknownFeatures u)
  | .ok features =>
    if features.supportsEditions then
      checkEditions (r.minimumEdition.getD 0) (r.maximumEdition.getD 0)
    else .ok ()

def normalize (mode : Mode) (r : Response) : Judged Response :=
  match mergeContinuations r.files with
  | .error v => .refuse v
  | .ok merged => do
    let files ← reconcile mode [] merged
    match r.checkSupport with
    | .error v => .refuse v
    | .ok () => return { r with files }

end Response

end CompilerPlugin

import CompilerPlugin.Path
import CompilerPlugin.Features

/-!
What can be wrong with a response. An issue can be repaired, so it is an error or a warning as the
mode says; a violation cannot.
-/

namespace CompilerPlugin.Response

/-- A fault of a file name that can be repaired: by its canonical form, or by leaving out the second
file of that name. -/
inductive Issue where
  | unnormalizedName (name normalized : String)
  | duplicateName (name : String)
deriving DecidableEq, Repr

namespace Issue

def message : Issue → String
  | unnormalizedName name normalized =>
    "path " ++ Text.quoted name ++ " is not equal to " ++ Text.quoted normalized ++
      ", and therefore does not conform to the Protobuf generation specification. " ++
      "The path must be non-empty, relative, use \"/\" instead of \"\\\" as the path separator, " ++
      "and not use \".\" or \"..\" as part of the path."
  | duplicateName name => "duplicate generated file name " ++ Text.quoted name ++ "."

def warning (i : Issue) : String :=
  i.message ++ match i with
    | unnormalizedName _ _ =>
      " Generation will continue without error here, " ++
        "but please raise an issue with the maintainer of the plugin."
    | duplicateName _ =>
      " Generation will continue without error here and drop the second occurrence of this file, " ++
        "but please raise an issue with the maintainer of the plugin."

end Issue

inductive Violation where
  | leadingWithoutName
  | insertionWithoutName
  | emptyName
  | invalidPath (error : PathError)
  | issue (issue : Issue)
  | unknownFeatures (unknown : UnknownFeatures)
  | missingMinimum
  | missingMaximum
  | invertedEditions (minimum maximum : Int32)
deriving DecidableEq, Repr

namespace Violation

def message : Violation → String
  | leadingWithoutName => "file: first value had no name set"
  | insertionWithoutName => "file: empty name with non-empty insertion point"
  | emptyName => "file: name: empty"
  | invalidPath e => "file: " ++ e.message
  | issue i => "file: " ++ i.message
  | unknownFeatures u => "supported_features: " ++ u.message
  | missingMinimum =>
    "supported_features: FEATURE_SUPPORTS_EDITIONS specified but no minimum_edition set"
  | missingMaximum =>
    "supported_features: FEATURE_SUPPORTS_EDITIONS specified but no maximum_edition set"
  | invertedEditions minimum maximum =>
    "minimum_edition " ++ toString minimum.toInt ++ " is greater than maximum_edition " ++
      toString maximum.toInt

end Violation

inductive Mode where
  | strict | lenient
deriving DecidableEq, Repr

def Mode.name : Mode → String
  | .strict => "Strict"
  | .lenient => "Lenient"

/-- What judging came to, with the issues that were let pass on the way, in order. -/
structure Judged (α : Type) where
  warnings : List Issue
  result : Except Violation α

namespace Judged

variable {α β : Type}

def accept (a : α) : Judged α :=
  ⟨[], .ok a⟩

def refuse (v : Violation) : Judged α :=
  ⟨[], .error v⟩

def andThen (x : Judged α) (f : α → Judged β) : Judged β :=
  match x.result with
  | .error v => ⟨x.warnings, .error v⟩
  | .ok a => ⟨x.warnings ++ (f a).warnings, (f a).result⟩

instance : Monad Judged where
  pure := accept
  bind := andThen

end Judged

def Mode.report : Mode → Issue → Judged Unit
  | .strict, i => ⟨[], .error (.issue i)⟩
  | .lenient, i => ⟨[i], .ok ()⟩

end CompilerPlugin.Response

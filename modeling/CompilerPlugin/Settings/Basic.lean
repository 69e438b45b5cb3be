import CompilerPlugin.Settings.Value
import CompilerPlugin.Response.Issue

/-!
Settings from the environment. A variable counts whose name begins with the mark of the library, in
whatever case; the rest of its name is the key, without the blanks around it. A point in a key makes
a map of its value.
-/

namespace CompilerPlugin

structure Settings where
  logLevel : String := "warn"
  lenient : Bool := false
deriving DecidableEq, Repr

namespace Settings

def mark : String := "PROTOPLUG_"

inductive Expected where
  | boolean | string
deriving DecidableEq, Repr

def Expected.describe : Expected → String
  | boolean => "a boolean"
  | string => "a string"

structure Mismatch where
  key : String
  found : Value
  expected : Expected

def Mismatch.message (m : Mismatch) : String :=
  "invalid type: found " ++ m.found.describe ++ ", expected " ++ m.expected.describe ++
    " for key \"" ++ String.ofList (m.key.toList.map Char.toUpper) ++ "\" in `" ++ mark ++
    "` environment variable(s)"

/-- The key of a variable, in parts, when it is one of ours. A key with an empty part is none. -/
def keyOf? (name : String) : Option (List String) :=
  let lower := (Text.trim name.toList).map Char.toLower
  let lead := mark.toList.map Char.toLower
  if lead.isPrefixOf lower then
    let parts := (Text.trim (lower.drop lead.length)).splitOnP (· = '.')
    if parts.any List.isEmpty then none else some (parts.map String.ofList)
  else none

def nest (value : Value) : List String → Value
  | [] => value
  | part :: rest => .map [(part, nest value rest)]

def ofVariable? (name value : String) : Option (String × Value) :=
  match keyOf? name with
  | some (part :: rest) => some (part, nest (.ofText value) rest)
  | _ => none

def find? (vars : List (String × String)) (key : String) : Option Value :=
  (vars.filterMap fun (name, value) => ofVariable? name value).reverse.lookup key

def lenientOf : Option Value → Except Mismatch Bool
  | none => .ok false
  | some (.bool b) => .ok b
  | some v => .error ⟨"lenient", v, .boolean⟩

def logLevelOf : Option Value → Except Mismatch String
  | none => .ok "warn"
  | some (.text s) => .ok s
  | some v => .error ⟨"log_level", v, .string⟩

def ofVariables (vars : List (String × String)) : Except Mismatch Settings := do
  let lenient ← lenientOf (find? vars "lenient")
  let logLevel ← logLevelOf (find? vars "log_level")
  return { logLevel, lenient }

def mode (s : Settings) : Response.Mode :=
  if s.lenient then .lenient else .strict

end Settings

end CompilerPlugin

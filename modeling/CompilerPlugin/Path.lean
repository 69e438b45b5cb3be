import CompilerPlugin.Text.Quoted

/-!
Names of descriptor files and generated files. Both `/` and `\` end an element; the canonical form
of a name is relative, separated by `/`, has no empty or `.` element and never leaves the directory
it is resolved against.
-/

namespace CompilerPlugin

inductive PathError where
  | empty
  | absolute (path : String)
  | jumpsContext (path : String)
  | unnormalized (path normalized : String)
  | notProto (path : String)
deriving DecidableEq, Repr

def PathError.message : PathError → String
  | .empty => "path was empty"
  | .absolute p => "path " ++ Text.quoted p ++ " should be relative"
  | .jumpsContext p => "path " ++ Text.quoted p ++ " should not jump context"
  | .unnormalized p n => "path " ++ Text.quoted p ++ " to be given as " ++ Text.quoted n
  | .notProto p => "path " ++ Text.quoted p ++ " should have the .proto file extension"

namespace Path

abbrev Element := List Char

def here : Element := ['.']

def parent : Element := ['.', '.']

def isSeparator (c : Char) : Bool :=
  c = '/' || c = '\\'

def elements (path : List Char) : List Element :=
  path.splitOnP isSeparator

def isRooted : List Char → Bool
  | [] => false
  | c :: _ => isSeparator c

/-- One element on top of those kept so far, the latest first. A `..` takes back an ordinary element;
with none to take back it is kept, or lost at the root. -/
def push (rooted : Bool) (kept : List Element) (e : Element) : List Element :=
  if e = [] ∨ e = here then kept
  else if e = parent then
    match kept with
    | [] => if rooted then [] else [parent]
    | top :: below => if top = parent then parent :: top :: below else below
  else e :: kept

def resolve (rooted : Bool) (es : List Element) : List Element :=
  (es.foldl (push rooted) []).reverse

def join (es : List Element) : List Char :=
  ['/'].intercalate es

/-- The text of resolved elements: a rooted path keeps its leading separator, and a relative path
that comes to nothing is `.`. -/
def render (rooted : Bool) (es : List Element) : List Char :=
  if rooted then '/' :: join es
  else if join es = [] then here
  else join es

def clean (path : List Char) : List Char :=
  render (isRooted path) (resolve (isRooted path) (elements path))

def isAbsolute (cleaned : List Char) : Bool :=
  cleaned.head? = some '/'

def jumps (cleaned : List Char) : Bool :=
  cleaned = parent || (parent ++ ['/']).isPrefixOf cleaned

/-- The canonical form of a path that is given, relative and stays inside. Where a path leads is judged
by what cleaning leaves of it. -/
def normalize (path : String) : Except PathError String :=
  if path = "" then .error .empty
  else
    let cleaned := clean path.toList
    if isAbsolute cleaned then .error (.absolute (String.ofList cleaned))
    else if jumps cleaned then .error (.jumpsContext (String.ofList cleaned))
    else .ok (String.ofList cleaned)

def protoExtension : String := ".proto"

def hasProtoExtension (path : String) : Bool :=
  protoExtension.toList.isSuffixOf path.toList

def normalizeProto (path : String) : Except PathError String := do
  let normalized ← normalize path
  if hasProtoExtension normalized then .ok normalized else .error (.notProto normalized)

def checkProto (path : String) : Except PathError Unit := do
  let normalized ← normalize path
  if normalized ≠ path then .error (.unnormalized path normalized)
  else if hasProtoExtension normalized then .ok ()
  else .error (.notProto normalized)

@[simp] theorem elements_nil : elements [] = [[]] :=
  List.splitOnP_nil

@[simp] theorem isRooted_cons (c : Char) (cs : List Char) :
    isRooted (c :: cs) = isSeparator c := rfl

end Path

end CompilerPlugin

import CompilerPlugin.Number.Double
import CompilerPlugin.Text.Blank
import CompilerPlugin.Text.Quoted

namespace CompilerPlugin.Settings

inductive Value where
  | bool (b : Bool)
  | unsigned (n : Nat)
  | signed (n : Int)
  | float (d : Number.Double)
  | text (s : String)
  | sequence (items : List Value)
  | map (entries : List (String × Value))

namespace Value

def describe : Value → String
  | bool b => "bool " ++ toString b
  | unsigned n => "unsigned int `" ++ toString n ++ "`"
  | signed n => "signed int `" ++ toString n ++ "`"
  | float d => "float `" ++ d.text ++ "`"
  | text s => "string " ++ Text.quoted s
  | sequence _ => "sequence"
  | map _ => "map"

def isSeparator (c : Char) : Bool :=
  c = ',' || c = '{' || c = '}' || c = '[' || c = ']'

def isKeyChar (c : Char) : Bool :=
  c.isAlphanum || c = '_' || c = '-'

def skipBlanks (cs : List Char) : List Char :=
  cs.dropWhile Text.isAsciiBlank

def hexValue? (c : Char) : Option Nat :=
  if c.isDigit then some (c.toNat - 48)
  else if 'a' ≤ c ∧ c ≤ 'f' then some (c.toNat - 87)
  else if 'A' ≤ c ∧ c ≤ 'F' then some (c.toNat - 55)
  else none

def hexChar? (cs : List Char) : Option Char :=
  match cs.mapM hexValue? with
  | none => none
  | some ds =>
    let code := ds.foldl (fun n d => n * 16 + d) 0
    if code.isValidChar then some (Char.ofNat code) else none

def escapes : List (Char × Char) :=
  [('"', '"'), ('\\', '\\'), ('b', '\x08'), ('f', '\x0c'), ('n', '\n'), ('r', '\r'), ('t', '\t')]

def codeLength? (c : Char) : Option Nat :=
  if c = 'u' then some 4 else if c = 'U' then some 8 else none

def isLegal (c : Char) : Bool :=
  c = '\t' || (0x20 ≤ c.toNat && c.toNat ≠ 0x7f)

def unescape : List Char → Option (List Char)
  | [] => some []
  | '\\' :: rest =>
    match rest with
    | [] => none
    | c :: more =>
      match escapes.lookup c, codeLength? c with
      | some plain, _ => (unescape more).map (plain :: ·)
      | none, some n =>
        if n ≤ more.length then
          match hexChar? (more.take n) with
          | some plain => (unescape (more.drop n)).map (plain :: ·)
          | none => none
        else none
      | none, none => none
  | c :: rest => if isLegal c then (unescape rest).map (c :: ·) else none
termination_by cs => cs.length
decreasing_by all_goals simp only [List.length_cons, List.length_drop]; omega

def untilQuote : List Char → Option (List Char × List Char)
  | [] => none
  | '"' :: rest => some ([], rest)
  | '\\' :: c :: rest => (untilQuote rest).map fun (inner, r) => ('\\' :: c :: inner, r)
  | c :: rest => (untilQuote rest).map fun (inner, r) => (c :: inner, r)

def takeBytes : (size : Nat) → List Char → List Char
  | _, [] => []
  | size, c :: cs => if c.utf8Size ≤ size then c :: takeBytes (size - c.utf8Size) cs else []

/-- A quoted text, its opening quote taken. Of what stands before the first escape only as many bytes
are kept as it has characters. -/
def quotedText? (cs : List Char) : Option (String × List Char) := do
  let (inner, rest) ← untilQuote cs
  let plain ← unescape inner
  let lead := inner.takeWhile (· ≠ '\\')
  let kept := if lead.length < inner.length then takeBytes lead.length lead else lead
  return (String.ofList (kept ++ plain.drop lead.length), rest)

def maxUnsigned : Nat := UInt64.size - 1

def maxSigned : Nat := UInt64.size / 2

/-- A bare text is a number if it reads as one: with a point as a double, else as a whole number of
64 bits. -/
def ofBare (cs : List Char) : Value :=
  let whole : Value :=
    match Number.int? cs with
    | some n =>
      if cs.head? ≠ some '-' ∧ n ≤ maxUnsigned then .unsigned n.toNat
      else if -(maxSigned : Int) ≤ n ∧ n < maxSigned then .signed n
      else .text (String.ofList cs)
    | none => .text (String.ofList cs)
  if cs.contains '.' then
    match Number.Decimal.ofChars? cs with
    | some d => .float (Number.Double.ofDecimal d)
    | none => whole
  else whole

def bare (cs : List Char) : Value × List Char :=
  (ofBare (Text.trim (cs.takeWhile fun c => !isSeparator c)), cs.dropWhile fun c => !isSeparator c)

def keyName? : List Char → Option (String × List Char)
  | '"' :: rest => quotedText? rest
  | cs =>
    let word := cs.takeWhile isKeyChar
    if word.isEmpty then none else some (String.ofList word, cs.dropWhile isKeyChar)

def key? (cs : List Char) : Option (String × List Char) := do
  let (name, rest) ← keyName? (skipBlanks cs)
  match skipBlanks rest with
  | '=' :: more => return (name, more)
  | _ => none

mutual

/-- A value with blanks around it. The first argument bounds how many values are read in one
another or after one another. -/
def read? : Nat → List Char → Option (Value × List Char)
  | 0, _ => none
  | bound + 1, cs =>
    (match skipBlanks cs with
      | 't' :: 'r' :: 'u' :: 'e' :: rest => some (bool true, rest)
      | 'f' :: 'a' :: 'l' :: 's' :: 'e' :: rest => some (bool false, rest)
      | '{' :: rest => (readEntries? bound rest).map fun (entries, r) => (map entries, r)
      | '[' :: rest => (readItems? bound rest).map fun (items, r) => (sequence items, r)
      | '"' :: rest => (quotedText? rest).map fun (s, r) => (text s, r)
      | '\'' :: c :: '\'' :: rest => some (text (String.singleton c), rest)
      | '\'' :: _ => none
      | start => some (bare start)).map fun (value, rest) => (value, skipBlanks rest)

def readItems? : Nat → List Char → Option (List Value × List Char)
  | 0, _ => none
  | _, ']' :: rest => some ([], rest)
  | bound + 1, cs => do
    let (item, rest) ← read? bound cs
    match rest with
    | ',' :: more => (readItems? bound more).map fun (items, r) => (item :: items, r)
    | ']' :: more => some ([item], more)
    | _ => none

def readEntries? : Nat → List Char → Option (List (String × Value) × List Char)
  | 0, _ => none
  | _, '}' :: rest => some ([], rest)
  | bound + 1, cs => do
    let (name, afterKey) ← key? cs
    let (value, rest) ← read? bound afterKey
    match rest with
    | ',' :: more => (readEntries? bound more).map fun (entries, r) => ((name, value) :: entries, r)
    | '}' :: more => some ([(name, value)], more)
    | _ => none

end

/-- The value of a text. What does not read as a value from end to end is the text itself. Each
value takes a bracket or a separator of its own, so the bound is never reached. -/
def ofText (s : String) : Value :=
  match read? (2 * s.length + 2) s.toList with
  | some (v, []) => v
  | _ => text s

end Value

end CompilerPlugin.Settings

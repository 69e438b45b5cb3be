import CompilerPlugin.Response.Issue
import CompilerPlugin.Settings.Basic

namespace CompilerPlugin.Plugin

structure Source where
  bytes : List UInt8 := []
  fault : Option String := none
deriving DecidableEq, Repr

/-- Where bytes are written to. It may take only so many, and then refuse more with a fault of its
own or by taking none; and making sure that they have arrived may fail. -/
structure Sink where
  capacity : Option Nat := none
  fault : Option String := none
  flushFault : Option String := none
deriving DecidableEq, Repr

namespace Source

def readAll (s : Source) : Except String (List UInt8) :=
  match s.fault with
  | some text => .error text
  | none => .ok s.bytes

end Source

namespace Sink

def refusal (s : Sink) : String :=
  s.fault.getD "write zero"

def writeAll (s : Sink) (bytes : List UInt8) : List UInt8 × Except String Unit :=
  let taken := match s.capacity with
    | some n => bytes.take n
    | none => bytes
  if taken.length < bytes.length then (taken, .error s.refusal)
  else
    match s.flushFault with
    | some text => (taken, .error text)
    | none => (taken, .ok ())

end Sink

/-- The stream for people. When it is broken nothing is written to it. -/
structure Lines where
  text : String := ""
  fault : Option String := none
deriving DecidableEq, Repr

def Lines.print (l : Lines) (line : String) : Lines × Except String Unit :=
  match l.fault with
  | some text => (l, .error text)
  | none => ({ l with text := l.text ++ line ++ "\n" }, .ok ())

structure Environment where
  args : List String := []
  vars : List (String × String) := []
  stdin : Source := {}
  stdout : Sink := {}
  stderr : Lines := {}

/-- The variables in a block of entries, each closed by a zero byte. What has no `=`, or is not text,
is no entry. -/
def variablesOfBlock (block : List UInt8) : List (String × String) :=
  (block.splitOnP (· = 0)).filterMap fun entry =>
    (String.fromUTF8? ⟨entry.toArray⟩).bind fun text =>
      match text.toList.dropWhile (· ≠ '=') with
      | [] => none
      | _ :: value =>
        some (String.ofList (text.toList.takeWhile (· ≠ '=')), String.ofList value)

structure Context where
  vars : List (String × String)
  cancelled : Bool

namespace Context

/-- The value of a variable; the last one of a name counts. -/
def value? (c : Context) (name : String) : Option String :=
  (c.vars.reverse.find? (·.1 = name)).map (·.2)

def describe (c : Context) : String :=
  "HandlerEnv \x7b environ: [" ++
    ", ".intercalate (c.vars.map fun (name, value) =>
      "(" ++ Text.quoted name ++ ", " ++ Text.quoted value ++ ")") ++
    "], stderr: ErrorStream \x7b .. \x7d \x7d"

end Context

end CompilerPlugin.Plugin

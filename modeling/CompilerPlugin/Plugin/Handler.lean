import CompilerPlugin.Plugin.Environment
import CompilerPlugin.Request.Accepted
import CompilerPlugin.Response.Writer

/-!
Handlers: the part of a plugin that makes the response. A handler touches the run only by calls on
the writer and by lines for people, and sees the answer to each before it goes on.
-/

namespace CompilerPlugin.Plugin

open Response (Writer Issue Mode)

inductive Handling (α : Type) where
  | done (value : α)
  | write (call : Writer.Call) (next : Except Error (Option Response) → Handling α)
  | print (line : String) (next : Except String Unit → Handling α)

namespace Handling

variable {α β : Type}

def andThen (h : Handling α) (f : α → Handling β) : Handling β :=
  match h with
  | done a => f a
  | write call next => write call fun answer => (next answer).andThen f
  | print line next => print line fun answer => (next answer).andThen f

instance : Monad Handling where
  pure := done
  bind := andThen

end Handling

/-- What happens to the warnings of a run: they are printed or collected, or each is handed to a function
that may itself print lines and call the writer. What those calls warn of in turn goes to a sink of its
own, so that however deep it goes it comes to an end. -/
inductive WarningSink where
  | print
  | collect
  | handle (receive : Issue → Handling Unit) (nested : WarningSink)

def WarningSink.isHandler : WarningSink → Bool
  | print => false
  | collect | handle _ _ => true

structure Ending (ρ : Type) where
  report : ρ
  result : Except HandlerError Unit

abbrev Handler (ρ : Type) := Context → Request.Accepted → Handling (Ending ρ)

structure Session where
  writer : Writer := .new
  stderr : Lines := {}
  collected : List Issue := []

namespace Session

/-- Follows a handling. Warnings are passed on as soon as the call that made them is over. -/
def follow {α : Type} (mode : Mode) (warn : Session → List Issue → Session) :
    Session → Handling α → Session × α
  | s, .done a => (s, a)
  | s, .write c next =>
    let o := s.writer.perform mode c
    follow mode warn (warn { s with writer := o.writer } o.warnings) (next o.answer)
  | s, .print line next =>
    let r := s.stderr.print line
    follow mode warn { s with stderr := r.1 } (next r.2)

/-- A line that cannot be printed is lost. -/
def warn (mode : Mode) : WarningSink → Session → List Issue → Session
  | .print, s, warnings =>
    { s with stderr := warnings.foldl (fun l i => (l.print ("Warning: " ++ i.warning)).1) s.stderr }
  | .collect, s, warnings => { s with collected := s.collected ++ warnings }
  | .handle receive nested, s, warnings =>
    warnings.foldl (fun s i => (s.follow mode (warn mode nested) (receive i)).1) s

def handle {α : Type} (mode : Mode) (sink : WarningSink) : Session → Handling α → Session × α :=
  follow mode (warn mode sink)

end Session

end CompilerPlugin.Plugin

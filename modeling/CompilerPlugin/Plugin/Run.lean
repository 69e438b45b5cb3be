import CompilerPlugin.Plugin.Options

/-!
One run of a plugin: its arguments, the request on its input, the handler, the response on its
output, and the status it exits with. Nothing is written to the output before the response is
complete.
-/

namespace CompilerPlugin.Plugin

open Response (Issue)

structure Report (ρ : Type) where
  result : Except Error Unit
  stdout : List UInt8 := []
  stderr : Lines := {}
  warnings : List Issue := []
  handled : Option ρ := none

/-- What the arguments ask for: a plugin takes none, but for its version where it has one. -/
def versionAsked (args : List String) (version : Option String) : Except Error (Option String) :=
  match args, version with
  | [], _ => .ok none
  | [arg], some v => if arg = "--version" then .ok (some v) else .error (.unknownArguments args)
  | _, _ => .error (.unknownArguments args)

def readRequest (s : Source) : Except Error Request.Accepted :=
  match s.readAll with
  | .error text => .error (.io text)
  | .ok bytes => Request.Accepted.ofBytes bytes

namespace Session

def failed {ρ : Type} (s : Session) (handled : Option ρ) (e : Error) : Report ρ :=
  { result := .error e, stderr := s.stderr, warnings := s.collected, handled }

def written {ρ : Type} (s : Session) (handled : Option ρ) (out : Sink) (bytes : List UInt8) :
    Report ρ :=
  let w := out.writeAll bytes
  { result := w.2.mapError .io
    stdout := w.1
    stderr := s.stderr
    warnings := s.collected
    handled }

end Session

def serve {ρ : Type} (env : Environment) (options : Options) (cancelled : Bool) (handler : Handler ρ)
    (request : Request.Accepted) : Report ρ :=
  let context : Context := ⟨env.vars, cancelled⟩
  let handled :=
    Session.handle options.mode options.warnings { stderr := env.stderr } (handler context request)
  let ending := handled.2
  match ending.result with
  | .error e => handled.1.failed (some ending.report) e.toError
  | .ok () =>
    let o := handled.1.writer.finalize options.mode
    let session := { handled.1 with writer := o.writer }.warn options.mode options.warnings o.warnings
    match o.answer with
    | .error e => session.failed (some ending.report) e
    | .ok response => session.written (some ending.report) env.stdout response.encode

def run {ρ : Type} (env : Environment) (options : Options) (cancelled : Bool) (handler : Handler ρ) :
    Report ρ :=
  let start : Session := { stderr := env.stderr }
  match versionAsked env.args options.version with
  | .error e => start.failed none e
  | .ok (some version) => start.written none env.stdout (version ++ "\n").toByteArray.data.toList
  | .ok none =>
    match readRequest env.stdin with
    | .error e => start.failed none e
    | .ok request => serve env options cancelled handler request

/-- The status of a run, and the line that goes before it. An exit code is passed on as far as it
can be a status, and nothing is said about it. -/
def exitStatus : Except Error Unit → Nat × Option String
  | .ok () => (0, none)
  | .error (.exit code) => (if 0 ≤ code ∧ code ≤ 255 then code.toInt.toNat else 1, none)
  | .error e => (1, if e.message = "" then none else some e.message)

structure Exit where
  status : Nat
  stdout : List UInt8
  stderr : String
deriving DecidableEq, Repr

/-- A plugin as a process: its settings come from its variables, and its errors go to the stream for
people. -/
def process {ρ : Type} (env : Environment) (options : Options) (handler : Handler ρ) : Exit :=
  match Settings.ofVariables env.vars with
  | .error m => ⟨1, [], (env.stderr.print ("invalid configuration: " ++ m.message)).1.text⟩
  | .ok settings =>
    let report := run env (options.withSettings settings) false handler
    let status := exitStatus report.result
    let stderr := match status.2 with
      | some line => (report.stderr.print line).1
      | none => report.stderr
    ⟨status.1, report.stdout, stderr.text⟩

end CompilerPlugin.Plugin

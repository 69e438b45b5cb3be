import CompilerPlugin.Proofs.Except
import CompilerPlugin.Proofs.Plugin.Play
import CompilerPlugin.Proofs.Request.Encoded
import CompilerPlugin.Proofs.Response.RoundTrip

namespace CompilerPlugin.Plugin

open Response (Writer)

structure Sink.Reliable (s : Sink) : Prop where
  capacity : s.capacity = none
  flushed : s.flushFault = none

theorem Sink.Reliable.writeAll {s : Sink} (h : s.Reliable) (bytes : List UInt8) :
    s.writeAll bytes = (bytes, .ok ()) := by
  simp [Sink.writeAll, h.capacity, h.flushed]

theorem versionAsked_version (version : String) :
    versionAsked ["--version"] (some version) = .ok (some version) := by
  rw [versionAsked, if_pos rfl]

theorem versionAsked_of_unknown {args : List String} {version : Option String} (given : args ≠ [])
    (unknown : ¬ (args = ["--version"] ∧ version.isSome)) :
    versionAsked args version = .error (.unknownArguments args) := by
  match args, version with
  | [], _ => exact absurd rfl given
  | [arg], some version =>
    rw [versionAsked, if_neg]
    rintro rfl
    exact unknown ⟨rfl, rfl⟩
  | [arg], none => rfl
  | first :: second :: rest, _ => rfl

variable {ρ : Type}

section

variable (env : Environment) (options : Options) (cancelled : Bool) (handler : Handler ρ)
  (request : Request.Accepted)

/-- The calls that come to be made on a new writer while the handler of a run is at work, those that its
warnings lead to among them, and how it ends. -/
def played : List Writer.Call × Ending ρ :=
  (handler ⟨env.vars, cancelled⟩ request).play options.mode options.warnings env.stderr .new

/-- The writer as the handler of a run leaves it, which it may have finalized itself. -/
def left : Writer :=
  Writer.after (Writer.perform options.mode) .new (played env options cancelled handler request).1

def answered : Except Error Response := do
  (played env options cancelled handler request).2.result.mapError HandlerError.toError
  ((left env options cancelled handler request).finalize options.mode).answer

/-- The input is a request, the handler that is given it ends well, and what it leaves can be
finalized. -/
structure Succeeds (response : Response) : Prop where
  read : Request.Accepted.ofBytes env.stdin.bytes = .ok request
  handled : (played env options cancelled handler request).2.result = .ok ()
  finalized :
    ((left env options cancelled handler request).finalize options.mode).answer = .ok response

end

/-- A report of failure has no output, and one of success has all of a response. -/
inductive Report.Tells (report : Report ρ) : Except Error Response → Prop
  | failed (e : Error) (result : report.result = .error e) (nothing : report.stdout = []) :
      Tells report (.error e)
  | written (r : Response) (result : report.result = .ok ()) (whole : report.stdout = r.encode) :
      Tells report (.ok r)

namespace Report.Tells

variable {report : Report ρ} {response : Response} {made : Except Error Response}

theorem result_eq_ok_iff (h : report.Tells made) : report.result = .ok () ↔ ∃ r, made = .ok r := by
  cases h with
  | failed e result => simp [result]
  | written r result => simp [result]

theorem stdout_of_error (h : report.Tells made) {e : Error} (failed : report.result = .error e) :
    report.stdout = [] := by
  cases h with
  | failed _ _ nothing => exact nothing
  | written r result => exact nomatch result.symm.trans failed

theorem stdout_of_ok (h : report.Tells (.ok response)) : report.stdout = response.encode := by
  cases h with
  | written _ _ whole => exact whole

end Report.Tells

section

variable {env : Environment} {options : Options} {cancelled : Bool} {handler : Handler ρ}
  {request : Request.Accepted} {response : Response}

theorem serve_tells (reliable : env.stdout.Reliable) (request : Request.Accepted) :
    (serve env options cancelled handler request).Tells
      (answered env options cancelled handler request) := by
  obtain ⟨writer, ending⟩ := Session.handle_eq_play options.mode options.warnings
    { stderr := env.stderr } (handler ⟨env.vars, cancelled⟩ request) rfl
  -- back from the calls to the session that made them, of which only writer and ending are looked at
  simp only [answered, left, played, ← ending, ← writer, serve]
  generalize Session.handle options.mode options.warnings { stderr := env.stderr }
    (handler ⟨env.vars, cancelled⟩ request) = handled
  cases handled.2.result with
  | error e => exact .failed _ rfl rfl
  | ok =>
    cases answer : (handled.1.writer.finalize options.mode).answer with
    | error e => exact .failed e rfl rfl
    | ok r =>
      simp only [Session.written, reliable.writeAll]
      exact .written r rfl rfl

theorem run_tells (reliable : env.stdout.Reliable) (bare : env.args = [])
    (sound : env.stdin.fault = none) :
    (run env options cancelled handler).Tells
      (Request.Accepted.ofBytes env.stdin.bytes >>= answered env options cancelled handler) := by
  have read : readRequest env.stdin = Request.Accepted.ofBytes env.stdin.bytes := by
    rw [readRequest, Source.readAll, sound]
  rw [run, bare, versionAsked, read]
  cases Request.Accepted.ofBytes env.stdin.bytes with
  | error e => exact .failed e rfl rfl
  | ok request => exact serve_tells reliable request

theorem stdout_of_error (reliable : env.stdout.Reliable) {e : Error}
    (failed : (run env options cancelled handler).result = .error e) :
    (run env options cancelled handler).stdout = [] := by
  revert failed
  rw [run]
  cases versionAsked env.args options.version with
  | error e => exact fun _ => rfl
  | ok asked =>
    cases asked with
    | some version =>
      simp only [Session.written, reliable.writeAll]
      exact nofun
    | none =>
      cases readRequest env.stdin with
      | error e => exact fun _ => rfl
      | ok request => exact (serve_tells reliable request).stdout_of_error

theorem exists_succeeds_iff :
    (∃ request, Succeeds env options cancelled handler request response) ↔
      Request.Accepted.ofBytes env.stdin.bytes >>= answered env options cancelled handler =
        .ok response := by
  simp only [answered, bind_eq_ok, mapError_eq_ok]
  constructor
  · rintro ⟨request, h⟩
    exact ⟨request, h.read, (), h.handled, h.finalized⟩
  · rintro ⟨request, read, ⟨⟩, handled, finalized⟩
    exact ⟨request, read, handled, finalized⟩

theorem Succeeds.normalize_strict (h : Succeeds env options cancelled handler request response) :
    response.normalize .strict = .accept response := by
  have reconciled : Response.Reconciled (left env options cancelled handler request).files :=
    Writer.reconciled_after Response.reconciled_nil _ _
  obtain ⟨reconciled, supported⟩ := Writer.normal_of_finalize reconciled h.finalized
  exact Response.normalize_of_supported .strict reconciled supported

end

/-- A run that fails writes nothing. Asked for its version, it writes that; given any other arguments
it fails, in both cases without a look at its input or a call of its handler. Without arguments it
succeeds just when its input is a request, the handler ends well and what it leaves can be finalized,
and then what it has written is the finalized response, which is in order as it stands. -/
theorem run_all_or_nothing (env : Environment) (options : Options) (cancelled : Bool)
    (handler : Handler ρ) (reliable : env.stdout.Reliable) :
    let report := run env options cancelled handler
    (∀ e, report.result = .error e → report.stdout = []) ∧
      (∀ version, options.version = some version → env.args = ["--version"] →
        report = { result := .ok (), stdout := (version ++ "\n").toByteArray.data.toList,
                   stderr := env.stderr }) ∧
      (env.args ≠ [] → ¬ (env.args = ["--version"] ∧ options.version.isSome) →
        report = { result := .error (.unknownArguments env.args), stderr := env.stderr }) ∧
      (env.args = [] → env.stdin.fault = none →
        (report.result = .ok () ↔
          ∃ request response, Succeeds env options cancelled handler request response) ∧
        ∀ request response, Succeeds env options cancelled handler request response →
          report.stdout = response.encode ∧
            (report.stdout.length < 2 ^ 64 → Response.decode report.stdout = .ok response) ∧
              response.normalize .strict = .accept response) := by
  intro report
  refine ⟨fun e => stdout_of_error reliable, ?_, ?_, ?_⟩
  · intro version configured asked
    simp only [report, run, asked, configured, versionAsked_version, Session.written,
      reliable.writeAll]
    rfl
  · intro given unknown
    simp only [report, run, versionAsked_of_unknown given unknown]
    rfl
  · intro bare sound
    have tells : report.Tells _ := run_tells reliable bare sound
    refine ⟨?_, fun request response h => ?_⟩
    · rw [tells.result_eq_ok_iff, exists_comm]
      exact exists_congr fun response => exists_succeeds_iff.symm
    · rw [exists_succeeds_iff.1 ⟨request, h⟩] at tells
      refine ⟨tells.stdout_of_ok, fun size => ?_, h.normalize_strict⟩
      rw [tells.stdout_of_ok] at size ⊢
      exact Response.decode_encode response size

def calledWith (args : List String) : Environment :=
  { args, stdin := { bytes := Request.Accepted.withCopies } }

def versioned : Options :=
  { version := some "1.0" }

def echoing : Handler Unit := fun _ request =>
  .write (.addFiles (request.filesToGenerate.map fun name => .new ("./" ++ name ++ ".txt") "")) fun
    | .ok _ => .print "done" fun _ => .done ⟨(), .ok ()⟩
    | .error e => .done ⟨(), .error (.library e)⟩

theorem run_calledWith :
    (calledWith []).stdout.Reliable ∧
      (run (calledWith ["--version"]) versioned false echoing).stdout = [49, 46, 48, 10] ∧
      (run (calledWith ["--help"]) versioned false echoing).result =
        .error (.unknownArguments ["--help"]) ∧
      (run (calledWith ["--help"]) versioned false echoing).stdout = [] ∧
      (run (calledWith []) versioned false echoing).result = .ok () ∧
      Response.decode (run (calledWith []) versioned false echoing).stdout =
        .ok { files := [.new "a.proto.txt" ""] } := by
  have reliable : ∀ args, (calledWith args).stdout.Reliable := fun _ => ⟨rfl, rfl⟩
  have version := (run_all_or_nothing (calledWith ["--version"]) versioned false echoing
    (reliable _)).2.1 "1.0" rfl rfl
  obtain ⟨nothing, -, other, -⟩ :=
    run_all_or_nothing (calledWith ["--help"]) versioned false echoing (reliable _)
  have unknown := congrArg Report.result (other (by decide) (by decide))
  obtain ⟨a, accepted, request⟩ :=
    Request.Accepted.exists_ofBytes Request.Accepted.decode_withCopies (by rfl)
  have made : played (calledWith []) versioned false echoing a =
      ([.addFiles [.new "./a.proto.txt" ""]], ⟨(), .ok ()⟩) := by
    rw [played, echoing, Request.Accepted.filesToGenerate, request]
    rfl
  have succeeds : Succeeds (calledWith []) versioned false echoing a
      { files := [.new "a.proto.txt" ""] } := by
    refine ⟨accepted, ?_, ?_⟩
    · rw [made]
    · rw [left, made]
      rfl
  have bytes : Response.encode { files := [.new "a.proto.txt" ""] } =
      [122, 15, 10, 11, 97, 46, 112, 114, 111, 116, 111, 46, 116, 120, 116, 122, 0] := by decide +kernel
  obtain ⟨well, whole⟩ :=
    (run_all_or_nothing (calledWith []) versioned false echoing (reliable _)).2.2.2 rfl rfl
  obtain ⟨written, decoded, -⟩ := whole a _ succeeds
  exact ⟨reliable _, congrArg Report.stdout version, unknown, nothing _ unknown,
    well.2 ⟨a, _, succeeds⟩, decoded (by rw [written, bytes]; decide)⟩

end CompilerPlugin.Plugin

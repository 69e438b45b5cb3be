import CompilerPlugin.Proofs.Plugin.AllOrNothing

namespace CompilerPlugin

namespace HandlerError

/-- The exit codes found at an error or on the way along its sources. -/
inductive Carries : HandlerError → Int32 → Prop
  | exit (code : Int32) : Carries (.exit code) code
  | library (code : Int32) : Carries (.library (.exit code)) code
  | context (text : String) {source : HandlerError} {code : Int32} (found : Carries source code) :
      Carries (.context text source) code

variable {e : HandlerError} {code : Int32}

theorem exitCode?_eq_some_iff : e.exitCode? = some code ↔ e.Carries code := by
  constructor
  · intro found
    fun_induction HandlerError.exitCode? e with
    | case1 | case5 => exact nomatch found
    | case2 text source ih => exact .context text (ih found)
    | case3 => cases found; exact .exit _
    | case4 => cases found; exact .library _
  · intro carries
    induction carries with
    | exit | library => rfl
    | context _ _ ih => rwa [HandlerError.exitCode?]

theorem toError_eq_exit_iff : e.toError = .exit code ↔ e.Carries code := by
  fun_cases HandlerError.toError e with
  | case1 error =>
    -- an error of this library is not looked into any further
    constructor
    · rintro rfl
      exact .library code
    · rintro ⟨⟩
      rfl
  | case2 e _ found code => rw [← exitCode?_eq_some_iff, code, Error.exit.injEq, Option.some.injEq]
  | case3 e _ none => simp [← exitCode?_eq_some_iff, none]

end HandlerError

variable {code : Int32}

theorem mapError_ne_exit {α ε : Type} (f : ε → Error) (other : ∀ e, f e ≠ .exit code)
    (x : Except ε α) : x.mapError f ≠ .error (.exit code) := by
  cases x with
  | error e => exact fun exits => other e (Except.error.inj exits)
  | ok a => rintro ⟨⟩

theorem Request.Accepted.ofBytes_ne_exit (bytes : List UInt8) :
    Request.Accepted.ofBytes bytes ≠ .error (.exit code) := by
  rw [ofBytes]
  cases Request.decode bytes with
  | error e => rintro ⟨⟩
  | ok r =>
    cases EncodedDescriptors.decode bytes with
    | error e => rintro ⟨⟩
    | ok encoded =>
      change Request.accept r encoded ≠ _
      rw [Request.accept]
      split <;> rintro ⟨⟩

theorem Response.Writer.finalize_ne_exit (mode : Mode) (w : Writer) :
    (w.finalize mode).answer ≠ .error (.exit code) := by
  rw [finalize, ifOpen]
  split
  · rintro ⟨⟩
  · exact mapError_ne_exit .response (by simp) _

namespace Plugin

theorem versionAsked_ne_exit (args : List String) (version : Option String) :
    versionAsked args version ≠ .error (.exit code) := by
  fun_cases versionAsked args version <;> rintro ⟨⟩

theorem eq_nil_of_versionAsked {args : List String} {version : Option String}
    (asked : versionAsked args version = .ok none) : args = [] := by
  revert asked
  fun_cases versionAsked args version with
  | case1 => exact fun _ => rfl
  | _ => rintro ⟨⟩

theorem readRequest_ne_exit (s : Source) : readRequest s ≠ .error (.exit code) := by
  rw [readRequest]
  split
  · rintro ⟨⟩
  · exact Request.Accepted.ofBytes_ne_exit _

theorem Session.written_ne_exit {ρ : Type} (s : Session) (handled : Option ρ) (out : Sink)
    (bytes : List UInt8) : (s.written handled out bytes).result ≠ .error (.exit code) :=
  mapError_ne_exit .io (by simp) _

theorem exitStatus_exit (low : 0 ≤ code) (high : code ≤ 255) :
    exitStatus (.error (.exit code)) = (code.toInt.toNat, none) := by
  rw [exitStatus, if_pos ⟨low, high⟩]

theorem exitStatus_eq_one {e : Error}
    (outside : ∀ code, e = .exit code → ¬ (0 ≤ code ∧ code ≤ 255)) :
    (exitStatus (.error e)).1 = 1 := by
  cases e with
  | exit code => rw [exitStatus, if_neg (outside code rfl)]
  | _ => rfl

theorem exitStatus_eq_zero_iff {result : Except Error Unit} :
    (exitStatus result).1 = 0 ↔ result = .ok () ∨ result = .error (.exit 0) := by
  constructor
  · intro status
    cases result with
    | ok => exact .inl rfl
    | error e =>
      by_cases within : ∃ code, e = .exit code ∧ 0 ≤ code ∧ code ≤ 255
      · obtain ⟨code, rfl, low, high⟩ := within
        rw [exitStatus_exit low high] at status
        have nonneg : 0 ≤ code.toInt := Int32.le_iff_toInt_le.1 low
        have zero : code.toInt = 0 := Int.le_antisymm (Int.toNat_eq_zero.1 status) nonneg
        obtain rfl : code = 0 := Int32.toInt_inj.1 zero
        exact .inr rfl
      · rw [exitStatus_eq_one fun code exits range => within ⟨code, exits, range⟩] at status
        exact nomatch status
  · rintro (rfl | rfl) <;> rfl

theorem range_of_exitCodeOfStatus? {raw : Int32} (failed : exitCodeOfStatus? raw = some code) :
    0 ≤ code ∧ code ≤ 255 ∧ (code = 0 ↔ raw.toUInt32.toNat % 2 ^ 16 ∈ [0, 128]) := by
  rw [exitCodeOfStatus?] at failed
  generalize raw.toUInt32.toNat = status at failed ⊢
  simp only [List.mem_cons, List.not_mem_nil, or_false]
  split_ifs at failed with success ended
  · obtain rfl := Option.some.inj failed
    have small : status / 256 % 256 < 256 := Nat.mod_lt _ (by decide)
    have value : (Int32.ofNat (status / 256 % 256)).toInt = (status / 256 % 256 : Nat) :=
      Int32.toInt_ofNat_of_lt (by omega)
    rw [Int32.le_iff_toInt_le, Int32.le_iff_toInt_le, ← Int32.toInt_inj, value]
    change 0 ≤ _ ∧ _ ≤ (255 : Int) ∧ (_ = (0 : Int) ↔ _)
    omega
  · obtain rfl := Option.some.inj failed
    exact ⟨by decide, by decide, iff_of_false (by decide) (by omega)⟩

variable {ρ : Type}

section

variable (env : Environment) (options : Options) (cancelled : Bool) (handler : Handler ρ)

def HandlerExits (code : Int32) : Prop :=
  env.args = [] ∧
    ∃ request e, readRequest env.stdin = .ok request ∧
      (played env options cancelled handler request).2.result = .error e ∧ e.Carries code

end

section

variable {env : Environment} {options : Options} {cancelled : Bool} {handler : Handler ρ}

theorem serve_eq_exit_iff (request : Request.Accepted) :
    (serve env options cancelled handler request).result = .error (.exit code) ↔
      ∃ e, (played env options cancelled handler request).2.result = .error e ∧ e.Carries code := by
  obtain ⟨-, ending⟩ := Session.handle_eq_play options.mode options.warnings
    { stderr := env.stderr } (handler ⟨env.vars, cancelled⟩ request) rfl
  rw [played, ← ending, serve]
  generalize Session.handle options.mode options.warnings { stderr := env.stderr }
    (handler ⟨env.vars, cancelled⟩ request) = handled
  cases result : handled.2.result with
  | error e => simp [Session.failed, HandlerError.toError_eq_exit_iff]
  | ok =>
    simp only [reduceCtorEq, false_and, exists_false, iff_false]
    cases answer : (handled.1.writer.finalize options.mode).answer with
    | error e =>
      intro exits
      obtain rfl : e = .exit code := Except.error.inj exits
      exact Response.Writer.finalize_ne_exit _ _ answer
    | ok r => exact Session.written_ne_exit _ _ _ _

theorem run_eq_exit_iff :
    (run env options cancelled handler).result = .error (.exit code) ↔
      HandlerExits env options cancelled handler code := by
  constructor
  · intro exits
    rw [run] at exits
    cases asked : versionAsked env.args options.version with
    | error e =>
      rw [asked] at exits
      obtain rfl : e = .exit code := Except.error.inj exits
      exact absurd asked (versionAsked_ne_exit _ _)
    | ok version =>
      rw [asked] at exits
      cases version with
      | some version => exact absurd exits (Session.written_ne_exit _ _ _ _)
      | none =>
        cases read : readRequest env.stdin with
        | error e =>
          rw [read] at exits
          obtain rfl : e = .exit code := Except.error.inj exits
          exact absurd read (readRequest_ne_exit _)
        | ok request =>
          rw [read] at exits
          obtain ⟨e, failed, carries⟩ := (serve_eq_exit_iff request).1 exits
          exact ⟨eq_nil_of_versionAsked asked, request, e, read, failed, carries⟩
  · rintro ⟨bare, request, e, read, failed, carries⟩
    rw [run, bare, versionAsked, read]
    exact (serve_eq_exit_iff request).2 ⟨e, failed, carries⟩

/-- The status of a run is 0 just when the run succeeds or its handler fails with the exit code 0. An exit
code that its handler fails with is the status if it can be one, and nothing is printed for it; every
other failure has the status 1. A code made from the status of a failed program can be one, and is 0
just where that program's own exit code is, whatever else stands above the low two bytes or in the bit
for a core dump. -/
theorem exitStatus_run (env : Environment) (options : Options) (cancelled : Bool)
    (handler : Handler ρ) :
    let report := run env options cancelled handler
    let status := exitStatus report.result
    let Exits := HandlerExits env options cancelled handler
    (status.1 = 0 ↔ report.result = .ok () ∨ Exits 0) ∧
      (∀ code, Exits code → report.result = .error (.exit code) ∧
        (0 ≤ code → code ≤ 255 → status = (code.toInt.toNat, none))) ∧
      (report.result ≠ .ok () → (∀ code, Exits code → ¬ (0 ≤ code ∧ code ≤ 255)) → status.1 = 1) ∧
      ∀ raw code, exitCodeOfStatus? raw = some code →
        0 ≤ code ∧ code ≤ 255 ∧ (code = 0 ↔ raw.toUInt32.toNat % 2 ^ 16 ∈ [0, 128]) := by
  intro report status Exits
  refine ⟨?_, fun code exits => ?_, fun failed outside => ?_, fun _ _ => range_of_exitCodeOfStatus?⟩
  · rw [exitStatus_eq_zero_iff, run_eq_exit_iff]
  · have result : report.result = .error (.exit code) := run_eq_exit_iff.2 exits
    refine ⟨result, fun low high => ?_⟩
    rw [show status = _ from congrArg exitStatus result, exitStatus_exit low high]
  · cases result : report.result with
    | ok => exact absurd result failed
    | error e =>
      rw [show status = _ from congrArg exitStatus result]
      refine exitStatus_eq_one ?_
      rintro code rfl
      exact outside code (run_eq_exit_iff.1 result)

end

def failing (e : HandlerError) : Handler Unit :=
  fun _ _ => .done ⟨(), .error e⟩

theorem handlerExits_failing {e : HandlerError} (carries : e.Carries code) :
    HandlerExits (calledWith []) versioned false (failing e) code := by
  obtain ⟨request, accepted, -⟩ :=
    Request.Accepted.exists_ofBytes Request.Accepted.decode_withCopies (by rfl)
  exact ⟨rfl, request, e, accepted, rfl, carries⟩

theorem exitStatus_failing :
    exitStatus (run (calledWith []) versioned false
        (failing (.context "generating a.proto" (.exit 7)))).result = (7, none) ∧
      (exitStatus (run (calledWith []) versioned false (failing (.exit 256))).result).1 = 1 ∧
      ∃ code, exitCodeOfStatus? 1792 = some code ∧ code ≠ 0 := by
  obtain ⟨-, forwarded, -, statuses⟩ := exitStatus_run (calledWith []) versioned false
    (failing (.context "generating a.proto" (.exit 7)))
  obtain ⟨-, large, other, -⟩ :=
    exitStatus_run (calledWith []) versioned false (failing (.exit 256))
  have result := (large 256 (handlerExits_failing (.exit 256))).1
  refine ⟨(forwarded 7 (handlerExits_failing (.context _ (.exit 7)))).2 (by decide) (by decide),
    other ?_ ?_, 7, rfl, fun zero => ?_⟩
  · rw [result]
    exact nofun
  · rintro code exits ⟨-, high⟩
    have same := result.symm.trans (large code exits).1
    obtain rfl : 256 = code := Error.exit.inj (Except.error.inj same)
    exact absurd high (by decide)
  · exact absurd ((statuses 1792 7 rfl).2.2.1 zero) (by decide)

theorem exitStatus_failing_zero :
    let result := (run (calledWith []) versioned false (failing (.exit 0))).result
    result ≠ .ok () ∧ (exitStatus result).1 = 0 := by
  intro result
  have failed : result = .error (.exit 0) :=
    run_eq_exit_iff.2 (handlerExits_failing (.exit 0))
  exact ⟨failed ▸ nofun, exitStatus_eq_zero_iff.2 (.inr failed)⟩

end Plugin

end CompilerPlugin

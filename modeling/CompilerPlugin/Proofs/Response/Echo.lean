import CompilerPlugin.Proofs.Response.Closed
import CompilerPlugin.Proofs.Response.Folded

namespace CompilerPlugin.Response

def withError (r : Response) (e : Option String) : Response :=
  { r with error := e }

theorem Outcome.map_answer_of_unanswered {o : Outcome (Option Response)} (none : o.response? = none)
    (f : Response → Response) : o.answer.map (Option.map f) = o.answer := by
  obtain ⟨_ | _ | r, warnings, writer⟩ := o
  · rfl
  · rfl
  · cases none

namespace Writer

def withError (w : Writer) (e : Option String) : Writer :=
  { w with error := e }

def withEchoes (calls : List Call) (outcomes : List (Outcome (Option Response))) : List Call :=
  (calls.zip outcomes).flatMap fun p => p.1 :: p.2.warnings.map fun i => .setError i.warning

variable {w : Writer} {mode : Mode} {c : Call}

section

variable (w) (mode) (e : Option String)

theorem addRecords_withError (files : List GeneratedFile) :
    (w.withError e).addRecords files =
      { w.addRecords files with writer := (w.addRecords files).writer.withError e } := by
  induction files generalizing w with
  | nil => rfl
  | cons f rest ih =>
    cases named : Path.normalize f.nameText with
    | error e =>
      rw [addRecords_cons_error named, addRecords_cons_error named]
      rfl
    | ok name =>
      have later := ih (w.holding (keep w.files (f.withName name)))
      rw [addRecords_cons_ok named, addRecords_cons_ok named]
      exact congrArg (Outcome.warned _) later

theorem perform_withError_of_other (opened : w.finalized = false) (other : c ≠ .finalize) :
    ∃ e', (w.withError e).perform mode c =
      { w.perform mode c with writer := (w.perform mode c).writer.withError e' } := by
  have still : (w.withError e).finalized = false := opened
  cases c with
  | addFiles files =>
    refine ⟨e, ?_⟩
    simp only [perform, addFiles, ifOpen_of_open opened, ifOpen_of_open still, addRecords_withError]
    rfl
  | setError message =>
    simp only [perform, setError, ifOpen_of_open opened, ifOpen_of_open still]
    split_ifs with empty
    · exact ⟨e, rfl⟩
    · exact ⟨some message, rfl⟩
  | setFeatures mask | addFeatures mask =>
    refine ⟨e, ?_⟩
    simp only [perform, setFeatures, addFeatures, changeFeatures, ifOpen_of_open opened,
      ifOpen_of_open still]
    cases Features.ofBits mask <;> rfl
  | supportEditions | setMinimum | setMaximum =>
    refine ⟨e, ?_⟩
    simp only [perform, supportEditions, setMinimum, setMaximum, ifOpen_of_open opened,
      ifOpen_of_open still]
    rfl
  | finalize => exact absurd rfl other

theorem perform_finalize_withError (opened : w.finalized = false) (h : Reconciled w.files) :
    (w.withError e).perform mode .finalize =
      ⟨(w.perform mode .finalize).answer.map (Option.map (·.withError e)),
        (w.perform mode .finalize).warnings, (w.perform mode .finalize).writer.withError e⟩ := by
  rw [perform_finalize opened h, perform_finalize (w := w.withError e) opened h]
  have same : (w.withError e).response.checkSupport = w.response.checkSupport := rfl
  rw [same]
  cases w.response.checkSupport <;> rfl

end

theorem perform_withError (h : Reconciled w.files) (mode : Mode) (e : Option String) (c : Call) :
    ∃ e', (w.withError e).perform mode c =
      ⟨(w.perform mode c).answer.map (Option.map (·.withError e)), (w.perform mode c).warnings,
        (w.perform mode c).writer.withError e'⟩ := by
  cases state : w.finalized with
  | true =>
    rw [perform_of_closed state, perform_of_closed (w := w.withError e) state]
    exact ⟨e, rfl⟩
  | false =>
    by_cases finalizes : c = .finalize
    · subst finalizes
      exact ⟨e, perform_finalize_withError w mode e state h⟩
    · obtain ⟨e', same⟩ := perform_withError_of_other w mode e state finalizes
      rw [same, Outcome.map_answer_of_unanswered (response?_perform finalizes)]
      exact ⟨e', rfl⟩

theorem echo_eq_after (mode : Mode) (w : Writer) (warnings : List Issue) :
    w.echo warnings = after (perform mode) w (warnings.map fun i => .setError i.warning) := by
  rw [after, List.foldl_map]
  rfl

theorem exists_echo (w : Writer) (warnings : List Issue) :
    ∃ e, w.echo warnings = w.withError e := by
  induction warnings generalizing w with
  | nil => exact ⟨w.error, rfl⟩
  | cons i rest ih =>
    have own : ∃ e, (w.setError i.warning).writer = w.withError e := by
      rw [setError, ifOpen, Outcome.done]
      split_ifs
      · exact ⟨w.error, rfl⟩
      · exact ⟨w.error, rfl⟩
      · exact ⟨some i.warning, rfl⟩
    obtain ⟨e, own⟩ := own
    obtain ⟨e', later⟩ := ih (w.setError i.warning).writer
    rw [own] at later
    exact ⟨e', (congrArg (echo · rest) own).trans later⟩

theorem after_echoing (h : Reconciled w.files) (mode : Mode) (e : Option String) (calls : List Call) :
    after (performEchoing mode) (w.withError e) calls =
        after (perform mode) (w.withError e)
          (withEchoes calls (performAll (perform mode) w calls)) ∧
      ∃ e', after (performEchoing mode) (w.withError e) calls =
        (after (perform mode) w calls).withError e' := by
  induction calls generalizing w e with
  | nil => exact ⟨rfl, e, rfl⟩
  | cons c rest ih =>
    obtain ⟨e₁, step⟩ := perform_withError h mode e c
    obtain ⟨e₂, echoed⟩ :=
      exists_echo ((w.perform mode c).writer.withError e₁) (w.perform mode c).warnings
    have moved : ((w.withError e).performEchoing mode c).writer =
        (w.perform mode c).writer.withError e₂ := by
      rw [performEchoing, step]
      exact echoed
    have said : ((w.withError e).perform mode c).warnings = (w.perform mode c).warnings := by rw [step]
    have own : ((w.withError e).performEchoing mode c).writer =
        after (perform mode) (w.withError e)
          (c :: (w.perform mode c).warnings.map fun i => .setError i.warning) := by
      rw [performEchoing, said]
      exact echo_eq_after mode _ _
    obtain ⟨later, left⟩ := ih (reconciled_perform h mode c) e₂
    rw [← moved] at later left
    refine ⟨?_, left⟩
    calc after (performEchoing mode) ((w.withError e).performEchoing mode c).writer rest
      _ = after (perform mode) ((w.withError e).performEchoing mode c).writer
            (withEchoes rest (performAll (perform mode) (w.perform mode c).writer rest)) := later
      _ = after (perform mode) (after (perform mode) (w.withError e)
              (c :: (w.perform mode c).warnings.map fun i => .setError i.warning))
            (withEchoes rest (performAll (perform mode) (w.perform mode c).writer rest)) := by rw [own]
      _ = _ := (after_append _ _ _).symm

theorem finalize_notMem_withEchoes {calls : List Call} (goesOn : .finalize ∉ calls)
    (outcomes : List (Outcome (Option Response))) : .finalize ∉ withEchoes calls outcomes := by
  simp only [withEchoes, List.mem_flatMap, List.mem_cons, List.mem_map, reduceCtorEq, and_false,
    exists_false, or_false, not_exists, not_and]
  rintro ⟨c, o⟩ mem rfl
  exact goesOn (List.of_mem_zip mem).1

theorem warnings_finalize (h : Reconciled w.files) (mode : Mode) :
    (w.perform mode .finalize).warnings = [] := by
  cases state : w.finalized with
  | true => rw [perform_of_closed state]; rfl
  | false => rw [perform_finalize state h]

/-- With its warnings echoed, a writer answers and warns at each call as it does else, and finalizing it
comes to the same but for the error. That is the last one set, not being empty, when each call before is
followed by its echoes: for all that was done is what these calls would do, one after the other. -/
theorem echoing_adds_errors (mode : Mode) (before rest : List Call) (c : Call) :
    let passive (calls : List Call) := performAll (perform mode) {} calls
    let echoing (calls : List Call) := performAll (performEchoing mode) {} calls
    let echoed := withEchoes before (passive before)
    after (performEchoing mode) {} before = after (perform mode) {} echoed ∧
      ∃ o o', (passive (before ++ c :: rest))[before.length]? = some o ∧
        (echoing (before ++ c :: rest))[before.length]? = some o' ∧
        o'.warnings = o.warnings ∧ (c = .finalize → o.warnings = []) ∧
        (c ≠ .finalize ∨ .finalize ∈ before → o'.answer = o.answer) ∧
        (.finalize ∉ before → o'.answer =
          o.answer.map (Option.map (·.withError (lastOf Call.error? echoed)))) := by
  intro passive echoing echoed
  have reconciled := reconciled_after (w := {}) reconciled_nil mode before
  obtain ⟨same, e, apart⟩ := after_echoing (w := {}) reconciled_nil mode none before
  obtain ⟨e', step⟩ := perform_withError reconciled mode e c
  change after (performEchoing mode) {} before = after (perform mode) {} echoed at same
  change after (performEchoing mode) {} before = _ at apart
  rw [← apart] at step
  refine ⟨same, _, _, getElem?_performAll {} before rest c, getElem?_performAll {} before rest c,
    ?_, ?_, ?_, ?_⟩
  · rw [performEchoing, step]
  · rintro rfl
    exact warnings_finalize reconciled mode
  · intro settled
    rw [performEchoing, step]
    refine Outcome.map_answer_of_unanswered ?_ _
    rcases settled with other | mem
    · exact response?_perform other
    · rw [perform_of_closed (finalized_after mode {} mem)]
      rfl
  · intro goesOn
    have errors := (moves_after (w := {}) rfl mode
      (finalize_notMem_withEchoes goesOn (passive before))).error
    rw [← same, apart, Option.or_none] at errors
    have last : e = lastOf Call.error? echoed := errors
    rw [performEchoing, step, last]

def warnedCalls : List Call :=
  [.addFile "a" "1", .setError "mine", .addFiles [.new "a" "2", .new "/b" "3"], .setError ""]

theorem echoing_adds_errors_warnedCalls :
    (.finalize ∉ warnedCalls ∧
        lastOf Call.error? (withEchoes warnedCalls (performAll (perform .strict) {} warnedCalls)) =
          some (Issue.duplicateName "a").warning) ∧
      (performAll (perform .strict) {} (warnedCalls ++ [.finalize]))[4]?.map Outcome.answer =
        some (.ok (some { error := some "mine", files := [.new "a" "1"] })) ∧
      (performAll (performEchoing .strict) {} (warnedCalls ++ [.finalize]))[4]?.map Outcome.answer =
        some (.ok (some
          { error := some (Issue.duplicateName "a").warning, files := [.new "a" "1"] })) := by
  have goesOn : .finalize ∉ warnedCalls := by simp [warnedCalls, Call.addFile]
  have last : lastOf Call.error? (withEchoes warnedCalls (performAll (perform .strict) {} warnedCalls)) =
      some (Issue.duplicateName "a").warning := rfl
  have passive : (performAll (perform .strict) {} (warnedCalls ++ [.finalize]))[4]?.map Outcome.answer =
      some (.ok (some { error := some "mine", files := [.new "a" "1"] })) := rfl
  obtain ⟨-, o, o', own, echoed, -, -, -, answer⟩ :=
    echoing_adds_errors .strict warnedCalls [] .finalize
  have alone : o.answer = .ok (some { error := some "mine", files := [.new "a" "1"] }) :=
    Option.some.inj ((congrArg (Option.map Outcome.answer) own).symm.trans passive)
  refine ⟨⟨goesOn, last⟩, passive, (congrArg (Option.map Outcome.answer) echoed).trans ?_⟩
  rw [Option.map_some, answer goesOn, alone, last]
  rfl

end Writer

end CompilerPlugin.Response

import CompilerPlugin.Proofs.Response.Calls

namespace CompilerPlugin.Response

def Outcome.response? (o : Outcome (Option Response)) : Option Response :=
  match o.answer with
  | .ok response => response
  | .error _ => none

namespace Writer

variable {w : Writer} {mode : Mode}

theorem response?_perform {c : Call} (other : c ≠ .finalize) :
    (w.perform mode c).response? = none := by
  have unanswered {α : Type} (o : Outcome α) : (o.map fun _ => none).response? = none := by
    obtain ⟨_ | _, _, _⟩ := o <;> rfl
  cases c with
  | finalize => exact absurd rfl other
  | addFiles | setError | setFeatures | addFeatures | supportEditions | setMinimum | setMaximum =>
    exact unanswered _

theorem finalized_perform_finalize (mode : Mode) (w : Writer) :
    (w.perform mode .finalize).writer.finalized = true := by
  cases state : w.finalized with
  | true => rwa [perform_of_closed state]
  | false => exact (perform_of_open state mode .finalize).2.2 rfl

theorem after_of_closed (closed : w.finalized = true) (mode : Mode) (calls : List Call) :
    after (perform mode) w calls = w := by
  induction calls with
  | nil => rfl
  | cons c rest ih =>
    rw [after, List.foldl_cons, perform_of_closed closed]
    exact ih

theorem finalized_after (mode : Mode) (w : Writer) {calls : List Call} (mem : .finalize ∈ calls) :
    (after (perform mode) w calls).finalized = true := by
  obtain ⟨before, rest, rfl⟩ := List.append_of_mem mem
  have closed := finalized_perform_finalize mode (after (perform mode) w before)
  rw [after_append]
  exact (congrArg finalized (after_of_closed closed mode rest)).trans closed

theorem performAll_of_closed (closed : w.finalized = true) (mode : Mode) (calls : List Call) :
    performAll (perform mode) w calls = calls.map fun c => .refused c.refusal w := by
  induction calls with
  | nil => rfl
  | cons c rest ih =>
    rw [performAll, perform_of_closed closed]
    exact congrArg _ ih

theorem responses_of_closed (closed : w.finalized = true) (mode : Mode) (calls : List Call) :
    (performAll (perform mode) w calls).filterMap Outcome.response? = [] := by
  rw [performAll_of_closed closed, List.filterMap_map]
  exact List.filterMap_eq_nil_iff.2 fun _ _ => rfl

theorem length_responses_le (mode : Mode) (w : Writer) (calls : List Call) :
    ((performAll (perform mode) w calls).filterMap Outcome.response?).length ≤ 1 := by
  induction calls generalizing w with
  | nil => exact Nat.zero_le 1
  | cons c rest ih =>
    rw [performAll]
    by_cases finalizes : c = .finalize
    · subst finalizes
      have later := responses_of_closed (finalized_perform_finalize mode w) mode rest
      rw [List.filterMap_cons, later]
      cases (w.perform mode .finalize).response? with
      | none => exact Nat.zero_le 1
      | some response => exact Nat.le_refl 1
    · rw [List.filterMap_cons_none (response?_perform finalizes)]
      exact ih _

/-- After a writer has been finalized each call on it is refused, without a warning and with the writer
as it was: because it is finalized, but for a mask with an unknown bit, which is told of as on any other
writer. So among any calls at most one gives a response. -/
theorem refused_after_finalize (mode : Mode) (w : Writer) :
    (∀ before rest,
      let closed := after (perform mode) w (before ++ [.finalize])
      performAll (perform mode) w (before ++ .finalize :: rest) =
        performAll (perform mode) w (before ++ [.finalize]) ++
          rest.map fun c => .refused c.refusal closed) ∧
      ∀ calls, ((performAll (perform mode) w calls).filterMap Outcome.response?).length ≤ 1 := by
  refine ⟨fun before rest => ?_, length_responses_le mode w⟩
  intro closed
  have finalized : closed.finalized = true := by
    rw [show closed = _ from after_append w before [.finalize]]
    exact finalized_perform_finalize mode _
  rw [← performAll_of_closed finalized mode rest, ← performAll_append]
  simp

theorem unknownFeatures_after_finalize :
    (performAll (perform .strict) {} [.finalize, .setFeatures 4]).map Outcome.answer =
      [.ok (some {}), .error (.response (.unknownFeatures ⟨4⟩))] :=
  rfl

end Writer

end CompilerPlugin.Response

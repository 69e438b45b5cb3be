import CompilerPlugin.Proofs.Plugin.ExitStatus

namespace CompilerPlugin.HandlerError

/-- The error that this one tells of as its source. An error of this library tells of none, not even of the
error of a handler in it. -/
def source? : HandlerError → Option HandlerError
  | context _ source => some source
  | _ => none

def links : HandlerError → List HandlerError
  | context words source => context words source :: source.links
  | e => [e]

def ownCode? : HandlerError → Option Int32
  | exit code => some code
  | library (.exit code) => some code
  | _ => none

def unwrapped : HandlerError → Error
  | library error => error
  | e => .handler e

variable {e link : HandlerError} {before after : List HandlerError} {code : Int32}

theorem links_eq (e : HandlerError) : e.links = e :: (e.source?.map links).getD [] := by
  cases e <;> rfl

theorem after_of_links (split : e.links = before ++ link :: after) :
    after = (link.source?.map links).getD [] := by
  fun_induction links e generalizing before with
  | case1 words source ih =>
    cases before with
    | nil =>
      obtain ⟨rfl, rfl⟩ := List.cons.inj split
      rfl
    | cons b before => exact ih (List.cons.inj split).2
  | case2 e other =>
    have last : e.source? = none := by
      cases e with
      | context words source => exact (other words source rfl).elim
      | text | exit | library => rfl
    obtain ⟨rfl, same⟩ := List.append_eq_singleton_iff.1 split.symm |>.resolve_right (by simp)
    obtain ⟨rfl, rfl⟩ := List.cons.inj same
    rw [last]
    rfl

theorem findSome?_links (e : HandlerError) : e.links.findSome? ownCode? = e.exitCode? := by
  fun_induction HandlerError.exitCode? e with
  | case1 | case3 | case4 => rfl
  | case2 words source ih => exact ih
  | case5 error other =>
    cases error with
    | exit code => exact (other code rfl).elim
    | _ => rfl

theorem source?_of_ownCode? (own : link.ownCode? = some code) : link.source? = none := by
  cases link with
  | context => cases own
  | text | exit | library => rfl

theorem toError_of_codeless (codeless : e.exitCode? = none) : e.toError = e.unwrapped := by
  fun_cases HandlerError.toError e with
  | case1 error => rfl
  | case2 e other code found =>
    rw [codeless] at found
    cases found
  | case3 e other none =>
    cases e with
    | library error => exact (other error rfl).elim
    | text | context | exit => rfl

theorem message_unwrapped (e : HandlerError) : e.unwrapped.message = e.message := by
  cases e <;> rfl

theorem toError_eq_exit_iff_links :
    e.toError = .exit code ↔ ∃ before link after, e.links = before ++ link :: after ∧
      link.ownCode? = some code ∧ ∀ outer ∈ before, outer.ownCode? = none := by
  rw [toError_eq_exit_iff, ← exitCode?_eq_some_iff, ← findSome?_links, List.findSome?_eq_some_iff]

/-- The error of a run is the exit code of the outermost error that is one, of the handler's error and those
that it leads to by sources. If none is, it is the handler's error as it came: itself where it is one of this
library, and else wrapped, with the same text. An error of a handler in an error of this library ends
the sources, so that no exit code is found, neither before it nor in it. -/
theorem toError_outermost (e : HandlerError) :
    e.links = e :: (e.source?.map links).getD [] ∧
      (∀ code, e.toError = .exit code ↔ ∃ before link after, e.links = before ++ link :: after ∧
        link.ownCode? = some code ∧ ∀ outer ∈ before, outer.ownCode? = none) ∧
      ((∀ link ∈ e.links, link.ownCode? = none) →
        e.toError = e.unwrapped ∧ e.toError.message = e.message) ∧
      ∀ before inner after, e.links = before ++ .library (.handler inner) :: after →
        after = [] ∧ ∀ code, e.toError ≠ .exit code := by
  refine ⟨links_eq e, fun code => toError_eq_exit_iff_links, fun codeless => ?_,
    fun before inner after split => ?_⟩
  · have none : e.exitCode? = none := by
      rw [← findSome?_links]
      exact List.findSome?_eq_none_iff.2 codeless
    rw [toError_of_codeless none]
    exact ⟨rfl, message_unwrapped e⟩
  · obtain rfl : after = [] := after_of_links split
    refine ⟨rfl, fun code exits => ?_⟩
    obtain ⟨outer, link, rest, found, own, -⟩ := toError_eq_exit_iff_links.1 exits
    obtain rfl : rest = [] := by
      rw [after_of_links found, source?_of_ownCode? own]
      rfl
    -- both stand last among the links, but only one of them is an exit code
    obtain rfl : link = .library (.handler inner) :=
      List.singleton_inj.1 (List.append_inj_right' (found.symm.trans split) rfl)
    cases own

theorem toError_outermost_hidden :
    let found : HandlerError := .context "generating" (.context "running" (.library (.exit 7)))
    let hidden : HandlerError := .context "generating" (.library (.handler (.exit 7)))
    found.toError = .exit 7 ∧
      (∀ link ∈ hidden.links, link.ownCode? = none) ∧
      hidden.toError = .handler hidden ∧ hidden.toError.message = "generating" ∧
      hidden.links = [hidden] ++ .library (.handler (.exit 7)) :: [] ∧
      ∀ code, hidden.toError ≠ .exit code := by
  intro found hidden
  have codeless : ∀ link ∈ hidden.links, link.ownCode? = none := by
    rintro link (_ | ⟨_, _ | ⟨_, ⟨⟩⟩⟩) <;> rfl
  obtain ⟨-, exits, -, -⟩ := toError_outermost found
  obtain ⟨-, -, kept, ends⟩ := toError_outermost hidden
  obtain ⟨wrapped, same⟩ := kept codeless
  refine ⟨(exits 7).2 ⟨[found, .context "running" (.library (.exit 7))], .library (.exit 7), [], rfl, rfl, ?_⟩,
    codeless, wrapped, same, rfl, (ends [hidden] _ [] rfl).2⟩
  rintro outer (_ | ⟨_, _ | ⟨_, ⟨⟩⟩⟩) <;> rfl

end CompilerPlugin.HandlerError

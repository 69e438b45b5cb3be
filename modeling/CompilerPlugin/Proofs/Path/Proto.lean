import CompilerPlugin.Proofs.Except
import CompilerPlugin.Proofs.Path.Canonical

namespace CompilerPlugin.Path

section

variable {path name given : String}

theorem normalize_ne_unnormalized : normalize path ≠ .error (.unnormalized given name) := by
  intro refused
  rw [normalize_eq] at refused
  split at refused
  · cases refused
  split at refused
  · cases refused
  split at refused <;> cases refused

theorem normalizeProto_eq_ok_iff :
    normalizeProto path = .ok name ↔
      normalize path = .ok name ∧ protoExtension.toList <:+ name.toList := by
  rw [normalizeProto, bind_eq_ok]
  simp only [hasProtoExtension, List.isSuffixOf_iff_suffix]
  constructor
  · rintro ⟨made, normalized, given⟩
    split at given
    · cases given
      exact ⟨normalized, ‹_›⟩
    · cases given
  · rintro ⟨normalized, extension⟩
    exact ⟨name, normalized, if_pos extension⟩

theorem normalizeProto_eq_self_iff : normalizeProto path = .ok path ↔ checkProto path = .ok () := by
  rw [normalizeProto_eq_ok_iff, checkProto_eq_ok_iff_normalize]

theorem checkProto_of_normalizeProto (h : normalizeProto path = .ok name) :
    checkProto name = .ok () := by
  obtain ⟨normalized, extension⟩ := normalizeProto_eq_ok_iff.1 h
  exact checkProto_eq_ok_iff_normalize.2 ⟨normalize_normalize normalized, extension⟩

theorem checkProto_eq_unnormalized_iff :
    checkProto path = .error (.unnormalized given name) ↔
      given = path ∧ normalize path = .ok name ∧ name ≠ path := by
  rw [checkProto]
  cases made : normalize path with
  | error e =>
    constructor
    · intro refused
      obtain rfl : e = .unnormalized given name := Except.error.inj refused
      exact absurd made normalize_ne_unnormalized
    · rintro ⟨-, normalized, -⟩
      cases normalized
  | ok canonical =>
    rcases eq_or_ne canonical path with rfl | same
    · constructor
      · intro refused
        -- whatever the extension comes to, it is not this fault
        simp only [bind, Except.bind, ne_eq, not_true_eq_false, if_false] at refused
        split at refused <;> cases refused
      · rintro ⟨-, itself, other⟩
        exact absurd (Except.ok.inj itself).symm other
    · simp only [bind, Except.bind, ne_eq, same, not_false_eq_true, if_true, Except.error.injEq,
        PathError.unnormalized.injEq, Except.ok.injEq]
      constructor
      · rintro ⟨rfl, rfl⟩
        exact ⟨rfl, rfl, same⟩
      · rintro ⟨rfl, rfl, -⟩
        exact ⟨rfl, rfl⟩

end

/-- A name is accepted just when it has only ordinary elements, one `/` between two of them, and the
extension: it is then brought into form as it is. What a name is brought into form as is accepted. A name
that would do in another form is refused for that, with the form it should have, whatever its extension. -/
theorem checkProto_accepts_iff (path : String) :
    (checkProto path = .ok () ↔
      '\\' ∉ path.toList ∧ (∀ e ∈ path.toList.splitOn '/', e ≠ [] ∧ e ≠ here ∧ e ≠ parent) ∧
        protoExtension.toList <:+ path.toList) ∧
      (checkProto path = .ok () ↔ normalizeProto path = .ok path) ∧
      (∀ name, normalizeProto path = .ok name → checkProto name = .ok ()) ∧
      ∀ given name, checkProto path = .error (.unnormalized given name) ↔
        given = path ∧ normalize path = .ok name ∧ name ≠ path := by
  refine ⟨?_, normalizeProto_eq_self_iff.symm, fun name => checkProto_of_normalizeProto,
    fun given name => checkProto_eq_unnormalized_iff⟩
  rw [checkProto_eq_ok_iff]
  constructor
  · rintro ⟨slashes, ordinary, extension⟩
    exact ⟨slashes, ordinary, extension⟩
  · rintro ⟨slashes, ordinary, extension⟩
    exact ⟨slashes, ordinary, extension⟩

theorem checkProto_accepts_roundabout :
    normalizeProto "a\\./b.proto" = .ok "a/b.proto" ∧ checkProto "a/b.proto" = .ok () ∧
      checkProto "a\\./b.proto" = .error (.unnormalized "a\\./b.proto" "a/b.proto") ∧
      checkProto "a//b" = .error (.unnormalized "a//b" "a/b") := by
  have made : normalizeProto "a\\./b.proto" = .ok "a/b.proto" := rfl
  obtain ⟨-, -, accepted, unnormalized⟩ := checkProto_accepts_iff "a\\./b.proto"
  obtain ⟨-, -, -, unfinished⟩ := checkProto_accepts_iff "a//b"
  exact ⟨made, accepted _ made, (unnormalized _ _).2 ⟨rfl, rfl, by decide⟩,
    (unfinished _ _).2 ⟨rfl, rfl, by decide⟩⟩

end CompilerPlugin.Path

import CompilerPlugin.Proofs.Except
import CompilerPlugin.Proofs.Response.Sift

namespace CompilerPlugin.Response

def invalid (name : String) : List Violation :=
  match Path.normalize name with
  | .error e => [.invalidPath e]
  | .ok _ => []

def ownNames (files : List GeneratedFile) : List String :=
  (files.map (·.nameText)).filter (· ≠ "")

def namelessInsertions (files : List GeneratedFile) : List GeneratedFile :=
  files.filter fun f => f.nameText = "" ∧ f.isInsertion

def editionViolations (minimum maximum : Int32) : List Violation :=
  (if minimum = 0 then [.missingMinimum] else []) ++
    (if maximum = 0 then [.missingMaximum] else []) ++
    (if maximum < minimum then [.invertedEditions minimum maximum] else [])

def supportViolations (r : Response) : List Violation :=
  let mask := r.supportedFeatures.getD 0
  (if mask ≤ 3 then [] else [.unknownFeatures ⟨mask⟩]) ++
    (if mask &&& 2 = 0 then []
     else editionViolations (r.minimumEdition.getD 0) (r.maximumEdition.getD 0))

/-- Everything that cannot be repaired in a response. A second file of a name can be, but its name has to
be a path all the same. -/
def violations (r : Response) : List Violation :=
  (if r.files.head?.any (·.nameText = "") then [.leadingWithoutName] else []) ++
    (namelessInsertions r.files).map (fun _ => .insertionWithoutName) ++
    (ownNames r.files).flatMap invalid ++
    r.supportViolations

structure Repairable (r : Response) : Prop where
  leading : ∀ f ∈ r.files.head?, f.nameText ≠ ""
  continuations : ∀ f ∈ r.files, f.nameText = "" → f.isInsertion = false
  names : ∀ f ∈ r.files, f.nameText ≠ "" → ∃ name, Path.normalize f.nameText = .ok name
  features : r.supportedFeatures.getD 0 ≤ 3
  editions : r.supportedFeatures.getD 0 &&& 2 ≠ 0 →
    r.minimumEdition.getD 0 ≠ 0 ∧ r.maximumEdition.getD 0 ≠ 0 ∧
      r.minimumEdition.getD 0 ≤ r.maximumEdition.getD 0

theorem invalid_eq_nil_iff {name : String} :
    invalid name = [] ↔ ∃ canonical, Path.normalize name = .ok canonical := by
  rw [invalid]
  cases Path.normalize name <;> simp

theorem editionViolations_eq_nil_iff {minimum maximum : Int32} :
    editionViolations minimum maximum = [] ↔ minimum ≠ 0 ∧ maximum ≠ 0 ∧ minimum ≤ maximum := by
  simp [editionViolations, Int32.not_lt]

theorem supportViolations_eq_nil_iff {r : Response} :
    r.supportViolations = [] ↔
      r.supportedFeatures.getD 0 ≤ 3 ∧ (r.supportedFeatures.getD 0 &&& 2 ≠ 0 →
        r.minimumEdition.getD 0 ≠ 0 ∧ r.maximumEdition.getD 0 ≠ 0 ∧
          r.minimumEdition.getD 0 ≤ r.maximumEdition.getD 0) := by
  simp [supportViolations, editionViolations_eq_nil_iff]

theorem violations_eq_nil_iff {r : Response} : r.violations = [] ↔ r.Repairable := by
  have leading : r.files.head?.any (·.nameText = "") = false ↔
      ∀ f ∈ r.files.head?, f.nameText ≠ "" := by
    cases r.files.head? <;> simp
  have patches : namelessInsertions r.files = [] ↔
      ∀ f ∈ r.files, f.nameText = "" → f.isInsertion = false := by
    simp [namelessInsertions]
  have names : (ownNames r.files).flatMap invalid = [] ↔
      ∀ f ∈ r.files, f.nameText ≠ "" → ∃ name, Path.normalize f.nameText = .ok name := by
    simp [ownNames, invalid_eq_nil_iff]
  rw [violations, List.append_eq_nil_iff, List.append_eq_nil_iff, List.append_eq_nil_iff,
    List.map_eq_nil_iff, ite_eq_right_iff, patches, names, supportViolations_eq_nil_iff]
  simp only [List.cons_ne_nil, imp_false, Bool.not_eq_true, leading]
  constructor
  · rintro ⟨⟨⟨leading, continuations⟩, names⟩, features, editions⟩
    exact ⟨leading, continuations, names, features, editions⟩
  · rintro ⟨leading, continuations, names, features, editions⟩
    exact ⟨⟨⟨leading, continuations⟩, names⟩, features, editions⟩

@[simp] theorem nameText_extend (f : GeneratedFile) (more : Option String) :
    (f.extend more).nameText = f.nameText := by
  cases more <;> rfl

theorem ownNames_cons (f : GeneratedFile) (files : List GeneratedFile) :
    ownNames (f :: files) =
      if f.nameText = "" then ownNames files else f.nameText :: ownNames files := by
  rw [ownNames, List.map_cons, List.filter_cons]
  split_ifs <;> simp_all [ownNames]

theorem namelessInsertions_cons (f : GeneratedFile) (files : List GeneratedFile) :
    namelessInsertions (f :: files) =
      if f.nameText = "" ∧ f.isInsertion then f :: namelessInsertions files
      else namelessInsertions files := by
  rw [namelessInsertions, List.filter_cons]
  split_ifs <;> simp_all [namelessInsertions]

theorem mergeInto_names (current : GeneratedFile) (files : List GeneratedFile) :
    (mergeInto current files).map (List.map (·.nameText)) = (do
      firstError ((namelessInsertions files).map fun _ => .insertionWithoutName)
      return current.nameText :: ownNames files) := by
  induction files generalizing current with
  | nil => rfl
  | cons f rest ih =>
    rw [mergeInto, ownNames_cons, namelessInsertions_cons]
    by_cases named : f.nameText = ""
    · by_cases patch : f.isInsertion = true
      · simp only [named, patch]
        rfl
      · simpa [named, patch] using ih (current.extend f.content)
    · have moved : ((mergeInto f rest).map (current :: ·)).map (List.map (·.nameText)) =
          ((mergeInto f rest).map (List.map (·.nameText))).map (current.nameText :: ·) := by
        cases mergeInto f rest <;> rfl
      simp only [named, ne_eq, not_false_eq_true, if_true, if_false, false_and, moved, ih]
      cases firstError ((namelessInsertions rest).map fun _ => Violation.insertionWithoutName) <;> rfl

theorem mergeContinuations_names (files : List GeneratedFile) :
    (mergeContinuations files).map (List.map (·.nameText)) = (do
      firstError (if files.head?.any (·.nameText = "") then [.leadingWithoutName] else [])
      firstError ((namelessInsertions files).map fun _ => .insertionWithoutName)
      return ownNames files) := by
  cases files with
  | nil => rfl
  | cons f rest =>
    rw [mergeContinuations, List.head?_cons, Option.any_some]
    by_cases named : f.nameText = ""
    · simp only [named, decide_true, if_true]
      rfl
    · simp only [ownNames_cons, namelessInsertions_cons, named, decide_false, Bool.false_eq_true,
        if_false, false_and]
      exact mergeInto_names f rest

theorem result_sift_lenient (kept files : List GeneratedFile) :
    (sift .lenient kept files).result.map (fun _ => ()) =
      firstError ((files.map (·.nameText)).flatMap invalid) := by
  induction files generalizing kept with
  | nil => rfl
  | cons f rest ih =>
    rw [sift, List.foldlM_cons, List.map_cons, List.flatMap_cons, invalid]
    cases named : Path.normalize f.nameText with
    | error e =>
      rw [receive, named]
      rfl
    | ok name =>
      rw [receive_lenient named]
      exact ih _

theorem checkSupport_eq (r : Response) : r.checkSupport = firstError r.supportViolations := by
  rw [checkSupport, supportViolations]
  by_cases known : r.supportedFeatures.getD 0 ≤ 3
  · obtain ⟨features, parsed⟩ := Features.exists_ofBits known
    have bits := Features.bits_of_ofBits parsed
    rw [parsed, if_pos known, ← bits]
    simp only [Features.bits_and_two]
    cases features.supportsEditions with
    | false => rfl
    | true =>
      simp only [Bool.true_eq_false, if_false, if_true, checkEditions, editionViolations]
      split_ifs <;> rfl
  · rw [Features.ofBits_of_lt (UInt64.not_le.1 known), if_neg known]
    rfl

theorem result_normalize_lenient (r : Response) :
    (r.normalize .lenient).result.map (fun _ => ()) = firstError r.violations := by
  have judged (merged : List GeneratedFile) :
      (do let files ← (sift .lenient [] merged).result
          r.checkSupport
          return { r with files } : Except Violation Response).map (fun _ => ()) = (do
        firstError ((merged.map (·.nameText)).flatMap invalid)
        firstError r.supportViolations) := by
    rw [← result_sift_lenient, ← checkSupport_eq]
    cases (sift .lenient [] merged).result <;> cases r.checkSupport <;> rfl
  have listed : firstError r.violations = (do
      let names ← (mergeContinuations r.files).map (List.map (·.nameText))
      firstError (names.flatMap invalid)
      firstError r.supportViolations) := by
    simp only [violations, firstError_append, mergeContinuations_names, bind_assoc, pure_bind]
  rw [listed, normalize_eq_sift]
  simp only [Judged.result_bind]
  cases mergeContinuations r.files with
  | error v => rfl
  | ok merged => exact judged merged

/-- Judged leniently, a response is accepted just when it can be repaired, and is refused for the first of
all that is wrong with it else. -/
theorem normalize_lenient_accepts_iff (r : Response) :
    ((∃ out, (r.normalize .lenient).result = .ok out) ↔ r.Repairable) ∧
      ∀ v, (r.normalize .lenient).result = .error v ↔ r.violations.head? = some v := by
  have result := result_normalize_lenient r
  rw [← violations_eq_nil_iff, ← firstError_eq_ok_iff]
  simp only [← firstError_eq_error_iff, ← result]
  cases (r.normalize .lenient).result <;> simp [Except.map]

end CompilerPlugin.Response

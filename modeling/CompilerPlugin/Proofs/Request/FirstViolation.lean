import CompilerPlugin.Proofs.Except
import CompilerPlugin.Request.Check

namespace CompilerPlugin

def Version.violations (v : Version) : List Request.Violation :=
  [(.major, v.major.getD 0), (.minor, v.minor.getD 0), (.patch, v.patch.getD 0)].filterMap
    fun (part, value) => if value < 0 then some (.negativeVersion part value) else none

namespace Request

def invalid (field : PathField) (path : String) : List Violation :=
  match Path.checkProto path with
  | .error e => [.invalidPath field e]
  | .ok () => []

def repeated (field : PathField) (before : List String) (path : String) : List Violation :=
  if path ∈ before then [.duplicatePath field path] else []

def pathViolations (field : PathField) (paths : List String) : List Violation :=
  inTurn (fun before path => invalid field path ++ repeated field before path) paths

def descriptorViolations (list : DescriptorList) (ds : List FileDescriptor) : List Violation :=
  inTurn (fun before d =>
    invalid (.name list) d.name ++ pathViolations (.dependency list) d.dependencies ++
      repeated (.descriptors list) (before.map FileDescriptor.name) d.name) ds

def missing (r : Request) (list : DescriptorList) (ds : List FileDescriptor) : List Violation :=
  (r.filesToGenerate.filter (· ∉ ds.map FileDescriptor.name)).map (.missingDescriptor list)

def unexpected (r : Request) (list : DescriptorList) (ds : List FileDescriptor) : List Violation :=
  ((ds.map FileDescriptor.name).filter (· ∉ r.filesToGenerate)).map (.unexpectedDescriptor list)

def sourceViolations (r : Request) : List Violation :=
  if r.sourceFiles.isEmpty then []
  else
    descriptorViolations .sourceFile r.sourceFiles ++ r.missing .sourceFile r.sourceFiles ++
      r.unexpected .sourceFile r.sourceFiles

def violations (r : Request) : List Violation :=
  (if r.protoFiles.isEmpty then [.empty (.descriptors .protoFile)] else []) ++
    (if r.filesToGenerate.isEmpty then [.empty .filesToGenerate] else []) ++
    pathViolations .filesToGenerate r.filesToGenerate ++
    descriptorViolations .protoFile r.protoFiles ++ r.missing .protoFile r.protoFiles ++
    r.sourceViolations ++
    (r.compilerVersion.map Version.violations).getD []

section

variable {field : PathField} {list : DescriptorList} {before before' : List String} {path : String}

theorem repeated_congr (same : ∀ p, p ∈ before ↔ p ∈ before') :
    repeated field before path = repeated field before' path := by
  simp only [repeated, same]

theorem checkUnique_cons (field : PathField) (seen : List String) (path : String)
    (rest : List String) :
    checkUnique field seen (path :: rest) = (do
      firstError (invalid field path ++ repeated field seen path)
      checkUnique field (path :: seen) rest) := by
  rw [checkUnique, invalid, repeated]
  cases Path.checkProto path with
  | error e => rfl
  | ok =>
    simp only [List.contains_iff_mem]
    split_ifs <;> rfl

theorem checkUnique_nil (field : PathField) (paths : List String) :
    checkUnique field [] paths = firstError (pathViolations field paths) := by
  rw [pathViolations,
    scan_eq_firstError id (fun seen path => invalid field path ++ repeated field seen path)
      (fun _ _ path same => by rw [repeated_congr same]) (fun _ => rfl) (checkUnique_cons field)]
  simp only [List.map_id, List.nil_append]

theorem checkDescriptors_cons (list : DescriptorList) (seen : List String) (d : FileDescriptor)
    (rest : List FileDescriptor) :
    checkDescriptors list seen (d :: rest) = (do
      firstError (invalid (.name list) d.name ++ pathViolations (.dependency list) d.dependencies ++
        repeated (.descriptors list) seen d.name)
      checkDescriptors list (d.name :: seen) rest) := by
  rw [checkDescriptors, invalid, repeated, firstError_append, firstError_append, ← checkUnique_nil]
  cases Path.checkProto d.name with
  | error e => rfl
  | ok =>
    cases checkUnique (.dependency list) [] d.dependencies with
    | error v => rfl
    | ok =>
      simp only [List.contains_iff_mem]
      split_ifs <;> rfl

theorem checkDescriptors_nil (list : DescriptorList) (ds : List FileDescriptor) :
    checkDescriptors list [] ds = firstError (descriptorViolations list ds) :=
  scan_eq_firstError FileDescriptor.name
    (fun seen d => invalid (.name list) d.name ++ pathViolations (.dependency list) d.dependencies ++
      repeated (.descriptors list) seen d.name)
    (fun _ _ _ same => by rw [repeated_congr same]) (fun _ => rfl) (checkDescriptors_cons list) [] ds

theorem checkCoverage_eq (r : Request) (list : DescriptorList) (ds : List FileDescriptor) :
    checkCoverage list (ds.map FileDescriptor.name) r.filesToGenerate =
      firstError (r.missing list ds) := by
  rw [missing, firstError_map_filter, checkCoverage]
  simp only [List.contains_eq_mem, decide_not]
  cases r.filesToGenerate.find? fun path => !decide (path ∈ ds.map FileDescriptor.name) <;> rfl

theorem checkExpected_eq (r : Request) (list : DescriptorList) (ds : List FileDescriptor) :
    checkExpected list (ds.map FileDescriptor.name) r.filesToGenerate =
      firstError (r.unexpected list ds) := by
  rw [unexpected, firstError_map_filter, checkExpected]
  simp only [List.contains_eq_mem, decide_not]
  cases (ds.map FileDescriptor.name).find? fun name => !decide (name ∈ r.filesToGenerate) <;> rfl

theorem checkVersion_eq (v : Version) : checkVersion v = firstError v.violations := by
  simp only [checkVersion, checkVersionPart, Version.violations, List.filterMap_cons]
  split_ifs <;> rfl

end

section

variable (r : Request)

theorem checkProtoFiles_eq :
    r.checkProtoFiles = (do
      firstError (descriptorViolations .protoFile r.protoFiles)
      firstError (r.missing .protoFile r.protoFiles)) := by
  rw [checkProtoFiles, checkDescriptors_nil, checkCoverage_eq]

theorem checkSourceFiles_eq : r.checkSourceFiles = firstError r.sourceViolations := by
  rw [checkSourceFiles, sourceViolations]
  split_ifs
  · rfl
  · simp only [checkDescriptors_nil, checkCoverage_eq, checkExpected_eq, firstError_append, bind_assoc]

theorem check_eq_firstError : r.check = firstError r.violations := by
  simp only [violations, firstError_append, bind_assoc, ← checkUnique_nil, ← checkSourceFiles_eq]
  unfold check
  simp only [checkProtoFiles_eq, bind_assoc]
  split_ifs
  · rfl
  · rfl
  · rfl
  · cases r.compilerVersion with
    | none => rfl
    | some v => simp [checkVersion_eq]; rfl

end

/-- A request is refused for the first of all that is wrong with it, and let pass if nothing is. -/
theorem check_eq_error_iff_head (r : Request) :
    (∀ v, r.check = .error v ↔ r.violations.head? = some v) ∧
      (r.check = .ok () ↔ r.violations = []) := by
  rw [check_eq_firstError]
  exact ⟨fun v => firstError_eq_error_iff, firstError_eq_ok_iff⟩

end Request

end CompilerPlugin

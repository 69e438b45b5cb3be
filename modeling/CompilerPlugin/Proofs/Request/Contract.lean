import CompilerPlugin.Proofs.Except
import CompilerPlugin.Proofs.Path.Canonical
import CompilerPlugin.Request.Check
import Mathlib.Data.List.Nodup

namespace CompilerPlugin

/-- No part of a version is negative, one that is absent being 0. -/
def Version.Counts (v : Version) : Prop :=
  0 ≤ v.major.getD 0 ∧ 0 ≤ v.minor.getD 0 ∧ 0 ≤ v.patch.getD 0

namespace Request

structure ProtoPaths (paths : List String) : Prop where
  canonical : ∀ path ∈ paths, Path.IsProto path
  distinct : paths.Nodup

structure Described (ds : List FileDescriptor) : Prop where
  names : ProtoPaths (ds.map FileDescriptor.name)
  dependencies : ∀ d ∈ ds, ProtoPaths d.dependencies

/-- Every file to generate is described; where copies with source-only options come at all, they come
for the files to generate and no others. -/
structure Contract (r : Request) : Prop where
  protoFiles_ne_nil : r.protoFiles ≠ []
  filesToGenerate_ne_nil : r.filesToGenerate ≠ []
  filesToGenerate : ProtoPaths r.filesToGenerate
  protoFiles : Described r.protoFiles
  covered : ∀ path ∈ r.filesToGenerate, ∃ d ∈ r.protoFiles, d.name = path
  sourceFiles : r.sourceFiles = [] ∨
    Described r.sourceFiles ∧ ∀ path, (∃ d ∈ r.sourceFiles, d.name = path) ↔ path ∈ r.filesToGenerate
  compilerVersion : ∀ v, r.compilerVersion = some v → v.Counts

theorem protoPaths_cons {path : String} {rest : List String} :
    ProtoPaths (path :: rest) ↔ Path.IsProto path ∧ path ∉ rest ∧ ProtoPaths rest := by
  constructor
  · rintro ⟨canonical, distinct⟩
    obtain ⟨fresh, distinct⟩ := List.nodup_cons.1 distinct
    exact ⟨canonical path List.mem_cons_self, fresh,
      fun p mem => canonical p (List.mem_cons_of_mem _ mem), distinct⟩
  · rintro ⟨first, fresh, canonical, distinct⟩
    exact ⟨List.forall_mem_cons.2 ⟨first, canonical⟩, List.nodup_cons.2 ⟨fresh, distinct⟩⟩

theorem described_cons {d : FileDescriptor} {rest : List FileDescriptor} :
    Described (d :: rest) ↔ Path.IsProto d.name ∧ ProtoPaths d.dependencies ∧
      d.name ∉ rest.map FileDescriptor.name ∧ Described rest := by
  constructor
  · rintro ⟨names, dependencies⟩
    obtain ⟨canonical, fresh, names⟩ := protoPaths_cons.1 names
    obtain ⟨first, dependencies⟩ := List.forall_mem_cons.1 dependencies
    exact ⟨canonical, first, fresh, names, dependencies⟩
  · rintro ⟨canonical, first, fresh, names, dependencies⟩
    exact ⟨protoPaths_cons.2 ⟨canonical, fresh, names⟩, List.forall_mem_cons.2 ⟨first, dependencies⟩⟩

theorem checkUnique_eq_ok_iff {field : PathField} {seen paths : List String} :
    checkUnique field seen paths = .ok () ↔ ProtoPaths paths ∧ seen.Disjoint paths := by
  induction paths generalizing seen with
  | nil => simpa [checkUnique] using ⟨by simp, .nil⟩
  | cons path rest ih =>
    rw [checkUnique, protoPaths_cons, ← Path.checkProto_eq_ok_iff, List.disjoint_cons_right]
    cases Path.checkProto path with
    | error e => simp
    | ok =>
      by_cases again : path ∈ seen
      · simp [again]
      · simp only [List.contains_iff_mem, again, if_false, ih, List.disjoint_cons_left, not_false_eq_true,
          true_and]
        tauto

theorem checkDescriptors_eq_ok_iff {list : DescriptorList} {seen : List String}
    {ds : List FileDescriptor} :
    checkDescriptors list seen ds = .ok () ↔
      Described ds ∧ seen.Disjoint (ds.map FileDescriptor.name) := by
  induction ds generalizing seen with
  | nil => simpa [checkDescriptors] using ⟨⟨by simp, .nil⟩, by simp⟩
  | cons d rest ih =>
    have unique : ProtoPaths d.dependencies ↔ checkUnique (.dependency list) [] d.dependencies = .ok () := by
      simp [checkUnique_eq_ok_iff]
    rw [checkDescriptors, described_cons, ← Path.checkProto_eq_ok_iff, unique, List.map_cons,
      List.disjoint_cons_right]
    cases Path.checkProto d.name with
    | error e => simp
    | ok =>
      cases checkUnique (.dependency list) [] d.dependencies with
      | error v => simp
      | ok =>
        by_cases again : d.name ∈ seen
        · simp [again]
        · simp only [List.contains_iff_mem, again, if_false, ih, List.disjoint_cons_left,
            not_false_eq_true, true_and]
          tauto

theorem checkCoverage_eq_ok_iff {list : DescriptorList} {names filesToGenerate : List String} :
    checkCoverage list names filesToGenerate = .ok () ↔ ∀ path ∈ filesToGenerate, path ∈ names := by
  rw [checkCoverage]
  split
  · rename_i path found
    have mem := List.mem_of_find?_eq_some found
    have missing := List.find?_some found
    simp only [reduceCtorEq, false_iff, not_forall]
    exact ⟨path, mem, by simpa using missing⟩
  · rename_i all
    simpa using all

theorem checkExpected_eq_ok_iff {list : DescriptorList} {names filesToGenerate : List String} :
    checkExpected list names filesToGenerate = .ok () ↔ ∀ name ∈ names, name ∈ filesToGenerate := by
  rw [checkExpected]
  split
  · rename_i name found
    have mem := List.mem_of_find?_eq_some found
    have extra := List.find?_some found
    simp only [reduceCtorEq, false_iff, not_forall]
    exact ⟨name, mem, by simpa using extra⟩
  · rename_i all
    simpa using all

theorem checkVersionPart_eq_ok_iff {part : VersionPart} {value : Option Int32} :
    checkVersionPart part value = .ok () ↔ 0 ≤ value.getD 0 := by
  rw [checkVersionPart]
  split
  · rename_i negative
    simpa using negative
  · rename_i negative
    simpa using negative

theorem checkVersion_eq_ok_iff {v : Version} : checkVersion v = .ok () ↔ v.Counts := by
  simp only [checkVersion, check_bind_eq_ok, checkVersionPart_eq_ok_iff, Version.Counts]

theorem checkProtoFiles_eq_ok_iff {r : Request} :
    r.checkProtoFiles = .ok () ↔
      Described r.protoFiles ∧ ∀ path ∈ r.filesToGenerate, ∃ d ∈ r.protoFiles, d.name = path := by
  simp [checkProtoFiles, check_bind_eq_ok, checkDescriptors_eq_ok_iff, checkCoverage_eq_ok_iff]

theorem checkSourceFiles_eq_ok_iff {r : Request} :
    r.checkSourceFiles = .ok () ↔
      r.sourceFiles = [] ∨ Described r.sourceFiles ∧
        ∀ path, (∃ d ∈ r.sourceFiles, d.name = path) ↔ path ∈ r.filesToGenerate := by
  rw [checkSourceFiles]
  cases sources : r.sourceFiles with
  | nil => simp
  | cons d rest =>
    simp only [List.isEmpty_cons, Bool.false_eq_true, if_false, check_bind_eq_ok,
      checkDescriptors_eq_ok_iff, checkCoverage_eq_ok_iff, checkExpected_eq_ok_iff,
      List.disjoint_nil_left, and_true, List.mem_map, reduceCtorEq, false_or]
    apply and_congr_right
    intro _
    exact ⟨fun h path => ⟨h.2 path, h.1 path⟩, fun h => ⟨fun path => (h path).2, fun path => (h path).1⟩⟩

theorem check_eq_ok_iff_checks {r : Request} :
    r.check = .ok () ↔
      r.protoFiles ≠ [] ∧ r.filesToGenerate ≠ [] ∧
        checkUnique .filesToGenerate [] r.filesToGenerate = .ok () ∧ r.checkProtoFiles = .ok () ∧
        r.checkSourceFiles = .ok () ∧ ∀ v, r.compilerVersion = some v → checkVersion v = .ok () := by
  unfold check
  by_cases files : r.protoFiles = []
  · simp [files, throw, throwThe, MonadExceptOf.throw, bind, Except.bind]
  by_cases targets : r.filesToGenerate = []
  · simp [files, targets, throw, throwThe, MonadExceptOf.throw, bind, Except.bind]
  simp only [List.isEmpty_iff, files, targets, if_false, check_bind_eq_ok]
  cases r.compilerVersion with
  | none => simp [files, targets, pure, Except.pure]
  | some v => simp [files, targets]

/-- A request is let pass exactly when it keeps the contract. -/
theorem check_eq_ok_iff (r : Request) : r.check = .ok () ↔ r.Contract := by
  rw [check_eq_ok_iff_checks, checkUnique_eq_ok_iff, checkProtoFiles_eq_ok_iff,
    checkSourceFiles_eq_ok_iff]
  simp only [checkVersion_eq_ok_iff]
  constructor
  · rintro ⟨files, targets, ⟨unique, -⟩, ⟨described, covered⟩, sources, version⟩
    exact ⟨files, targets, unique, described, covered, sources, version⟩
  · rintro ⟨files, targets, unique, described, covered, sources, version⟩
    exact ⟨files, targets, ⟨unique, by simp⟩, ⟨described, covered⟩, sources, version⟩

end Request

end CompilerPlugin

import CompilerPlugin.Proofs.Request.Contract
import CompilerPlugin.Proofs.Request.Trees

namespace CompilerPlugin.Request.Accepted

variable {ds : List FileDescriptor} {path : String} {a : Accepted} {withSource : Bool}

theorem contract (a : Accepted) : a.request.Contract := by
  obtain ⟨files, targets, unique, described, sources, version⟩ := check_eq_ok_iff_checks.1 a.check_eq
  obtain ⟨protoFiles, covered⟩ := checkProtoFiles_eq_ok_iff.1 described
  exact ⟨files, targets, (checkUnique_eq_ok_iff.1 unique).1, protoFiles, covered,
    checkSourceFiles_eq_ok_iff.1 sources, fun v hv => checkVersion_eq_ok_iff.1 (version v hv)⟩

theorem exists_of_position? {i : Nat} (h : position? ds path = some i) :
    ∃ d, ds[i]? = some d ∧ d.name = path := by
  obtain ⟨⟨d, j⟩, last, rfl⟩ := Option.map_eq_some_iff.1 h
  obtain ⟨inRow, named⟩ := List.mem_filter.1 (List.mem_of_getLast? last)
  exact ⟨d, List.mem_zipIdx_iff_getElem?.1 inRow, by simpa using named⟩

theorem position?_eq_none_iff : position? ds path = none ↔ ∀ d ∈ ds, d.name ≠ path := by
  rw [position?, Option.map_eq_none_iff, List.getLast?_eq_none_iff, List.filter_eq_nil_iff]
  constructor
  · intro none d mem named
    obtain ⟨i, at_⟩ := List.mem_iff_getElem?.1 mem
    exact none (d, i) (List.mem_zipIdx_iff_getElem?.2 at_) (by simpa using named)
  · rintro none ⟨d, i⟩ inRow named
    exact none d (List.mem_of_getElem? (List.mem_zipIdx_iff_getElem?.1 inRow)) (by simpa using named)

theorem find?_of_position? {i : Nat} {d : FileDescriptor} (found : position? ds path = some i)
    (at_ : ds[i]? = some d) : find? ds ds path = some d := by
  rw [find?, found, Option.map_some, getElem!_def, at_]

theorem find?_eq_some_iff (distinct : (ds.map FileDescriptor.name).Nodup) {d : FileDescriptor} :
    find? ds ds path = some d ↔ d ∈ ds ∧ d.name = path := by
  cases found : position? ds path with
  | none =>
    have absent := position?_eq_none_iff.1 found
    simp only [find?, found, Option.map_none, reduceCtorEq, false_iff, not_and]
    exact fun mem => absent d mem
  | some i =>
    obtain ⟨d', at_, named⟩ := exists_of_position? found
    rw [find?_of_position? found at_, Option.some.injEq]
    constructor
    · rintro rfl
      exact ⟨List.mem_of_getElem? at_, named⟩
    · rintro ⟨mem, rfl⟩
      exact List.inj_on_of_nodup_map distinct (List.mem_of_getElem? at_) mem named

theorem map_find?_eq (distinct : (ds.map FileDescriptor.name).Nodup) {paths : List String}
    (covered : ∀ path ∈ paths, ∃ d ∈ ds, d.name = path) :
    (paths.filterMap (find? ds ds)).map FileDescriptor.name = paths ∧
      paths.map (find? ds ds) = (paths.filterMap (find? ds ds)).map some := by
  induction paths with
  | nil => exact ⟨rfl, rfl⟩
  | cons path rest ih =>
    obtain ⟨⟨d, mem, named⟩, others⟩ := List.forall_mem_cons.1 covered
    obtain ⟨names, values⟩ := ih others
    have found : find? ds ds path = some d := (find?_eq_some_iff distinct).2 ⟨mem, named⟩
    rw [List.filterMap_cons_some found, List.map_cons, List.map_cons, List.map_cons, names, values, found,
      named]
    exact ⟨rfl, rfl⟩

theorem descriptors_false (a : Accepted) : a.descriptors false = .ok a.request.protoFiles := rfl

theorem descriptors_true (sent : a.request.sourceFiles ≠ []) :
    a.descriptors true = .ok a.request.sourceFiles := by
  simp [descriptors, sent]

theorem descriptors_true_of_nil (missing : a.request.sourceFiles = []) :
    a.descriptors true = .error .missingSourceRetentionData := by
  simp [descriptors, missing]

theorem names_of_descriptors (h : a.descriptors withSource = .ok ds) :
    (ds.map FileDescriptor.name).Nodup ∧ ∀ path ∈ a.filesToGenerate, ∃ d ∈ ds, d.name = path := by
  have good := a.contract
  cases withSource with
  | false =>
    cases h
    exact ⟨good.protoFiles.names.distinct, good.covered⟩
  | true =>
    rcases good.sourceFiles with missing | ⟨described, same⟩
    · simp [descriptors_true_of_nil missing] at h
    · have sent : a.request.sourceFiles ≠ [] := fun missing => by
        simp [descriptors_true_of_nil missing] at h
      cases (descriptors_true sent).symm.trans h
      exact ⟨described.names.distinct, fun path target => (same path).2 target⟩

theorem toGenerate_eq_error_iff {e : Error} :
    a.toGenerate withSource = .error e ↔
      e = .missingSourceRetentionData ∧ withSource = true ∧ a.request.sourceFiles = [] := by
  rw [← descriptors_eq_error_iff, toGenerate]
  cases a.descriptors withSource with
  | error e' => simp [bind, Except.bind]
  | ok ds => simp [bind, Except.bind, pure, Except.pure]

theorem all_eq_error_iff {e : Error} :
    a.all withSource = .error e ↔
      e = .missingSourceRetentionData ∧ withSource = true ∧ a.request.sourceFiles = [] := by
  rw [← descriptors_eq_error_iff, all]
  cases withSource with
  | false => simp [descriptors_false]
  | true =>
    cases a.descriptors true with
    | error e' => simp [bind, Except.bind]
    | ok ds => simp [bind, Except.bind, pure, Except.pure]

/-- What stands for a descriptor among all of them: its copy where copies are asked for and its file is
to be generated, else itself. -/
structure Stands (a : Accepted) (withSource : Bool) (d d' : FileDescriptor) : Prop where
  name : d'.name = d.name
  copy : withSource = true → d.name ∈ a.filesToGenerate → d' ∈ a.request.sourceFiles
  own : ¬ (withSource = true ∧ d.name ∈ a.filesToGenerate) → d' = d

theorem stands_find? (sent : a.request.sourceFiles ≠ []) (d : FileDescriptor) :
    a.Stands true d ((find? a.request.sourceFiles a.request.sourceFiles d.name).getD d) := by
  obtain ⟨distinct, -⟩ := names_of_descriptors (descriptors_true sent)
  have same := (a.contract.sourceFiles.resolve_left sent).2
  cases found : find? a.request.sourceFiles a.request.sourceFiles d.name with
  | none =>
    have other : d.name ∉ a.filesToGenerate := fun target => by
      obtain ⟨d', mem, named⟩ := (same d.name).2 target
      simpa [found] using (find?_eq_some_iff distinct).2 ⟨mem, named⟩
    exact ⟨rfl, fun _ target => absurd target other, fun _ => rfl⟩
  | some d' =>
    obtain ⟨mem, named⟩ := (find?_eq_some_iff distinct).1 found
    have target : d.name ∈ a.filesToGenerate := (same d.name).1 ⟨d', mem, named⟩
    exact ⟨named, fun _ _ => mem, fun other => absurd ⟨rfl, target⟩ other⟩

theorem exists_all (had : ¬ (withSource = true ∧ a.request.sourceFiles = [])) :
    ∃ stand : FileDescriptor → FileDescriptor,
      a.all withSource = .ok (a.request.protoFiles.map stand) ∧ ∀ d, a.Stands withSource d (stand d) := by
  cases withSource with
  | false =>
    refine ⟨id, by rw [List.map_id]; rfl, fun d => ?_⟩
    exact ⟨rfl, fun asked => Bool.noConfusion asked, fun _ => rfl⟩
  | true =>
    have sent : a.request.sourceFiles ≠ [] := fun missing => had ⟨rfl, missing⟩
    refine ⟨fun d => (find? a.request.sourceFiles a.request.sourceFiles d.name).getD d, ?_,
      stands_find? sent⟩
    simp only [all, Bool.not_true, Bool.false_eq_true, if_false, descriptors_true sent]
    rfl

theorem hasCopy_eq_true_iff :
    a.hasCopy path withSource = true ↔ withSource = true ∧ path ∈ a.filesToGenerate := by
  simp [hasCopy, isFileToGenerate]

theorem descriptors_hasCopy (had : ¬ (withSource = true ∧ a.request.sourceFiles = [])) (path : String) :
    a.descriptors (a.hasCopy path withSource) =
      .ok (if a.hasCopy path withSource then a.request.sourceFiles else a.request.protoFiles) := by
  cases copy : a.hasCopy path withSource with
  | false => rfl
  | true =>
    have asked := (hasCopy_eq_true_iff.1 copy).1
    exact descriptors_true fun missing => had ⟨asked, missing⟩

theorem exists_descriptor? (had : a.descriptors (a.hasCopy path withSource) = .ok ds) :
    ∃ found, a.descriptor? path withSource = .ok found ∧
      ∀ d, found = some d ↔ d ∈ ds ∧ d.name = path := by
  refine ⟨find? ds ds path, ?_, fun d => find?_eq_some_iff (names_of_descriptors had).1⟩
  rw [descriptor?, had]
  rfl

theorem mem_map_stand_iff {stand : FileDescriptor → FileDescriptor}
    (had : ¬ (withSource = true ∧ a.request.sourceFiles = []))
    (stands : ∀ d, a.Stands withSource d (stand d)) {d : FileDescriptor} :
    d ∈ a.request.protoFiles.map stand ∧ d.name = path ↔
      d ∈ (if a.hasCopy path withSource then a.request.sourceFiles else a.request.protoFiles) ∧
        d.name = path := by
  have good := a.contract
  cases copy : a.hasCopy path withSource with
  | true =>
    obtain ⟨asked, target⟩ := hasCopy_eq_true_iff.1 copy
    have sent : a.request.sourceFiles ≠ [] := fun missing => had ⟨asked, missing⟩
    obtain ⟨distinct, -⟩ := names_of_descriptors (descriptors_true sent)
    have inCopies {p : FileDescriptor} (named : p.name = path) : stand p ∈ a.request.sourceFiles :=
      (stands p).copy asked (named ▸ target)
    rw [if_pos rfl]
    constructor
    · rintro ⟨mem, rfl⟩
      obtain ⟨p, -, rfl⟩ := List.mem_map.1 mem
      exact ⟨inCopies (stands p).name.symm, rfl⟩
    · rintro ⟨mem, named⟩
      obtain ⟨p, inFiles, namedToo⟩ := good.covered path target
      have same : stand p = d := by
        refine List.inj_on_of_nodup_map distinct (inCopies namedToo) mem ?_
        rw [(stands p).name, namedToo, named]
      exact ⟨List.mem_map.2 ⟨p, inFiles, same⟩, named⟩
  | false =>
    have plain {p : FileDescriptor} (named : p.name = path) : stand p = p := by
      refine (stands p).own fun both => ?_
      have := hasCopy_eq_true_iff.2 ⟨both.1, named ▸ both.2⟩
      simp [copy] at this
    rw [if_neg Bool.false_ne_true]
    constructor
    · rintro ⟨mem, rfl⟩
      obtain ⟨p, inFiles, rfl⟩ := List.mem_map.1 mem
      rw [plain (stands p).name.symm]
      exact ⟨inFiles, rfl⟩
    · rintro ⟨mem, named⟩
      exact ⟨List.mem_map.2 ⟨d, mem, plain named⟩, named⟩

theorem exists_toGenerate (had : ¬ (withSource = true ∧ a.request.sourceFiles = [])) :
    ∃ targets, a.toGenerate withSource = .ok targets ∧
      targets.map FileDescriptor.name = a.filesToGenerate ∧
      a.filesToGenerate.mapM (a.descriptor? · withSource) = .ok (targets.map some) := by
  -- For a file to generate the lookup by name reads the list that was asked for.
  have list : a.descriptors withSource =
      .ok (if withSource then a.request.sourceFiles else a.request.protoFiles) := by
    cases withSource with
    | false => rfl
    | true => exact descriptors_true fun missing => had ⟨rfl, missing⟩
  generalize (if withSource then a.request.sourceFiles else a.request.protoFiles) = ds at list
  obtain ⟨distinct, covered⟩ := names_of_descriptors list
  obtain ⟨names, values⟩ := map_find?_eq distinct covered
  refine ⟨a.filesToGenerate.filterMap (find? ds ds), ?_, names, values ▸ mapM_eq_ok fun path target => ?_⟩
  · rw [toGenerate, list]
    rfl
  · have copy : a.hasCopy path withSource = withSource := by simp [hasCopy, isFileToGenerate, target]
    rw [descriptor?, copy, list]
    rfl

/-- The ways to ask for descriptors agree. Both lists can be had unless copies are asked for that did not
come. Then they are of the files to generate and of all files, in that order and under these names; among
all, the copies stand where they are asked for and the file is to be generated; and a name leads to the
one descriptor of all that has it. Without copies those of files to generate cannot be had by name, and
all others can. -/
theorem lookups_agree (a : Accepted) (withSource : Bool) :
    (∀ e, a.toGenerate withSource = .error e ↔
      e = .missingSourceRetentionData ∧ withSource = true ∧ a.request.sourceFiles = []) ∧
    (∀ e, a.all withSource = .error e ↔
      e = .missingSourceRetentionData ∧ withSource = true ∧ a.request.sourceFiles = []) ∧
    (¬ (withSource = true ∧ a.request.sourceFiles = []) →
      ∃ targets stand, a.toGenerate withSource = .ok targets ∧
        a.all withSource = .ok (a.request.protoFiles.map stand) ∧
        targets.map FileDescriptor.name = a.filesToGenerate ∧
        (∀ d, a.Stands withSource d (stand d)) ∧
        ((a.request.protoFiles.map stand).map FileDescriptor.name).Nodup ∧
        (∀ path, ∃ found, a.descriptor? path withSource = .ok found ∧
          ∀ d, found = some d ↔ d ∈ a.request.protoFiles.map stand ∧ d.name = path) ∧
        a.filesToGenerate.mapM (a.descriptor? · withSource) = .ok (targets.map some)) ∧
    (withSource = true → a.request.sourceFiles = [] → ∀ path,
      (path ∈ a.filesToGenerate → a.descriptor? path withSource = .error .missingSourceRetentionData) ∧
      (path ∉ a.filesToGenerate → ∃ found, a.descriptor? path withSource = .ok found ∧
        ∀ d, found = some d ↔ d ∈ a.request.protoFiles ∧ d.name = path)) := by
  refine ⟨fun e => toGenerate_eq_error_iff, fun e => all_eq_error_iff, fun had => ?_, ?_⟩
  · obtain ⟨targets, listed, names, each⟩ := exists_toGenerate had
    obtain ⟨stand, whole, stands⟩ := exists_all had
    refine ⟨targets, stand, listed, whole, names, stands, ?_, fun path => ?_, each⟩
    · have same : (a.request.protoFiles.map stand).map FileDescriptor.name =
          a.request.protoFiles.map FileDescriptor.name := by
        rw [List.map_map]
        exact List.map_congr_left fun d _ => (stands d).name
      exact same ▸ a.contract.protoFiles.names.distinct
    · obtain ⟨found, found_eq, iff⟩ := exists_descriptor? (descriptors_hasCopy had path)
      exact ⟨found, found_eq, fun d => (iff d).trans (mem_map_stand_iff had stands).symm⟩
  · intro asked missing path
    constructor
    · intro target
      exact descriptor?_eq_error_iff.2 ⟨rfl, hasCopy_eq_true_iff.2 ⟨asked, target⟩, missing⟩
    · intro other
      have copy : a.hasCopy path withSource = false := by simp [hasCopy, isFileToGenerate, other]
      exact exists_descriptor? (copy ▸ a.descriptors_false)

def copied : Accepted where
  request :=
    { filesToGenerate := ["a.proto"]
      protoFiles := [[(1, .text "b.proto")], [(1, .text "a.proto")]]
      sourceFiles := [[(1, .text "a.proto"), (8, .message [])]] }
  encoded := ⟨[], []⟩
  check_eq := by rfl

theorem lookups_agree_copied :
    ∃ targets stand, copied.toGenerate true = .ok targets ∧
      copied.all true = .ok (copied.request.protoFiles.map stand) ∧
      targets.map FileDescriptor.name = ["a.proto"] ∧
      stand [(1, .text "b.proto")] = [(1, .text "b.proto")] ∧
      stand [(1, .text "a.proto")] = [(1, .text "a.proto"), (8, .message [])] := by
  have sent : ¬ (true = true ∧ copied.request.sourceFiles = []) := fun none => by cases none.2
  obtain ⟨targets, stand, listed, whole, names, stands, -⟩ := (lookups_agree copied true).2.2.1 sent
  refine ⟨targets, stand, listed, whole, names, (stands _).own ?_, ?_⟩
  · decide
  · exact List.mem_singleton.1 ((stands [(1, .text "a.proto")]).copy rfl (by decide))

end CompilerPlugin.Request.Accepted

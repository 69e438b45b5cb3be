import CompilerPlugin.Proofs.Response.Sift

namespace CompilerPlugin

namespace GeneratedFile

def isPlainOf (name : String) (f : GeneratedFile) : Bool :=
  !f.isInsertion && f.nameText = name

/-- The records as far as each has a canonical name, under these names. -/
def canonical : List GeneratedFile → List GeneratedFile
  | [] => []
  | f :: rest =>
    match Path.normalize f.nameText with
    | .error _ => []
    | .ok name => f.withName name :: canonical rest

theorem canonical_cons_error {f : GeneratedFile} {e : PathError}
    (named : Path.normalize f.nameText = .error e) (rest : List GeneratedFile) :
    canonical (f :: rest) = [] := by
  rw [canonical, named]

theorem canonical_cons_ok {f : GeneratedFile} {name : String}
    (named : Path.normalize f.nameText = .ok name) (rest : List GeneratedFile) :
    canonical (f :: rest) = f.withName name :: canonical rest := by
  rw [canonical, named]

end GeneratedFile

namespace Response

open GeneratedFile

/-- What stays of `given`, records under their canonical names, when `earlier` are kept already: every
insertion, and of the plain files of a name the first record of that name if it is one. -/
structure Stays (earlier given stay : List GeneratedFile) : Prop where
  order : stay.Sublist given
  insertions : stay.filter (·.isInsertion) = given.filter (·.isInsertion)
  plain : ∀ name, stay.filter (·.isPlainOf name) =
    if ∃ g ∈ earlier, g.nameText = name then []
    else ((given.find? (·.nameText = name)).filter (!·.isInsertion)).toList

theorem stays_nil (earlier : List GeneratedFile) : Stays earlier [] [] :=
  ⟨.slnil, rfl, fun _ => by simp⟩

theorem Stays.leaveOut {earlier given stay : List GeneratedFile} {f : GeneratedFile}
    (h : Stays earlier given stay) (again : Repeats earlier f f.nameText) :
    Stays earlier (f :: given) stay := by
  obtain ⟨plain, g, mem, same⟩ := again
  refine ⟨h.order.cons f, by simp [h.insertions, plain], fun name => ?_⟩
  rw [h.plain]
  by_cases its : f.nameText = name
  · have taken : ∃ g ∈ earlier, g.nameText = name := ⟨g, mem, same.trans its⟩
    simp only [taken, if_true]
  · simp only [List.find?_cons, its, decide_false]

theorem Stays.takeIn {earlier given stay : List GeneratedFile} {f : GeneratedFile}
    (h : Stays (earlier ++ [f]) given stay) (first : ¬ Repeats earlier f f.nameText) :
    Stays earlier (f :: given) (f :: stay) := by
  refine ⟨h.order.cons_cons f, by simp [List.filter_cons, h.insertions], fun name => ?_⟩
  rw [List.filter_cons, h.plain]
  by_cases its : f.nameText = name
  · subst its
    by_cases taken : ∃ g ∈ earlier, g.nameText = f.nameText
    · have insertion : f.isInsertion = true := by
        by_contra plain
        exact first ⟨by simpa using plain, taken⟩
      simp [isPlainOf, insertion, taken]
    · cases insertion : f.isInsertion <;> simp [isPlainOf, insertion, taken, Option.filter]
  · simp [isPlainOf, its]

theorem Stays.step {earlier given stay : List GeneratedFile} {f : GeneratedFile}
    (h : Stays (keep earlier f) given stay) :
    ∃ more, keep earlier f ++ stay = earlier ++ more ∧ Stays earlier (f :: given) more := by
  by_cases again : Repeats earlier f f.nameText
  · rw [keep, if_pos again] at h ⊢
    exact ⟨stay, rfl, h.leaveOut again⟩
  · rw [keep, if_neg again] at h ⊢
    exact ⟨f :: stay, by simp, h.takeIn again⟩

theorem Stays.mem_iff {earlier given stay : List GeneratedFile} (h : Stays earlier given stay)
    {f : GeneratedFile} (first : given.find? (·.isPlainOf f.nameText) = some f) :
    f ∈ stay ↔ (∀ g ∈ earlier, g.nameText ≠ f.nameText) ∧
      given.find? (·.nameText = f.nameText) = some f := by
  have its : f.isPlainOf f.nameText = true := by simpa using List.find?_some first
  have plain : f.isInsertion = false := by simpa [isPlainOf] using its
  have among : f ∈ stay ↔ f ∈ stay.filter (·.isPlainOf f.nameText) := by simp [its]
  rw [among, h.plain]
  split
  · rename_i taken
    obtain ⟨g, mem, same⟩ := taken
    simp only [List.not_mem_nil, false_iff, not_and]
    exact fun free => absurd same (free g mem)
  · rename_i free
    have free : ∀ g ∈ earlier, g.nameText ≠ f.nameText := fun g mem same => free ⟨g, mem, same⟩
    rw [and_iff_right free, Option.mem_toList, Option.filter_eq_some_iff]
    simp [plain]

section

variable {mode : Mode} {kept out : List GeneratedFile} {f : GeneratedFile} {name : String}

theorem raises_receive :
    (receive mode kept f).Raises (.duplicateName name) ↔
      Path.normalize f.nameText = .ok name ∧ (mode = .strict → f.nameText = name) ∧
        Repeats kept f name := by
  rw [receive]
  cases named : Path.normalize f.nameText with
  | error e => simp [Judged.Raises, Judged.refuse]
  | ok other =>
    simp only [Judged.raises_bind, Judged.raises_reportIf, Judged.result_reportIf_eq_ok,
      Judged.not_raises_accept, pure, reduceCtorEq, Issue.duplicateName.injEq, Except.ok.injEq,
      not_not, exists_const, and_false, false_or, or_false]
    constructor
    · rintro ⟨unchanged, again, rfl⟩
      exact ⟨rfl, fun strict => (unchanged strict).symm, again⟩
    · rintro ⟨rfl, unchanged, again⟩
      exact ⟨fun strict => (unchanged strict).symm, again, rfl⟩

theorem raises_sift {files : List GeneratedFile} :
    (sift mode kept files).Raises (.duplicateName name) ↔
      ∃ before f after now, files = before ++ f :: after ∧
        (sift mode kept before).result = .ok now ∧ Path.normalize f.nameText = .ok name ∧
          (mode = .strict → f.nameText = name) ∧ Repeats now f name := by
  rw [sift, Judged.raises_foldlM]
  simp only [raises_receive]
  constructor
  · rintro ⟨now, f, ⟨before, after, split, made⟩, found⟩
    exact ⟨before, f, after, now, split, made, found⟩
  · rintro ⟨before, f, after, now, split, made, found⟩
    exact ⟨now, f, ⟨before, after, split, made⟩, found⟩

theorem stays_sift {files : List GeneratedFile} (made : (sift mode kept files).result = .ok out) :
    (canonical files).length = files.length ∧
      ∃ stay, out = kept ++ stay ∧ Stays kept (canonical files) stay := by
  induction files generalizing kept with
  | nil =>
    cases made
    exact ⟨rfl, [], (List.append_nil _).symm, stays_nil _⟩
  | cons f rest ih =>
    rw [sift, List.foldlM_cons] at made
    obtain ⟨next, first, made⟩ := Judged.result_bind_eq_ok.1 made
    obtain ⟨name, named, rfl⟩ := result_receive first
    obtain ⟨all, stay, rfl, stays⟩ := ih made
    rw [canonical_cons_ok named, List.length_cons, List.length_cons, all]
    exact ⟨rfl, stays.step⟩

end

namespace Writer

variable {w : Writer}

theorem mem_warnings_addRecords {files : List GeneratedFile} {name : String} :
    .duplicateName name ∈ (w.addRecords files).warnings ↔
      ∃ before f after, files = before ++ f :: after ∧ (w.addRecords before).answer = .ok () ∧
        Path.normalize f.nameText = .ok name ∧
          Repeats (w.addRecords before).writer.files f name := by
  have judged : (sift .lenient w.files files).Raises (.duplicateName name) ↔ _ := raises_sift
  rw [Judged.Raises, or_iff_left (sift_lenient_ne_issue w.files files _),
    ← (addRecords_eq_sift w files).1] at judged
  rw [judged]
  simp only [← (addRecords_eq_sift w _).2, reduceCtorEq, false_implies, true_and]
  constructor
  · rintro ⟨before, f, after, _, split, ⟨answer, rfl⟩, named, again⟩
    exact ⟨before, f, after, split, answer, named, again⟩
  · rintro ⟨before, f, after, split, answer, named, again⟩
    exact ⟨before, f, after, _, split, ⟨answer, rfl⟩, named, again⟩

theorem stays_addRecords (w : Writer) (files : List GeneratedFile) :
    ((w.addRecords files).answer = .ok () ↔ (canonical files).length = files.length) ∧
      ∃ stay, (w.addRecords files).writer.files = w.files ++ stay ∧
        Stays w.files (canonical files) stay := by
  induction files generalizing w with
  | nil => exact ⟨by simp [addRecords, Outcome.done, canonical], [],
      (List.append_nil _).symm, stays_nil _⟩
  | cons f rest ih =>
    cases named : Path.normalize f.nameText with
    | error e =>
      rw [addRecords_cons_error named, canonical_cons_error named]
      exact ⟨by simp [Outcome.refused], [], (List.append_nil _).symm, stays_nil _⟩
    | ok name =>
      obtain ⟨answer, stay, files, stays⟩ := ih (w.holding (keep w.files (f.withName name)))
      rw [addRecords_cons_ok named, canonical_cons_ok named]
      refine ⟨by simpa [Outcome.warned] using answer, ?_⟩
      simp only [Outcome.warned, files]
      exact stays.step

end Writer

section

variable {mode : Mode} {r out : Response} {name : String}

theorem raises_normalize_duplicateName :
    (r.normalize mode).Raises (.duplicateName name) ↔
      ∃ files before f after kept, mergeContinuations r.files = .ok files ∧
        files = before ++ f :: after ∧ (reconcile mode [] before).result = .ok kept ∧
          Path.normalize f.nameText = .ok name ∧ (mode = .strict → f.nameText = name) ∧
            Repeats kept f name := by
  simp only [raises_normalize, reconcile_eq_sift, raises_sift]
  constructor
  · rintro ⟨files, whole, before, f, after, kept, rest⟩
    exact ⟨files, before, f, after, kept, whole, rest⟩
  · rintro ⟨files, before, f, after, kept, whole, rest⟩
    exact ⟨files, whole, before, f, after, kept, rest⟩

theorem stays_normalize (made : (r.normalize mode).result = .ok out) :
    ∃ files, mergeContinuations r.files = .ok files ∧ (canonical files).length = files.length ∧
      Stays [] (canonical files) out.files := by
  obtain ⟨files, whole, sifted⟩ := result_normalize made
  rw [reconcile_eq_sift] at sifted
  obtain ⟨all, stay, same, stays⟩ := stays_sift sifted
  rw [List.nil_append] at same
  exact ⟨files, whole, all, same ▸ stays⟩

end

/-- A record is a duplicate exactly when it is a plain file and one that was kept before it has its
name, an insertion or not. So insertions always stay, but the first plain file of a name does only if
it is the first record of that name. The same goes for a response that is judged, in either mode, and
for a batch of files given to a writer. -/
theorem duplicateName_iff_repeats (mode : Mode) (r : Response) (w : Writer)
    (opened : w.finalized = false) (given : List GeneratedFile) :
    ((∀ name, (r.normalize mode).Raises (.duplicateName name) ↔
        ∃ files before f after kept, mergeContinuations r.files = .ok files ∧
          files = before ++ f :: after ∧ (reconcile mode [] before).result = .ok kept ∧
            Path.normalize f.nameText = .ok name ∧ (mode = .strict → f.nameText = name) ∧
              Repeats kept f name) ∧
      ∀ out, (r.normalize mode).result = .ok out →
        ∃ files, mergeContinuations r.files = .ok files ∧
          (canonical files).length = files.length ∧ Stays [] (canonical files) out.files ∧
            ∀ f, (canonical files).find? (·.isPlainOf f.nameText) = some f →
              (f ∈ out.files ↔ (canonical files).find? (·.nameText = f.nameText) = some f)) ∧
    (∀ name, .duplicateName name ∈ (w.addFiles given).warnings ↔
      ∃ before f after, given = before ++ f :: after ∧ (w.addFiles before).answer = .ok () ∧
        Path.normalize f.nameText = .ok name ∧ Repeats (w.addFiles before).writer.files f name) ∧
    ((w.addFiles given).answer = .ok () ↔ (canonical given).length = given.length) ∧
    ∃ stay, (w.addFiles given).writer.files = w.files ++ stay ∧
      Stays w.files (canonical given) stay ∧
        ∀ f, (canonical given).find? (·.isPlainOf f.nameText) = some f →
          (f ∈ stay ↔ (∀ g ∈ w.files, g.nameText ≠ f.nameText) ∧
            (canonical given).find? (·.nameText = f.nameText) = some f) := by
  refine ⟨⟨fun name => raises_normalize_duplicateName, fun out made => ?_⟩, ?_⟩
  · obtain ⟨files, whole, all, stays⟩ := stays_normalize made
    exact ⟨files, whole, all, stays, fun f first => by simpa using stays.mem_iff first⟩
  · have added (files : List GeneratedFile) : w.addFiles files = w.addRecords files := by
      simp [Writer.addFiles, Writer.ifOpen, opened]
    obtain ⟨answer, stay, same, stays⟩ := Writer.stays_addRecords w given
    simp only [added]
    exact ⟨fun name => Writer.mem_warnings_addRecords, answer, stay, same, stays,
      fun f first => stays.mem_iff first⟩

def patchFirst : List GeneratedFile :=
  [.insertion "a" "p" "1", .new "a" "2"]

theorem duplicateName_patchFirst :
    (normalize .lenient { files := patchFirst }).result =
        .ok { files := [.insertion "a" "p" "1"] } ∧
      (∃ files, mergeContinuations patchFirst = .ok files ∧
        Stays [] (canonical files) [.insertion "a" "p" "1"]) ∧
      ({} : Writer).finalized = false ∧
      (∃ before f after, patchFirst = before ++ f :: after ∧
        Repeats (Writer.addFiles {} before).writer.files f "a") ∧
      (canonical patchFirst).find? (·.isPlainOf "a") = some (.new "a" "2") ∧
      ∃ stay, (Writer.addFiles {} patchFirst).writer.files = [] ++ stay ∧ .new "a" "2" ∉ stay := by
  have made : (normalize .lenient { files := patchFirst }).result =
      .ok { files := [.insertion "a" "p" "1"] } := rfl
  have warned : .duplicateName "a" ∈ (Writer.addFiles {} patchFirst).warnings := .head _
  have firstPlain : (canonical patchFirst).find? (·.isPlainOf "a") = some (.new "a" "2") := rfl
  have firstOfAll : (canonical patchFirst).find? (·.nameText = "a") =
      some (.insertion "a" "p" "1") := rfl
  obtain ⟨⟨-, whole⟩, duplicates, -, stay, same, -, kept⟩ :=
    duplicateName_iff_repeats .lenient { files := patchFirst } {} rfl patchFirst
  obtain ⟨files, merged, -, stays, -⟩ := whole _ made
  obtain ⟨before, f, after, split, -, -, again⟩ := (duplicates "a").1 warned
  have dropped : .new "a" "2" ∉ stay := fun mem =>
    nomatch firstOfAll.symm.trans ((kept (.new "a" "2") firstPlain).1 mem).2
  exact ⟨made, ⟨files, merged, stays⟩, rfl, ⟨before, f, after, split, again⟩, firstPlain, stay, same,
    dropped⟩

theorem plain_dropped_after_insertion :
    patchFirst.find? (·.isPlainOf "a") = some (.new "a" "2") ∧
      (normalize .strict { files := patchFirst }).result = .error (.issue (.duplicateName "a")) ∧
      (normalize .lenient { files := patchFirst }).result =
        .ok { files := [.insertion "a" "p" "1"] } ∧
      (Writer.addFiles {} patchFirst).writer.files = [.insertion "a" "p" "1"] :=
  ⟨rfl, rfl, rfl, rfl⟩

end Response

end CompilerPlugin

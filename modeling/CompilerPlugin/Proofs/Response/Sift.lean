import CompilerPlugin.Proofs.Response.Judged
import CompilerPlugin.Response.Writer
import Mathlib.Data.List.Basic

namespace CompilerPlugin

namespace GeneratedFile

def withName (f : GeneratedFile) (name : String) : GeneratedFile :=
  { f with name := some name }

@[simp] theorem nameText_withName (f : GeneratedFile) (name : String) :
    (f.withName name).nameText = name := rfl

end GeneratedFile

namespace Response

def Issue.isDuplicate : Issue → Bool
  | .unnormalizedName _ _ => false
  | .duplicateName _ => true

def Repeats (kept : List GeneratedFile) (f : GeneratedFile) (name : String) : Prop :=
  f.isInsertion = false ∧ ∃ g ∈ kept, g.nameText = name

instance (kept : List GeneratedFile) (f : GeneratedFile) (name : String) :
    Decidable (Repeats kept f name) :=
  inferInstanceAs (Decidable (_ ∧ _))

def keep (kept : List GeneratedFile) (f : GeneratedFile) : List GeneratedFile :=
  if Repeats kept f f.nameText then kept else kept ++ [f]

def receive (mode : Mode) (kept : List GeneratedFile) (f : GeneratedFile) :
    Judged (List GeneratedFile) :=
  match Path.normalize f.nameText with
  | .error e => .refuse (.invalidPath e)
  | .ok name => do
    mode.reportIf (name ≠ f.nameText) (.unnormalizedName f.nameText name)
    mode.reportIf (Repeats kept f name) (.duplicateName name)
    return keep kept (f.withName name)

def sift (mode : Mode) (kept files : List GeneratedFile) : Judged (List GeneratedFile) :=
  files.foldlM (receive mode) kept

theorem keep_withName (kept : List GeneratedFile) (f : GeneratedFile) (name : String) :
    keep kept (f.withName name) =
      if Repeats kept f name then kept else kept ++ [f.withName name] := rfl

section

variable {mode : Mode} {kept out : List GeneratedFile} {f : GeneratedFile} {name : String}

theorem result_receive (made : (receive mode kept f).result = .ok out) :
    ∃ name, Path.normalize f.nameText = .ok name ∧ out = keep kept (f.withName name) := by
  rw [receive] at made
  cases named : Path.normalize f.nameText with
  | error e => rw [named] at made; cases made
  | ok name =>
    simp only [named, Judged.result_bind_eq_ok] at made
    obtain ⟨-, -, -, -, made⟩ := made
    cases made
    exact ⟨name, rfl, rfl⟩

theorem receive_lenient (named : Path.normalize f.nameText = .ok name) :
    receive .lenient kept f =
      ⟨Writer.renamed f.nameText name ++ if Repeats kept f name then [.duplicateName name] else [],
        .ok (keep kept (f.withName name))⟩ := by
  rw [receive, named, Writer.renamed]
  simp only [Judged.reportIf_bind]
  split <;> split <;> rfl

theorem sift_lenient_ne_issue (kept files : List GeneratedFile) (i : Issue) :
    (sift .lenient kept files).result ≠ .error (.issue i) := by
  induction files generalizing kept with
  | nil => exact nofun
  | cons f rest ih =>
    rw [sift, List.foldlM_cons]
    cases named : Path.normalize f.nameText with
    | error e =>
      rw [receive, named]
      exact nofun
    | ok name =>
      rw [receive_lenient named, Judged.bind_mk_ok]
      exact ih _

end

def NamesOf (kept : List GeneratedFile) (taken : List String) : Prop :=
  ∀ name, name ∈ taken ↔ ∃ g ∈ kept, g.nameText = name

theorem NamesOf.repeats_iff {kept : List GeneratedFile} {taken : List String}
    (h : NamesOf kept taken) (f : GeneratedFile) (name : String) :
    (!f.isInsertion && taken.contains name) = true ↔ Repeats kept f name := by
  simp [Repeats, h name]

theorem NamesOf.append {kept : List GeneratedFile} {taken : List String} (h : NamesOf kept taken)
    (f : GeneratedFile) (name : String) : NamesOf (kept ++ [f.withName name]) (name :: taken) := by
  intro other
  simp only [List.mem_cons, h other, List.mem_append, List.not_mem_nil, or_false, or_and_right,
    exists_or, exists_eq_left, GeneratedFile.nameText_withName]
  rw [or_comm, eq_comm (a := name)]

theorem append_reconcile (mode : Mode) {kept : List GeneratedFile} {taken : List String}
    (names : NamesOf kept taken) (files : List GeneratedFile) :
    (do return kept ++ (← reconcile mode taken files)) = sift mode kept files := by
  induction files generalizing kept taken with
  | nil =>
    rw [reconcile, sift, List.foldlM_nil]
    exact Judged.ext rfl (congrArg Except.ok (List.append_nil kept))
  | cons f rest ih =>
    rw [reconcile, sift, List.foldlM_cons, receive]
    cases Path.normalize f.nameText with
    | error e => rfl
    | ok name =>
      have step := names.repeats_iff f name
      by_cases again : Repeats kept f name
      · have below := ih names
        rw [sift] at below
        simp only [Judged.reportIf_bind, step, keep_withName, again, if_true]
        split <;> simp only [bind_assoc, pure_bind, below]
      · have below := ih (names.append f name)
        rw [sift] at below
        simp only [List.append_assoc, List.singleton_append] at below
        simp only [Judged.reportIf_bind, step, keep_withName, again, if_false]
        split <;> simp only [bind_assoc, pure_bind, ← below] <;> rfl

theorem reconcile_eq_sift (mode : Mode) (files : List GeneratedFile) :
    reconcile mode [] files = sift mode [] files := by
  have none : NamesOf [] [] := by simp [NamesOf]
  rw [← append_reconcile mode none files]
  exact (bind_pure (reconcile mode [] files)).symm

theorem normalize_eq_sift (mode : Mode) (r : Response) :
    r.normalize mode = do
      let files ← sift mode [] (← .ofExcept (mergeContinuations r.files))
      .ofExcept r.checkSupport
      return { r with files } := by
  rw [normalize]
  cases mergeContinuations r.files with
  | error v => rfl
  | ok merged =>
    change (reconcile mode [] merged >>= _) = (sift mode [] merged >>= _)
    rw [reconcile_eq_sift]
    congr 1
    funext files
    cases r.checkSupport <;> rfl

theorem normalize_of_merged (mode : Mode) {r : Response} {merged : List GeneratedFile}
    (whole : mergeContinuations r.files = .ok merged) :
    r.normalize mode =
      sift mode [] merged >>= fun files => .ofExcept (r.checkSupport.map fun _ => { r with files }) := by
  rw [normalize_eq_sift, whole]
  change (sift mode [] merged >>= _) = _
  cases r.checkSupport <;> rfl

section

variable {r : Response} {mode : Mode}

theorem mergeInto_ne_issue (current : GeneratedFile) (files : List GeneratedFile) (i : Issue) :
    mergeInto current files ≠ .error (.issue i) := by
  induction files generalizing current with
  | nil => exact nofun
  | cons f rest ih =>
    rw [mergeInto]
    split
    · intro failed
      cases below : mergeInto f rest with
      | error v =>
        rw [below] at failed
        cases failed
        exact ih f below
      | ok files =>
        rw [below] at failed
        cases failed
    split
    · exact nofun
    · exact ih _

theorem mergeContinuations_ne_issue (files : List GeneratedFile) (i : Issue) :
    mergeContinuations files ≠ .error (.issue i) := by
  cases files with
  | nil => exact nofun
  | cons f rest =>
    rw [mergeContinuations]
    split
    · exact nofun
    · exact mergeInto_ne_issue f rest i

theorem checkSupport_ne_issue (r : Response) (i : Issue) : r.checkSupport ≠ .error (.issue i) := by
  rw [checkSupport]
  split
  · exact nofun
  · split
    · rw [checkEditions]
      split
      · exact nofun
      split
      · exact nofun
      split <;> exact nofun
    · exact nofun

theorem raises_normalize {i : Issue} :
    (r.normalize mode).Raises i ↔
      ∃ files, mergeContinuations r.files = .ok files ∧ (reconcile mode [] files).Raises i := by
  simp only [normalize_eq_sift, reconcile_eq_sift, Judged.raises_bind, Judged.raises_ofExcept,
    mergeContinuations_ne_issue, checkSupport_ne_issue, pure, Judged.not_raises_accept, and_false,
    exists_false, false_or, or_false]
  rfl

theorem normalize_eq_ok_iff {out : Response} :
    (r.normalize mode).result = .ok out ↔
      ∃ merged, mergeContinuations r.files = .ok merged ∧
        (sift mode [] merged).result = .ok out.files ∧ r.checkSupport = .ok () ∧
          out = { r with files := out.files } := by
  simp only [normalize_eq_sift, Judged.result_bind_eq_ok]
  constructor
  · rintro ⟨merged, whole, files, sifted, ⟨⟩, supported, made⟩
    cases made
    exact ⟨merged, whole, sifted, supported, rfl⟩
  · rintro ⟨merged, whole, sifted, supported, same⟩
    exact ⟨merged, whole, out.files, sifted, (), supported, congrArg Except.ok same.symm⟩

theorem result_normalize {out : Response} (made : (r.normalize mode).result = .ok out) :
    ∃ files, mergeContinuations r.files = .ok files ∧
      (reconcile mode [] files).result = .ok out.files := by
  obtain ⟨merged, whole, sifted, -, -⟩ := normalize_eq_ok_iff.1 made
  exact ⟨merged, whole, by rwa [reconcile_eq_sift]⟩

end

namespace Writer

theorem countP_isDuplicate_renamed (given name : String) :
    (renamed given name).countP Issue.isDuplicate = 0 := by
  rw [renamed]
  split <;> rfl

variable {w : Writer} {f : GeneratedFile}

theorem mem_namesOf {files : List GeneratedFile} {name : String} :
    name ∈ namesOf files ↔ ∃ f ∈ files, f.nameText = name := by
  have inserted (names : List String) :
      name ∈ files.foldl (fun names f => names.insert f.nameText) names ↔
        name ∈ names ∨ ∃ f ∈ files, f.nameText = name := by
    induction files generalizing names with
    | nil => simp
    | cons f rest ih =>
      rw [List.foldl_cons, ih, List.mem_insert_iff]
      grind
  simpa [namesOf] using inserted []

def holding (w : Writer) (files : List GeneratedFile) : Writer :=
  { w with names := namesOf files, files, names_eq := rfl }

@[simp] theorem files_holding (w : Writer) (files : List GeneratedFile) :
    (w.holding files).files = files := rfl

@[simp] theorem finalized_holding (w : Writer) (files : List GeneratedFile) :
    (w.holding files).finalized = w.finalized := rfl

@[simp] theorem holding_files (w : Writer) : w.holding w.files = w := by
  obtain ⟨names, files, error, features, minimum, maximum, finalized, rfl⟩ := w
  rfl

theorem append_eq (w : Writer) (f : GeneratedFile) : w.append f = w.holding (w.files ++ [f]) := by
  obtain ⟨names, files, error, features, minimum, maximum, finalized, rfl⟩ := w
  simp [append, holding, namesOf]

theorem hasName_iff {w : Writer} {name : String} :
    w.hasName name = true ↔ ∃ f ∈ w.files, f.nameText = name := by
  rw [hasName, List.contains_iff_mem, w.names_eq, mem_namesOf]

theorem addRecords_cons_error {e : PathError} (named : Path.normalize f.nameText = .error e)
    (rest : List GeneratedFile) :
    w.addRecords (f :: rest) =
      .refused (.response (if f.nameText = "" then .emptyName else .invalidPath e)) w := by
  rw [addRecords, named]
  split <;> rfl

theorem addRecords_cons_ok {name : String} (named : Path.normalize f.nameText = .ok name)
    (rest : List GeneratedFile) :
    w.addRecords (f :: rest) =
      ((w.holding (keep w.files (f.withName name))).addRecords rest).warned
        (receive .lenient w.files f).warnings := by
  have given : f.nameText ≠ "" := by
    intro none
    rw [none] at named
    cases named
  have taken : (!f.isInsertion && w.hasName name) = true ↔ Repeats w.files f name := by
    simp [hasName_iff, Repeats]
  rw [addRecords, named, receive_lenient named, keep_withName]
  by_cases again : Repeats w.files f name
  · simp only [given, if_false, taken, again, if_true, holding_files]
  · simp only [given, if_false, taken, again, List.append_nil, append_eq]
    rfl

theorem addRecords_eq_sift (w : Writer) (files : List GeneratedFile) :
    (w.addRecords files).warnings = (sift .lenient w.files files).warnings ∧
      ∀ kept, (w.addRecords files).answer = .ok () ∧ (w.addRecords files).writer.files = kept ↔
        (sift .lenient w.files files).result = .ok kept := by
  induction files generalizing w with
  | nil => exact ⟨rfl, fun kept => by simp [addRecords, Outcome.done, sift, pure, Judged.accept]⟩
  | cons f rest ih =>
    rw [sift, List.foldlM_cons]
    cases named : Path.normalize f.nameText with
    | error e =>
      rw [addRecords_cons_error named, receive, named]
      exact ⟨rfl, by simp [Outcome.refused, Judged.refuse, Judged.bind_mk_error]⟩
    | ok name =>
      obtain ⟨warnings, result⟩ := ih (w.holding (keep w.files (f.withName name)))
      rw [sift] at warnings result
      rw [addRecords_cons_ok named, Outcome.warned, warnings, receive_lenient named,
        Judged.bind_mk_ok]
      exact ⟨rfl, result⟩

end Writer

end Response

end CompilerPlugin

import CompilerPlugin.Proofs.Response.FirstViolation

namespace CompilerPlugin.Response

structure Fate where
  record : GeneratedFile
  name : String
  stays : Bool

namespace Fate

def kept? (t : Fate) : Option GeneratedFile :=
  if t.stays then some (t.record.withName t.name) else none

def warnings (t : Fate) : List Issue :=
  Writer.renamed t.record.nameText t.name ++ if t.stays then [] else [.duplicateName t.name]

theorem countP_duplicates (t : Fate) :
    t.warnings.countP Issue.isDuplicate = if t.stays then 0 else 1 := by
  rw [warnings, List.countP_append, Writer.countP_isDuplicate_renamed, Nat.zero_add]
  split <;> rfl

theorem countP_renamings (t : Fate) :
    t.warnings.countP (!·.isDuplicate) = if t.name ≠ t.record.nameText then 1 else 0 := by
  rw [warnings, List.countP_append, Writer.renamed]
  split <;> split <;> rfl

end Fate

def fate (kept : List GeneratedFile) (f : GeneratedFile) (name : String) : Fate :=
  ⟨f, name, !decide (Repeats kept f name)⟩

/-- An account of records that came one by one when some were kept already. One is left out just when it
is plain and a record that was kept by then has its name. -/
structure Accounts (kept files : List GeneratedFile) (fates : List Fate) : Prop where
  records : fates.map Fate.record = files
  named : ∀ t ∈ fates, Path.normalize t.record.nameText = .ok t.name
  decided : ∀ before t after, fates = before ++ t :: after →
    (t.stays = false ↔ Repeats (kept ++ before.filterMap Fate.kept?) t.record t.name)

section

variable {kept files merged out : List GeneratedFile} {fates : List Fate} {f : GeneratedFile}
  {name : String}

theorem receive_eq_fate (named : Path.normalize f.nameText = .ok name) :
    receive .lenient kept f =
      ⟨(fate kept f name).warnings, .ok (kept ++ (fate kept f name).kept?.toList)⟩ := by
  rw [receive_lenient named, keep_withName]
  by_cases again : Repeats kept f name
  · simp [fate, Fate.warnings, Fate.kept?, again]
  · simp [fate, Fate.warnings, Fate.kept?, again]

theorem accounts_nil (kept : List GeneratedFile) : Accounts kept [] [] :=
  ⟨rfl, List.forall_mem_nil _, fun _ _ _ split => absurd split (by simp)⟩

theorem Accounts.cons (named : Path.normalize f.nameText = .ok name)
    (h : Accounts (kept ++ (fate kept f name).kept?.toList) files fates) :
    Accounts kept (f :: files) (fate kept f name :: fates) := by
  refine ⟨by rw [List.map_cons, h.records]; rfl, List.forall_mem_cons.2 ⟨named, h.named⟩, ?_⟩
  rintro (_ | ⟨first, before⟩) t after split
  · obtain ⟨rfl, rfl⟩ := List.cons.inj split
    simp [fate]
  · obtain ⟨rfl, rfl⟩ := List.cons.inj split
    have later := h.decided before t after rfl
    rw [List.append_assoc] at later
    rw [later, List.filterMap_cons]
    cases (fate kept f name).kept? <;> rfl

theorem exists_fates (made : (sift .lenient kept files).result = .ok out) :
    ∃ fates, Accounts kept files fates ∧
      (sift .lenient kept files).warnings = fates.flatMap Fate.warnings ∧
        out = kept ++ fates.filterMap Fate.kept? := by
  induction files generalizing kept with
  | nil =>
    cases made
    exact ⟨[], accounts_nil _, rfl, (List.append_nil _).symm⟩
  | cons f rest ih =>
    rw [sift, List.foldlM_cons] at made ⊢
    cases named : Path.normalize f.nameText with
    | error e =>
      rw [receive, named] at made
      cases made
    | ok name =>
      rw [receive_eq_fate named, Judged.bind_mk_ok] at made ⊢
      obtain ⟨fates, accounts, warnings, rfl⟩ := ih made
      refine ⟨_ :: fates, accounts.cons named, ?_, ?_⟩
      · rw [List.flatMap_cons, ← warnings]
        rfl
      · rw [List.append_assoc, List.filterMap_cons]
        cases (fate kept f name).kept? <;> rfl

theorem length_kept_add_duplicates (fates : List Fate) :
    (fates.filterMap Fate.kept?).length + (fates.flatMap Fate.warnings).countP Issue.isDuplicate =
      fates.length := by
  induction fates with
  | nil => rfl
  | cons t fates ih =>
    rw [List.filterMap_cons, List.flatMap_cons, List.countP_append, t.countP_duplicates, Fate.kept?,
      List.length_cons]
    cases t.stays
    · simp only [Bool.false_eq_true, if_false]
      omega
    · simp only [if_true, List.length_cons]
      omega

theorem countP_renamings_flatMap (fates : List Fate) :
    (fates.flatMap Fate.warnings).countP (!·.isDuplicate) =
      fates.countP fun t => t.name ≠ t.record.nameText := by
  induction fates with
  | nil => rfl
  | cons t fates ih =>
    rw [List.flatMap_cons, List.countP_append, ih, t.countP_renamings, List.countP_cons, Nat.add_comm]
    simp only [decide_eq_true_eq]

theorem names_of_mergeContinuations (whole : mergeContinuations files = .ok merged) :
    merged.map (·.nameText) = ownNames files := by
  have names := mergeContinuations_names files
  rw [whole] at names
  obtain ⟨-, leading⟩ := check_bind_eq_ok.1 names.symm
  obtain ⟨-, given⟩ := check_bind_eq_ok.1 leading
  exact (Except.ok.inj given).symm

end

/-- A response that is leniently judged to be in form has its records taken in or left out one by one.
The warnings are, record by record, one for a name that is not canonical and one for a record that is
left out, and what stays of a record is the whole of it under its canonical name. -/
theorem normalize_lenient_accounts {r out : Response} (made : (r.normalize .lenient).result = .ok out) :
    ∃ merged fates, mergeContinuations r.files = .ok merged ∧ Accounts [] merged fates ∧
      (r.normalize .lenient).warnings = fates.flatMap Fate.warnings ∧
      out = { r with files := fates.filterMap Fate.kept? } ∧
      out.files.length + (r.normalize .lenient).warnings.countP Issue.isDuplicate =
        (ownNames r.files).length ∧
      (r.normalize .lenient).warnings.countP (!·.isDuplicate) =
        (ownNames r.files).countP fun name => Path.normalize name ≠ .ok name := by
  obtain ⟨merged, whole, sifted, -, same⟩ := normalize_eq_ok_iff.1 made
  obtain ⟨fates, accounts, warnings, kept⟩ := exists_fates sifted
  rw [List.nil_append] at kept
  have warned : (r.normalize .lenient).warnings = fates.flatMap Fate.warnings := by
    rw [normalize_of_merged .lenient whole, Judged.warnings_bind_ofExcept, warnings]
  have names : ownNames r.files = fates.map fun t => t.record.nameText := by
    rw [← names_of_mergeContinuations whole, ← accounts.records, List.map_map]
    rfl
  refine ⟨merged, fates, whole, accounts, warned, by rw [← kept, ← same], ?_, ?_⟩
  · rw [warned, kept, length_kept_add_duplicates, names, List.length_map]
  · rw [warned, countP_renamings_flatMap, names, List.countP_map]
    refine List.countP_congr fun t mem => ?_
    simp [accounts.named t mem]

def unruly : Response :=
  { files := [.new "./a" "1", .new "b/../a" "2", .continuation "3", .insertion "a" "p" "4"] }

theorem normalize_lenient_accounts_unruly :
    (unruly.normalize .lenient).result = .ok { files := [.new "a" "1", .insertion "a" "p" "4"] } ∧
      (unruly.normalize .lenient).warnings =
        [.unnormalizedName "./a" "a", .unnormalizedName "b/../a" "a", .duplicateName "a"] ∧
      2 + (unruly.normalize .lenient).warnings.countP Issue.isDuplicate =
        (ownNames unruly.files).length ∧
      ∃ merged fates, mergeContinuations unruly.files = .ok merged ∧ Accounts [] merged fates ∧
        fates.filterMap Fate.kept? = [.new "a" "1", .insertion "a" "p" "4"] := by
  have made : (unruly.normalize .lenient).result =
      .ok { files := [.new "a" "1", .insertion "a" "p" "4"] } := rfl
  obtain ⟨merged, fates, whole, accounts, -, kept, counted, -⟩ := normalize_lenient_accounts made
  exact ⟨made, rfl, counted, merged, fates, whole, accounts, (congrArg Response.files kept).symm⟩

end CompilerPlugin.Response

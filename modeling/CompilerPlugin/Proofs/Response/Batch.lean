import CompilerPlugin.Proofs.Response.Calls

namespace CompilerPlugin

namespace Response

open GeneratedFile

theorem sift_lenient_cases (kept files : List GeneratedFile) :
    ((∀ f ∈ files, ∃ name, Path.normalize f.nameText = .ok name) ∧
        (sift .lenient kept files).result = .ok ((canonical files).foldl keep kept)) ∨
      ∃ f ∈ files, ∃ e, Path.normalize f.nameText = .error e ∧
        (sift .lenient kept files).result = .error (.invalidPath e) := by
  induction files generalizing kept with
  | nil => exact .inl ⟨by simp, rfl⟩
  | cons f rest ih =>
    cases named : Path.normalize f.nameText with
    | error e =>
      refine .inr ⟨f, List.mem_cons_self, e, named, ?_⟩
      rw [sift, List.foldlM_cons, receive, named]
      rfl
    | ok name =>
      rw [sift, List.foldlM_cons, receive_lenient named, canonical_cons_ok named]
      rcases ih (keep kept (f.withName name)) with ⟨valid, made⟩ | ⟨g, mem, e, invalid, failed⟩
      · exact .inl ⟨List.forall_mem_cons.2 ⟨⟨name, named⟩, valid⟩, made⟩
      · exact .inr ⟨g, List.mem_cons_of_mem f mem, e, invalid, failed⟩

theorem Writer.answer_addRecords {files : List GeneratedFile} (w : Writer)
    (named : ∀ f ∈ files, f.nameText ≠ "") :
    (w.addRecords files).answer =
      ((sift .lenient w.files files).result.map fun _ => ()).mapError .response := by
  induction files generalizing w with
  | nil => rfl
  | cons f rest ih =>
    rw [sift, List.foldlM_cons]
    cases canonical : Path.normalize f.nameText with
    | error e =>
      rw [addRecords_cons_error canonical, if_neg (named f List.mem_cons_self), receive, canonical]
      rfl
    | ok name =>
      rw [addRecords_cons_ok canonical, receive_lenient canonical]
      exact ih (w.holding (keep w.files (f.withName name)))
        fun g mem => named g (List.mem_cons_of_mem f mem)

/-- Adding records to a new writer warns of what judging a response with them leniently warns of. If all
their names are paths, finalizing gives the files that the response is left with; if not, both are
refused for the same one. What the response says it supports is judged last. -/
theorem addFiles_agrees_normalize (mode : Mode) (r : Response)
    (named : ∀ f ∈ r.files, f.nameText ≠ "") :
    let added := Writer.addFiles {} r.files
    added.warnings = (r.normalize .lenient).warnings ∧
      (((∀ f ∈ r.files, ∃ name, Path.normalize f.nameText = .ok name) ∧ added.answer = .ok () ∧
          ∃ files, (added.writer.finalize mode).answer = .ok { files } ∧
            (r.normalize .lenient).result = r.checkSupport.map fun _ => { r with files }) ∨
        ∃ f ∈ r.files, ∃ e, Path.normalize f.nameText = .error e ∧
          added.answer = .error (.response (.invalidPath e)) ∧
            (r.normalize .lenient).result = .error (.invalidPath e)) := by
  intro added
  have same : added = Writer.addRecords {} r.files := rfl
  have answer := Writer.answer_addRecords {} named
  have judged := normalize_of_named .lenient named
  rw [same, judged, Judged.warnings_bind_ofExcept, (Writer.addRecords_eq_sift {} r.files).1,
    Writer.writer_addRecords]
  refine ⟨rfl, ?_⟩
  -- both are the same sifting, so one look at how it ends decides for both
  rcases sift_lenient_cases [] r.files with ⟨valid, made⟩ | ⟨f, mem, e, invalid, failed⟩
  · have reconciled : Reconciled ((canonical r.files).foldl keep []) :=
      reconciled_nil.foldl_keep normalize_of_mem_canonical
    rw [made] at answer
    refine .inl ⟨valid, answer, (canonical r.files).foldl keep [], ?_, ?_⟩
    · rw [Writer.finalize_eq reconciled]
      rfl
    · exact Judged.result_bind_of_ok made
  · rw [failed] at answer
    exact .inr ⟨f, mem, e, invalid, answer, Judged.result_bind_of_error failed⟩

def repeated : List GeneratedFile :=
  [.new "./a" "1", .new "a" "2", .insertion "a" "p" "3"]

theorem addFiles_repeated :
    (∀ f ∈ repeated, f.nameText ≠ "") ∧
      (Writer.addFiles {} repeated).warnings = [.unnormalizedName "./a" "a", .duplicateName "a"] ∧
      (normalize .lenient { files := repeated }).warnings =
        [.unnormalizedName "./a" "a", .duplicateName "a"] ∧
      ∃ files, ((Writer.addFiles {} repeated).writer.finalize .strict).answer = .ok { files } ∧
        (normalize .lenient { files := repeated }).result = .ok { files } := by
  have named : ∀ f ∈ repeated, f.nameText ≠ "" := by decide
  have warnings : (Writer.addFiles {} repeated).warnings =
      [.unnormalizedName "./a" "a", .duplicateName "a"] := rfl
  have accepted : (Writer.addFiles {} repeated).answer = .ok () := rfl
  obtain ⟨same, ⟨-, -, files, finalized, judged⟩ | ⟨f, -, e, -, refused, -⟩⟩ :=
    addFiles_agrees_normalize .strict { files := repeated } named
  · exact ⟨named, warnings, same.symm.trans warnings, files, finalized, judged⟩
  · exact nomatch accepted.symm.trans refused

end Response

end CompilerPlugin

import CompilerPlugin.Proofs.Path.Walk
import CompilerPlugin.Proofs.Response.Accounts
import CompilerPlugin.Proofs.Response.Closed

namespace CompilerPlugin

namespace Path

def HasSpecial (name : String) : Prop :=
  ∃ e ∈ elements name.toList, e = here ∨ e = parent

instance (name : String) : Decidable (HasSpecial name) :=
  inferInstanceAs (Decidable (∃ e ∈ elements name.toList, e = here ∨ e = parent))

section

variable {path name : String}

theorem hasSpecial_iff_of_canonical (h : normalize name = .ok name) : HasSpecial name ↔ name = "." := by
  constructor
  · rintro ⟨e, mem, special⟩
    rcases canonical_of_normalize h with itself | ⟨slashes, ordinary⟩
    · exact String.toList_injective itself
    · rw [elements_eq_splitOn slashes] at mem
      obtain ⟨-, notHere, notParent⟩ := ordinary e mem
      exact (special.elim notHere notParent).elim
  · rintro rfl
    decide

theorem normalize_eq_here_iff :
    normalize path = .ok "." ↔
      (∃ name, normalize path = .ok name) ∧ ∀ start, walk start path = start := by
  have stays (inside : leaves (resolve false (elements path.toList)) = false) :
      (∀ start, walk start path = start) ↔ resolve false (elements path.toList) = [] := by
    simp [walk_of_inside inside]
  constructor
  · intro h
    refine ⟨⟨_, h⟩, (stays (normalize_eq_ok_iff.1 h).2.2.1).2 ?_⟩
    rw [← resolve_of_normalize h]
    rfl
  · rintro ⟨⟨name, h⟩, back⟩
    obtain ⟨-, -, inside, same⟩ := normalize_eq_ok_iff.1 h
    rw [(stays inside).1 back] at same
    rwa [show name = "." from String.toList_injective same] at h

end

end Path

namespace Response

open GeneratedFile

section

variable {mode : Mode} {kept files out : List GeneratedFile} {f : GeneratedFile} {name : String}

theorem exists_named_keep :
    (∃ g ∈ keep kept f, g.nameText = name) ↔ (∃ g ∈ kept, g.nameText = name) ∨ f.nameText = name := by
  rw [keep]
  split
  · rename_i again
    refine ⟨.inl, fun h => h.elim id ?_⟩
    rintro rfl
    exact again.2
  · simp [or_and_right, exists_or]

theorem exists_named_foldl_keep :
    (∃ g ∈ files.foldl keep kept, g.nameText = name) ↔
      (∃ g ∈ kept, g.nameText = name) ∨ ∃ f ∈ files, f.nameText = name := by
  induction files generalizing kept with
  | nil => simp
  | cons f rest ih => rw [List.foldl_cons, ih, exists_named_keep, List.exists_mem_cons_iff, or_assoc]

theorem exists_named_sift (made : (sift mode kept files).result = .ok out) :
    (∃ g ∈ out, g.nameText = name) ↔
      (∃ g ∈ kept, g.nameText = name) ∨ ∃ f ∈ files, Path.normalize f.nameText = .ok name := by
  induction files generalizing kept with
  | nil =>
    cases made
    simp
  | cons f rest ih =>
    rw [sift, List.foldlM_cons] at made
    obtain ⟨next, first, made⟩ := Judged.result_bind_eq_ok.1 made
    obtain ⟨canonical, named, rfl⟩ := result_receive first
    rw [ih made, exists_named_keep, List.exists_mem_cons_iff, named, Except.ok.injEq, or_assoc]
    rfl

theorem exists_named_normalize {r out : Response} (made : (r.normalize mode).result = .ok out) :
    (∃ g ∈ out.files, g.nameText = name) ↔ ∃ f ∈ r.files, Path.normalize f.nameText = .ok name := by
  obtain ⟨merged, whole, sifted, -, -⟩ := normalize_eq_ok_iff.1 made
  have names (P : String → Prop) :
      (∃ f ∈ merged, P f.nameText) ↔ ∃ given ∈ ownNames r.files, P given := by
    rw [← names_of_mergeContinuations whole]
    simp
  rw [exists_named_sift sifted, names fun given => Path.normalize given = .ok name]
  simp only [ownNames, List.mem_filter, List.mem_map, decide_eq_true_eq]
  constructor
  · rintro (⟨g, mem, -⟩ | ⟨_, ⟨⟨f, mem, rfl⟩, -⟩, named⟩)
    · cases mem
    · exact ⟨f, mem, named⟩
  · rintro ⟨f, mem, named⟩
    exact .inr ⟨_, ⟨⟨f, mem, rfl⟩, Path.ne_empty_of_normalize named⟩, named⟩

end

namespace Writer

variable {w : Writer} {mode : Mode} {name : String}

theorem files_of_finalize {calls : List Call} {out : Response}
    (made : ((after (perform mode) {} calls).finalize mode).answer = .ok out) :
    Reconciled out.files ∧ out.files = accumulated calls := by
  have reconciled := reconciled_after (w := {}) reconciled_nil mode calls
  obtain ⟨opened, -, rfl⟩ := response_of_finalize reconciled made
  have goesOn : .finalize ∉ calls := by
    intro mem
    cases opened.symm.trans (finalized_after mode {} mem)
  exact ⟨reconciled, (after_of_open (w := {}) rfl mode goesOn).2⟩

theorem exists_named_canonical {files : List GeneratedFile} :
    (∃ g ∈ canonical files, g.nameText = name) ↔
      ∃ before f after, files = before ++ f :: after ∧
        (∀ g ∈ before, ∃ own, Path.normalize g.nameText = .ok own) ∧
        Path.normalize f.nameText = .ok name := by
  induction files with
  | nil => simp [canonical]
  | cons f rest ih =>
    cases named : Path.normalize f.nameText with
    | error e =>
      rw [canonical_cons_error named]
      refine iff_of_false (by simp) ?_
      rintro ⟨_ | ⟨first, before⟩, g, after, split, valid, its⟩
      · obtain ⟨rfl, -⟩ := List.cons.inj split
        cases named.symm.trans its
      · obtain ⟨rfl, -⟩ := List.cons.inj split
        obtain ⟨own, its⟩ := valid f List.mem_cons_self
        cases named.symm.trans its
    | ok own =>
      rw [canonical_cons_ok named, List.exists_mem_cons_iff, ih]
      constructor
      · rintro (rfl | ⟨before, g, after, rfl, valid, its⟩)
        · exact ⟨[], f, rest, rfl, List.forall_mem_nil _, named⟩
        · exact ⟨f :: before, g, after, rfl, List.forall_mem_cons.2 ⟨⟨own, named⟩, valid⟩, its⟩
      · rintro ⟨_ | ⟨first, before⟩, g, after, split, valid, its⟩
        · obtain ⟨rfl, rfl⟩ := List.cons.inj split
          exact .inl (Except.ok.inj (named.symm.trans its))
        · obtain ⟨rfl, rfl⟩ := List.cons.inj split
          exact .inr ⟨before, g, after, rfl, (List.forall_mem_cons.1 valid).2, its⟩

theorem exists_named_accumulated {calls : List Call} :
    (∃ g ∈ accumulated calls, g.nameText = name) ↔
      ∃ c ∈ calls, ∃ g ∈ canonical c.records, g.nameText = name := by
  have gathered (kept : List GeneratedFile) : (∃ g ∈ calls.foldl gather kept, g.nameText = name) ↔
      (∃ g ∈ kept, g.nameText = name) ∨ ∃ c ∈ calls, ∃ g ∈ canonical c.records, g.nameText = name := by
    induction calls generalizing kept with
    | nil => simp
    | cons c rest ih =>
      rw [List.foldl_cons, ih, gather, exists_named_foldl_keep, List.exists_mem_cons_iff, or_assoc]
  rw [accumulated, gathered]
  simp

end Writer

/-- A file of an accepted response has no `.` or `..` in its name, unless the name is `.` itself. Such a
file is there just when a record was given under a name that leads back to where it starts. The same goes
for the files that a writer is finalized with; of a batch the records up to the first that is refused were
given to it. -/
theorem directory_name_iff (mode : Mode) :
    (∀ path, Path.normalize path = .ok "." ↔
      (∃ name, Path.normalize path = .ok name) ∧ ∀ start, Path.walk start path = start) ∧
    (∀ r out : Response, (r.normalize mode).result = .ok out →
      (∀ f ∈ out.files, Path.HasSpecial f.nameText ↔ f.nameText = ".") ∧
        ((∃ f ∈ out.files, f.nameText = ".") ↔ ∃ f ∈ r.files, Path.normalize f.nameText = .ok ".")) ∧
    ∀ calls out, ((Writer.after (Writer.perform mode) {} calls).finalize mode).answer = .ok out →
      (∀ f ∈ out.files, Path.HasSpecial f.nameText ↔ f.nameText = ".") ∧
        ((∃ f ∈ out.files, f.nameText = ".") ↔
          ∃ c ∈ calls, ∃ before f after, c.records = before ++ f :: after ∧
            (∀ g ∈ before, ∃ own, Path.normalize g.nameText = .ok own) ∧
            Path.normalize f.nameText = .ok ".") := by
  have special {files : List GeneratedFile} (h : Reconciled files) :
      ∀ f ∈ files, Path.HasSpecial f.nameText ↔ f.nameText = "." :=
    fun f mem => Path.hasSpecial_iff_of_canonical (h.canonical f mem)
  refine ⟨fun path => Path.normalize_eq_here_iff, fun r out made => ?_, fun calls out made => ?_⟩
  · obtain ⟨merged, -, sifted, -, -⟩ := normalize_eq_ok_iff.1 made
    exact ⟨special (reconciled_sift reconciled_nil sifted), exists_named_normalize made⟩
  · obtain ⟨reconciled, files⟩ := Writer.files_of_finalize made
    refine ⟨special reconciled, ?_⟩
    simp only [files, Writer.exists_named_accumulated, Writer.exists_named_canonical]

def upAndDown : List GeneratedFile :=
  [.new "a/.." "1", .new "b" "2"]

theorem directory_name_upAndDown :
    (normalize .lenient { files := upAndDown }).result =
        .ok { files := [.new "." "1", .new "b" "2"] } ∧
      ((Writer.after (Writer.perform .strict) {} [.addFiles upAndDown]).finalize .strict).answer =
        .ok { files := [.new "." "1", .new "b" "2"] } ∧
      Path.HasSpecial "." ∧ ¬ Path.HasSpecial "b" ∧ (∀ start, Path.walk start "a/.." = start) ∧
      ∃ f ∈ upAndDown, Path.normalize f.nameText = .ok "." := by
  have made : (normalize .lenient { files := upAndDown }).result =
      .ok { files := [.new "." "1", .new "b" "2"] } := rfl
  have finalized :
      ((Writer.after (Writer.perform .strict) {} [.addFiles upAndDown]).finalize .strict).answer =
        .ok { files := [.new "." "1", .new "b" "2"] } := rfl
  obtain ⟨back, judged, -⟩ := directory_name_iff .lenient
  obtain ⟨special, given⟩ := judged { files := upAndDown } _ made
  obtain ⟨special', -⟩ := (directory_name_iff .strict).2.2 _ _ finalized
  refine ⟨made, finalized, (special _ List.mem_cons_self).2 rfl, ?_, ((back "a/..").1 rfl).2, ?_⟩
  · exact mt (special' (.new "b" "2") (by decide)).1 (by decide)
  · exact given.1 ⟨_, List.mem_cons_self, rfl⟩

theorem directory_accepted :
    Path.HasSpecial "." ∧
      (∀ mode, normalize mode { files := [.new "." "1"] } = .accept { files := [.new "." "1"] }) ∧
      (normalize .lenient { files := [.new "a/.." "1"] }).result = .ok { files := [.new "." "1"] } ∧
      ((Writer.addFiles {} [.new "." "1"]).writer.finalize .strict).answer =
        .ok { files := [.new "." "1"] } :=
  ⟨by decide, fun mode => by cases mode <;> rfl, rfl, rfl⟩

end Response

end CompilerPlugin

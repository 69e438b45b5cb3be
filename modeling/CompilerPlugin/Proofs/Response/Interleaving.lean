import CompilerPlugin.Proofs.Response.Calls
import Mathlib.Data.Finset.Card

namespace CompilerPlugin

section

variable {α κ : Type} [DecidableEq κ] {key : α → κ}

def firstOf (key : α → κ) : List α → List α
  | [] => []
  | a :: l => a :: (firstOf key l).filter (key · ≠ key a)

theorem firstOf_sublist (l : List α) : (firstOf key l).Sublist l := by
  induction l with
  | nil => exact .slnil
  | cons a l ih => exact (List.filter_sublist.trans ih).cons_cons a

theorem filter_firstOf (l : List α) (k : κ) :
    (firstOf key l).filter (key · = k) = (l.find? (key · = k)).toList := by
  induction l with
  | nil => rfl
  | cons a l ih =>
    rw [firstOf, List.filter_cons, List.find?_cons, List.filter_filter]
    by_cases its : key a = k
    · simp [its]
    · have others : ∀ b ∈ firstOf key l,
          (decide (key b = k) && decide (key b ≠ key a)) = decide (key b = k) := by
        grind
      simp only [its, decide_false, Bool.false_eq_true, if_false, List.filter_congr others, ih]

theorem mem_map_firstOf {l : List α} {k : κ} : k ∈ (firstOf key l).map key ↔ k ∈ l.map key := by
  have kept : k ∈ (firstOf key l).map key ↔ (firstOf key l).filter (key · = k) ≠ [] := by
    simp [List.filter_eq_nil_iff]
  rw [kept, filter_firstOf]
  simp [Option.toList_eq_nil_iff]

theorem nodup_map_firstOf (l : List α) : ((firstOf key l).map key).Nodup := by
  induction l with
  | nil => exact .nil
  | cons a l ih =>
    rw [firstOf, List.map_cons, List.nodup_cons]
    exact ⟨by simp, ih.sublist (List.filter_sublist.map key)⟩

theorem map_firstOf {β : Type} (key : α → κ) (g : β → α) (l : List β) :
    (firstOf (fun b => key (g b)) l).map g = firstOf key (l.map g) := by
  induction l with
  | nil => rfl
  | cons b l ih =>
    rw [List.map_cons, firstOf, firstOf, ← ih, List.map_cons, List.filter_map]
    rfl

theorem length_firstOf (l : List α) : (firstOf key l).length = (l.map key).toFinset.card := by
  have same : (l.map key).toFinset = ((firstOf key l).map key).toFinset := by
    ext k
    rw [List.mem_toFinset, List.mem_toFinset, mem_map_firstOf]
  rw [same, List.toFinset_card_of_nodup (nodup_map_firstOf l), List.length_map]

end

namespace GeneratedFile

def canonized (f : GeneratedFile) : GeneratedFile :=
  match Path.normalize f.nameText with
  | .error _ => f
  | .ok name => f.withName name

theorem isInsertion_canonized (f : GeneratedFile) : f.canonized.isInsertion = f.isInsertion := by
  rw [canonized]
  split <;> rfl

theorem canonical_eq_map {files : List GeneratedFile}
    (valid : ∀ f ∈ files, ∃ name, Path.normalize f.nameText = .ok name) :
    canonical files = files.map canonized := by
  induction files with
  | nil => rfl
  | cons f rest ih =>
    obtain ⟨name, named⟩ := valid f List.mem_cons_self
    rw [canonical_cons_ok named, ih fun g mem => valid g (List.mem_cons_of_mem f mem),
      List.map_cons, canonized, named]

end GeneratedFile

namespace Response

open GeneratedFile

theorem foldl_keep_plain {files : List GeneratedFile} (plain : ∀ f ∈ files, f.isInsertion = false)
    (kept : List GeneratedFile) :
    files.foldl keep kept =
      kept ++ (firstOf nameText files).filter fun f => ∀ g ∈ kept, g.nameText ≠ f.nameText := by
  induction files generalizing kept with
  | nil => simp [firstOf]
  | cons f rest ih =>
    have later := ih fun g mem => plain g (List.mem_cons_of_mem f mem)
    have repeats : Repeats kept f f.nameText ↔ ∃ g ∈ kept, g.nameText = f.nameText :=
      and_iff_right (plain f List.mem_cons_self)
    rw [List.foldl_cons, later, firstOf, keep, List.filter_cons, List.filter_filter]
    by_cases again : ∃ g ∈ kept, g.nameText = f.nameText
    · rw [if_pos (repeats.2 again), if_neg (by simpa using again)]
      congr 1
      refine List.filter_congr fun g _ => ?_
      grind
    · rw [if_neg (mt repeats.1 again), if_pos (by simpa using again), List.append_assoc,
        List.singleton_append]
      congr 2
      refine List.filter_congr fun g _ => ?_
      grind

namespace Writer

variable {w : Writer} {mode : Mode}

theorem countP_warnings_addRecords {files : List GeneratedFile}
    (valid : ∀ f ∈ files, ∃ name, Path.normalize f.nameText = .ok name) (w : Writer) :
    (w.addRecords files).warnings.countP Issue.isDuplicate +
        (w.addRecords files).writer.files.length = w.files.length + files.length := by
  induction files generalizing w with
  | nil => exact Nat.zero_add _
  | cons f rest ih =>
    obtain ⟨name, named⟩ := valid f List.mem_cons_self
    have later := ih (fun g mem => valid g (List.mem_cons_of_mem f mem))
      (w.holding (keep w.files (f.withName name)))
    rw [files_holding] at later
    rw [addRecords_cons_ok named, receive_lenient named]
    simp only [Outcome.warned, List.countP_append, countP_isDuplicate_renamed, List.length_cons]
    rw [keep_withName] at later ⊢
    split_ifs at later ⊢
    · simp only [List.countP_singleton, Issue.isDuplicate, if_true] at later ⊢
      omega
    · simp only [List.countP_nil, List.length_append, List.length_singleton] at later ⊢
      omega

theorem perform_addFiles (opened : w.finalized = false) (mode : Mode) (files : List GeneratedFile) :
    w.perform mode (.addFiles files) =
      ⟨(w.addRecords files).answer.map fun _ => none, (w.addRecords files).warnings,
        w.holding (gather w.files (.addFiles files))⟩ := by
  rw [perform, addFiles_of_open opened, Outcome.map, writer_addRecords]
  rfl

theorem answer_addRecords_of_valid {files : List GeneratedFile}
    (valid : ∀ f ∈ files, ∃ name, Path.normalize f.nameText = .ok name) (w : Writer) :
    (w.addRecords files).answer = .ok () := by
  rw [(stays_addRecords w files).1, canonical_eq_map valid, List.length_map]

structure Addable (f : GeneratedFile) : Prop where
  plain : f.isInsertion = false
  valid : ∃ name, Path.normalize f.nameText = .ok name

variable {ι : Type}

def given (row : List (ι × List GeneratedFile)) : List (ι × GeneratedFile) :=
  row.flatMap fun b => b.2.map fun f => (b.1, f.canonized)

def batches (row : List (ι × List GeneratedFile)) : List Call :=
  row.map fun b => .addFiles b.2

variable {row : List (ι × List GeneratedFile)}

theorem given_cons (b : ι × List GeneratedFile) (row : List (ι × List GeneratedFile)) :
    given (b :: row) = (b.2.map fun f => (b.1, f.canonized)) ++ given row := rfl

theorem records_given (row : List (ι × List GeneratedFile)) :
    (given row).map (·.2) = row.flatMap fun b => b.2.map canonized := by
  rw [given, List.map_flatMap]
  simp only [List.map_map, Function.comp_def]

theorem gathered_batches (addable : ∀ b ∈ row, ∀ f ∈ b.2, Addable f) :
    (batches row).foldl gather [] = (firstOf (·.2.nameText) (given row)).map (·.2) := by
  have plain : ∀ f ∈ (given row).map (·.2), f.isInsertion = false := by
    simp only [records_given, List.mem_flatMap, List.mem_map]
    rintro _ ⟨b, mem, f, mem', rfl⟩
    rw [isInsertion_canonized]
    exact (addable b mem f mem').plain
  have sifted : (batches row).foldl gather [] = ((given row).map (·.2)).foldl keep [] := by
    rw [records_given, List.foldl_flatMap, batches, List.foldl_map]
    refine List.foldl_ext _ _ _ fun kept b mem => ?_
    rw [gather, Call.records, canonical_eq_map fun f mem' => (addable b mem f mem').valid]
  rw [sifted, foldl_keep_plain plain, map_firstOf nameText]
  simp

structure Adds (row : List (ι × List GeneratedFile)) (w : Writer)
    (outcomes : List (Outcome (Option Response))) (v : Writer) : Prop where
  answers : ∀ o ∈ outcomes, o.answer = .ok none
  warnings : (outcomes.flatMap (·.warnings)).countP Issue.isDuplicate + v.files.length =
    w.files.length + (given row).length
  writer : v = w.holding ((batches row).foldl gather w.files)

theorem adds_batches (opened : w.finalized = false) (mode : Mode)
    (addable : ∀ b ∈ row, ∀ f ∈ b.2, Addable f) :
    Adds row w (performAll (perform mode) w (batches row)) (after (perform mode) w (batches row)) := by
  induction row generalizing w with
  | nil => exact ⟨by simp [batches, performAll], by simp [batches, performAll, after, given],
      w.holding_files.symm⟩
  | cons b row ih =>
    have valid := fun f mem => (addable b List.mem_cons_self f mem).valid
    have added := perform_addFiles opened mode b.2
    have first := countP_warnings_addRecords valid w
    rw [answer_addRecords_of_valid valid w] at added
    rw [writer_addRecords] at first
    obtain ⟨answers, warnings, writer⟩ :=
      ih (w := w.holding (gather w.files (.addFiles b.2))) opened
        fun b' mem => addable b' (List.mem_cons_of_mem b mem)
    change Adds (b :: row) w (w.perform mode (.addFiles b.2) ::
      performAll (perform mode) (w.perform mode (.addFiles b.2)).writer (batches row))
        (after (perform mode) (w.perform mode (.addFiles b.2)).writer (batches row))
    rw [added]
    refine ⟨List.forall_mem_cons.2 ⟨rfl, answers⟩, ?_, writer⟩
    simp only [List.flatMap_cons, List.countP_append, given_cons, List.length_append,
      List.length_map]
    have gathered : (gather w.files (.addFiles b.2)).length =
        ((canonical b.2).foldl keep w.files).length := rfl
    simp only [files_holding] at warnings first
    omega

def finished (mode : Mode) (row : List (ι × List GeneratedFile)) : Outcome (Option Response) :=
  (after (perform mode) .new (batches row)).perform mode .finalize

theorem finished_eq (mode : Mode) (addable : ∀ b ∈ row, ∀ f ∈ b.2, Addable f) :
    (finished mode row).answer =
        .ok (some { files := (firstOf (·.2.nameText) (given row)).map (·.2) }) ∧
      (finished mode row).warnings = [] := by
  have reconciled := reconciled_after (w := .new) reconciled_nil mode (batches row)
  have made := (adds_batches (w := .new) rfl mode addable).writer
  rw [show Writer.new.files = [] from rfl, gathered_batches addable] at made
  rw [made] at reconciled
  rw [finished, made, perform_finalize rfl reconciled]
  exact ⟨rfl, rfl⟩

variable [DecidableEq ι] {clients : ι → List (List GeneratedFile)}

/-- Batches in a row, each by one of the clients, in which every client gives its own in its order. -/
def Interleaves (clients : ι → List (List GeneratedFile)) (row : List (ι × List GeneratedFile)) : Prop :=
  ∀ i, (row.filter (·.1 = i)).map (·.2) = clients i

theorem given_project (row : List (ι × List GeneratedFile)) (i : ι) :
    ((given row).filter (·.1 = i)).map (·.2) =
      ((row.filter (·.1 = i)).map (·.2)).flatten.map canonized := by
  induction row with
  | nil => rfl
  | cons b row ih =>
    rw [given_cons, List.filter_append, List.map_append, ih, List.filter_cons]
    by_cases its : b.1 = i
    · simp [its, List.filter_map, Function.comp_def]
    · simp [its, List.filter_map, Function.comp_def]

theorem Interleaves.given_project (h : Interleaves clients row) (i : ι) :
    ((given row).filter (·.1 = i)).map (·.2) = (clients i).flatten.map canonized := by
  rw [Writer.given_project, h i]

theorem Interleaves.mem_given (h : Interleaves clients row) {i : ι} {f : GeneratedFile} :
    (i, f) ∈ given row ↔ f ∈ (clients i).flatten.map canonized := by
  rw [← h.given_project]
  simp

theorem Interleaves.mem_names (h : Interleaves clients row) {name : String} :
    name ∈ (given row).map (·.2.nameText) ↔
      ∃ i, ∃ f ∈ (clients i).flatten.map canonized, f.nameText = name := by
  simp only [← h.mem_given, List.mem_map, Prod.exists]

theorem Interleaves.addable (h : Interleaves clients row)
    (addable : ∀ i, ∀ batch ∈ clients i, ∀ f ∈ batch, Addable f) :
    ∀ b ∈ row, ∀ f ∈ b.2, Addable f := by
  intro b mem
  refine addable b.1 b.2 ?_
  rw [← h b.1]
  exact List.mem_map_of_mem (List.mem_filter.2 ⟨mem, by simp⟩)

/-- Of each canonical name that anyone adds the writer keeps the record that comes first in the row, those
of each client in its order. Every other record is a duplicate that is warned of, and in whatever order the
same batches come between each other, the names in the end are the same. -/
theorem finished_interleaves (mode : Mode) (interleaves : Interleaves clients row)
    (addable : ∀ i, ∀ batch ∈ clients i, ∀ f ∈ batch, Addable f) :
    let added := performAll (perform mode) {} (batches row)
    let kept := firstOf (·.2.nameText) (given row)
    (∀ o ∈ added, o.answer = .ok none) ∧
      (finished mode row).answer = .ok (some { files := kept.map (·.2) }) ∧
      (kept.Sublist (given row) ∧
        ∀ name, kept.filter (·.2.nameText = name) =
          ((given row).find? (·.2.nameText = name)).toList) ∧
      (∀ i, ((kept.filter (·.1 = i)).map (·.2)).Sublist ((clients i).flatten.map canonized)) ∧
      ((added ++ [finished mode row]).flatMap (·.warnings)).countP Issue.isDuplicate +
          ((given row).map (·.2.nameText)).toFinset.card = (given row).length ∧
      ∀ other, Interleaves clients other → ∃ files,
        (finished mode other).answer = .ok (some { files }) ∧
          (files.map nameText).Perm (kept.map (·.2.nameText)) := by
  intro added kept
  have each := interleaves.addable addable
  obtain ⟨answers, warnings, writer⟩ := adds_batches (w := {}) rfl mode each
  obtain ⟨answer, silent⟩ := finished_eq mode each
  rw [writer, gathered_batches each] at warnings
  refine ⟨answers, answer, ⟨firstOf_sublist _, filter_firstOf _⟩, fun i => ?_, ?_, ?_⟩
  · rw [← interleaves.given_project i]
    exact ((firstOf_sublist _).filter _).map _
  · rw [List.flatMap_append, List.flatMap_singleton, silent, List.append_nil, ← length_firstOf]
    simpa using warnings
  · intro other otherInterleaves
    refine ⟨_, (finished_eq mode (otherInterleaves.addable addable)).1, ?_⟩
    rw [List.map_map]
    refine (List.perm_ext_iff_of_nodup (nodup_map_firstOf _) (nodup_map_firstOf _)).2 fun name => ?_
    exact mem_map_firstOf.trans <| otherInterleaves.mem_names.trans <|
      interleaves.mem_names.symm.trans mem_map_firstOf.symm

def sharing : Bool → List (List GeneratedFile)
  | false => [[.new "a" "1"], [.new "b" "2"]]
  | true => [[.new "./b" "3", .new "c" "4"]]

def sharedRow : List (Bool × List GeneratedFile) :=
  [(false, [.new "a" "1"]), (true, [.new "./b" "3", .new "c" "4"]), (false, [.new "b" "2"])]

def turnedRow : List (Bool × List GeneratedFile) :=
  [(false, [.new "a" "1"]), (false, [.new "b" "2"]), (true, [.new "./b" "3", .new "c" "4"])]

theorem finished_interleaves_sharing :
    (Interleaves sharing sharedRow ∧ Interleaves sharing turnedRow ∧
        ∀ i, ∀ batch ∈ sharing i, ∀ f ∈ batch, Addable f) ∧
      (finished .strict sharedRow).answer =
        .ok (some { files := [.new "a" "1", .new "b" "3", .new "c" "4"] }) ∧
      ((performAll (perform .strict) {} (batches sharedRow) ++ [finished .strict sharedRow]).flatMap
          (·.warnings)).countP Issue.isDuplicate + 3 = 4 ∧
      ∃ files, (finished .strict turnedRow).answer = .ok (some { files }) ∧
        (files.map nameText).Perm ["a", "b", "c"] := by
  have shared : Interleaves sharing sharedRow := by rintro (_ | _) <;> rfl
  have turned : Interleaves sharing turnedRow := by rintro (_ | _) <;> rfl
  have addable : ∀ i, ∀ batch ∈ sharing i, ∀ f ∈ batch, Addable f := by
    have named (name content : String) (valid : ∃ n, Path.normalize name = .ok n) :
        Addable (.new name content) := ⟨rfl, valid⟩
    simp only [Bool.forall_bool, sharing, List.forall_mem_cons, List.not_mem_nil, false_implies,
      implies_true, and_true]
    exact ⟨⟨named _ _ ⟨_, rfl⟩, named _ _ ⟨_, rfl⟩⟩, named _ _ ⟨_, rfl⟩, named _ _ ⟨_, rfl⟩⟩
  obtain ⟨-, answer, -, -, duplicates, others⟩ := finished_interleaves .strict shared addable
  exact ⟨⟨shared, turned, addable⟩, answer, duplicates, others turnedRow turned⟩

end Writer

end Response

end CompilerPlugin

import CompilerPlugin.Proofs.Response.Duplicates
import CompilerPlugin.Proofs.Response.NormalForm

namespace CompilerPlugin

namespace GeneratedFile

theorem normalize_of_mem_canonical {files : List GeneratedFile} :
    ∀ f ∈ canonical files, Path.normalize f.nameText = .ok f.nameText := by
  induction files with
  | nil => simp [canonical]
  | cons f rest ih =>
    cases named : Path.normalize f.nameText with
    | error e => simp [canonical_cons_error named]
    | ok name =>
      rw [canonical_cons_ok named]
      intro g mem
      rcases List.mem_cons.1 mem with rfl | mem
      · exact Path.normalize_normalize named
      · exact ih g mem

end GeneratedFile

namespace Response

open GeneratedFile

theorem Reconciled.foldl_keep {kept files : List GeneratedFile} (h : Reconciled kept)
    (canonical : ∀ f ∈ files, Path.normalize f.nameText = .ok f.nameText) :
    Reconciled (files.foldl Response.keep kept) := by
  induction files generalizing kept with
  | nil => exact h
  | cons f rest ih =>
    exact ih (h.keep (canonical f List.mem_cons_self))
      fun g mem => canonical g (List.mem_cons_of_mem f mem)

theorem checkEditions_cases (minimum maximum : Int32) :
    checkEditions minimum maximum = .ok () ∨
      (minimum = 0 ∧ checkEditions minimum maximum = .error .missingMinimum) ∨
      (maximum = 0 ∧ checkEditions minimum maximum = .error .missingMaximum) ∨
      (maximum < minimum ∧
        checkEditions minimum maximum = .error (.invertedEditions minimum maximum)) := by
  rw [checkEditions]
  split
  · simp [*]
  split
  · simp [*]
  split
  · simp [*]
  · simp

namespace Writer

variable {w : Writer} {mode : Mode}

theorem nonzero_getD {α : Type} [DecidableEq α] [OfNat α 0] (a : α) : (nonzero a).getD 0 = a := by
  rw [nonzero]
  split
  · simp [*]
  · rfl

theorem writer_addRecords (w : Writer) (files : List GeneratedFile) :
    (w.addRecords files).writer = w.holding ((canonical files).foldl keep w.files) := by
  induction files generalizing w with
  | nil => exact w.holding_files.symm
  | cons f rest ih =>
    cases named : Path.normalize f.nameText with
    | error e =>
      -- what stood before the refused record has been added all the same
      rw [addRecords_cons_error named, canonical_cons_error named]
      exact w.holding_files.symm
    | ok name =>
      rw [addRecords_cons_ok named, canonical_cons_ok named]
      exact ih (w.holding (keep w.files (f.withName name)))

theorem addRecords_of_reconciled {files : List GeneratedFile} (h : Reconciled (w.files ++ files)) :
    w.addRecords files = .done () (w.holding (w.files ++ files)) := by
  obtain ⟨warnings, result⟩ := addRecords_eq_sift w files
  rw [sift_of_reconciled .lenient h] at warnings result
  obtain ⟨answer, held⟩ := (result (w.files ++ files)).2 rfl
  have writer : (w.addRecords files).writer = w.holding (w.files ++ files) := by
    rw [← held, writer_addRecords, files_holding]
  generalize w.addRecords files = o at answer warnings writer
  cases o
  simp_all only [Outcome.done, Judged.accept]

def Call.records : Call → List GeneratedFile
  | .addFiles files => files
  | _ => []

def gather (kept : List GeneratedFile) (c : Call) : List GeneratedFile :=
  (canonical c.records).foldl keep kept

theorem ifOpen_of_open {α : Type} (opened : w.finalized = false) (o : Outcome α) : w.ifOpen o = o := by
  simp [ifOpen, opened]

theorem ifOpen_of_closed {α : Type} (closed : w.finalized = true) (o : Outcome α) :
    w.ifOpen o = .refused .alreadyFinalized w := by
  simp [ifOpen, closed]

theorem addFiles_of_open (opened : w.finalized = false) (files : List GeneratedFile) :
    w.addFiles files = w.addRecords files :=
  ifOpen_of_open opened _

theorem addFiles_of_closed (closed : w.finalized = true) (files : List GeneratedFile) :
    w.addFiles files = .refused .alreadyFinalized w :=
  ifOpen_of_closed closed _

def Call.mask? : Call → Option UInt64
  | .setFeatures mask => some mask
  | .addFeatures mask => some mask
  | _ => none

/-- What a finalized writer answers. A mask with an unknown bit is refused before the writer is looked
at. -/
def Call.refusal (c : Call) : Error :=
  match c.mask? with
  | none => .alreadyFinalized
  | some mask => if mask ≤ 3 then .alreadyFinalized else .response (.unknownFeatures ⟨mask⟩)

theorem changeFeatures_of_closed (closed : w.finalized = true) (mask : UInt64)
    (f : Features → Features) :
    w.changeFeatures mask f =
      .refused (if mask ≤ 3 then .alreadyFinalized else .response (.unknownFeatures ⟨mask⟩)) w := by
  rw [changeFeatures]
  split_ifs with known
  · obtain ⟨features, parsed⟩ := Features.exists_ofBits known
    rw [parsed]
    exact ifOpen_of_closed closed _
  · rw [Features.ofBits_of_lt (UInt64.not_le.1 known)]

theorem perform_of_closed (closed : w.finalized = true) (mode : Mode) (c : Call) :
    w.perform mode c = .refused c.refusal w := by
  cases c with
  | setFeatures mask | addFeatures mask =>
    rw [perform]
    simp only [setFeatures, addFeatures, changeFeatures_of_closed closed]
    rfl
  | addFiles | setError | supportEditions | setMinimum | setMaximum | finalize =>
    simp only [perform, addFiles, setError, supportEditions, setMinimum, setMaximum, finalize,
      ifOpen_of_closed closed]
    rfl

theorem perform_of_open (opened : w.finalized = false) (mode : Mode) (c : Call) :
    (w.perform mode c).writer.files = gather w.files c ∧
      ((w.perform mode c).writer.finalized = true ↔ c = .finalize) := by
  cases c with
  | addFiles files =>
    simp only [perform, addFiles, ifOpen_of_open opened, Outcome.map, writer_addRecords]
    exact ⟨rfl, by simp [opened]⟩
  | setError message =>
    simp only [perform, setError, ifOpen_of_open opened, Outcome.map, Outcome.done]
    split <;> exact ⟨rfl, by simp [opened]⟩
  | setFeatures mask | addFeatures mask =>
    simp only [perform, setFeatures, addFeatures, changeFeatures, ifOpen_of_open opened]
    cases Features.ofBits mask with
    | error u => exact ⟨rfl, by simp [Outcome.map, Outcome.refused, opened]⟩
    | ok features => exact ⟨rfl, by simp [Outcome.map, Outcome.done, opened]⟩
  | supportEditions | setMinimum | setMaximum =>
    simp only [perform, supportEditions, setMinimum, setMaximum, ifOpen_of_open opened]
    exact ⟨rfl, by simp [Outcome.map, Outcome.done, opened]⟩
  | finalize =>
    simp only [perform, finalize, ifOpen_of_open opened]
    exact ⟨rfl, by simp [Outcome.map]⟩

theorem open_perform (opened : w.finalized = false) (mode : Mode) {c : Call}
    (goesOn : c ≠ .finalize) : (w.perform mode c).writer.finalized = false := by
  rw [Bool.eq_false_iff, ne_eq, (perform_of_open opened mode c).2]
  exact goesOn

theorem reconciled_perform (h : Reconciled w.files) (mode : Mode) (c : Call) :
    Reconciled (w.perform mode c).writer.files := by
  cases state : w.finalized with
  | true => rwa [perform_of_closed state mode c]
  | false =>
    rw [(perform_of_open state mode c).1]
    exact h.foldl_keep normalize_of_mem_canonical

theorem checkSupport_response (w : Writer) :
    w.response.checkSupport =
      if w.features.supportsEditions then checkEditions w.minimum w.maximum else .ok () := by
  rw [checkSupport_of_bits (nonzero_getD w.features.bits)]
  simp only [response, nonzero_getD]

theorem finalize_eq (h : Reconciled w.files) (mode : Mode) :
    w.finalize mode = w.ifOpen
      ⟨(w.response.checkSupport.map fun _ => w.response).mapError .response, [],
        { w with finalized := true }⟩ := by
  -- there is nothing to repair in the records, so the mode goes out of the judgement
  have judged := normalize_of_reconciled mode (r := w.response) h
  simp only [finalize, judged]
  rfl

theorem response_of_finalize {r : Response} (h : Reconciled w.files)
    (made : (w.finalize mode).answer = .ok r) :
    w.finalized = false ∧ w.response.checkSupport = .ok () ∧ r = w.response := by
  rw [finalize_eq h] at made
  cases state : w.finalized with
  | true =>
    rw [ifOpen_of_closed state] at made
    cases made
  | false =>
    rw [ifOpen_of_open state] at made
    cases supported : w.response.checkSupport with
    | error v =>
      rw [supported] at made
      cases made
    | ok =>
      rw [supported] at made
      cases made
      exact ⟨rfl, rfl, rfl⟩

theorem normal_of_finalize {r : Response} (h : Reconciled w.files)
    (made : (w.finalize mode).answer = .ok r) : Reconciled r.files ∧ r.Supported := by
  obtain ⟨-, supported, rfl⟩ := response_of_finalize h made
  exact ⟨h, checkSupport_eq_ok_iff.1 supported⟩

theorem perform_mode (h : Reconciled w.files) (mode other : Mode) (c : Call) :
    w.perform mode c = w.perform other c := by
  cases c with
  | finalize => rw [perform, perform, finalize_eq h, finalize_eq h]
  | addFiles | setError | setFeatures | addFeatures | supportEditions | setMinimum | setMaximum => rfl

theorem performAll_mode (h : Reconciled w.files) (mode other : Mode) (calls : List Call) :
    performAll (perform mode) w calls = performAll (perform other) w calls := by
  induction calls generalizing w with
  | nil => rfl
  | cons c rest ih =>
    rw [performAll, performAll, ih (reconciled_perform h mode c), perform_mode h mode other c]

section

variable {step : Writer → Call → Outcome (Option Response)}

def after (step : Writer → Call → Outcome (Option Response)) (w : Writer) (calls : List Call) :
    Writer :=
  calls.foldl (fun w c => (step w c).writer) w

theorem after_append (w : Writer) (before rest : List Call) :
    after step w (before ++ rest) = after step (after step w before) rest :=
  List.foldl_append

theorem performAll_append (w : Writer) (before rest : List Call) :
    performAll step w (before ++ rest) =
      performAll step w before ++ performAll step (after step w before) rest := by
  induction before generalizing w with
  | nil => rfl
  | cons b before ih => exact congrArg _ (ih (step w b).writer)

theorem getElem?_performAll (w : Writer) (before rest : List Call) (c : Call) :
    (performAll step w (before ++ c :: rest))[before.length]? =
      some (step (after step w before) c) := by
  induction before generalizing w with
  | nil => rfl
  | cons b before ih => exact ih (step w b).writer

end

theorem reconciled_after (h : Reconciled w.files) (mode : Mode) (calls : List Call) :
    Reconciled (after (perform mode) w calls).files := by
  induction calls generalizing w with
  | nil => exact h
  | cons c rest ih => exact ih (reconciled_perform h mode c)

theorem after_of_open (opened : w.finalized = false) (mode : Mode) {calls : List Call}
    (goesOn : .finalize ∉ calls) :
    (after (perform mode) w calls).finalized = false ∧
      (after (perform mode) w calls).files = calls.foldl gather w.files := by
  induction calls generalizing w with
  | nil => exact ⟨opened, rfl⟩
  | cons c rest ih =>
    have still := open_perform opened mode fun same => goesOn (same ▸ List.mem_cons_self)
    obtain ⟨later, gathered⟩ := ih still fun mem => goesOn (List.mem_cons_of_mem c mem)
    rw [(perform_of_open opened mode c).1] at gathered
    exact ⟨later, gathered⟩

theorem perform_finalize (opened : w.finalized = false) (h : Reconciled w.files) (mode : Mode) :
    w.perform mode .finalize =
      ⟨(w.response.checkSupport.map fun _ => some w.response).mapError .response, [],
        { w with finalized := true }⟩ := by
  rw [perform, finalize_eq h, ifOpen_of_open opened, Outcome.map]
  cases w.response.checkSupport <;> rfl

/-- The records that stay of those given to a new writer: of each batch, those before the first that has
no canonical name, in order, each under its canonical name and without repeated plain files. -/
def accumulated (calls : List Call) : List GeneratedFile :=
  calls.foldl gather []

/-- Strict and lenient writers answer and warn alike. When a writer is finalized for the first time it
warns of nothing, and gives all that was added or refuses the range of editions. -/
theorem finalize_refuses_only_editions (calls : List Call) :
    performAll (perform .strict) {} calls = performAll (perform .lenient) {} calls ∧
      ∀ mode before rest, .finalize ∉ before → calls = before ++ .finalize :: rest →
        ∃ o, (performAll (perform mode) {} calls)[before.length]? = some o ∧ o.warnings = [] ∧
          let w := after (perform mode) {} before
          (w.features.supportsEditions ∧
            ((w.minimum = 0 ∧ o.answer = .error (.response .missingMinimum)) ∨
              (w.maximum = 0 ∧ o.answer = .error (.response .missingMaximum)) ∨
              (w.maximum < w.minimum ∧
                o.answer = .error (.response (.invertedEditions w.minimum w.maximum))))) ∨
            ∃ r, o.answer = .ok (some r) ∧ r.files = accumulated before ∧ Reconciled r.files := by
  refine ⟨performAll_mode reconciled_nil .strict .lenient calls, ?_⟩
  rintro mode before rest goesOn rfl
  refine ⟨_, getElem?_performAll {} before rest .finalize, ?_⟩
  obtain ⟨opened, files⟩ := after_of_open (w := {}) rfl mode goesOn
  have reconciled := reconciled_after (w := {}) reconciled_nil mode before
  -- from here on only the features and the bounds of the writer matter, not how it came about
  generalize after (perform mode) {} before = w at opened files reconciled ⊢
  rw [perform_finalize opened reconciled, checkSupport_response]
  refine ⟨rfl, ?_⟩
  split
  · rename_i editions
    rcases checkEditions_cases w.minimum w.maximum with
      fine | ⟨missing, failed⟩ | ⟨missing, failed⟩ | ⟨inverted, failed⟩
    · rw [fine]
      exact .inr ⟨_, rfl, files, reconciled⟩
    · rw [failed]
      exact .inl ⟨editions, .inl ⟨missing, rfl⟩⟩
    · rw [failed]
      exact .inl ⟨editions, .inr (.inl ⟨missing, rfl⟩)⟩
    · rw [failed]
      exact .inl ⟨editions, .inr (.inr ⟨inverted, rfl⟩)⟩
  · exact .inr ⟨_, rfl, files, reconciled⟩

def mixedCalls : List Call :=
  [.addFile "./a" "1",
    .addFiles [.new "a" "2", .insertion "a" "p" "3", .new "/b" "4", .new "c" "5"],
    .supportEditions 1000 1001]

theorem finalize_mixedCalls :
    .finalize ∉ mixedCalls ∧
      accumulated mixedCalls = [.new "a" "1", .insertion "a" "p" "3"] ∧
      ∃ o, (performAll (perform .strict) {} (mixedCalls ++ [.finalize, .setError "late"]))[3]? =
          some o ∧
        o.warnings = [] ∧ ∃ r, o.answer = .ok (some r) ∧ r.files = accumulated mixedCalls := by
  have goesOn : .finalize ∉ mixedCalls := by simp [mixedCalls, Call.addFile]
  have bounds : (after (perform .strict) {} mixedCalls).minimum = 1000 ∧
      (after (perform .strict) {} mixedCalls).maximum = 1001 := ⟨rfl, rfl⟩
  refine ⟨goesOn, rfl, ?_⟩
  obtain ⟨o, outcome, quiet, ⟨-, refused⟩ | ⟨r, answer, files, -⟩⟩ :=
    (finalize_refuses_only_editions (mixedCalls ++ [.finalize, .setError "late"])).2 .strict
      mixedCalls [.setError "late"] goesOn rfl
  · rw [bounds.1, bounds.2] at refused
    exact absurd refused (by simp)
  · exact ⟨o, outcome, quiet, r, answer, files⟩

end Writer

end Response

end CompilerPlugin

import CompilerPlugin.Proofs.Response.Calls
import Mathlib.Data.List.Induction

namespace CompilerPlugin

namespace GeneratedFile

def refusal? (f : GeneratedFile) : Option Response.Violation :=
  match Path.normalize f.nameText with
  | .error e => some (if f.nameText = "" then .emptyName else .invalidPath e)
  | .ok _ => none

variable {f : GeneratedFile}

theorem refusal?_of_error {e : PathError} (named : Path.normalize f.nameText = .error e) :
    f.refusal? = some (if f.nameText = "" then .emptyName else .invalidPath e) := by
  rw [refusal?, named]

theorem refusal?_of_ok {name : String} (named : Path.normalize f.nameText = .ok name) :
    f.refusal? = none := by
  rw [refusal?, named]

end GeneratedFile

namespace Response

namespace Outcome

variable {α β : Type}

def andThen (o : Outcome α) (next : α → Writer → Outcome β) : Outcome β :=
  match o.answer with
  | .error e => ⟨.error e, o.warnings, o.writer⟩
  | .ok a => (next a o.writer).warned o.warnings

theorem warned_andThen (before : List Issue) (o : Outcome α) (next : α → Writer → Outcome β) :
    (o.warned before).andThen next = (o.andThen next).warned before := by
  obtain ⟨_ | _, warnings, writer⟩ := o
  · rfl
  · simp only [andThen, warned, List.append_assoc]

theorem andThen_congr (o : Outcome α) {next other : α → Writer → Outcome β}
    (same : ∀ a, next a o.writer = other a o.writer) : o.andThen next = o.andThen other := by
  obtain ⟨_ | a, warnings, writer⟩ := o
  · rfl
  · exact congrArg (warned warnings) (same a)

end Outcome

namespace Writer

variable {w : Writer} {before : List GeneratedFile} {f : GeneratedFile} {v : Violation}

theorem addRecords_append (w : Writer) (xs ys : List GeneratedFile) :
    w.addRecords (xs ++ ys) = (w.addRecords xs).andThen fun _ v => v.addRecords ys := by
  induction xs generalizing w with
  | nil => rfl
  | cons f rest ih =>
    rw [List.cons_append]
    cases named : Path.normalize f.nameText with
    | error e =>
      rw [addRecords_cons_error named, addRecords_cons_error named]
      rfl
    | ok name => rw [addRecords_cons_ok named, addRecords_cons_ok named, ih, Outcome.warned_andThen]

theorem finalized_addRecords (w : Writer) (files : List GeneratedFile) :
    (w.addRecords files).writer.finalized = w.finalized := by
  rw [writer_addRecords, finalized_holding]

theorem addFiles_append (w : Writer) (xs ys : List GeneratedFile) :
    w.addFiles (xs ++ ys) = (w.addFiles xs).andThen fun _ v => v.addFiles ys := by
  cases state : w.finalized with
  | true =>
    rw [addFiles_of_closed state, addFiles_of_closed state]
    rfl
  | false =>
    rw [addFiles_of_open state, addFiles_of_open state, addRecords_append]
    refine Outcome.andThen_congr _ fun _ => ?_
    rw [addFiles_of_open ((finalized_addRecords w xs).trans state)]

theorem addFiles_eq_foldl (w : Writer) (files : List GeneratedFile) :
    w.addFiles files =
      files.foldl (fun o f => o.andThen fun _ v => v.addFiles [f]) (w.addFiles []) := by
  induction files using List.reverseRecOn with
  | nil => rfl
  | append_singleton before f ih => rw [addFiles_append, ih, List.foldl_append]; rfl

theorem open_of_accepted {files : List GeneratedFile} (accepted : (w.addFiles files).answer = .ok ()) :
    w.finalized = false := by
  rw [Bool.eq_false_iff]
  intro closed
  rw [addFiles_of_closed closed] at accepted
  cases accepted

theorem addRecords_of_refused (refused : f.refusal? = some v) (w : Writer)
    (after : List GeneratedFile) : w.addRecords (f :: after) = .refused (.response v) w := by
  cases named : Path.normalize f.nameText with
  | error e =>
    rw [GeneratedFile.refusal?_of_error named] at refused
    rw [addRecords_cons_error named, Option.some.inj refused]
  | ok name =>
    rw [GeneratedFile.refusal?_of_ok named] at refused
    cases refused

theorem normalize_of_mem_warnings {files : List GeneratedFile} {given name : String}
    (mem : .unnormalizedName given name ∈ (w.addRecords files).warnings) :
    Path.normalize given = .ok name := by
  induction files generalizing w with
  | nil => cases mem
  | cons f rest ih =>
    cases named : Path.normalize f.nameText with
    | error e =>
      rw [addRecords_cons_error named] at mem
      cases mem
    | ok canonical =>
      rw [addRecords_cons_ok named, receive_lenient named, Outcome.warned, renamed] at mem
      rcases List.mem_append.1 mem with own | later
      · have its : given = f.nameText ∧ name = canonical := by
          split_ifs at own <;> simp_all
        rw [its.1, its.2, named]
      · exact ih later

/-- A batch that ends at this record, for this reason: all that it did is what the records before it did,
and nothing is said about the name that was refused. -/
structure StopsAt (w : Writer) (before : List GeneratedFile) (f : GeneratedFile) (v : Violation)
    (o : Outcome Unit) : Prop where
  accepted : (w.addFiles before).answer = .ok ()
  refused : f.refusal? = some v
  outcome : o = { w.addFiles before with answer := .error (.response v) }
  unsaid : ∀ name, .unnormalizedName f.nameText name ∉ o.warnings

theorem stopsAt_of_refused (accepted : (w.addFiles before).answer = .ok ())
    (refused : f.refusal? = some v) (after : List GeneratedFile) :
    StopsAt w before f v (w.addFiles (before ++ f :: after)) := by
  have opened := open_of_accepted accepted
  have ends : w.addFiles (before ++ f :: after) =
      { w.addFiles before with answer := .error (.response v) } := by
    rw [addFiles_of_open opened] at accepted
    rw [addFiles_of_open opened, addFiles_of_open opened, addRecords_append, Outcome.andThen, accepted]
    simp only [addRecords_of_refused refused, Outcome.refused, Outcome.warned, List.append_nil]
  refine ⟨accepted, refused, ends, fun name mem => ?_⟩
  rw [addFiles_of_open opened] at mem
  rw [GeneratedFile.refusal?_of_ok (normalize_of_mem_warnings mem)] at refused
  cases refused

theorem exists_refused {files : List GeneratedFile} (failed : (w.addRecords files).answer ≠ .ok ()) :
    ∃ before f after v, files = before ++ f :: after ∧ (w.addRecords before).answer = .ok () ∧
      f.refusal? = some v := by
  induction files generalizing w with
  | nil => exact absurd rfl failed
  | cons f rest ih =>
    cases named : Path.normalize f.nameText with
    | error e => exact ⟨[], f, rest, _, rfl, rfl, GeneratedFile.refusal?_of_error named⟩
    | ok name =>
      rw [addRecords_cons_ok named] at failed
      obtain ⟨before, g, after, v, rfl, accepted, refused⟩ := ih failed
      refine ⟨f :: before, g, after, v, rfl, ?_, refused⟩
      rw [addRecords_cons_ok named]
      exact accepted

/-- Adding two batches as one is adding the first and then, if it was accepted, the second: the answer,
the warnings in their order and the writer are the same. So a batch is its records one after the other.
It ends at the first record that is refused for its name, of which and of all after it there is no trace. -/
theorem addFiles_one_by_one (w : Writer) :
    (∀ xs ys, w.addFiles (xs ++ ys) = (w.addFiles xs).andThen fun _ v => v.addFiles ys) ∧
      (∀ files, w.addFiles files =
        files.foldl (fun o f => o.andThen fun _ v => v.addFiles [f]) (w.addFiles [])) ∧
      (∀ before f after v, (w.addFiles before).answer = .ok () → f.refusal? = some v →
        StopsAt w before f v (w.addFiles (before ++ f :: after))) ∧
      ∀ files, (w.addFiles files).answer ≠ .ok () →
        w.finalized = true ∨
          ∃ before f after v, files = before ++ f :: after ∧
            StopsAt w before f v (w.addFiles files) := by
  refine ⟨addFiles_append w, addFiles_eq_foldl w,
    fun before f after v accepted refused => stopsAt_of_refused accepted refused after,
    fun files failed => ?_⟩
  cases state : w.finalized with
  | true => exact .inl rfl
  | false =>
    rw [addFiles_of_open state] at failed
    obtain ⟨before, f, after, v, rfl, accepted, refused⟩ := exists_refused failed
    rw [← addFiles_of_open state] at accepted
    exact .inr ⟨before, f, after, v, rfl, stopsAt_of_refused accepted refused after⟩

theorem addFiles_one_by_one_refused :
    let w : Writer := { names := ["a"], files := [.new "a" "1"] }
    let before : List GeneratedFile := [.new "./b" "2", .new "b" "3"]
    ((w.addFiles before).answer = .ok () ∧
        (GeneratedFile.new "/c" "4").refusal? = some (.invalidPath (.absolute "/c"))) ∧
      w.addFiles (before ++ .new "/c" "4" :: [.new "d" "5"]) =
        ⟨.error (.response (.invalidPath (.absolute "/c"))),
          [.unnormalizedName "./b" "b", .duplicateName "b"],
          { names := ["b", "a"], files := [.new "a" "1", .new "b" "2"] }⟩ := by
  intro w before
  have accepted : (w.addFiles before).answer = .ok () := rfl
  have refused : (GeneratedFile.new "/c" "4").refusal? = some (.invalidPath (.absolute "/c")) := rfl
  obtain ⟨-, -, stops, -⟩ := addFiles_one_by_one w
  exact ⟨⟨accepted, refused⟩, (stops before _ [.new "d" "5"] _ accepted refused).outcome⟩

end Writer

end Response

end CompilerPlugin

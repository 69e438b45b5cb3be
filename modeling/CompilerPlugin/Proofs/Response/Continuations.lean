import CompilerPlugin.Response.Normalize
import Mathlib.Data.List.ReduceOption

namespace CompilerPlugin

/-- The texts one after the other; absent if all of them are. -/
def joined (texts : List (Option String)) : Option String :=
  match texts.reduceOption with
  | [] => none
  | text :: more => some (String.join (text :: more))

@[simp] theorem joined_nil : joined [] = none := rfl

theorem joined_cons (text : Option String) (texts : List (Option String)) :
    joined (text :: texts) = text.merge (· ++ ·) (joined texts) := by
  cases text with
  | none =>
    rw [Option.merge_none_left]
    rfl
  | some text =>
    rw [joined, joined, List.reduceOption_cons_of_some]
    cases texts.reduceOption with
    | nil => simp [String.join_cons]
    | cons next more => simp [String.join_cons]

theorem merge_append_assoc (a b c : Option String) :
    (a.merge (· ++ ·) b).merge (· ++ ·) c = a.merge (· ++ ·) (b.merge (· ++ ·) c) := by
  cases a <;> cases b <;> cases c <;> simp [String.append_assoc]

theorem joined_append (texts texts' : List (Option String)) :
    joined (texts ++ texts') = (joined texts).merge (· ++ ·) (joined texts') := by
  induction texts with
  | nil => rw [List.nil_append, joined_nil, Option.merge_none_left]
  | cons text texts ih => rw [List.cons_append, joined_cons, joined_cons, ih, merge_append_assoc]

theorem joined_flatMap {α : Type} (pieces : α → List (Option String)) (l : List α) :
    joined (l.flatMap pieces) = joined (l.map fun a => joined (pieces a)) := by
  induction l with
  | nil => rfl
  | cons a l ih => rw [List.flatMap_cons, joined_append, List.map_cons, joined_cons, ih]

namespace GeneratedFile

def Continues (f : GeneratedFile) : Prop :=
  f.nameText = "" ∧ f.isInsertion = false

theorem named_or_continues (f : GeneratedFile) :
    f.nameText ≠ "" ∨ (f.nameText = "" ∧ f.isInsertion = true) ∨ f.Continues := by
  by_cases named : f.nameText = ""
  · cases patch : f.isInsertion
    · exact .inr (.inr ⟨named, patch⟩)
    · exact .inr (.inl ⟨named, rfl⟩)
  · exact .inl named

def withContent (f : GeneratedFile) (content : Option String) : GeneratedFile :=
  { f with content }

@[simp] theorem nameText_withContent (f : GeneratedFile) (content : Option String) :
    (f.withContent content).nameText = f.nameText := rfl

theorem extend_eq (f : GeneratedFile) (more : Option String) :
    f.extend more = f.withContent (f.content.merge (· ++ ·) more) := by
  obtain ⟨_, _, _ | content, _⟩ := f <;> cases more <;> simp [extend, withContent]

theorem extend_extend (f : GeneratedFile) (a b : Option String) :
    (f.extend a).extend b = f.extend (a.merge (· ++ ·) b) := by
  simp only [extend_eq, withContent, merge_append_assoc]

end GeneratedFile

namespace Response

structure Block where
  lead : GeneratedFile
  rest : List GeneratedFile
  named : lead.nameText ≠ ""
  continues : ∀ f ∈ rest, f.Continues

namespace Block

def records (b : Block) : List GeneratedFile :=
  b.lead :: b.rest

def merged (b : Block) : GeneratedFile :=
  b.lead.withContent (joined (b.records.map (·.content)))

theorem merged_eq (b : Block) : b.merged = b.lead.extend (joined (b.rest.map (·.content))) := by
  rw [merged, records, List.map_cons, joined_cons, GeneratedFile.extend_eq]

end Block

section

variable {current f : GeneratedFile} {files out more : List GeneratedFile}

theorem mergeInto_cons_named (named : f.nameText ≠ "") (rest : List GeneratedFile) :
    mergeInto current (f :: rest) = (mergeInto f rest).map (current :: ·) := by
  rw [mergeInto, if_pos named]

theorem mergeInto_cons_patch (nameless : f.nameText = "") (patch : f.isInsertion = true)
    (rest : List GeneratedFile) : mergeInto current (f :: rest) = .error .insertionWithoutName := by
  rw [mergeInto, if_neg (not_not.2 nameless), if_pos patch]

theorem mergeInto_cons_continues (h : f.Continues) (rest : List GeneratedFile) :
    mergeInto current (f :: rest) = mergeInto (current.extend f.content) rest := by
  rw [mergeInto, if_neg (not_not.2 h.1), if_neg (by simp [h.2])]

theorem mergeContinuations_cons_named (named : f.nameText ≠ "") (rest : List GeneratedFile) :
    mergeContinuations (f :: rest) = mergeInto f rest := by
  rw [mergeContinuations, if_neg named]

theorem mergeInto_append_of_continues (continues : ∀ f ∈ more, f.Continues)
    (files : List GeneratedFile) :
    mergeInto current (more ++ files) =
      mergeInto (current.extend (joined (more.map (·.content)))) files := by
  induction more generalizing current with
  | nil => rfl
  | cons f more ih =>
    rw [List.cons_append, mergeInto_cons_continues (continues f List.mem_cons_self),
      ih fun g mem => continues g (List.mem_cons_of_mem f mem), GeneratedFile.extend_extend,
      List.map_cons, joined_cons]

theorem mergeInto_blocks (current : GeneratedFile) (blocks : List Block) :
    mergeInto current (blocks.flatMap Block.records) = .ok (current :: blocks.map Block.merged) := by
  induction blocks generalizing current with
  | nil => rfl
  | cons b blocks ih =>
    rw [List.flatMap_cons, Block.records, List.cons_append, mergeInto_cons_named b.named,
      mergeInto_append_of_continues b.continues, ← b.merged_eq, ih]
    rfl

theorem mergeContinuations_blocks (blocks : List Block) :
    mergeContinuations (blocks.flatMap Block.records) = .ok (blocks.map Block.merged) := by
  cases blocks with
  | nil => rfl
  | cons b blocks =>
    rw [List.flatMap_cons, Block.records, List.cons_append, mergeContinuations_cons_named b.named,
      mergeInto_append_of_continues b.continues, ← b.merged_eq, mergeInto_blocks, List.map_cons]

theorem exists_blocks_of_mergeInto (made : mergeInto current files = .ok out) :
    ∃ (more : List GeneratedFile) (blocks : List Block),
      (∀ f ∈ more, f.Continues) ∧ files = more ++ blocks.flatMap Block.records := by
  induction files generalizing current out with
  | nil => exact ⟨[], [], List.forall_mem_nil _, rfl⟩
  | cons f rest ih =>
    rcases f.named_or_continues with named | ⟨nameless, patch⟩ | goesOn
    · rw [mergeInto_cons_named named] at made
      cases below : mergeInto f rest with
      | error v =>
        rw [below] at made
        cases made
      | ok out' =>
        obtain ⟨more, blocks, continues, rfl⟩ := ih below
        exact ⟨[], ⟨f, more, named, continues⟩ :: blocks, List.forall_mem_nil _, rfl⟩
    · rw [mergeInto_cons_patch nameless patch] at made
      cases made
    · rw [mergeInto_cons_continues goesOn] at made
      obtain ⟨more, blocks, continues, rfl⟩ := ih made
      exact ⟨f :: more, blocks, List.forall_mem_cons.2 ⟨goesOn, continues⟩, rfl⟩

theorem exists_blocks (made : mergeContinuations files = .ok out) :
    ∃ blocks : List Block, files = blocks.flatMap Block.records := by
  cases files with
  | nil => exact ⟨[], rfl⟩
  | cons f rest =>
    by_cases named : f.nameText = ""
    · rw [mergeContinuations, if_pos named] at made
      cases made
    · rw [mergeContinuations_cons_named named] at made
      obtain ⟨more, blocks, continues, rfl⟩ := exists_blocks_of_mergeInto made
      exact ⟨⟨f, more, named, continues⟩ :: blocks, rfl⟩

theorem mergeContinuations_eq_ok_iff :
    mergeContinuations files = .ok out ↔
      ∃ blocks : List Block, files = blocks.flatMap Block.records ∧ out = blocks.map Block.merged := by
  constructor
  · intro made
    obtain ⟨blocks, rfl⟩ := exists_blocks made
    rw [mergeContinuations_blocks] at made
    cases made
    exact ⟨blocks, rfl, rfl⟩
  · rintro ⟨blocks, rfl, rfl⟩
    exact mergeContinuations_blocks blocks

theorem named_records (blocks : List Block) :
    (blocks.flatMap Block.records).filter (·.nameText ≠ "") = blocks.map Block.lead := by
  induction blocks with
  | nil => rfl
  | cons b blocks ih =>
    have nameless : b.rest.filter (·.nameText ≠ "") = [] := by
      simpa [List.filter_eq_nil_iff] using fun f mem => (b.continues f mem).1
    rw [List.flatMap_cons, List.filter_append, ih, Block.records, List.filter_cons, nameless,
      if_pos (by simpa using b.named), List.map_cons, List.singleton_append]

theorem joined_merged (blocks : List Block) :
    joined ((blocks.map Block.merged).map (·.content)) =
      joined ((blocks.flatMap Block.records).map (·.content)) := by
  rw [List.map_flatMap, joined_flatMap, List.map_map]
  rfl

theorem mergeInto_append_congr {xs ys : List GeneratedFile}
    (same : ∀ current, mergeInto current xs = mergeInto current ys) (before : List GeneratedFile)
    (current : GeneratedFile) : mergeInto current (before ++ xs) = mergeInto current (before ++ ys) := by
  induction before generalizing current with
  | nil => exact same current
  | cons f before ih => simp only [List.cons_append, mergeInto, ih]

variable {first : Option String} {fragments : List GeneratedFile}

theorem extend_withContent (whole : joined (first :: fragments.map (·.content)) = f.content) :
    (f.withContent first).extend (joined (fragments.map (·.content))) = f := by
  rw [joined_cons] at whole
  rw [GeneratedFile.extend_eq]
  exact congrArg f.withContent whole

theorem mergeInto_cut (continues : ∀ g ∈ fragments, g.Continues)
    (whole : joined (first :: fragments.map (·.content)) = f.content) (after : List GeneratedFile)
    (current : GeneratedFile) :
    mergeInto current (f.withContent first :: (fragments ++ after)) = mergeInto current (f :: after) := by
  rcases f.named_or_continues with named | ⟨nameless, patch⟩ | goesOn
  · rw [mergeInto_cons_named named, mergeInto_cons_named (f := f.withContent first) named,
      mergeInto_append_of_continues continues, extend_withContent whole]
  · rw [mergeInto_cons_patch nameless patch,
      mergeInto_cons_patch (f := f.withContent first) nameless patch]
  · rw [mergeInto_cons_continues (f := f.withContent first) goesOn,
      mergeInto_append_of_continues continues, GeneratedFile.extend_extend,
      mergeInto_cons_continues goesOn, ← whole, joined_cons]
    rfl

theorem mergeContinuations_cut (continues : ∀ g ∈ fragments, g.Continues)
    (whole : joined (first :: fragments.map (·.content)) = f.content)
    (before after : List GeneratedFile) :
    mergeContinuations (before ++ f.withContent first :: (fragments ++ after)) =
      mergeContinuations (before ++ f :: after) := by
  cases before with
  | nil =>
    -- the record is itself the first lead, or there is none and both rows are refused
    by_cases named : f.nameText = ""
    · simp [mergeContinuations, named]
    · rw [List.nil_append, List.nil_append, mergeContinuations_cons_named named,
        mergeContinuations_cons_named (f := f.withContent first) named,
        mergeInto_append_of_continues continues, extend_withContent whole]
  | cons lead before =>
    rw [List.cons_append, List.cons_append, mergeContinuations, mergeContinuations,
      mergeInto_append_congr (mergeInto_cut continues whole after)]

theorem mergeInto_append {ys : List GeneratedFile} (named : ∀ f ∈ ys.head?, f.nameText ≠ "")
    (current : GeneratedFile) (xs : List GeneratedFile) :
    mergeInto current (xs ++ ys) =
      (do return (← mergeInto current xs) ++ (← mergeContinuations ys)) := by
  induction xs generalizing current with
  | nil =>
    cases ys with
    | nil => rfl
    | cons f rest =>
      have lead : f.nameText ≠ "" := named f rfl
      rw [List.nil_append, mergeInto_cons_named lead, mergeContinuations_cons_named lead]
      cases mergeInto f rest <;> rfl
  | cons f xs ih =>
    rw [List.cons_append]
    rcases f.named_or_continues with lead | ⟨nameless, patch⟩ | goesOn
    · rw [mergeInto_cons_named lead, mergeInto_cons_named lead, ih]
      cases mergeInto f xs <;> cases mergeContinuations ys <;> rfl
    · rw [mergeInto_cons_patch nameless patch, mergeInto_cons_patch nameless patch]
      rfl
    · rw [mergeInto_cons_continues goesOn, mergeInto_cons_continues goesOn, ih]

theorem mergeContinuations_append {ys : List GeneratedFile} (named : ∀ f ∈ ys.head?, f.nameText ≠ "")
    (xs : List GeneratedFile) :
    mergeContinuations (xs ++ ys) =
      (do return (← mergeContinuations xs) ++ (← mergeContinuations ys)) := by
  cases xs with
  | nil =>
    rw [List.nil_append, mergeContinuations]
    cases mergeContinuations ys <;> rfl
  | cons f xs =>
    rw [List.cons_append, mergeContinuations, mergeContinuations]
    split
    · rfl
    · exact mergeInto_append named f xs

end

/-- Merging succeeds on rows of blocks and makes one record of each, with all that its lead has and the
contents of the whole block. So no content is lost or moved to another place, and neither cutting a
record's content into pieces nor merging a row in parts, each with a record with a name at its start,
makes a difference. -/
theorem mergeContinuations_conserves :
    (∀ files out, mergeContinuations files = .ok out ↔
      ∃ blocks : List Block, files = blocks.flatMap Block.records ∧ out = blocks.map Block.merged) ∧
    (∀ files out, mergeContinuations files = .ok out →
      out.map (·.withContent none) = (files.filter (·.nameText ≠ "")).map (·.withContent none) ∧
        joined (out.map (·.content)) = joined (files.map (·.content))) ∧
    (∀ before f first fragments after, (∀ g ∈ fragments, g.Continues) →
      joined (first :: fragments.map (·.content)) = f.content →
        mergeContinuations (before ++ f.withContent first :: (fragments ++ after)) =
          mergeContinuations (before ++ f :: after)) ∧
    ∀ xs ys, (∀ f ∈ ys.head?, f.nameText ≠ "") →
      mergeContinuations (xs ++ ys) =
        (do return (← mergeContinuations xs) ++ (← mergeContinuations ys)) := by
  refine ⟨fun files out => mergeContinuations_eq_ok_iff, fun files out made => ?_,
    fun before f first fragments after continues whole =>
      mergeContinuations_cut continues whole before after,
    fun xs ys named => mergeContinuations_append named xs⟩
  obtain ⟨blocks, rfl, rfl⟩ := mergeContinuations_eq_ok_iff.1 made
  refine ⟨?_, joined_merged blocks⟩
  rw [named_records, List.map_map, List.map_map]
  rfl

def pieces : List GeneratedFile :=
  [.new "a" "1", .continuation "2", .continuation "", { name := "b", insertionPoint := "p" },
    .continuation "3"]

theorem mergeContinuations_pieces :
    mergeContinuations pieces = .ok [.new "a" "12", .insertion "b" "p" "3"] ∧
      joined (pieces.map (·.content)) = some "123" ∧
      mergeContinuations ([.new "a" "12"] ++ pieces.drop 3) = mergeContinuations pieces ∧
      mergeContinuations (pieces ++ pieces) =
        .ok ([.new "a" "12", .insertion "b" "p" "3"] ++ [.new "a" "12", .insertion "b" "p" "3"]) := by
  have merged : mergeContinuations pieces = .ok [.new "a" "12", .insertion "b" "p" "3"] := rfl
  obtain ⟨-, conserves, cut, append⟩ := mergeContinuations_conserves
  have whole := (conserves _ _ merged).2
  have uncut := cut [] (.new "a" "12") "1" [.continuation "2", .continuation ""] (pieces.drop 3)
    (by simp [GeneratedFile.Continues, GeneratedFile.continuation, GeneratedFile.nameText,
      GeneratedFile.isInsertion]) rfl
  have twice := append pieces pieces (by simp [pieces, GeneratedFile.new, GeneratedFile.nameText])
  rw [merged] at twice
  exact ⟨merged, whole.symm, uncut.symm, twice⟩

end Response

end CompilerPlugin

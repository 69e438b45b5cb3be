import CompilerPlugin.Proofs.Descriptor.Locations
import CompilerPlugin.Proofs.Descriptor.Stripped

namespace CompilerPlugin.Descriptor

inductive Origin where
  | given | new
deriving DecidableEq

/-- A node of a patched tree: a new one, or one of the tree that was patched. -/
structure Made where
  address : Address
  node : Node
  origin : Origin

def Made.ofGiven (e : Address × Node) : Made :=
  ⟨e.1, e.2, .given⟩

namespace Patch

mutual

/-- The nodes of what a patch makes of a node. With a node that is kept all that is below it is kept. -/
def nodes (address : Address) : Patch → Node → List Made
  | keep, n => (n.preorder address).map .ofGiven
  | replace options patches, .mk kind record _ rows =>
    ⟨address, .mk kind record options (applyRows patches rows), .new⟩ :: nodesRows address patches rows

def nodesRows (address : Address) : List (List Patch) → List (Slot × List Node) → List Made
  | patches :: rest, (slot, row) :: rows =>
    nodesRow (address ++ [(slot.tag : Int)]) 0 patches row ++ nodesRows address rest rows
  | _, rows => (Node.preorderRows address rows).map .ofGiven

def nodesRow (address : Address) (index : Nat) : List Patch → List Node → List Made
  | p :: rest, n :: row =>
    p.nodes (address ++ [(index : Int)]) n ++ nodesRow address (index + 1) rest row
  | _, row => (Node.preorderRow address index row).map .ofGiven

end

def placed (es : List Made) : List (Address × Node) :=
  es.map fun e => (e.address, e.node)

def fresh (es : List Made) : List Address :=
  (es.filter (·.origin = .new)).map (·.address)

@[simp] theorem placed_nil : placed [] = [] := rfl

@[simp] theorem placed_cons (e : Made) (es : List Made) :
    placed (e :: es) = (e.address, e.node) :: placed es := rfl

@[simp] theorem placed_append (es more : List Made) : placed (es ++ more) = placed es ++ placed more :=
  List.map_append

@[simp] theorem placed_given (es : List (Address × Node)) : placed (es.map .ofGiven) = es := by
  simp [placed, Made.ofGiven, Function.comp_def]

@[simp] theorem fresh_append (es more : List Made) : fresh (es ++ more) = fresh es ++ fresh more := by
  simp [fresh]

@[simp] theorem fresh_given (es : List (Address × Node)) : fresh (es.map .ofGiven) = [] := by
  simp [fresh, Made.ofGiven, List.filter_map, Function.comp_def]

section

variable {row : List Node} {rows : List (Slot × List Node)}

theorem placed_nodesRow
    (each : ∀ n ∈ row, ∀ (p : Patch) address, placed (p.nodes address n) = (p.apply n).preorder address)
    (patches : List Patch) (address : Address) (index : Nat) :
    placed (nodesRow address index patches row) =
      Node.preorderRow address index (applyRow patches row) := by
  induction row generalizing patches index with
  | nil => cases patches <;> simp [nodesRow, applyRow, Node.preorderRow]
  | cons n row ih =>
    cases patches with
    | nil => simp [nodesRow, applyRow]
    | cons p patches =>
      rw [nodesRow, applyRow, placed_append, Node.preorderRow, each n List.mem_cons_self,
        ih fun m mem => each m (List.mem_cons_of_mem _ mem)]

theorem placed_nodesRows
    (each : ∀ row ∈ rows, ∀ n ∈ row.2, ∀ (p : Patch) address,
      placed (p.nodes address n) = (p.apply n).preorder address)
    (patches : List (List Patch)) (address : Address) :
    placed (nodesRows address patches rows) =
      Node.preorderRows address (applyRows patches rows) := by
  induction rows generalizing patches with
  | nil => cases patches <;> simp [nodesRows, applyRows, Node.preorderRows]
  | cons row rows ih =>
    obtain ⟨slot, row⟩ := row
    cases patches with
    | nil => simp [nodesRows, applyRows]
    | cons first patches =>
      rw [nodesRows, applyRows, placed_append, Node.preorderRows,
        placed_nodesRow (each (slot, row) List.mem_cons_self),
        ih fun row mem => each row (List.mem_cons_of_mem _ mem)]

theorem fresh_nodesRow
    (each : ∀ n ∈ row, ∀ (p : Patch) address, fresh (p.nodes address n) = p.replaced address n)
    (patches : List Patch) (address : Address) (index : Nat) :
    fresh (nodesRow address index patches row) = replacedRow address index patches row := by
  induction row generalizing patches index with
  | nil => cases patches <;> simp [nodesRow, replacedRow]
  | cons n row ih =>
    cases patches with
    | nil => simp [nodesRow, replacedRow]
    | cons p patches =>
      rw [nodesRow, replacedRow, fresh_append, each n List.mem_cons_self,
        ih fun m mem => each m (List.mem_cons_of_mem _ mem)]

theorem fresh_nodesRows
    (each : ∀ row ∈ rows, ∀ n ∈ row.2, ∀ (p : Patch) address,
      fresh (p.nodes address n) = p.replaced address n)
    (patches : List (List Patch)) (address : Address) :
    fresh (nodesRows address patches rows) = replacedRows address patches rows := by
  induction rows generalizing patches with
  | nil => cases patches <;> simp [nodesRows, replacedRows]
  | cons row rows ih =>
    obtain ⟨slot, row⟩ := row
    cases patches with
    | nil => simp [nodesRows, replacedRows]
    | cons first patches =>
      rw [nodesRows, replacedRows, fresh_append, fresh_nodesRow (each (slot, row) List.mem_cons_self),
        ih fun row mem => each row (List.mem_cons_of_mem _ mem)]

end

theorem placed_nodes (p : Patch) (n : Node) (address : Address) :
    placed (p.nodes address n) = (p.apply n).preorder address := by
  induction n using Node.ind generalizing p address with
  | mk kind record options rows ih =>
    cases p with
    | keep => rw [nodes, apply, placed_given]
    | replace options patches => rw [nodes, apply, placed_cons, Node.preorder, placed_nodesRows ih]

theorem fresh_nodes (p : Patch) (n : Node) (address : Address) :
    fresh (p.nodes address n) = p.replaced address n := by
  induction n using Node.ind generalizing p address with
  | mk kind record options rows ih =>
    cases p with
    | keep => rw [nodes, replaced, fresh_given]
    | replace options patches =>
      rw [nodes, replaced, ← fresh_nodesRows ih]
      rfl

end Patch

namespace Node

def made (e : Address × Node) : Made :=
  ⟨e.1, e.2.stripped, if e.2.touched then .new else .given⟩

section

variable {row : List Node} {rows : List (Slot × List Node)}

theorem nodesRow_planRow
    (each : ∀ n ∈ row, ∀ address, n.plan.nodes address n = (n.preorder address).map made)
    (address : Address) (index : Nat) :
    Patch.nodesRow address index (planRow row) row = (preorderRow address index row).map made := by
  induction row generalizing index with
  | nil => rfl
  | cons n row ih =>
    rw [planRow, Patch.nodesRow, preorderRow, List.map_append, each n List.mem_cons_self,
      ih fun m mem => each m (List.mem_cons_of_mem _ mem)]

theorem nodesRows_planRows
    (each : ∀ row ∈ rows, ∀ n ∈ row.2, ∀ address,
      n.plan.nodes address n = (n.preorder address).map made)
    (address : Address) :
    Patch.nodesRows address (planRows rows) rows = (preorderRows address rows).map made := by
  induction rows with
  | nil => rfl
  | cons row rows ih =>
    obtain ⟨slot, row⟩ := row
    rw [planRows, Patch.nodesRows, preorderRows, List.map_append,
      nodesRow_planRow (each (slot, row) List.mem_cons_self),
      ih fun row mem => each row (List.mem_cons_of_mem _ mem)]

end

theorem stripped_of_not_touched {n : Node} (h : n.touched = false) : n.stripped = n := by
  rw [← apply_plan, plan_of_not_touched h, Patch.apply]

theorem nodes_plan (n : Node) (address : Address) :
    n.plan.nodes address n = (n.preorder address).map made := by
  induction n using ind generalizing address with
  | mk kind record options rows ih =>
    cases touched : (mk kind record options rows).touched with
    | true =>
      have head : made (address, mk kind record options rows) =
          ⟨address, (mk kind record options rows).plan.apply (mk kind record options rows), .new⟩ := by
        rw [made, apply_plan, if_pos touched]
      rw [preorder, List.map_cons, head, plan_of_touched touched, ← nodesRows_planRows ih]
      rfl
    | false =>
      rw [plan_of_not_touched touched, Patch.nodes]
      apply List.map_congr_left
      intro e mem
      have untouched := not_touched_of_mem touched mem
      rw [made, stripped_of_not_touched untouched, if_neg (by simp [untouched])]
      rfl

theorem stripped_ne {n : Node} (h : n.touched = true) : n.stripped ≠ n := by
  intro same
  obtain ⟨e, mem, source⟩ := (touched_iff n []).1 h
  have fixed := preorder_stripped n []
  rw [same] at fixed
  have stays := List.map_inj_left.1 (fixed.symm.trans (List.map_id _).symm) e mem
  have options := congrArg (fun e : Address × Node => e.2.options) stays
  rw [options_stripped] at options
  exact not_hasSource_remaining (options ▸ source)

end Node

namespace Tree

def nodes (t : Tree) : List Made :=
  t.patch.nodes [] t.root

theorem nodes_eq (t : Tree) : t.nodes = (t.root.preorder []).map Node.made := by
  rw [nodes, patch_eq, Node.nodes_plan]

theorem patch_eq_keep_iff (t : Tree) : t.patch = .keep ↔ t.root.touched = false := by
  rw [patch_eq]
  cases touched : t.root.touched with
  | true => simp [Node.plan_of_touched touched]
  | false => simp [Node.plan_of_not_touched touched]

theorem infoPatch_eq_keep_iff (t : Tree) :
    t.infoPatch = .keep ↔ t.strip.locations = t.locations := by
  constructor
  · intro keep
    rw [locations, strip]
    rw [keep]
    rfl
  · intro same
    cases h : t.sourceInfo with
    | none => exact infoPatch_of_none h
    | some info =>
      rw [infoPatch_eq h, pruneLocations_eq_keep_iff]
      have messages := messages_strip t
      rw [h, Option.map_some, Option.map_eq_some_iff] at messages
      obtain ⟨info', after, messages⟩ := messages
      unfold locations at same
      rw [after, h, Option.map_some, Option.map_some, Option.some.injEq, messages] at same
      simpa using congrArg List.length same

/-- A node of the stripped tree is new just if an option is removed from it or from one below it, and
then it is another than the one in its place was; all others are the nodes of the tree that was
stripped. So the root stays just if no option goes. The source locations stay just if none of them
goes. -/
theorem sharing_strip (t : Tree) :
    t.nodes.map (fun e => (e.address, e.node)) = t.strip.root.preorder [] ∧
    List.Forall₂ (fun e given =>
        e.address = given.1 ∧
        (e.origin = .new ↔ ∃ below ∈ given.2.preorder given.1, hasSource below.2.options) ∧
        (e.origin = .new → e.node ≠ given.2 ∧ e.node.outline = given.2.outline ∧
          e.node.options = remaining given.2.options) ∧
        (e.origin = .given → e.node = given.2))
      t.nodes (t.root.preorder []) ∧
    t.patch.replaced [] t.root = (t.nodes.filter (·.origin = .new)).map (·.address) ∧
    (t.patch = .keep ↔ ∀ e ∈ t.root.preorder [], ¬ hasSource e.2.options) ∧
    (t.patch = .keep ↔ t.strip.root = t.root) ∧
    (t.infoPatch = .keep ↔ t.strip.locations = t.locations) ∧
    (t.infoPatch = .keep ↔ t.strip.sourceInfo = t.sourceInfo) := by
  refine ⟨Patch.placed_nodes _ _ _, ?_, (Patch.fresh_nodes _ _ _).symm, ?_, ?_, infoPatch_eq_keep_iff t,
    fun keep => ?_, fun same => ?_⟩
  · rw [nodes_eq, List.forall₂_map_left_iff, List.forall₂_same]
    rintro ⟨P, n⟩ -
    rw [Node.made]
    simp only [← Node.touched_iff n P]
    cases touched : n.touched with
    | true =>
      simpa using ⟨Node.stripped_ne touched, Node.outline_stripped n, Node.options_stripped n⟩
    | false => simpa using Node.stripped_of_not_touched touched
  · rw [patch_eq_keep_iff, ← Bool.not_eq_true, Node.touched_iff t.root []]
    simp
  · rw [patch_eq_keep_iff, root_strip]
    constructor
    · exact Node.stripped_of_not_touched
    · intro same
      rw [← Bool.not_eq_true]
      exact fun touched => Node.stripped_ne touched same
  · rw [strip, keep]
    rfl
  · rw [infoPatch_eq_keep_iff, locations, locations, same]

/-- A message that is deprecated and one without options, and where they are and the option is. -/
def halfDeprecated : List UInt8 :=
  [0x22, 0x07, 0x0a, 0x01, 0x4d, 0x3a, 0x02, 0x18, 0x01, 0x22, 0x03, 0x0a, 0x01, 0x4e, 0x4a, 0x14,
   0x0a, 0x04, 0x0a, 0x02, 0x04, 0x00, 0x0a, 0x06, 0x0a, 0x04, 0x04, 0x00, 0x07, 0x03, 0x0a, 0x04,
   0x0a, 0x02, 0x04, 0x01]

def deprecatedMessage : Node :=
  .mk .message [(1, .text "M")] (some ⟨[deprecated]⟩) (Kind.message.arrange [])

def plainMessage : Node :=
  .mk .message [(1, .text "N")] none (Kind.message.arrange [])

def halfDeprecatedTree : Tree where
  root := .mk .file [] none (Kind.file.arrange
    [(⟨4, .message⟩, deprecatedMessage), (⟨4, .message⟩, plainMessage)])
  sourceInfo := some (Message.parts 1
    ([[4, 0], [4, 0, 7, 3], [4, 1]].map fun path => .message [(1, .words path)]))

theorem sharing_strip_halfDeprecated :
    let t := halfDeprecatedTree
    Tree.decode deprecationGoes halfDeprecated = .ok t ∧
      t.patch.replaced [] t.root = [[], [4, 0]] ∧ t.strip.root ≠ t.root ∧
      (∃ e ∈ t.nodes, e.address = [4, 0] ∧ e.origin = .new ∧ e.node ≠ deprecatedMessage ∧
        e.node.options = none) ∧
      (∃ e ∈ t.nodes, e.address = [4, 1] ∧ e.origin = .given ∧ e.node = plainMessage) ∧
      t.strip.locations = some [[4, 0], [4, 1]] ∧ t.strip.sourceInfo ≠ t.sourceInfo := by
  intro t
  obtain ⟨-, nodes, replaced, none, root, locations, info⟩ := sharing_strip t
  obtain ⟨-, each⟩ := List.forall₂_iff_get.1 nodes
  obtain ⟨-, new, changed, -⟩ := each 1 (by decide) (by decide)
  obtain ⟨-, -, -, stays⟩ := each 2 (by decide) (by decide)
  have source : hasSource deprecatedMessage.options := ⟨deprecated, List.mem_cons_self, rfl⟩
  have isNew := new.2 ⟨([4, 0], deprecatedMessage), List.mem_cons_self, source⟩
  have dropped : t.strip.locations = some [[4, 0], [4, 1]] := by decide +kernel
  have before : t.locations = some [[4, 0], [4, 0, 7, 3], [4, 1]] := by decide +kernel
  refine ⟨by decide +kernel, ?_, ?_, ⟨_, List.get_mem _ _, rfl, isNew, (changed isNew).1, (changed isNew).2.2⟩,
    ⟨_, List.get_mem _ _, rfl, rfl, stays rfl⟩, dropped, ?_⟩
  · rw [replaced]
    decide +kernel
  · intro same
    exact none.1 (root.2 same) ([4, 0], deprecatedMessage) (List.mem_of_getElem? (i := 1) rfl) source
  · intro same
    have kept := locations.1 (info.2 same)
    rw [dropped, before] at kept
    exact absurd kept (by decide)

end Tree

end CompilerPlugin.Descriptor

import CompilerPlugin.Proofs.Descriptor.MapOptions
import CompilerPlugin.Proofs.Descriptor.Walk

namespace CompilerPlugin.Descriptor

namespace Node

mutual

def stripped : Node → Node
  | mk kind record options rows => mk kind record (remaining options) (strippedRows rows)

def strippedRows : List (Slot × List Node) → List (Slot × List Node)
  | [] => []
  | (slot, row) :: rows => (slot, strippedRow row) :: strippedRows rows

def strippedRow : List Node → List Node
  | [] => []
  | n :: row => n.stripped :: strippedRow row

end

def outline (n : Node) : Kind × Message × List (Slot × Nat) :=
  (n.kind, n.record, n.rows.map fun row => (row.1, row.2.length))

section

variable {row : List Node} {rows : List (Slot × List Node)}

theorem applyRow_planRow (each : ∀ n ∈ row, n.plan.apply n = n.stripped) :
    Patch.applyRow (planRow row) row = strippedRow row := by
  induction row with
  | nil => rfl
  | cons n row ih =>
    rw [planRow, Patch.applyRow, strippedRow, each n List.mem_cons_self,
      ih fun m mem => each m (List.mem_cons_of_mem _ mem)]

theorem applyRows_planRows (each : ∀ row ∈ rows, ∀ n ∈ row.2, n.plan.apply n = n.stripped) :
    Patch.applyRows (planRows rows) rows = strippedRows rows := by
  induction rows with
  | nil => rfl
  | cons row rows ih =>
    obtain ⟨slot, row⟩ := row
    rw [planRows, Patch.applyRows, strippedRows, applyRow_planRow (each (slot, row) List.mem_cons_self),
      ih fun row mem => each row (List.mem_cons_of_mem _ mem)]

theorem applyRow_kept (row : List Node) : Patch.applyRow (Patch.kept row) row = row := by
  induction row with
  | nil => rfl
  | cons n row ih =>
    rw [Patch.kept] at ih ⊢
    rw [List.map_cons, Patch.applyRow, ih, Patch.apply]

theorem applyRows_keptRows (rows : List (Slot × List Node)) :
    Patch.applyRows (Patch.keptRows rows) rows = rows := by
  induction rows with
  | nil => rfl
  | cons row rows ih =>
    obtain ⟨slot, row⟩ := row
    rw [Patch.keptRows] at ih ⊢
    rw [List.map_cons, Patch.applyRows, applyRow_kept, ih]

end

theorem apply_plan (n : Node) : n.plan.apply n = n.stripped := by
  induction n using Node.ind with
  | mk kind record options rows ih =>
    have below := applyRows_planRows ih
    rw [stripped, ← below]
    cases touched : (mk kind record options rows).touched with
    | true =>
      rw [plan_of_touched touched]
      rfl
    | false =>
      rw [plan_of_not_touched touched]
      simp only [Node.touched, Bool.or_eq_false_iff, decide_eq_false_iff_not] at touched
      rw [planRows_of_not_touched touched.2, applyRows_keptRows, remaining_of_not_hasSource touched.1]
      rfl

theorem strippedRow_eq (row : List Node) : strippedRow row = row.map stripped := by
  induction row with
  | nil => rfl
  | cons n row ih => rw [strippedRow, ih, List.map_cons]

theorem strippedRows_eq (rows : List (Slot × List Node)) :
    strippedRows rows = rows.map fun row => (row.1, row.2.map stripped) := by
  induction rows with
  | nil => rfl
  | cons row rows ih =>
    obtain ⟨slot, row⟩ := row
    rw [strippedRows, ih, strippedRow_eq, List.map_cons]

theorem stripped_eq (n : Node) : n.stripped = n.mapOptions fun _ => remaining := by
  induction n using Node.ind with
  | mk kind record options rows ih =>
    rw [stripped, strippedRows_eq, mapOptions_mk]
    congr 1
    apply List.map_congr_left
    intro row hr
    congr 1
    exact List.map_congr_left fun n hn => ih row hr n hn

theorem outline_stripped (n : Node) : n.stripped.outline = n.outline := by
  simp [stripped_eq, outline, Function.comp_def]

theorem options_stripped (n : Node) : n.stripped.options = remaining n.options := by
  rw [stripped_eq, options_mapOptions]

theorem preorder_stripped (n : Node) (address : Address) :
    n.stripped.preorder address = (n.preorder address).map fun e => (e.1, e.2.stripped) := by
  simp only [stripped_eq, preorder_mapOptions]

end Node

namespace Tree

theorem patch_eq (t : Tree) : t.patch = t.root.plan := by
  rw [patch, walk, Node.strip_eq]

theorem root_strip (t : Tree) : t.strip.root = t.root.stripped := by
  rw [strip, patch_eq]
  exact Node.apply_plan t.root

/-- Stripping takes from every node the options that are kept in source only, and nothing else: the
tree has the nodes it had, where it had them, and each has what remains of its options. -/
theorem preorder_strip (t : Tree) :
    (t.strip.root.preorder []).map (fun e => (e.1, e.2.outline, e.2.options)) =
      (t.root.preorder []).map fun e => (e.1, e.2.outline, remaining e.2.options) := by
  rw [root_strip, Node.preorder_stripped, List.map_map]
  apply List.map_congr_left
  intro e _
  simp only [Function.comp_apply, Node.outline_stripped, Node.options_stripped]

end Tree

end CompilerPlugin.Descriptor

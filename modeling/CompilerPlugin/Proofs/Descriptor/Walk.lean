import CompilerPlugin.Descriptor.Strip
import CompilerPlugin.Proofs.Descriptor.AddressTrie
import CompilerPlugin.Proofs.Descriptor.Preorder
import CompilerPlugin.Proofs.Descriptor.Remaining

/-!
What a walk makes of a tree, told without its state: a node is planned anew as soon as an option at
or below it is kept in source only, and the addresses of what goes are those of each node's options,
parents before their children.
-/

namespace CompilerPlugin.Descriptor

namespace Walk

def collect (addresses : List Address) (w : Walk) : Walk :=
  { w with removed := w.removed.map (AddressTrie.insertAll addresses) }

@[simp] theorem address_collect (addresses : List Address) (w : Walk) :
    (w.collect addresses).address = w.address := rfl

@[simp] theorem collect_nil (w : Walk) : w.collect [] = w := by
  obtain ⟨address, removed⟩ := w
  cases removed <;> rfl

@[simp] theorem collect_collect (addresses more : List Address) (w : Walk) :
    (w.collect addresses).collect more = w.collect (addresses ++ more) := by
  obtain ⟨address, removed⟩ := w
  cases removed <;> simp [collect, AddressTrie.insertAll_append]

/-- An address as a walk comes to write it: each index is the step that was taken for it. -/
def trace : Address → Address
  | tag :: index :: rest => tag :: step index :: trace rest
  | rest => rest

theorem mark_eq (w : Walk) : w.mark = w.collect [w.address] := rfl

theorem enter_eq {α : Type} {step : Int} {act : Walk → α × Walk} {w : Walk} {a : α}
    {addresses : List Address}
    (h : act { w with address := w.address ++ [step] } =
      (a, { w with address := w.address ++ [step] }.collect addresses)) :
    w.enter step act = (a, w.collect addresses) := by
  obtain ⟨address, removed⟩ := w
  simp [enter, h, collect]

theorem foldl_enter_mark (fields : List OptionField) (w : Walk) :
    fields.foldl (fun w f => (w.enter (f.number : Int) fun w => ((), w.mark)).2) w =
      w.collect (fields.map fun f => w.address ++ [(f.number : Int)]) := by
  induction fields generalizing w with
  | nil => simp
  | cons f fields ih =>
    have one : w.enter (f.number : Int) (fun w => ((), w.mark)) =
        ((), w.collect [w.address ++ [(f.number : Int)]]) := enter_eq rfl
    rw [List.foldl_cons, one, ih]
    simp

end Walk

def optionsEdit (options : Option OptionSet) : OptionsEdit :=
  if hasSource options then .changed (remaining options) else .unchanged

theorem stripOptions_eq (options : Option OptionSet) (w : Walk) :
    stripOptions options w = (optionsEdit options, w.collect (removed w.address options)) := by
  cases options with
  | none => simp [stripOptions, optionsEdit, hasSource, removed]
  | some options =>
    rw [stripOptions, optionsEdit, remaining, removed]
    simp only [List.length_eq_zero_iff, List.filter_eq_nil_iff, List.length_filter_eq_length_iff,
      decide_eq_true_eq]
    by_cases none : ∀ f ∈ options.fields, f.retention ≠ .source
    · have absent : ¬ hasSource (some options) := by
        rintro ⟨f, mem, source⟩
        exact none f mem source
      rw [if_pos none, if_neg absent, if_pos none, Walk.collect_nil]
    · have present : hasSource (some options) := by simpa [hasSource] using none
      rw [if_neg none, if_pos present, if_neg none, if_neg none]
      by_cases all : ∀ f ∈ options.fields, f.retention = .source
      · rw [if_pos all, if_pos all, if_pos all, Walk.mark_eq]
      · rw [if_neg all, if_neg all, if_neg all, Walk.foldl_enter_mark]
        rfl

namespace Node

mutual

def touched : Node → Bool
  | mk _ _ options rows => decide (hasSource options) || touchedRows rows

def touchedRows : List (Slot × List Node) → Bool
  | [] => false
  | (_, row) :: rows => touchedRow row || touchedRows rows

def touchedRow : List Node → Bool
  | [] => false
  | n :: row => n.touched || touchedRow row

end

mutual

def plan : Node → Patch
  | mk kind record options rows =>
    if (mk kind record options rows).touched then .replace (remaining options) (planRows rows)
    else .keep

def planRows : List (Slot × List Node) → List (List Patch)
  | [] => []
  | (_, row) :: rows => planRow row :: planRows rows

def planRow : List Node → List Patch
  | [] => []
  | n :: row => n.plan :: planRow row

end

mutual

def removals (address : Address) : Node → List Address
  | mk kind _ options rows =>
    removed (address ++ [(kind.optionsTag : Int)]) options ++ removalsRows address rows

def removalsRows (address : Address) : List (Slot × List Node) → List Address
  | [] => []
  | (slot, row) :: rows =>
    removalsRow (address ++ [(slot.tag : Int)]) 0 row ++ removalsRows address rows

def removalsRow (address : Address) (index : Nat) : List Node → List Address
  | [] => []
  | n :: row => n.removals (address ++ [Walk.step index]) ++ removalsRow address (index + 1) row

end

theorem plan_of_touched {n : Node} (h : n.touched = true) :
    n.plan = .replace (remaining n.options) (planRows n.rows) := by
  obtain ⟨kind, record, options, rows⟩ := n
  rw [plan, if_pos h]
  rfl

theorem plan_of_not_touched {n : Node} (h : n.touched = false) : n.plan = .keep := by
  obtain ⟨kind, record, options, rows⟩ := n
  rw [plan, if_neg (by simp [h])]

theorem planRow_of_not_touched {row : List Node} (h : touchedRow row = false) :
    planRow row = Patch.kept row := by
  induction row with
  | nil => rfl
  | cons n row ih =>
    rw [touchedRow, Bool.or_eq_false_iff] at h
    rw [planRow, plan_of_not_touched h.1, ih h.2]
    rfl

theorem planRows_of_not_touched {rows : List (Slot × List Node)} (h : touchedRows rows = false) :
    planRows rows = Patch.keptRows rows := by
  induction rows with
  | nil => rfl
  | cons row rows ih =>
    obtain ⟨slot, row⟩ := row
    rw [touchedRows, Bool.or_eq_false_iff] at h
    rw [planRows, planRow_of_not_touched h.1, ih h.2]
    rfl

def written (index : Nat) (row : List Node) : Option (List Patch) → Option (List Patch)
  | none => if touchedRow row then some (List.replicate index .keep ++ planRow row) else none
  | some patches => some (patches ++ planRow row)

theorem written_extend (index : Nat) (patches : Option (List Patch)) (n : Node) (row : List Node) :
    written (index + 1) row (extend index patches n.plan) = written index (n :: row) patches := by
  cases patches with
  | some patches => simp [extend, written, planRow]
  | none =>
    cases touched : n.touched with
    | true =>
      rw [plan_of_touched touched]
      simp [extend, written, touchedRow, touched, planRow, plan_of_touched touched]
    | false =>
      rw [plan_of_not_touched touched]
      simp [extend, written, touchedRow, touched, planRow, plan_of_not_touched touched,
        List.replicate_succ']

section

variable {row : List Node} {rows : List (Slot × List Node)}

theorem stripRow_eq
    (each : ∀ n ∈ row, ∀ w : Walk, n.strip w = (n.plan, w.collect (n.removals w.address)))
    (index : Nat) (patches : Option (List Patch)) (w : Walk) :
    stripRow index patches row w =
      (written index row patches, w.collect (removalsRow w.address index row)) := by
  induction row generalizing index patches w with
  | nil =>
    cases patches <;> simp [stripRow, written, touchedRow, planRow, removalsRow]
  | cons n row ih =>
    have one : w.enter (Walk.step index) n.strip =
        (n.plan, w.collect (n.removals (w.address ++ [Walk.step index]))) :=
      Walk.enter_eq (each n List.mem_cons_self _)
    rw [stripRow, one]
    simp only
    rw [ih (fun m mem => each m (List.mem_cons_of_mem _ mem)), written_extend, removalsRow,
      Walk.collect_collect, Walk.address_collect]

theorem stripRows_eq
    (each : ∀ row ∈ rows, ∀ n ∈ row.2, ∀ w : Walk,
      n.strip w = (n.plan, w.collect (n.removals w.address)))
    {kept front : List (List Patch)} {patches : Option (List (List Patch))}
    (here : patches.getD kept = front ++ Patch.keptRows rows) (w : Walk) :
    stripRows kept front.length patches rows w =
      (if patches.isSome || touchedRows rows then some (front ++ planRows rows) else none,
        w.collect (removalsRows w.address rows)) := by
  induction rows generalizing front patches w with
  | nil =>
    cases patches with
    | none => simp [stripRows, touchedRows, removalsRows]
    | some patches =>
      have same : patches = front := by simpa [Patch.keptRows] using here
      simp [stripRows, planRows, removalsRows, same]
  | cons row rows ih =>
    obtain ⟨slot, row⟩ := row
    have one : w.enter (slot.tag : Int) (stripRow 0 none row) =
        (written 0 row none, w.collect (removalsRow (w.address ++ [(slot.tag : Int)]) 0 row)) :=
      Walk.enter_eq (stripRow_eq (each (slot, row) List.mem_cons_self) 0 none _)
    have each' := fun row mem => each row (List.mem_cons_of_mem _ mem)
    rw [stripRows, one, removalsRows]
    simp only
    cases touched : touchedRow row with
    | true =>
      -- The copy made here holds the rows still to come as they are.
      have placed : (place kept front.length patches (written 0 row none)).getD kept =
          (front ++ [planRow row]) ++ Patch.keptRows rows := by
        rw [written, if_pos touched]
        simp [place, here, Patch.keptRows]
      have isSome : (place kept front.length patches (written 0 row none)).isSome = true := by
        rw [written, if_pos touched]
        rfl
      have length : front.length + 1 = (front ++ [planRow row]).length := by simp
      rw [length, ih each' placed, isSome]
      simp [touchedRows, touched, planRows]
    | false =>
      have placed : (place kept front.length patches (written 0 row none)) = patches := by
        rw [written, if_neg (by simp [touched])]
        cases patches <;> rfl
      have here' : patches.getD kept = (front ++ [planRow row]) ++ Patch.keptRows rows := by
        rw [here, planRow_of_not_touched touched]
        simp [Patch.keptRows]
      have length : front.length + 1 = (front ++ [planRow row]).length := by simp
      rw [placed, length, ih each' here']
      simp [touchedRows, touched, planRows]

end

/-- The walk keeps no more state than it returns: it plans the tree and collects the addresses of what
goes, and ends where it began. -/
theorem strip_eq (n : Node) (w : Walk) : n.strip w = (n.plan, w.collect (n.removals w.address)) := by
  induction n using Node.ind generalizing w with
  | mk kind record options rows ih =>
    have own : w.enter (kind.optionsTag : Int) (stripOptions options) =
        (optionsEdit options, w.collect (removed (w.address ++ [(kind.optionsTag : Int)]) options)) :=
      Walk.enter_eq (stripOptions_eq options _)
    have below (w : Walk) : stripRows (Patch.keptRows rows) 0 none rows w =
        (if touchedRows rows then some (planRows rows) else none,
          w.collect (removalsRows w.address rows)) :=
      stripRows_eq ih (show none.getD (Patch.keptRows rows) = [] ++ Patch.keptRows rows from rfl) w
    rw [strip, own, removals]
    simp only
    rw [below, Walk.collect_collect, Walk.address_collect]
    congr 1
    -- A node is new for its own options or for its rows; in the second case its options stay.
    rw [optionsEdit]
    cases touched : touchedRows rows with
    | true =>
      rw [plan_of_touched (by simp [Node.touched, touched])]
      by_cases source : hasSource options
      · simp [source, patch, Node.options, Node.rows]
      · simp [source, patch, Node.options, Node.rows, remaining_of_not_hasSource source]
    | false =>
      by_cases source : hasSource options
      · rw [plan_of_touched (by simp [Node.touched, source])]
        simp [source, patch, Node.options, Node.rows, planRows_of_not_touched touched]
      · rw [plan_of_not_touched (by simp [Node.touched, source, touched])]
        simp [source, patch]

section

variable {row : List Node} {rows : List (Slot × List Node)}

theorem touchedRow_iff (each : ∀ n ∈ row, ∀ address,
      n.touched = true ↔ ∃ e ∈ n.preorder address, hasSource e.2.options)
    (address : Address) (index : Nat) :
    touchedRow row = true ↔ ∃ e ∈ preorderRow address index row, hasSource e.2.options := by
  induction row generalizing index with
  | nil => simp [touchedRow, preorderRow]
  | cons n row ih =>
    have rest := ih (fun m mem => each m (List.mem_cons_of_mem _ mem)) (index + 1)
    rw [touchedRow, Bool.or_eq_true, each n List.mem_cons_self (address ++ [(index : Int)]), rest,
      preorderRow]
    simp only [List.mem_append, or_and_right, exists_or]

theorem touchedRows_iff (each : ∀ row ∈ rows, ∀ n ∈ row.2, ∀ address,
      n.touched = true ↔ ∃ e ∈ n.preorder address, hasSource e.2.options)
    (address : Address) :
    touchedRows rows = true ↔ ∃ e ∈ preorderRows address rows, hasSource e.2.options := by
  induction rows with
  | nil => simp [touchedRows, preorderRows]
  | cons row rows ih =>
    obtain ⟨slot, row⟩ := row
    have first := touchedRow_iff (each (slot, row) List.mem_cons_self) (address ++ [(slot.tag : Int)]) 0
    rw [touchedRows, Bool.or_eq_true, first, ih fun row mem => each row (List.mem_cons_of_mem _ mem),
      preorderRows]
    simp only [List.mem_append, or_and_right, exists_or]

end

theorem touched_iff (n : Node) (address : Address) :
    n.touched = true ↔ ∃ e ∈ n.preorder address, hasSource e.2.options := by
  induction n using Node.ind generalizing address with
  | mk kind record options rows ih =>
    rw [touched, Bool.or_eq_true, touchedRows_iff ih address, preorder]
    simp [Node.options]

theorem not_touched_of_mem {n : Node} {address : Address} (h : n.touched = false)
    {e : Address × Node} (mem : e ∈ n.preorder address) : e.2.touched = false := by
  obtain ⟨P, m⟩ := e
  cases touched : m.touched with
  | false => rfl
  | true =>
    obtain ⟨e, below, source⟩ := (touched_iff m P).1 touched
    have above : n.touched = true := (touched_iff n address).2 ⟨e, preorder_subset mem below, source⟩
    rw [h] at above
    cases above

section

variable {row : List Node} {rows : List (Slot × List Node)}

theorem mem_removalsRow
    (each : ∀ n ∈ row, ∀ address a, a ∈ n.removals address ↔
      ∃ P m, n.At P m ∧ a ∈ removed (address ++ Walk.trace P ++ [(m.kind.optionsTag : Int)]) m.options)
    {address a : Address} {index : Nat} :
    a ∈ removalsRow address index row ↔
      ∃ i c P m, row[i]? = some c ∧ c.At P m ∧
        a ∈ removed (address ++ Walk.step ((index + i : Nat) : Int) :: Walk.trace P ++
          [(m.kind.optionsTag : Int)]) m.options := by
  induction row generalizing index with
  | nil => simp [removalsRow]
  | cons n row ih =>
    rw [removalsRow, List.mem_append, each n List.mem_cons_self,
      ih fun c mem => each c (List.mem_cons_of_mem _ mem)]
    constructor
    · rintro (⟨P, m, at_, ha⟩ | ⟨i, c, P, m, hc, at_, ha⟩)
      · exact ⟨0, n, P, m, rfl, at_, by simpa using ha⟩
      · exact ⟨i + 1, c, P, m, hc, at_, by rwa [show index + (i + 1) = index + 1 + i by omega]⟩
    · rintro ⟨i, c, P, m, hc, at_, ha⟩
      cases i with
      | zero =>
        cases hc
        exact .inl ⟨P, m, at_, by simpa using ha⟩
      | succ i =>
        exact .inr ⟨i, c, P, m, hc, at_, by rwa [show index + 1 + i = index + (i + 1) by omega]⟩

theorem mem_removalsRows
    (each : ∀ row ∈ rows, ∀ n ∈ row.2, ∀ address a, a ∈ n.removals address ↔
      ∃ P m, n.At P m ∧ a ∈ removed (address ++ Walk.trace P ++ [(m.kind.optionsTag : Int)]) m.options)
    {address a : Address} :
    a ∈ removalsRows address rows ↔
      ∃ slot row, ∃ i : Nat, ∃ c P m, (slot, row) ∈ rows ∧ row[i]? = some c ∧ c.At P m ∧
        a ∈ removed (address ++ (slot.tag : Int) :: Walk.step i :: Walk.trace P ++
          [(m.kind.optionsTag : Int)]) m.options := by
  induction rows with
  | nil => simp [removalsRows]
  | cons row rows ih =>
    obtain ⟨slot, row⟩ := row
    rw [removalsRows, List.mem_append, mem_removalsRow (each (slot, row) List.mem_cons_self),
      ih fun row mem => each row (List.mem_cons_of_mem _ mem)]
    constructor
    · rintro (⟨i, c, P, m, hc, at_, ha⟩ | ⟨slot', row', i, c, P, m, mem, hc, at_, ha⟩)
      · exact ⟨slot, row, i, c, P, m, List.mem_cons_self, hc, at_, by simpa using ha⟩
      · exact ⟨slot', row', i, c, P, m, List.mem_cons_of_mem _ mem, hc, at_, ha⟩
    · rintro ⟨slot', row', i, c, P, m, mem, hc, at_, ha⟩
      rcases List.mem_cons.1 mem with eq | mem
      · cases eq
        exact .inl ⟨i, c, P, m, hc, at_, by simpa using ha⟩
      · exact .inr ⟨slot', row', i, c, P, m, mem, hc, at_, ha⟩

end

theorem mem_removals {n : Node} {address a : Address} :
    a ∈ n.removals address ↔
      ∃ P m, n.At P m ∧
        a ∈ removed (address ++ Walk.trace P ++ [(m.kind.optionsTag : Int)]) m.options := by
  induction n using ind generalizing address a with
  | mk kind record options rows ih =>
    rw [removals, List.mem_append, mem_removalsRows fun row hr n hn _ _ => ih row hr n hn]
    constructor
    · rintro (ha | ⟨slot, row, i, c, P, m, mem, hc, at_, ha⟩)
      · exact ⟨[], _, .here, by simpa [Walk.trace, Node.kind, Node.options] using ha⟩
      · exact ⟨_, m, .child mem hc at_, ha⟩
    · rintro ⟨P, m, at_, ha⟩
      cases at_ with
      | here => exact .inl (by simpa [Walk.trace, Node.kind, Node.options] using ha)
      | child mem hc at_ => exact .inr ⟨_, _, _, _, _, m, mem, hc, at_, ha⟩

theorem removals_of_not_touched {n : Node} (h : n.touched = false) (address : Address) :
    n.removals address = [] := by
  refine List.eq_nil_iff_forall_not_mem.2 fun a mem => ?_
  obtain ⟨P, m, at_, ha⟩ := mem_removals.1 mem
  have own := not_touched_of_mem h (mem_preorder_nil.2 at_)
  have source : ¬ hasSource m.options := by
    obtain ⟨kind, record, options, rows⟩ := m
    rw [touched, Bool.or_eq_false_iff, decide_eq_false_iff_not] at own
    exact own.1
  rw [removed_of_not_hasSource source] at ha
  cases ha

end Node

end CompilerPlugin.Descriptor

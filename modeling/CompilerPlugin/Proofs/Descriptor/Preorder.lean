import CompilerPlugin.Descriptor.Node

namespace CompilerPlugin.Descriptor.Node

theorem ind {P : Node → Prop}
    (mk : ∀ kind record options rows, (∀ row ∈ rows, ∀ n ∈ row.2, P n) →
      P (.mk kind record options rows)) : ∀ n, P n
  | .mk kind record options rows => mk kind record options rows fun row _ n _ => ind mk n
termination_by n => sizeOf n
decreasing_by
  have inRow := List.sizeOf_lt_of_mem ‹n ∈ row.2›
  have inRows := List.sizeOf_lt_of_mem ‹row ∈ rows›
  obtain ⟨slot, nodes⟩ := row
  simp only [Node.mk.sizeOf_spec, Prod.mk.sizeOf_spec] at *
  omega

inductive At : Node → Address → Node → Prop
  | here {n} : At n [] n
  | child {n slot row rest m} {i : Nat} {c : Node} :
      (slot, row) ∈ n.rows → row[i]? = some c → At c rest m →
      At n ((slot.tag : Int) :: (i : Int) :: rest) m

theorem At.trans {n m k : Node} {P Q : Address} (h : n.At P m) (h' : m.At Q k) : n.At (P ++ Q) k := by
  induction h with
  | here => exact h'
  | child slot child _ ih => exact .child slot child (ih h')

section

variable {row : List Node} {rows : List (Slot × List Node)}

theorem mem_preorderRow
    (each : ∀ n ∈ row, ∀ address P m,
      (P, m) ∈ n.preorder address ↔ ∃ rest, P = address ++ rest ∧ n.At rest m)
    {address P : Address} {index : Nat} {m : Node} :
    (P, m) ∈ preorderRow address index row ↔
      ∃ i c rest, row[i]? = some c ∧ P = address ++ ((index + i : Nat) : Int) :: rest ∧ c.At rest m := by
  induction row generalizing index with
  | nil => simp [preorderRow]
  | cons n row ih =>
    rw [preorderRow, List.mem_append, each n List.mem_cons_self,
      ih fun c mem => each c (List.mem_cons_of_mem _ mem)]
    constructor
    · rintro (⟨rest, rfl, at_⟩ | ⟨i, c, rest, hc, rfl, at_⟩)
      · exact ⟨0, n, rest, rfl, by simp, at_⟩
      · exact ⟨i + 1, c, rest, hc, by rw [show index + (i + 1) = index + 1 + i by omega], at_⟩
    · rintro ⟨i, c, rest, hc, rfl, at_⟩
      cases i with
      | zero =>
        cases hc
        exact .inl ⟨rest, by simp, at_⟩
      | succ i =>
        exact .inr ⟨i, c, rest, hc, by rw [show index + (i + 1) = index + 1 + i by omega], at_⟩

theorem mem_preorderRows
    (each : ∀ row ∈ rows, ∀ n ∈ row.2, ∀ address P m,
      (P, m) ∈ n.preorder address ↔ ∃ rest, P = address ++ rest ∧ n.At rest m)
    {address P : Address} {m : Node} :
    (P, m) ∈ preorderRows address rows ↔
      ∃ slot row, ∃ i : Nat, ∃ c rest, (slot, row) ∈ rows ∧ row[i]? = some c ∧
        P = address ++ (slot.tag : Int) :: (i : Int) :: rest ∧ c.At rest m := by
  induction rows with
  | nil => simp [preorderRows]
  | cons row rows ih =>
    obtain ⟨slot, row⟩ := row
    rw [preorderRows, List.mem_append, mem_preorderRow (each (slot, row) List.mem_cons_self),
      ih fun row mem => each row (List.mem_cons_of_mem _ mem)]
    constructor
    · rintro (⟨i, c, rest, hc, rfl, at_⟩ | ⟨slot', row', i, c, rest, mem, hc, rfl, at_⟩)
      · exact ⟨slot, row, i, c, rest, List.mem_cons_self, hc, by simp, at_⟩
      · exact ⟨slot', row', i, c, rest, List.mem_cons_of_mem _ mem, hc, rfl, at_⟩
    · rintro ⟨slot', row', i, c, rest, mem, hc, rfl, at_⟩
      rcases List.mem_cons.1 mem with eq | mem
      · cases eq
        exact .inl ⟨i, c, rest, hc, by simp, at_⟩
      · exact .inr ⟨slot', row', i, c, rest, mem, hc, rfl, at_⟩

end

theorem mem_preorder {n m : Node} {address P : Address} :
    (P, m) ∈ n.preorder address ↔ ∃ rest, P = address ++ rest ∧ n.At rest m := by
  induction n using ind generalizing address P m with
  | mk kind record options rows ih =>
    rw [preorder, List.mem_cons, mem_preorderRows fun row hr n hn _ _ _ => ih row hr n hn]
    constructor
    · rintro (eq | ⟨slot, row, i, c, rest, mem, hc, rfl, at_⟩)
      · cases eq
        exact ⟨[], by simp, .here⟩
      · exact ⟨_, rfl, .child mem hc at_⟩
    · rintro ⟨rest, rfl, at_⟩
      cases at_ with
      | here => exact .inl (by simp)
      | child mem hc at_ => exact .inr ⟨_, _, _, _, _, mem, hc, rfl, at_⟩

theorem mem_preorder_nil {n m : Node} {P : Address} : (P, m) ∈ n.preorder [] ↔ n.At P m := by
  simp [mem_preorder]

theorem preorder_subset {n m : Node} {address P : Address} (mem : (P, m) ∈ n.preorder address) :
    m.preorder P ⊆ n.preorder address := by
  rintro ⟨Q, k⟩ below
  obtain ⟨rest, rfl, hm⟩ := mem_preorder.1 mem
  obtain ⟨rest', rfl, hk⟩ := mem_preorder.1 below
  exact mem_preorder.2 ⟨rest ++ rest', by simp, hm.trans hk⟩

end CompilerPlugin.Descriptor.Node

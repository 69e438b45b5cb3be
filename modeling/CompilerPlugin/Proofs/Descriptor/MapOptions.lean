import CompilerPlugin.Proofs.Descriptor.Preorder

namespace CompilerPlugin.Descriptor.Node

mutual

def mapOptions (f : Kind → Option OptionSet → Option OptionSet) : Node → Node
  | mk kind record options rows => mk kind record (f kind options) (mapOptionsRows f rows)

def mapOptionsRows (f : Kind → Option OptionSet → Option OptionSet) :
    List (Slot × List Node) → List (Slot × List Node)
  | [] => []
  | (slot, row) :: rows => (slot, mapOptionsRow f row) :: mapOptionsRows f rows

def mapOptionsRow (f : Kind → Option OptionSet → Option OptionSet) : List Node → List Node
  | [] => []
  | n :: row => n.mapOptions f :: mapOptionsRow f row

end

variable {f g : Kind → Option OptionSet → Option OptionSet}

theorem mapOptionsRow_eq (row : List Node) : mapOptionsRow f row = row.map (mapOptions f) := by
  induction row with
  | nil => rfl
  | cons n row ih => rw [mapOptionsRow, ih, List.map_cons]

theorem mapOptionsRows_eq (rows : List (Slot × List Node)) :
    mapOptionsRows f rows = rows.map fun row => (row.1, row.2.map (mapOptions f)) := by
  induction rows with
  | nil => rfl
  | cons row rows ih =>
    obtain ⟨slot, row⟩ := row
    rw [mapOptionsRows, ih, mapOptionsRow_eq, List.map_cons]

theorem mapOptions_mk (kind : Kind) (record : Message) (options : Option OptionSet)
    (rows : List (Slot × List Node)) :
    (mk kind record options rows).mapOptions f =
      mk kind record (f kind options) (rows.map fun row => (row.1, row.2.map (mapOptions f))) := by
  rw [mapOptions, mapOptionsRows_eq]

@[simp] theorem kind_mapOptions (n : Node) : (n.mapOptions f).kind = n.kind := by
  cases n
  rw [mapOptions_mk]
  rfl

@[simp] theorem record_mapOptions (n : Node) : (n.mapOptions f).record = n.record := by
  cases n
  rw [mapOptions_mk]
  rfl

@[simp] theorem options_mapOptions (n : Node) : (n.mapOptions f).options = f n.kind n.options := by
  cases n
  rw [mapOptions_mk]
  rfl

@[simp] theorem rows_mapOptions (n : Node) :
    (n.mapOptions f).rows = n.rows.map fun row => (row.1, row.2.map (mapOptions f)) := by
  cases n
  rw [mapOptions_mk]
  rfl

theorem slots_mapOptions (n : Node) : (n.mapOptions f).rows.map (·.1) = n.rows.map (·.1) := by
  rw [rows_mapOptions, List.map_map]
  rfl

theorem exists_of_mem_rows_mapOptions {n c : Node} {row : Slot × List Node}
    (hr : row ∈ (n.mapOptions f).rows) (hc : c ∈ row.2) :
    ∃ row' ∈ n.rows, row'.1 = row.1 ∧ ∃ c' ∈ row'.2, c'.mapOptions f = c := by
  rw [rows_mapOptions] at hr
  obtain ⟨row', hr', rfl⟩ := List.mem_map.1 hr
  exact ⟨row', hr', rfl, List.mem_map.1 hc⟩

theorem mapOptions_mapOptions (n : Node) :
    (n.mapOptions f).mapOptions g = n.mapOptions fun kind options => g kind (f kind options) := by
  induction n using Node.ind with
  | mk kind record options rows ih =>
    simp only [mapOptions_mk, List.map_map, Function.comp_def]
    congr 1
    apply List.map_congr_left
    intro row hr
    congr 1
    exact List.map_congr_left fun n hn => ih row hr n hn

theorem preorderRow_map {row : List Node}
    (each : ∀ n ∈ row, ∀ address,
      (n.mapOptions f).preorder address = (n.preorder address).map fun e => (e.1, e.2.mapOptions f))
    (address : Address) (index : Nat) :
    preorderRow address index (row.map (mapOptions f)) =
      (preorderRow address index row).map fun e => (e.1, e.2.mapOptions f) := by
  induction row generalizing index with
  | nil => rfl
  | cons n row ih =>
    rw [List.map_cons, preorderRow, preorderRow, List.map_append, each n List.mem_cons_self,
      ih fun m mem => each m (List.mem_cons_of_mem _ mem)]

theorem preorderRows_map {rows : List (Slot × List Node)}
    (each : ∀ row ∈ rows, ∀ n ∈ row.2, ∀ address,
      (n.mapOptions f).preorder address = (n.preorder address).map fun e => (e.1, e.2.mapOptions f))
    (address : Address) :
    preorderRows address (rows.map fun row => (row.1, row.2.map (mapOptions f))) =
      (preorderRows address rows).map fun e => (e.1, e.2.mapOptions f) := by
  induction rows with
  | nil => rfl
  | cons row rows ih =>
    obtain ⟨slot, row⟩ := row
    rw [List.map_cons, preorderRows, preorderRows, List.map_append,
      preorderRow_map (each (slot, row) List.mem_cons_self),
      ih fun row mem => each row (List.mem_cons_of_mem _ mem)]

theorem preorder_mapOptions (n : Node) (address : Address) :
    (n.mapOptions f).preorder address = (n.preorder address).map fun e => (e.1, e.2.mapOptions f) := by
  induction n using Node.ind generalizing address with
  | mk kind record options rows ih =>
    rw [mapOptions_mk, preorder, preorder, preorderRows_map ih, List.map_cons, mapOptions_mk]

end CompilerPlugin.Descriptor.Node

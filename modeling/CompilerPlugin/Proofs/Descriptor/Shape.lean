import CompilerPlugin.Proofs.Descriptor.FromRow
import CompilerPlugin.Proofs.Descriptor.Preorder
import Mathlib.Data.List.Nodup

namespace CompilerPlugin.Descriptor

open Wire

inductive Node.Shaped : Node → Prop
  | mk {kind record options rows} :
      rows.map (·.1) = kind.slots →
      (∀ o, options = some o → (o.fields.map (·.number)).Nodup) →
      (∀ row ∈ rows, ∀ n ∈ row.2, Node.Shaped n) → Node.Shaped (.mk kind record options rows)

theorem OptionSet.nodup_ofEntries (resolve : Resolver) (kind : Kind) (es : List Entry) :
    ((ofEntries resolve kind es).fields.map (·.number)).Nodup := by
  have numbers : (ofEntries resolve kind es).fields.map (·.number) =
      (es.map (·.key.number)).eraseDups := by
    simp [ofEntries, Function.comp_def]
  rw [numbers]
  exact nodup_eraseDups _

theorem nodup_of_readOptions {kind : Kind} {resolve : Resolver} {es : List Entry}
    {options : Option OptionSet} (h : kind.readOptions resolve es = .ok options) :
    ∀ o, options = some o → (o.fields.map (·.number)).Nodup := by
  rintro o rfl
  rcases readOptions_eq_ok_iff.1 h with ⟨-, absent⟩ | ⟨-, row, -, same⟩
  · cases absent
  · obtain rfl := Option.some.inj same
    exact OptionSet.nodup_ofEntries resolve kind row

namespace Node

theorem shaped_of_decode {resolve : Resolver} {kind : Kind} {bytes : List UInt8} {n : Node}
    (h : decode resolve kind bytes = .ok n) : n.Shaped := by
  refine decode_induction (P := fun _ _ n => n.Shaped) ?_ h
  intro kind es n row ih
  have below : ∀ r ∈ n.rows, ∀ c ∈ r.2, c.Shaped := by
    intro r hr c hc
    obtain ⟨child, mem, -, rfl⟩ := row.mem_rows hr hc
    exact ih child mem
  have slots := row.kind_eq ▸ row.slots
  have nodup := nodup_of_readOptions row.options
  obtain ⟨kind, record, options, rows⟩ := n
  exact .mk slots nodup below

theorem length_row_le {resolve : Resolver} {kind : Kind} {bytes : List UInt8} {n m : Node} {P : Address}
    (h : decode resolve kind bytes = .ok n) (at_ : n.At P m) :
    ∀ row ∈ m.rows, 2 * row.2.length ≤ bytes.length := by
  refine decode_induction (P := fun _ bytes n => ∀ P m, n.At P m → ∀ row ∈ m.rows,
    2 * row.2.length ≤ bytes.length) ?_ h P m at_
  intro kind es n fromRow ih P m at_ row hr
  cases at_ with
  | here => exact fromRow.length_row_le hr
  | child inRows at_ below =>
    obtain ⟨child, mem, -, rfl⟩ := fromRow.mem_rows inRows (List.mem_of_getElem? at_)
    have inner := ih child mem _ m below row hr
    have outer := fromRow.length_lt mem
    omega

theorem Shaped.at {n m : Node} {P : Address} (h : n.Shaped) (at_ : n.At P m) : m.Shaped := by
  induction at_ with
  | here => exact h
  | child row child _ ih =>
    cases h with
    | mk _ _ below => exact ih (below _ row _ (List.mem_of_getElem? child))

theorem Shaped.slot_mem {n : Node} (h : n.Shaped) {slot : Slot} {row : List Node}
    (mem : (slot, row) ∈ n.rows) : slot ∈ n.kind.slots := by
  cases h with
  | mk slots _ _ =>
    rw [Node.kind, ← slots]
    exact List.mem_map_of_mem mem

theorem Shaped.row_eq {n : Node} (h : n.Shaped) {slot slot' : Slot} {row row' : List Node}
    (mem : (slot, row) ∈ n.rows) (mem' : (slot', row') ∈ n.rows) (tag : slot.tag = slot'.tag) :
    row = row' := by
  obtain rfl := Kind.eq_of_tag (h.slot_mem mem) (h.slot_mem mem') tag
  cases h with
  | @mk kind _ _ rows slots _ _ =>
    have nodup : (rows.map (·.1)).Nodup := slots ▸ kind.nodup_slots
    have same := List.inj_on_of_nodup_map nodup mem mem' rfl
    cases same
    rfl

theorem Shaped.nodup_options {n : Node} (h : n.Shaped) {o : OptionSet} (options : n.options = some o) :
    (o.fields.map (·.number)).Nodup := by
  cases h with
  | mk _ nodup _ => exact nodup o options

theorem At.descend {n q m : Node} {Q rest : Address} (shaped : n.Shaped) (hq : n.At Q q)
    (hm : n.At (Q ++ rest) m) : q.At rest m := by
  induction hq with
  | here => exact hm
  | @child n slot row rest' q i c inRows child _ ih =>
    generalize path : ((slot.tag : Int) :: (i : Int) :: rest') ++ rest = P at hm
    cases hm with
    | here => cases path
    | @child _ slot' row' rest'' _ i' c' inRows' child' below =>
      simp only [List.cons_append, List.cons.injEq, Int.natCast_inj] at path
      obtain ⟨tag, rfl, rfl⟩ := path
      obtain rfl := shaped.row_eq inRows inRows' tag
      rw [child] at child'
      cases child'
      have inner : c.Shaped := by
        cases shaped with
        | mk _ _ below => exact below _ inRows _ (List.mem_of_getElem? child)
      exact ih inner below

end Node

theorem Tree.length_row_le {resolve : Resolver} {bytes : List UInt8} {t : Tree} {P : Address} {m : Node}
    (h : Tree.decode resolve bytes = .ok t) (at_ : t.root.At P m) :
    ∀ row ∈ m.rows, 2 * row.2.length ≤ bytes.length := by
  obtain ⟨n, hn, rfl⟩ := Tree.decode_eq_ok_iff.1 h
  obtain ⟨kind, record, options, rows⟩ := n
  intro row hr
  cases at_ with
  | here => exact Node.length_row_le hn .here row hr
  | child inRows child below => exact Node.length_row_le hn (.child inRows child below) row hr

theorem Tree.shaped_of_decode {resolve : Resolver} {bytes : List UInt8} {t : Tree}
    (h : Tree.decode resolve bytes = .ok t) : t.root.Shaped := by
  obtain ⟨n, hn, rfl⟩ := Tree.decode_eq_ok_iff.1 h
  cases Node.shaped_of_decode hn with
  | mk slots nodup below => exact .mk slots nodup below

end CompilerPlugin.Descriptor

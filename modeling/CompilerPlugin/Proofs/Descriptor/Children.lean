import CompilerPlugin.Proofs.Descriptor.Entries
import CompilerPlugin.Proofs.Except

namespace CompilerPlugin.Descriptor

open Wire Schema

def childrenOf (node : Slot × List UInt8 → Node) (kind : Kind) (es : List Entry) :
    List (Slot × Node) :=
  (es.filterMap kind.child?).map fun child => (child.1, node child)

theorem Node.decode_eq (resolve : Resolver) (kind : Kind) (bytes : List UInt8) :
    Node.decode resolve kind bytes = do
      let children ← ((split bytes).1.filterMap kind.child?).mapM fun child => do
        return (child.1, ← Node.decode resolve child.1.kind child.2)
      match kind.endingError? (split bytes).2 with
      | some e => throw e
      | none =>
        let options ← kind.readOptions resolve (split bytes).1
        let record ← kind.readRecord (split bytes).1
        return .mk kind record options (kind.arrange children) := by
  have unfolded := Node.decode.eq_def resolve kind bytes
  rw [List.mapM_subtype (g := fun child : Slot × List UInt8 => do
    return (child.1, ← Node.decode resolve child.1.kind child.2)) fun _ _ => rfl,
    List.unattach_attach] at unfolded
  exact unfolded

theorem Node.decode_eq_ok {resolve : Resolver} {kind : Kind} {bytes : List UInt8} {es : List Entry}
    {node : Slot × List UInt8 → Node} {options : Option OptionSet} {record : Message}
    (splits : split bytes = (es, .complete))
    (children : ∀ child ∈ es.filterMap kind.child?,
      Node.decode resolve child.1.kind child.2 = .ok (node child))
    (ho : kind.readOptions resolve es = .ok options) (hr : kind.readRecord es = .ok record) :
    Node.decode resolve kind bytes =
      .ok (.mk kind record options (kind.arrange (childrenOf node kind es))) := by
  rw [Node.decode_eq, splits, mapM_eq_ok (g := fun child => (child.1, node child)) fun child mem => ?_]
  · simp only [Kind.endingError?, ho, hr]
    rfl
  · rw [children child mem]
    rfl

theorem Kind.child?_eq_some {kind : Kind} {e : Entry} {child : Slot × List UInt8}
    (h : kind.child? e = some child) :
    child.1 ∈ kind.slots ∧ e.key.number = child.1.tag ∧ e.body = .delimited child.2 := by
  unfold child? at h
  split at h
  · rename_i payload slot
    cases h
    obtain ⟨mem, number⟩ := slot?_eq_some slot
    exact ⟨mem, number.symm, Body.payload?_eq_some.1 payload⟩
  · cases h

theorem Kind.options?_eq_some {kind : Kind} {e : Entry} {payload : List UInt8} :
    kind.options? e = some payload ↔
      e.key.number = kind.optionsTag ∧ e.body = .delimited payload := by
  rw [options?]
  split <;> simp [*, Body.payload?_eq_some]

theorem Kind.child?_of_slot {kind : Kind} {s : Slot} (mem : s ∈ kind.slots) {e : Entry}
    {p : List UInt8} (number : e.key.number = s.tag) (body : e.body = .delimited p) :
    kind.child? e = some (s, p) := by
  simp [child?, number, body, slot?_tag mem, Body.payload?]

theorem Kind.eq_of_tag {kind : Kind} {s s' : Slot} (mem : s ∈ kind.slots) (mem' : s' ∈ kind.slots)
    (tag : s.tag = s'.tag) : s = s' := by
  have := slot?_tag mem
  rw [tag, slot?_tag mem'] at this
  cases this
  rfl

theorem Kind.nodup_slots (kind : Kind) : kind.slots.Nodup := by
  cases kind <;> decide

theorem slot_mem_of_childrenOf (node : Slot × List UInt8 → Node) (kind : Kind) (es : List Entry) :
    ∀ child ∈ childrenOf node kind es, child.1 ∈ kind.slots := by
  intro child mem
  obtain ⟨payload, read, rfl⟩ := List.mem_map.1 mem
  obtain ⟨e, -, h⟩ := List.mem_filterMap.1 read
  exact (Kind.child?_eq_some h).1

namespace Node

theorem rowEntries_arrange (kind : Kind) (children : List (Slot × Node)) :
    rowEntries (kind.arrange children) =
      (kind.slots.flatMap fun s => children.filter (·.1 = s)).map childEntry := by
  rw [rowEntries, Kind.arrange]
  rw [List.flatMap_map, List.map_flatMap]
  apply List.flatMap_congr
  intro s _
  induction children with
  | nil => rfl
  | cons child children ih =>
    obtain ⟨slot, n⟩ := child
    rcases eq_or_ne slot s with rfl | other
    · simpa using ih
    · simpa [other] using ih

def rewriteChild (node : Slot × List UInt8 → Node) (kind : Kind) (e : Entry) : Entry :=
  match kind.child? e with
  | some child => childEntry (child.1, node child)
  | none => e

theorem filter_childrenOf {node : Slot × List UInt8 → Node} {kind : Kind} {es : List Entry} {s : Slot}
    (mem : s ∈ kind.slots)
    (delimited : ∀ e ∈ es, e.key.number = s.tag → ∃ p, e.body = .delimited p) :
    ((childrenOf node kind es).filter (·.1 = s)).map childEntry =
      (es.filter (·.key.number = s.tag)).map (rewriteChild node kind) := by
  induction es with
  | nil => rfl
  | cons e es ih =>
    have rest := ih fun e' mem => delimited e' (List.mem_cons_of_mem _ mem)
    by_cases number : e.key.number = s.tag
    · obtain ⟨p, body⟩ := delimited e List.mem_cons_self number
      have child := Kind.child?_of_slot mem number body
      simpa [childrenOf, child, number, rewriteChild] using rest
    · cases child : kind.child? e with
      | none => simpa [childrenOf, child, number] using rest
      | some c =>
        have other : c.1 ≠ s := by
          rintro rfl
          exact number (Kind.child?_eq_some child).2.1
        simpa [childrenOf, child, number, other] using rest

theorem filter_rowEntries {node : Slot × List UInt8 → Node} {kind : Kind} {es : List Entry} {s : Slot}
    (mem : s ∈ kind.slots)
    (delimited : ∀ e ∈ es, e.key.number = s.tag → ∃ p, e.body = .delimited p) :
    (rowEntries (kind.arrange (childrenOf node kind es))).filter (·.key.number = s.tag) =
      (es.filter (·.key.number = s.tag)).map (rewriteChild node kind) := by
  have all := slot_mem_of_childrenOf node kind es
  have piles := filter_flatMap_filter kind.nodup_slots (fun child : Slot × Node => child.1) all s
  have perm := flatMap_filter_perm kind.nodup_slots (fun child : Slot × Node => child.1) all
  rw [← filter_childrenOf mem delimited, ← piles, rowEntries_arrange, List.filter_map]
  congr 1
  apply List.filter_congr
  intro child hc
  have slot := all child (perm.mem_iff.1 hc)
  have iff : (childEntry child).key.number = s.tag ↔ child.1 = s :=
    ⟨Kind.eq_of_tag slot mem, fun same => same ▸ rfl⟩
  simp only [Function.comp_apply, iff]

theorem mem_rowEntries {node : Slot × List UInt8 → Node} {kind : Kind} {es : List Entry} {e : Entry}
    (mem : e ∈ rowEntries (kind.arrange (childrenOf node kind es))) :
    ∃ child ∈ es.filterMap kind.child?, child.1 ∈ kind.slots ∧
      e = childEntry (child.1, node child) := by
  rw [rowEntries_arrange] at mem
  have perm := flatMap_filter_perm kind.nodup_slots (fun child : Slot × Node => child.1)
    (slot_mem_of_childrenOf node kind es)
  obtain ⟨c, moved, rfl⟩ := List.mem_map.1 mem
  have came := perm.mem_iff.1 moved
  have slot := slot_mem_of_childrenOf node kind es c came
  obtain ⟨child, read, rfl⟩ := List.mem_map.1 came
  exact ⟨child, read, slot, rfl⟩

theorem length_rowEntries_le {node : Slot × List UInt8 → Node} {kind : Kind} {es : List Entry}
    (fits : ∀ e ∈ es, e.Fits maxDepth)
    (grown : ∀ child ∈ es.filterMap kind.child?, (node child).encode.length ≤ 2 * child.2.length) :
    ((rowEntries (kind.arrange (childrenOf node kind es))).flatMap (·.raw)).length ≤
      2 * ((es.filter fun e => (kind.slot? e.key.number).isSome).flatMap (·.raw)).length := by
  have perm := flatMap_filter_perm kind.nodup_slots (fun child : Slot × Node => child.1)
    (slot_mem_of_childrenOf node kind es)
  rw [rowEntries_arrange, ((perm.map childEntry).flatMap_right _).length_eq]
  clear perm
  induction es with
  | nil => simp [childrenOf]
  | cons e es ih =>
    have rest := ih (fun e' mem => fits e' (List.mem_cons_of_mem _ mem)) fun child mem => by
      refine grown child ?_
      obtain ⟨e', mem, h⟩ := List.mem_filterMap.1 mem
      exact List.mem_filterMap.2 ⟨e', List.mem_cons_of_mem _ mem, h⟩
    cases child : kind.child? e with
    | none =>
      have same : childrenOf node kind (e :: es) = childrenOf node kind es := by
        simp [childrenOf, child]
      rw [same, List.filter_cons]
      split
      · rw [List.flatMap_cons, List.length_append]
        omega
      · exact rest
    | some c =>
      obtain ⟨slot, number, body⟩ := Kind.child?_eq_some child
      have small := grown c (List.mem_filterMap.2 ⟨e, List.mem_cons_self, child⟩)
      have twice := length_encodeDelimited_le_two_mul small
      have raw := (fits e List.mem_cons_self).length_le .lengthDelimited
      rw [number, body, Body.shortest] at raw
      have same : childrenOf node kind (e :: es) = (c.1, node c) :: childrenOf node kind es := by
        simp [childrenOf, child]
      have kept : (kind.slot? e.key.number).isSome = true := by
        rw [number, Kind.slot?_tag slot]
        rfl
      rw [same, List.filter_cons, if_pos kept, List.map_cons, List.flatMap_cons, List.flatMap_cons]
      simp only [List.length_append]
      simp only [childEntry, Entry.delimited, List.length_append] at rest ⊢
      omega

end Node

end CompilerPlugin.Descriptor

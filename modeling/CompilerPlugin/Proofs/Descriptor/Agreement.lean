import CompilerPlugin.Proofs.Descriptor.Children

namespace CompilerPlugin.Descriptor

open Wire Schema

theorem filter_optionsEntries_self (kind : Kind) (options : Option OptionSet) :
    (Node.optionsEntries kind options).filter (·.key.number = kind.optionsTag) =
      Node.optionsEntries kind options := by
  cases options <;> simp [Node.optionsEntries, Entry.delimited]

theorem filter_optionsEntries_of_ne {kind : Kind} {number : Nat} (ne : number ≠ kind.optionsTag)
    (options : Option OptionSet) :
    (Node.optionsEntries kind options).filter (·.key.number = number) = [] := by
  cases options <;> simp [Node.optionsEntries, Entry.delimited, ne.symm]

theorem filter_rowEntries_of_ne {node : Slot × List UInt8 → Node} {kind : Kind} {es : List Entry}
    {number : Nat} (ne : ∀ s ∈ kind.slots, s.tag ≠ number) :
    (Node.rowEntries (kind.arrange (childrenOf node kind es))).filter (·.key.number = number) = [] := by
  apply List.filter_eq_nil_iff.2
  intro e mem
  obtain ⟨child, -, slot, rfl⟩ := Node.mem_rowEntries mem
  rw [decide_eq_true_iff]
  exact ne _ slot

def Agrees (resolve : Resolver) (depth : Nat) : Prop :=
  ∀ kind, kind ≠ .file → ∀ bytes m, Message.NestedReadsAs depth kind.recordType [] bytes m →
    ∃ n, Node.decode resolve kind bytes = .ok n ∧ (bytes.length < 2 ^ 63 →
      Message.NestedReadsAs depth kind.recordType [] n.encode m ∧
        n.encode.length ≤ 2 * bytes.length)

def nodeOf (resolve : Resolver) (child : Slot × List UInt8) : Node :=
  match Node.decode resolve child.1.kind child.2 with
  | .ok n => n
  | .error _ => .mk child.1.kind [] none []

theorem nodeOf_eq {resolve : Resolver} {child : Slot × List UInt8} {n : Node}
    (h : Node.decode resolve child.1.kind child.2 = .ok n) : nodeOf resolve child = n := by
  simp [nodeOf, h]

section

variable {resolve : Resolver} {kind : Kind} {depth : Nat} {es : List Entry} {m : Message}

theorem exists_reads_child (row : Message.OfRow depth kind.recordType [] es m)
    {child : Slot × List UInt8} (mem : child ∈ es.filterMap kind.child?) :
    child.1.kind ≠ .file ∧ ∃ m', Message.NestedReadsAs depth child.1.kind.recordType [] child.2 m' := by
  obtain ⟨e, he, read⟩ := List.mem_filterMap.1 mem
  obtain ⟨slot, number, body⟩ := Kind.child?_eq_some read
  obtain ⟨f, hf, tag, label, type⟩ := Kind.exists_slotField slot
  obtain ⟨values, gathers, -⟩ := row.gathered f hf
  obtain ⟨held, added, holds⟩ :=
    gathers.exists_holds e (List.mem_filter.2 ⟨he, by simp [number, tag]⟩)
  obtain ⟨p, m', body', -, reads⟩ := (Field.holds_message_iff type).1 holds
  cases body.symm.trans body'
  rw [Field.before_of_repeated label] at reads
  exact ⟨Kind.slot_kind_ne_file slot, m', reads⟩

theorem length_child_le (fits : ∀ e ∈ es, e.Fits maxDepth) {child : Slot × List UInt8}
    (mem : child ∈ es.filterMap kind.child?) :
    child.2.length ≤ (es.flatMap (·.raw)).length := by
  obtain ⟨e, he, read⟩ := List.mem_filterMap.1 mem
  obtain ⟨-, -, body⟩ := Kind.child?_eq_some read
  have raw := (fits e he).length_delimited_le body
  have whole := Entry.length_raw_le_of_mem he
  omega

theorem decode_children (agrees : Agrees resolve depth)
    (row : Message.OfRow depth kind.recordType [] es m) :
    ∀ child ∈ es.filterMap kind.child?,
      Node.decode resolve child.1.kind child.2 = .ok (nodeOf resolve child) := by
  intro child mem
  obtain ⟨inner, m', reads⟩ := exists_reads_child row mem
  obtain ⟨n, hn, -⟩ := agrees _ inner _ _ reads
  rw [nodeOf_eq hn, hn]

theorem length_nodeOf_le (agrees : Agrees resolve depth) (fits : ∀ e ∈ es, e.Fits maxDepth)
    (row : Message.OfRow depth kind.recordType [] es m)
    (size : (es.flatMap (·.raw)).length < 2 ^ 63) :
    ∀ child ∈ es.filterMap kind.child?, (nodeOf resolve child).encode.length ≤ 2 * child.2.length := by
  intro child mem
  obtain ⟨inner, m', reads⟩ := exists_reads_child row mem
  obtain ⟨n, hn, rewritten⟩ := agrees _ inner _ _ reads
  have small := length_child_le fits mem
  rw [nodeOf_eq hn]
  exact (rewritten (by omega)).2

theorem gathers_children (agrees : Agrees resolve depth) (fits : ∀ e ∈ es, e.Fits maxDepth)
    (row : Message.OfRow depth kind.recordType [] es m)
    (size : (es.flatMap (·.raw)).length < 2 ^ 63) {s : Slot} (slot : s ∈ kind.slots) {f : Field}
    (hf : f ∈ kind.recordType.fields) (number : f.number = s.tag) {values : List Value}
    (gathers : f.Gathers (Message.NestedReadsAs depth) []
      (es.filter (·.key.number = f.number)) values) :
    f.Gathers (Message.NestedReadsAs depth) []
      ((Node.rowEntries (kind.arrange (childrenOf (nodeOf resolve) kind es))).filter
        (·.key.number = f.number)) values := by
  obtain ⟨g, hg, tag, label, type⟩ := Kind.exists_slotField slot
  obtain rfl := MessageType.field_ext hf hg (number.trans tag.symm)
  rw [number] at gathers ⊢
  rw [Node.filter_rowEntries slot (delimited_of_slot row slot)]
  apply gathers.map
  intro e mem held added holds
  obtain ⟨he, same⟩ := List.mem_filter.1 mem
  have same := of_decide_eq_true same
  obtain ⟨p, body⟩ := delimited_of_slot row slot e he same
  have read := Kind.child?_of_slot slot same body
  have child := List.mem_filterMap.2 ⟨e, he, read⟩
  have small : p.length ≤ (es.flatMap (·.raw)).length := length_child_le fits child
  obtain ⟨p', m', body', rfl, reads⟩ := (Field.holds_message_iff type).1 holds
  cases body.symm.trans body'
  have fresh := Field.before_of_repeated label held
  rw [fresh] at reads
  obtain ⟨n, hn, rewritten⟩ := agrees _ (Kind.slot_kind_ne_file slot) _ _ reads
  have same : nodeOf resolve (s, p) = n := nodeOf_eq hn
  simp only [Node.rewriteChild, read, Node.childEntry, Entry.delimited, same]
  exact .message type (fresh ▸ (rewritten (by omega)).1)

def nodeOfRow (resolve : Resolver) (kind : Kind) (es : List Entry) (m : Message)
    (options : Option OptionSet) : Node :=
  .mk kind (m.only kind.owns) options (kind.arrange (childrenOf (nodeOf resolve) kind es))

theorem entries_nodeOfRow (options : Option OptionSet) :
    (nodeOfRow resolve kind es m options).entries =
      (m.only kind.owns).map Entry.ofPart ++ (Node.optionsEntries kind options ++
        Node.rowEntries (kind.arrange (childrenOf (nodeOf resolve) kind es))) :=
  rfl

theorem filter_entries (options : Option OptionSet) (number : Nat) :
    (nodeOfRow resolve kind es m options).entries.filter (·.key.number = number) =
      ((m.only kind.owns).values number).map (fun v => Entry.ofPart (number, v)) ++
        ((Node.optionsEntries kind options).filter (·.key.number = number) ++
          (Node.rowEntries (kind.arrange (childrenOf (nodeOf resolve) kind es))).filter
            (·.key.number = number)) := by
  rw [entries_nodeOfRow, List.filter_append, List.filter_append, Message.filter_map_ofPart]

theorem exists_field_of_mem_entries (le : depth ≤ maxDepth) (fits : ∀ e ∈ es, e.Fits maxDepth)
    (row : Message.OfRow depth kind.recordType [] es m) {options : Option OptionSet} {e : Entry}
    (mem : e ∈ (nodeOfRow resolve kind es m options).entries) :
    ∃ f ∈ kind.recordType.fields, f.number = e.key.number := by
  rw [entries_nodeOfRow] at mem
  rcases List.mem_append.1 mem with own | mem
  · obtain ⟨part, hp, rfl⟩ := List.mem_map.1 own
    have good := wellFormed_own le fits row
    obtain ⟨f, hf, number, -⟩ := good.ordered.exists_field hp
    exact ⟨f, hf, number.symm⟩
  · rcases List.mem_append.1 mem with option | inRow
    · cases options with
      | none => cases option
      | some o =>
        obtain rfl := List.mem_singleton.1 option
        exact ⟨_, kind.optionsField_mem, rfl⟩
    · obtain ⟨child, -, slot, rfl⟩ := Node.mem_rowEntries inRow
      obtain ⟨f, hf, tag, -, -⟩ := Kind.exists_slotField slot
      exact ⟨f, hf, tag⟩

theorem fits_nodeOfRow (le : depth ≤ maxDepth) (agrees : Agrees resolve depth)
    (fits : ∀ e ∈ es, e.Fits maxDepth) (row : Message.OfRow depth kind.recordType [] es m)
    (size : (es.flatMap (·.raw)).length < 2 ^ 63) {options : Option OptionSet}
    (short : ((Node.optionsEntries kind options).flatMap (·.raw)).length ≤
      ((es.filter (·.key.number = kind.optionsTag)).flatMap (·.raw)).length) :
    ∀ e ∈ (nodeOfRow resolve kind es m options).entries, e.Fits maxDepth := by
  intro e mem
  have known := exists_field_of_mem_entries le fits row mem
  have good := wellFormed_own le fits row
  have small := length_filter_le (fun e => decide (e.key.number = kind.optionsTag)) es
  rw [entries_nodeOfRow] at mem
  rcases List.mem_append.1 mem with own | mem
  · exact good.ordered.fits (announceable_own le fits row size) e own
  · obtain ⟨f, hf, number⟩ := known
    have pos := MessageType.number_pos hf
    have bound := MessageType.number_lt hf
    rcases List.mem_append.1 mem with option | inRow
    · cases options with
      | none => cases option
      | some o =>
        obtain rfl := List.mem_singleton.1 option
        simp only [Node.optionsEntries, List.flatMap_singleton, Entry.delimited, List.length_append,
          length_encodeDelimited] at short number
        have fits : (Entry.delimited kind.optionsTag o.encode).Fits (99 + 1) :=
          Entry.fits_delimited (by omega) (by omega) (by omega)
        exact fits
    · obtain ⟨child, read, -, rfl⟩ := Node.mem_rowEntries inRow
      have grown := length_nodeOf_le agrees fits row size child read
      have within := length_child_le fits read
      simp only [Node.childEntry, Entry.delimited] at number
      have fits : (Entry.delimited child.1.tag (nodeOf resolve child).encode).Fits (99 + 1) :=
        Entry.fits_delimited (by omega) (by omega) (by omega)
      exact fits

theorem length_filters_le (kind : Kind) (es : List Entry) :
    ((es.filter fun e => kind.owns e.key.number).flatMap (·.raw)).length +
        ((es.filter (·.key.number = kind.optionsTag)).flatMap (·.raw)).length +
        ((es.filter fun e => (kind.slot? e.key.number).isSome).flatMap (·.raw)).length ≤
      (es.flatMap (·.raw)).length := by
  induction es with
  | nil => simp
  | cons e es ih =>
    simp only [List.filter_cons, List.flatMap_cons, List.length_append]
    by_cases tag : e.key.number = kind.optionsTag
    · have none : (kind.slot? kind.optionsTag).isSome = false := by
        cases slot : kind.slot? kind.optionsTag with
        | none => rfl
        | some s =>
          obtain ⟨mem, number⟩ := Kind.slot?_eq_some slot
          exact absurd number (Kind.tag_ne_optionsTag mem)
      simp only [none, tag, Kind.owns_optionsTag, decide_true, if_true, Bool.false_eq_true, if_false,
        List.flatMap_cons, List.length_append]
      omega
    · cases slot : kind.slot? e.key.number with
      | none =>
        have own : kind.owns e.key.number = true := by simp [Kind.owns, tag, slot]
        simp only [own, tag, decide_false, if_true, Bool.false_eq_true, if_false, Option.isSome_none,
          List.flatMap_cons, List.length_append]
        omega
      | some s =>
        have own : kind.owns e.key.number = false := by simp [Kind.owns, slot]
        simp only [own, tag, decide_false, if_true, Bool.false_eq_true, if_false, Option.isSome_some,
          List.flatMap_cons, List.length_append]
        omega

theorem length_nodeOfRow_le (le : depth ≤ maxDepth) (agrees : Agrees resolve depth)
    (fits : ∀ e ∈ es, e.Fits maxDepth) (row : Message.OfRow depth kind.recordType [] es m)
    (size : (es.flatMap (·.raw)).length < 2 ^ 63) {options : Option OptionSet}
    (short : ((Node.optionsEntries kind options).flatMap (·.raw)).length ≤
      ((es.filter (·.key.number = kind.optionsTag)).flatMap (·.raw)).length)
    (inner : kind ≠ .file) :
    (nodeOfRow resolve kind es m options).encode.length ≤ 2 * (es.flatMap (·.raw)).length := by
  have own := length_own_le le fits row kind.owns fun f hf own =>
    (Kind.compact_of_owns hf own).resolve_right fun h => inner h.1
  have children := Node.length_rowEntries_le fits (length_nodeOf_le agrees fits row size)
  have all := length_filters_le kind es
  rw [Node.encode_eq_entries, entries_nodeOfRow]
  simp only [List.flatMap_append, List.length_append, ← Message.encode_eq_flatMap]
  omega

theorem row_nodeOfRow (le : depth ≤ maxDepth) (agrees : Agrees resolve depth)
    (fits : ∀ e ∈ es, e.Fits maxDepth) (row : Message.OfRow depth kind.recordType [] es m)
    (size : (es.flatMap (·.raw)).length < 2 ^ 63) {options : Option OptionSet} {values : List Value}
    (gathers : kind.optionsField.Gathers (Message.NestedReadsAs depth) []
      (Node.optionsEntries kind options) values)
    (settled : m.values kind.optionsTag = kind.optionsField.settle values) :
    Message.OfRow depth kind.recordType [] (nodeOfRow resolve kind es m options).entries m where
  unknown e mem unknown := by
    obtain ⟨f, hf, number⟩ := exists_field_of_mem_entries le fits row mem
    rw [← number, MessageType.field?_number hf] at unknown
    cases unknown
  gathered f hf := by
    rw [filter_entries, Message.values_only]
    rcases kind.owns_cases f.number with own | tag | ⟨s, slot, number⟩
    · have good := wellFormed_own le fits row
      obtain ⟨values, gathers, eq⟩ := (good.ofRow le (announceable_own le fits row size)).gathered f hf
      rw [Message.filter_map_ofPart, Message.values_only, if_pos own] at gathers
      rw [Message.values_only, if_pos own] at eq
      have notOptions : f.number ≠ kind.optionsTag := by
        intro tag
        rw [tag, Kind.owns_optionsTag] at own
        cases own
      rw [if_pos own, filter_optionsEntries_of_ne notOptions, filter_rowEntries_of_ne fun s slot tag => ?_]
      · exact ⟨values, by simpa using gathers, eq⟩
      · rw [← tag, Kind.owns_tag slot] at own
        cases own
    · obtain rfl := MessageType.field_ext hf kind.optionsField_mem tag
      rw [tag, Kind.owns_optionsTag, filter_optionsEntries_self,
        filter_rowEntries_of_ne fun s slot => Kind.tag_ne_optionsTag slot]
      exact ⟨values, by simpa using gathers, settled⟩
    · obtain ⟨held, gathers, eq⟩ := row.gathered f hf
      have rest := gathers_children agrees fits row size slot hf number.symm gathers
      have notOptions : f.number ≠ kind.optionsTag := number ▸ Kind.tag_ne_optionsTag slot
      rw [filter_optionsEntries_of_ne notOptions, ← number, Kind.owns_tag slot]
      rw [← number] at rest
      exact ⟨held, by simpa using rest, by rw [number]; exact eq⟩
  ordered := row.ordered

theorem exists_node (le : depth ≤ maxDepth) (agrees : Agrees resolve depth)
    (fits : ∀ e ∈ es, e.Fits maxDepth) (row : Message.OfRow depth kind.recordType [] es m) :
    ∃ options, Node.decode resolve kind (es.flatMap (·.raw)) =
        .ok (nodeOfRow resolve kind es m options) ∧
      ((es.flatMap (·.raw)).length < 2 ^ 63 →
        (∀ e ∈ (nodeOfRow resolve kind es m options).entries, e.Fits maxDepth) ∧
        Message.OfRow depth kind.recordType [] (nodeOfRow resolve kind es m options).entries m ∧
        (kind ≠ .file → (nodeOfRow resolve kind es m options).encode.length ≤
          2 * (es.flatMap (·.raw)).length)) := by
  obtain ⟨options, ho, ⟨values, gathers, settled⟩, short⟩ := exists_readOptions le resolve fits row
  have record := readRecord_eq_ok le fits row
  refine ⟨options, ?_, fun size => ⟨?_, ?_, ?_⟩⟩
  · exact Node.decode_eq_ok (split_flatMap fits) (decode_children agrees row) ho record
  · exact fits_nodeOfRow le agrees fits row size short
  · exact row_nodeOfRow le agrees fits row size gathers settled
  · exact length_nodeOfRow_le le agrees fits row size short

end

theorem agrees (resolve : Resolver) {depth : Nat} (le : depth ≤ maxDepth) : Agrees resolve depth := by
  -- Every level of records uses up some of the allowance, so that is what goes down.
  induction depth with
  | zero => exact fun _ _ _ _ reads => reads.elim
  | succ depth ih =>
    intro kind inner bytes m reads
    have le' := Nat.le_of_succ_le le
    obtain ⟨es, fits, rfl, row⟩ := (Message.readsAs_iff le').1 reads
    obtain ⟨options, hn, rewritten⟩ := exists_node le' (ih le') fits row
    refine ⟨_, hn, ?_⟩
    intro size
    obtain ⟨fits', row', length⟩ := rewritten size
    exact ⟨(Message.readsAs_iff le').2 ⟨_, fits', Node.encode_eq_entries _, row'⟩, length inner⟩

end CompilerPlugin.Descriptor

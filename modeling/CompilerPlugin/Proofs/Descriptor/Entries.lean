import CompilerPlugin.Proofs.Descriptor.OptionSet
import CompilerPlugin.Proofs.Descriptor.Record

namespace CompilerPlugin

open Wire Schema

namespace Schema.Field

theorem Gathers.merged {depth : Nat} (le : depth ≤ maxDepth) {f : Field} {t : MessageType}
    (label : f.label = .optional) (type : f.type = .message t) {held values : List Value}
    {es : List Entry} (h : f.Gathers (Message.NestedReadsAs depth) held es values)
    {front : List UInt8} {m : Message} (last : held.getLast? = some (.message m))
    (start : Message.NestedReadsAs depth t [] front m) :
    ∃ m', values.getLast? = some (.message m') ∧
      Message.NestedReadsAs depth t [] (front ++ (es.filterMap (·.body.payload?)).flatten) m' := by
  induction h generalizing front m with
  | nil => exact ⟨m, last, by simpa using start⟩
  | @cons held added values e es head _ ih =>
    have before : f.before held = m := by simp [Field.before, label, last]
    obtain ⟨p, m', body, rfl, hm⟩ := (holds_message_iff type).1 head
    rw [before] at hm
    obtain ⟨m'', last', reads⟩ := ih (by simp) (start.append le hm)
    refine ⟨m'', last', ?_⟩
    simpa [body, Body.payload?] using reads

theorem Gathers.exists_merged {depth : Nat} (le : depth ≤ maxDepth) {f : Field} {t : MessageType}
    (label : f.label = .optional) (type : f.type = .message t) {values : List Value}
    {es : List Entry} (h : f.Gathers (Message.NestedReadsAs depth) [] es values) (present : es ≠ []) :
    ∃ m, values.getLast? = some (.message m) ∧
      Message.NestedReadsAs depth t [] (es.filterMap (·.body.payload?)).flatten m := by
  cases h with
  | nil => exact absurd rfl present
  | @cons _ added _ e es head rest =>
    obtain ⟨p, m, body, rfl, hm⟩ := (holds_message_iff type).1 head
    rw [before_nil] at hm
    obtain ⟨m', last, reads⟩ := rest.merged le label type (by simp) hm
    refine ⟨m', last, ?_⟩
    simpa [body, Body.payload?] using reads

end Schema.Field

namespace Descriptor

theorem length_merged_le {number : Nat} {es : List Entry} (fits : ∀ e ∈ es, e.Fits maxDepth)
    (same : ∀ e ∈ es, e.key.number = number ∧ ∃ p, e.body = .delimited p) (present : es ≠ []) :
    (Entry.delimited number (es.filterMap (·.body.payload?)).flatten).raw.length ≤
      (es.flatMap (·.raw)).length := by
  induction es with
  | nil => exact absurd rfl present
  | cons e es ih =>
    obtain ⟨number_eq, p, body⟩ := same e List.mem_cons_self
    have raw := (fits e List.mem_cons_self).length_le .lengthDelimited
    rw [number_eq, body, Body.shortest] at raw
    have payloads : ((e :: es).filterMap (·.body.payload?)).flatten =
        p ++ (es.filterMap (·.body.payload?)).flatten := by
      simp [body, Body.payload?]
    rw [payloads, List.flatMap_cons, List.length_append]
    rcases eq_or_ne es [] with rfl | more
    · simpa [Entry.delimited] using raw
    · have rest := ih (fun e mem => fits e (List.mem_cons_of_mem _ mem))
        (fun e mem => same e (List.mem_cons_of_mem _ mem)) more
      have joined := length_encodeDelimited_append_le p (es.filterMap (·.body.payload?)).flatten
      simp only [Entry.delimited, List.length_append] at rest ⊢
      omega

namespace Node

def optionsEntries (kind : Kind) : Option OptionSet → List Entry
  | none => []
  | some options => [.delimited kind.optionsTag options.encode]

def childEntry (child : Slot × Node) : Entry :=
  .delimited child.1.tag child.2.encode

def rowEntries (rows : List (Slot × List Node)) : List Entry :=
  rows.flatMap fun row => row.2.map fun n => childEntry (row.1, n)

def entries (n : Node) : List Entry :=
  n.record.map Entry.ofPart ++ (optionsEntries n.kind n.options ++ rowEntries n.rows)

theorem encodeOptions_eq (kind : Kind) (options : Option OptionSet) :
    encodeOptions kind options = (optionsEntries kind options).flatMap (·.raw) := by
  cases options with
  | none => rfl
  | some options => simp [encodeOptions, optionsEntries, Entry.delimited]

theorem encodeRow_eq (slot : Slot) (row : List Node) :
    encodeRow slot row = (row.map fun n => childEntry (slot, n)).flatMap (·.raw) := by
  induction row with
  | nil => simp [encodeRow]
  | cons n row ih => simp [encodeRow, ih, childEntry, Entry.delimited]

theorem encodeRows_eq (rows : List (Slot × List Node)) :
    encodeRows rows = (rowEntries rows).flatMap (·.raw) := by
  induction rows with
  | nil => simp [encodeRows, rowEntries]
  | cons row rows ih =>
    obtain ⟨slot, row⟩ := row
    rw [encodeRows, ih, encodeRow_eq]
    simp [rowEntries]

theorem encode_eq_entries (n : Node) : n.encode = n.entries.flatMap (·.raw) := by
  obtain ⟨kind, record, options, rows⟩ := n
  rw [encode, Message.encode_eq_flatMap, encodeOptions_eq, encodeRows_eq]
  simp [entries, Node.record, Node.options, Node.kind, Node.rows]

end Node

section

variable {kind : Kind} {depth : Nat} {es : List Entry} {m : Message}

theorem filterMap_options? (kind : Kind) (es : List Entry) :
    es.filterMap kind.options? =
      (es.filter (·.key.number = kind.optionsTag)).filterMap (·.body.payload?) := by
  rw [List.filterMap_filter]
  apply List.filterMap_congr
  intro e _
  simp [Kind.options?]

theorem readOptions_eq_ok_iff {resolve : Resolver} {options : Option OptionSet} :
    kind.readOptions resolve es = .ok options ↔
      (es.filterMap kind.options? = [] ∧ options = none) ∨
        (es.filterMap kind.options? ≠ [] ∧ ∃ row, IsRow (es.filterMap kind.options?).flatten row ∧
          options = some (.ofEntries resolve kind row)) := by
  rw [Kind.readOptions]
  split
  · rename_i none
    simp [none, eq_comm]
  · rename_i given
    have given : es.filterMap kind.options? ≠ [] := fun none => given none
    simp only [given, false_and, ne_eq, not_false_eq_true, true_and, false_or]
    constructor
    · intro h
      cases ho : OptionSet.decode resolve kind (es.filterMap kind.options?).flatten with
      | error e =>
        rw [ho] at h
        cases h
      | ok o =>
        rw [ho] at h
        obtain ⟨row, is_row, rfl⟩ := OptionSet.decode_eq_ok_iff.1 ho
        exact ⟨row, is_row, (Except.ok.inj h).symm⟩
    · rintro ⟨row, is_row, rfl⟩
      rw [OptionSet.decode_eq_ok_iff.2 ⟨row, is_row, rfl⟩]
      rfl

theorem exists_readOptions (le : depth ≤ maxDepth) (resolve : Resolver)
    (fits : ∀ e ∈ es, e.Fits maxDepth) (row : Message.OfRow depth kind.recordType [] es m) :
    ∃ o, kind.readOptions resolve es = .ok o ∧
      (∃ values, kind.optionsField.Gathers (Message.NestedReadsAs depth) []
        (Node.optionsEntries kind o) values ∧
        m.values kind.optionsTag = kind.optionsField.settle values) ∧
      ((Node.optionsEntries kind o).flatMap (·.raw)).length ≤
        ((es.filter (·.key.number = kind.optionsTag)).flatMap (·.raw)).length := by
  obtain ⟨values, gathers, settled⟩ := row.gathered _ kind.optionsField_mem
  have payloads := filterMap_options? kind es
  have fits' : ∀ e ∈ es.filter (·.key.number = kind.optionsTag), e.Fits maxDepth :=
    fun e mem => fits e (List.mem_filter.1 mem).1
  have delimited : ∀ e ∈ es.filter (·.key.number = kind.optionsTag),
      e.key.number = kind.optionsTag ∧ ∃ p, e.body = .delimited p := fun e mem =>
    have number := of_decide_eq_true (List.mem_filter.1 mem).2
    ⟨number, delimited_of_options row e (List.mem_filter.1 mem).1 number⟩
  change kind.optionsField.Gathers _ [] (es.filter (·.key.number = kind.optionsTag)) values at gathers
  generalize es.filter (·.key.number = kind.optionsTag) = os at gathers payloads fits' delimited
  rw [Kind.readOptions]
  rw [payloads]
  rcases eq_or_ne os [] with rfl | given
  · exact ⟨none, rfl, ⟨values, gathers, settled⟩, by simp [Node.optionsEntries]⟩
  · obtain ⟨mo, last, reads⟩ := gathers.exists_merged le (t := kind.optionsType) rfl rfl given
    have merged := length_merged_le fits' delimited given
    obtain ⟨o, ho, same, length⟩ : ∃ o,
        OptionSet.decode resolve kind (os.filterMap (·.body.payload?)).flatten = .ok o ∧
          Message.NestedReadsAs depth kind.optionsType [] o.encode mo ∧
          o.encode.length = (os.filterMap (·.body.payload?)).flatten.length := by
      cases depth with
      | zero => exact reads.elim
      | succ depth => exact OptionSet.exists_decode resolve kind (Nat.le_of_succ_le le) reads
    have present : os.filterMap (·.body.payload?) ≠ [] := by
      obtain ⟨e, mem⟩ := List.exists_mem_of_ne_nil _ given
      obtain ⟨-, p, body⟩ := delimited e mem
      exact List.ne_nil_of_mem (List.mem_filterMap.2 ⟨e, mem, by rw [body, Body.payload?]⟩)
    refine ⟨some o, ?_, ⟨[.message mo], ?_, ?_⟩, ?_⟩
    · split
      · contradiction
      · rw [ho]
        rfl
    · have holds : kind.optionsField.Holds (Message.NestedReadsAs depth) []
          (.delimited o.encode) [.message mo] := .message rfl (by rwa [Field.before_nil])
      exact .cons holds .nil
    · refine Eq.trans settled ?_
      simp [Field.settle, Kind.optionsField, Field.sub, last]
    · refine Nat.le_trans (Nat.le_of_eq ?_) merged
      simp [Node.optionsEntries, Entry.delimited, encodeDelimited, length]

end

end Descriptor

end CompilerPlugin

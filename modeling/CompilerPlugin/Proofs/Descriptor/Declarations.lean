import CompilerPlugin.Descriptor.Declared
import CompilerPlugin.Proofs.Descriptor.FieldNumbers
import CompilerPlugin.Proofs.Descriptor.Preorder

namespace CompilerPlugin

open Wire Schema

namespace Schema.Field

variable {nested : MessageType → Message → List UInt8 → Message → Prop} {f : Field}

theorem Gathers.exists_texts (type : f.type = .scalar .text) {held values : List Value} {es : List Entry}
    (h : f.Gathers nested held es values) :
    ∃ texts : List String, values = held ++ texts.map .text ∧
      es.filterMap (·.body.payload?) = texts.map fun s => s.toByteArray.data.toList := by
  induction h with
  | nil => exact ⟨[], by simp, rfl⟩
  | @cons held added values e es head _ ih =>
    obtain ⟨texts, rfl, payloads⟩ := ih
    generalize body : e.body = b at head
    cases head with
    | @text p v _ decoded =>
      obtain ⟨s, rfl, rfl⟩ := decodeText_eq_ok_iff.1 decoded
      refine ⟨s :: texts, by simp, ?_⟩
      rw [List.filterMap_cons_some (by rw [body, Body.payload?]), payloads, List.map_cons]
    | word type' wire =>
      rw [type] at type'
      cases type'
      cases wire
    | message type' | double type' | bytes type' | number type' | numbers type' =>
      rw [type] at type'
      cases type'

theorem text?_eq_getLast? (label : f.label = .optional) {m : Message} {texts : List String}
    (settled : m.values f.number = f.settle (texts.map .text)) :
    m.text? f.number = texts.getLast? := by
  rw [Message.text?, Message.value?, settled, settle, label, List.getLast?_map]
  cases texts.getLast? <;> rfl

theorem Gathers.exists_words {s : Scalar} (type : f.type = .scalar s) (wire : s.wireType = .varint)
    (single : f.label.isList = false) {held values : List Value} {es : List Entry}
    (h : f.Gathers nested held es values) :
    values = held ++ (es.filterMap (·.body.varint?)).map fun w => .word (normalizeWord s w) := by
  induction h with
  | nil => simp
  | @cons held added values e es head _ ih =>
    rw [ih]
    generalize body : e.body = b at head
    cases head with
    | word type' =>
      rw [type] at type'
      cases type'
      rw [List.filterMap_cons_some (by rw [body, Body.varint?])]
      simp
    | message type' =>
      rw [type] at type'
      cases type'
    | double type' | text type' | bytes type' =>
      rw [type] at type'
      cases type'
      cases wire
    | number _ list | numbers _ list =>
      rw [single] at list
      cases list

end Schema.Field

theorem Wire.split_nil : split [] = ([], .complete) :=
  split_flatMap (List.forall_mem_nil _)

namespace Descriptor

def varints (number : Nat) (es : List Entry) : List UInt64 :=
  es.filterMap fun e => if e.key.number = number then e.body.varint? else none

theorem payloads_eq_filter (number : Nat) (es : List Entry) :
    payloads number es = (es.filter (·.key.number = number)).filterMap (·.body.payload?) := by
  rw [payloads, List.filterMap_filter]
  apply List.filterMap_congr
  intro e _
  simp

theorem varints_eq_filter (number : Nat) (es : List Entry) :
    varints number es = (es.filter (·.key.number = number)).filterMap (·.body.varint?) := by
  rw [varints, List.filterMap_filter]
  apply List.filterMap_congr
  intro e _
  simp

namespace Node.FromRow

variable {resolve : Resolver} {kind : Kind} {es : List Entry} {n : Node} {g : Field}

theorem gathered (h : FromRow resolve kind es n) (mem : g ∈ kind.recordType.fields)
    (own : kind.owns g.number = true) :
    ∃ values, g.Gathers (Message.NestedReadsAs maxDepth) [] (es.filter (·.key.number = g.number)) values ∧
      n.record.values g.number = g.settle values := by
  obtain ⟨values, gathers, settled⟩ := h.own.gathered g mem
  refine ⟨values, ?_, settled⟩
  have same : (es.filter fun e => kind.owns e.key.number).filter (·.key.number = g.number) =
      es.filter (·.key.number = g.number) := by
    rw [List.filter_filter]
    apply List.filter_congr
    intro e _
    by_cases number : e.key.number = g.number
    · simp [number, own]
    · simp [number]
  rwa [same] at gathers

theorem text?_eq_some_iff (h : FromRow resolve kind es n) (mem : g ∈ kind.recordType.fields)
    (own : kind.owns g.number = true) (label : g.label = .optional) (type : g.type = .scalar .text)
    {s : String} :
    n.record.text? g.number = some s ↔
      (payloads g.number es).getLast? = some s.toByteArray.data.toList := by
  obtain ⟨values, gathers, settled⟩ := h.gathered mem own
  obtain ⟨texts, rfl, held⟩ := gathers.exists_texts type
  rw [Field.text?_eq_getLast? label settled, payloads_eq_filter, held, List.getLast?_map]
  cases texts.getLast? with
  | none => simp
  | some s' => simp [← String.toByteArray_inj, ByteArray.ext_iff, Array.toList_inj]

theorem int?_eq (h : FromRow resolve kind es n) (mem : g ∈ kind.recordType.fields)
    (own : kind.owns g.number = true) (label : g.label = .optional) (type : g.type = .scalar .int32) :
    n.record.int? g.number = (varints g.number es).getLast?.map Word.toInt32 := by
  obtain ⟨values, gathers, settled⟩ := h.gathered mem own
  have words := gathers.exists_words type rfl (by rw [label]; rfl)
  rw [Message.int?, Message.word?, Message.value?, settled, words, Field.settle, label, varints_eq_filter,
    List.nil_append, List.getLast?_map]
  cases ((es.filter (·.key.number = g.number)).filterMap (·.body.varint?)).getLast? with
  | none => rfl
  | some w => simp [Value.word?, normalizeWord, Word.toInt32_ofInt32]

end Node.FromRow

namespace Kind

theorem ofOptionsMessage?_eq_some {message : String} {kind : Kind} :
    ofOptionsMessage? message = some kind ↔
      message = kind.optionsMessage ∨ message = "." ++ kind.optionsMessage := by
  constructor
  · intro h
    have named := List.find?_some h
    rw [decide_eq_true_iff] at named
    exact named.imp Eq.symm Eq.symm
  · rintro (rfl | rfl) <;> cases kind <;> decide

end Kind

theorem mapM_varint?_eq_some {es : List Entry} {words : List UInt64} :
    (es.mapM fun e => e.body.varint?) = some words ↔ es.map (·.body) = words.map .varint := by
  induction es generalizing words with
  | nil => cases words <;> simp
  | cons e es ih =>
    rw [List.mapM_cons, List.map_cons]
    generalize es.mapM (fun e => e.body.varint?) = rest at ih ⊢
    cases e.body with
    | varint w =>
      cases words with
      | nil => cases rest <;> simp [Body.varint?]
      | cons w' words => cases rest <;> simp [Body.varint?, ← ih]
    | fixed64 | delimited | group | fixed32 => cases words <;> simp [Body.varint?]

theorem varint?_eq_some_iff {f : OptionField} {w : UInt64} :
    f.varint? = some w ↔
      (∀ e ∈ f.entries, ∃ v, e.body = .varint v) ∧
        (f.entries.filterMap (·.body.varint?)).getLast? = some w := by
  rw [OptionField.varint?, Option.bind_eq_some_iff]
  simp only [mapM_varint?_eq_some]
  constructor
  · rintro ⟨words, bodies, last⟩
    have held : f.entries.filterMap (·.body.varint?) = words := by
      have shaped : (f.entries.map (·.body)).filterMap Body.varint? = words := by
        rw [bodies, List.filterMap_map]
        exact List.filterMap_some
      rwa [List.filterMap_map] at shaped
    refine ⟨?_, by rw [held, last]⟩
    intro e mem
    have inBodies : e.body ∈ words.map .varint := bodies ▸ List.mem_map_of_mem mem
    obtain ⟨v, -, eq⟩ := List.mem_map.1 inBodies
    exact ⟨v, eq.symm⟩
  · rintro ⟨shape, last⟩
    refine ⟨_, ?_, last⟩
    rw [List.map_filterMap, ← List.filterMap_eq_map]
    apply List.filterMap_congr
    intro e mem
    obtain ⟨v, body⟩ := shape e mem
    simp [body, Body.varint?]

theorem OptionSet.varint?_ofEntries (resolve : Resolver) (kind : Kind) (es : List Entry) (number : Nat)
    {w : UInt64} :
    ((ofEntries resolve kind es).get? number).bind (·.varint?) = some w ↔
      (∀ e ∈ es, e.key.number = number → ∃ v, e.body = .varint v) ∧
        (varints number es).getLast? = some w := by
  rw [get?, ofEntries, List.find?_map]
  simp only [Function.comp_def, Int.natCast_inj]
  cases found : (es.map (·.key.number)).eraseDups.find? fun n => n = number with
  | none =>
    have absent : varints number es = [] := by
      rw [varints, List.filterMap_eq_nil_iff]
      intro e mem
      have other := List.find?_eq_none.1 found e.key.number
        (List.mem_eraseDups.2 (List.mem_map_of_mem mem))
      rw [if_neg (by simpa using other)]
    simp [absent]
  | some n =>
    obtain rfl : n = number := by simpa using List.find?_some found
    rw [Option.map_some, Option.bind_some, varint?_eq_some_iff, varints_eq_filter]
    simp

def optionEntries (kind : Kind) (record : List UInt8) : List Entry :=
  (split (payloads kind.optionsTag (split record).1).flatten).1

/-- A field descriptor that extends the options of a kind by one with this number, and says of it in its own
options that it is kept in source only. -/
structure DeclaresSource (field : List UInt8) (kind : Kind) (number : Int) : Prop where
  extendee : ∃ name : String, (payloads 2 (split field).1).getLast? = some name.toByteArray.data.toList ∧
    (name = kind.optionsMessage ∨ name = "." ++ kind.optionsMessage)
  number_eq : number = ((varints 3 (split field).1).getLast?.elim 0 Word.toInt32).toInt
  varint : ∀ e ∈ optionEntries .field field, e.key.number = 17 → ∃ w, e.body = .varint w
  last : (varints 17 (optionEntries .field field)).getLast? = some 2

/-- The bytes of a field descriptor that stands in those of a file or a message, at any depth. -/
inductive FieldWithin : Kind → List UInt8 → List UInt8 → Prop
  | extension {file field} : field ∈ payloads 7 (split file).1 → FieldWithin .file file field
  | message {file message field} :
      message ∈ payloads 4 (split file).1 → FieldWithin .message message field →
      FieldWithin .file file field
  | own {message field} : field ∈ payloads 2 (split message).1 → FieldWithin .message message field
  | ownExtension {message field} :
      field ∈ payloads 6 (split message).1 → FieldWithin .message message field
  | nested {message inner field} :
      inner ∈ payloads 3 (split message).1 → FieldWithin .message inner field →
      FieldWithin .message message field

theorem fieldWithin_iff {kind : Kind} {bytes field : List UInt8} :
    FieldWithin kind bytes field ↔
      ∃ slot ∈ kind.slots, ∃ payload ∈ payloads slot.tag (split bytes).1,
        (slot.kind = .field ∧ payload = field) ∨ FieldWithin slot.kind payload field := by
  constructor
  · intro h
    cases h with
    | extension mem => exact ⟨⟨7, .field⟩, by decide, field, mem, .inl ⟨rfl, rfl⟩⟩
    | message mem below => exact ⟨⟨4, .message⟩, by decide, _, mem, .inr below⟩
    | own mem => exact ⟨⟨2, .field⟩, by decide, field, mem, .inl ⟨rfl, rfl⟩⟩
    | ownExtension mem => exact ⟨⟨6, .field⟩, by decide, field, mem, .inl ⟨rfl, rfl⟩⟩
    | nested mem below => exact ⟨⟨3, .message⟩, by decide, _, mem, .inr below⟩
  · rintro ⟨slot, hs, payload, mem, here⟩
    cases kind <;> simp only [Kind.slots, List.mem_cons, List.not_mem_nil, or_false] at hs
    case file =>
      rcases hs with rfl | rfl | rfl | rfl <;> rcases here with ⟨eq, rfl⟩ | below
      all_goals first | exact .extension mem | exact .message mem below | cases eq | cases below
    case message =>
      rcases hs with rfl | rfl | rfl | rfl | rfl | rfl <;> rcases here with ⟨eq, rfl⟩ | below
      all_goals
        first
        | exact .own mem | exact .ownExtension mem | exact .nested mem below | cases eq | cases below
    all_goals
      obtain rfl := hs
      rcases here with ⟨eq, -⟩ | below
      · cases eq
      · cases below

namespace Node

variable {resolve : Resolver} {kind k : Kind} {bytes : List UInt8} {es : List Entry} {n : Node}
  {number : Int}

theorem FromRow.options_eq (h : FromRow resolve kind es n) :
    (n.options = none ∧ optionEntries kind (es.flatMap (·.raw)) = []) ∨
      n.options = some (.ofEntries resolve kind (optionEntries kind (es.flatMap (·.raw)))) := by
  have same : payloads kind.optionsTag es = es.filterMap kind.options? := rfl
  rw [optionEntries, split_flatMap h.fits, same]
  rcases readOptions_eq_ok_iff.1 h.options with ⟨none, absent⟩ | ⟨-, row, is_row, present⟩
  · exact .inl ⟨absent, by rw [none, List.flatten_nil, split_nil]⟩
  · exact .inr (by rw [present, split_eq_complete_iff.2 is_row])

theorem FromRow.options_varint_iff (h : FromRow resolve kind es n) (tag : Nat) {w : UInt64} :
    (n.options.bind (·.get? tag)).bind (·.varint?) = some w ↔
      (∀ e ∈ optionEntries kind (es.flatMap (·.raw)), e.key.number = tag → ∃ v, e.body = .varint v) ∧
        (varints tag (optionEntries kind (es.flatMap (·.raw)))).getLast? = some w := by
  rcases h.options_eq with ⟨none, empty⟩ | some
  · simp [none, empty, varints]
  · rw [some, Option.bind_some, OptionSet.varint?_ofEntries]

theorem FromRow.declares?_eq_some_iff (h : FromRow resolve .field es n) :
    n.declares? = some (k, number) ↔ DeclaresSource (es.flatMap (·.raw)) k number := by
  have splits : (split (es.flatMap (·.raw))).1 = es := by rw [split_flatMap h.fits]
  have extendee : ∀ s : String, n.record.text? 2 = some s ↔
      (payloads 2 es).getLast? = some s.toByteArray.data.toList := fun s =>
    h.text?_eq_some_iff (g := .one 2 "extendee" .text) (by decide) (by decide) rfl rfl
  have numbered : n.record.int? 3 = (varints 3 es).getLast?.map Word.toInt32 :=
    h.int?_eq (g := .one 3 "number" .int32) (by decide) (by decide) rfl rfl
  have number_eq : (n.record.int? 3).getD 0 = (varints 3 es).getLast?.elim 0 Word.toInt32 := by
    rw [numbered]
    cases (varints 3 es).getLast? <;> rfl
  have marked := h.options_varint_iff 17 (w := retentionSource)
  have unnamed : Kind.ofOptionsMessage? "" ≠ some k := by cases k <;> decide
  constructor
  · intro declares
    rw [declares?] at declares
    split at declares
    · rename_i here
      obtain ⟨k', hk, eq⟩ := Option.map_eq_some_iff.1 declares
      cases eq
      obtain ⟨shape, last⟩ := marked.1 here.2
      cases text : n.record.text? 2 with
      | none =>
        rw [text] at hk
        exact absurd hk unnamed
      | some s =>
        rw [text] at hk
        rw [← splits] at extendee
        exact ⟨⟨s, (extendee s).1 text, Kind.ofOptionsMessage?_eq_some.1 hk⟩,
          by rw [splits, number_eq], shape, last⟩
    · cases declares
  · intro source
    have ⟨⟨s, text, named⟩, value, shape, last⟩ := source
    rw [splits] at text value
    rw [declares?, if_pos ⟨h.kind_eq, marked.2 ⟨shape, last⟩⟩, (extendee s).2 text, Option.getD_some,
      Kind.ofOptionsMessage?_eq_some.2 named, number_eq, value]
    rfl

theorem mem_payloads_iff {slot : Slot} (hs : slot ∈ kind.slots) {payload : List UInt8} :
    payload ∈ payloads slot.tag es ↔ (slot, payload) ∈ es.filterMap kind.child? := by
  rw [payloads_eq hs, List.mem_filterMap]
  constructor
  · rintro ⟨⟨slot', p⟩, mem, eq⟩
    split at eq
    · rename_i same
      cases eq
      rwa [← same]
    · cases eq
  · intro mem
    exact ⟨_, mem, if_pos rfl⟩

theorem FromRow.exists_at_iff (h : FromRow resolve kind es n) {P : Node → Prop} :
    (∃ address m, n.At address m ∧ P m) ↔
      P n ∨ ∃ slot ∈ kind.slots, ∃ payload ∈ payloads slot.tag es, ∃ c,
        decode resolve slot.kind payload = .ok c ∧ ∃ address m, c.At address m ∧ P m := by
  constructor
  · rintro ⟨address, m, at_, holds⟩
    cases at_ with
    | here => exact .inl holds
    | @child _ slot row rest _ i c inRows inRow below =>
      have hs : slot ∈ kind.slots := h.slots ▸ List.mem_map_of_mem inRows
      obtain ⟨⟨_, payload⟩, there, rfl, rfl⟩ := h.mem_rows inRows (List.mem_of_getElem? inRow)
      exact .inr ⟨_, hs, payload, (mem_payloads_iff hs).2 there, _, h.children _ there, rest, m, below,
        holds⟩
  · rintro (holds | ⟨slot, hs, payload, there, c, hc, address, m, below, holds⟩)
    · exact ⟨[], n, .here, holds⟩
    · obtain ⟨⟨_, row⟩, inRows, rfl⟩ := List.mem_map.1 (h.slots ▸ hs)
      obtain ⟨i, hi⟩ := List.mem_iff_getElem?.1 there
      have inRow : row[i]? = some c := by
        rw [show row = _ from h.row_eq inRows, List.getElem?_map, hi, Option.map_some, nodeOf_eq hc]
      exact ⟨_, m, .child inRows inRow below, holds⟩

theorem exists_declares_iff (h : decode resolve kind bytes = .ok n) :
    (∃ address m, n.At address m ∧ m.declares? = some (k, number)) ↔
      (kind = .field ∧ DeclaresSource bytes k number) ∨
        ∃ field, FieldWithin kind bytes field ∧ DeclaresSource field k number := by
  refine decode_induction (P := fun kind bytes n =>
    (∃ address m, n.At address m ∧ m.declares? = some (k, number)) ↔
      (kind = .field ∧ DeclaresSource bytes k number) ∨
        ∃ field, FieldWithin kind bytes field ∧ DeclaresSource field k number) ?_ h
  intro kind es n row ih
  have splits : (split (es.flatMap (·.raw))).1 = es := by rw [split_flatMap row.fits]
  have here : n.declares? = some (k, number) ↔
      kind = .field ∧ DeclaresSource (es.flatMap (·.raw)) k number := by
    by_cases field : kind = .field
    · subst field
      rw [row.declares?_eq_some_iff, and_iff_right rfl]
    · have other : n.declares? = none := by rw [declares?, if_neg (by simp [row.kind_eq, field])]
      simp [other, field]
  rw [row.exists_at_iff, here]
  apply or_congr Iff.rfl
  have below_iff (field : List UInt8) : FieldWithin kind (es.flatMap (·.raw)) field ↔
      ∃ slot ∈ kind.slots, ∃ payload ∈ payloads slot.tag es,
        (slot.kind = .field ∧ payload = field) ∨ FieldWithin slot.kind payload field := by
    rw [fieldWithin_iff, splits]
  simp only [below_iff]
  constructor
  · rintro ⟨slot, hs, payload, there, c, hc, declares⟩
    obtain rfl : nodeOf resolve (slot, payload) = c := nodeOf_eq hc
    rcases (ih _ ((mem_payloads_iff hs).1 there)).1 declares with
      ⟨field, source⟩ | ⟨field, within_, source⟩
    · exact ⟨payload, ⟨slot, hs, payload, there, .inl ⟨field, rfl⟩⟩, source⟩
    · exact ⟨field, ⟨slot, hs, payload, there, .inr within_⟩, source⟩
  · rintro ⟨field, ⟨slot, hs, payload, there, below⟩, source⟩
    have child := (mem_payloads_iff hs).1 there
    refine ⟨slot, hs, payload, there, _, row.children _ child, ?_⟩
    apply (ih _ child).2
    rcases below with ⟨isField, rfl⟩ | within_
    · exact .inl ⟨isField, source⟩
    · exact .inr ⟨field, within_, source⟩

end Node

namespace Declared

variable {files : List (List UInt8)} {kind : Kind} {number : Int}

theorem mem_ofTree_iff {resolve : Resolver} {file : List UInt8} {t : Tree}
    (h : Tree.decode resolve file = .ok t) :
    (kind, number) ∈ ofTree t ↔
      ∃ field, FieldWithin .file file field ∧ DeclaresSource field kind number := by
  obtain ⟨n, hn, rfl⟩ := Tree.decode_eq_ok_iff.1 h
  obtain ⟨es, -, row⟩ := Node.exists_fromRow hn
  have declares : (∃ address m, n.At address m ∧ m.declares? = some (kind, number)) ↔
      ∃ field, FieldWithin .file file field ∧ DeclaresSource field kind number := by
    rw [Node.exists_declares_iff hn]
    simp only [reduceCtorEq, false_and, false_or]
  rw [← declares]
  obtain ⟨file', record, options, rows⟩ := n
  obtain rfl : file' = .file := row.kind_eq
  simp only [ofTree, List.mem_filterMap, Prod.exists, Node.mem_preorder, List.nil_append, Tree.ofNode]
  -- Only the record of the file itself is not the same, and a file is no field.
  constructor
  · rintro ⟨address, m, ⟨_, rfl, at_⟩, declares⟩
    cases at_ with
    | here => cases declares
    | child inRows inRow below => exact ⟨_, m, .child inRows inRow below, declares⟩
  · rintro ⟨address, m, at_, declares⟩
    cases at_ with
    | here => cases declares
    | child inRows inRow below => exact ⟨_, m, ⟨_, rfl, .child inRows inRow below⟩, declares⟩

theorem ofFiles_eq_error_iff {e : TreeError} :
    ofFiles files = .error e ↔
      ∃ front bad rest, files = front ++ bad :: rest ∧
        (∀ file ∈ front, ∃ t, Tree.decode (fun _ _ => .runtime) file = .ok t) ∧
        Tree.decode (fun _ _ => .runtime) bad = .error e := by
  rw [← mapM_eq_error_iff, ofFiles]
  cases files.mapM (Tree.decode fun _ _ => .runtime) <;> simp [bind, Except.bind, pure, Except.pure]

theorem exists_ofFiles (each : ∀ file ∈ files, ∃ t, Tree.decode (fun _ _ => .runtime) file = .ok t) :
    ∃ d, ofFiles files = .ok d := by
  cases result : ofFiles files with
  | ok d => exact ⟨d, rfl⟩
  | error e =>
    obtain ⟨front, bad, rest, rfl, -, fault⟩ := ofFiles_eq_error_iff.1 result
    obtain ⟨t, ht⟩ := each bad (by simp)
    rw [ht] at fault
    cases fault

theorem isSource_iff {d : Declared} (h : ofFiles files = .ok d) :
    d.isSource kind number = true ↔
      ∃ file ∈ files, ∃ field, FieldWithin .file file field ∧ DeclaresSource field kind number := by
  obtain ⟨trees, read, rest⟩ := bind_eq_ok.1 h
  cases rest
  rw [isSource, List.contains_iff_mem, List.mem_flatMap]
  have each := mapM_eq_ok_iff.1 read
  clear read h
  induction each with
  | nil => simp
  | cons head _ ih =>
    simp only [List.mem_cons, exists_eq_or_imp, ih, mem_ofTree_iff head]

theorem isEmpty_iff {d : Declared} : d.isEmpty = true ↔ ∀ kind number, d.isSource kind number = false := by
  simp [isEmpty, isSource, List.eq_nil_iff_forall_not_mem]

/-- What a list of files declares, and nothing else, is collected: neither the order of the files nor how
often one comes makes a difference, and more files declare no less. -/
theorem ofFiles_collects (files : List (List UInt8)) :
    (∀ e, ofFiles files = .error e ↔
      ∃ front bad rest, files = front ++ bad :: rest ∧
        (∀ file ∈ front, ∃ t, Tree.decode (fun _ _ => .runtime) file = .ok t) ∧
        Tree.decode (fun _ _ => .runtime) bad = .error e) ∧
    ((∀ file ∈ files, ∃ t, Tree.decode (fun _ _ => .runtime) file = .ok t) →
      ∃ d, ofFiles files = .ok d ∧
        (∀ kind number, d.isSource kind number = true ↔
          ∃ file ∈ files, ∃ field, FieldWithin .file file field ∧ DeclaresSource field kind number) ∧
        (∀ files', (∀ file, file ∈ files' ↔ file ∈ files) → ∃ d', ofFiles files' = .ok d' ∧
          d'.isSource = d.isSource ∧ d'.isEmpty = d.isEmpty ∧ d'.resolver = d.resolver) ∧
        ∀ files' d', files ⊆ files' → ofFiles files' = .ok d' →
          ∀ kind number, d.isSource kind number = true → d'.isSource kind number = true) := by
  refine ⟨fun e => ofFiles_eq_error_iff, fun each => ?_⟩
  obtain ⟨d, read⟩ := exists_ofFiles each
  refine ⟨d, read, fun kind number => isSource_iff read, ?_, ?_⟩
  · intro files' same
    obtain ⟨d', read'⟩ := exists_ofFiles fun file mem => each file ((same file).1 mem)
    have source : d'.isSource = d.isSource := by
      funext kind number
      rw [Bool.eq_iff_iff, isSource_iff read', isSource_iff read]
      simp only [same]
    refine ⟨d', read', source, ?_, ?_⟩
    · rw [Bool.eq_iff_iff, isEmpty_iff, isEmpty_iff, source]
    · unfold resolver
      rw [source]
  · intro files' d' more read' kind number source
    obtain ⟨file, mem, declared⟩ := (isSource_iff read).1 source
    exact (isSource_iff read').2 ⟨file, more mem, declared⟩

/-- A file with an extension of the options of fields by one with number 50000. Its own options come twice:
the first say that it is kept at run time, the second that it is not. -/
def markedTwice : List UInt8 :=
  [0x3a, 0x2d, 0x12, 0x1d, 0x2e, 0x67, 0x6f, 0x6f, 0x67, 0x6c, 0x65, 0x2e, 0x70, 0x72, 0x6f, 0x74, 0x6f,
   0x62, 0x75, 0x66, 0x2e, 0x46, 0x69, 0x65, 0x6c, 0x64, 0x4f, 0x70, 0x74, 0x69, 0x6f, 0x6e, 0x73, 0x18,
   0xd0, 0x86, 0x03, 0x42, 0x03, 0x88, 0x01, 0x01, 0x42, 0x03, 0x88, 0x01, 0x02]

def markedTwiceField : Node :=
  .mk .field [(2, .text ".google.protobuf.FieldOptions"), (3, .word 50000)]
    (some ⟨[⟨17, .runtime,
      [⟨⟨17, .varint⟩, .varint 1, [0x88, 1, 1]⟩, ⟨⟨17, .varint⟩, .varint 2, [0x88, 1, 2]⟩]⟩]⟩) []

def markedTwiceTree : Tree :=
  ⟨.mk .file [] none (Kind.file.arrange [(⟨7, .field⟩, markedTwiceField)]), none⟩

theorem declaresSource_markedTwice :
    ∃ field, FieldWithin .file markedTwice field ∧ DeclaresSource field .field 50000 := by
  have reads : Tree.decode (fun _ _ => .runtime) markedTwice = .ok markedTwiceTree := by decide +kernel
  obtain ⟨d, collected, source, -⟩ :=
    (ofFiles_collects [markedTwice]).2 (List.forall_mem_singleton.2 ⟨_, reads⟩)
  have found : ofFiles [markedTwice] = .ok ⟨[(.field, 50000)]⟩ := by
    simp only [ofFiles, List.mapM_cons, List.mapM_nil, reads]
    rfl
  rw [found] at collected
  cases collected
  simpa using (source .field 50000).1 (by decide)

end Declared

end Descriptor

end CompilerPlugin

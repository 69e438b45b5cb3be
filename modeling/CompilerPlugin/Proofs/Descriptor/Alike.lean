import CompilerPlugin.Proofs.Descriptor.FieldNumbers
import CompilerPlugin.Proofs.Descriptor.StripTwice
import CompilerPlugin.Proofs.Message.Rereading

namespace CompilerPlugin

open Wire Schema

theorem forall₂_exists_iff {α β γ : Type} {R : α → γ → Prop} {S : β → γ → Prop}
    {l : List α} {l' : List β} :
    List.Forall₂ (fun a b => ∃ c, R a c ∧ S b c) l l' ↔
      ∃ cs, List.Forall₂ R l cs ∧ List.Forall₂ S l' cs := by
  constructor
  · intro h
    induction h with
    | nil => exact ⟨[], .nil, .nil⟩
    | cons head _ ih =>
      obtain ⟨c, left, right⟩ := head
      obtain ⟨cs, lefts, rights⟩ := ih
      exact ⟨c :: cs, .cons left lefts, .cons right rights⟩
  · rintro ⟨cs, lefts, rights⟩
    induction lefts generalizing l' with
    | nil =>
      cases rights
      exact .nil
    | cons left _ ih =>
      cases rights with
      | cons right rights => exact .cons ⟨_, left, right⟩ (ih rights)

namespace Schema.Field

variable {nested : MessageType → Message → List UInt8 → Message → Prop} {f : Field} {t : MessageType}

theorem Gathers.exists_messages (label : f.label = .repeated) (type : f.type = .message t)
    {held values : List Value} {es : List Entry} (h : f.Gathers nested held es values) :
    ∃ ms, values = held ++ ms.map .message ∧
      List.Forall₂ (fun e m => ∃ p, e.body = .delimited p ∧ nested t [] p m) es ms := by
  induction h with
  | nil => exact ⟨[], by simp, .nil⟩
  | @cons held added values e es head _ ih =>
    obtain ⟨ms, rfl, each⟩ := ih
    obtain ⟨p, m, body, rfl, reads⟩ := (holds_message_iff type).1 head
    rw [before_of_repeated label] at reads
    exact ⟨m :: ms, by simp, .cons ⟨p, body, reads⟩ each⟩

theorem gathers_messages (label : f.label = .repeated) (type : f.type = .message t) {es : List Entry}
    {ms : List Message}
    (each : List.Forall₂ (fun e m => ∃ p, e.body = .delimited p ∧ nested t [] p m) es ms) :
    f.Gathers nested [] es (ms.map .message) := by
  refine gathers_of_forall₂ (List.forall₂_map_right_iff.2 (each.imp ?_)) []
  rintro e m ⟨p, body, reads⟩ held
  rw [body]
  exact .message type (by rwa [before_of_repeated label])

def SettleAlike (nested : MessageType → Message → List UInt8 → Message → Prop) (f : Field)
    (es es' : List Entry) : Prop :=
  ∃ values values', f.Gathers nested [] es values ∧ f.Gathers nested [] es' values' ∧
    f.settle values = f.settle values'

end Schema.Field

namespace Message

variable {depth : Nat} {t : MessageType}

theorem ReadsAs.ofRow (le : depth ≤ maxDepth) {before m : Message} {es : List Entry}
    (fits : ∀ e ∈ es, e.Fits maxDepth) (h : ReadsAs depth t before (es.flatMap (·.raw)) m) :
    OfRow depth t before es m := by
  obtain ⟨es', fits', bytes, row⟩ := (readsAs_iff le).1 h
  have same := split_flatMap fits
  rw [bytes, split_flatMap fits'] at same
  cases same
  exact row

theorem exists_ofRow {es es' : List Entry} (known : ∀ e ∈ es ++ es', (t.field? e.key.number).isSome)
    (each : ∀ f ∈ t.fields, f.SettleAlike (NestedReadsAs depth)
      (es.filter (·.key.number = f.number)) (es'.filter (·.key.number = f.number))) :
    ∃ m, OfRow depth t [] es m ∧ OfRow depth t [] es' m := by
  choose! values values' gathers gathers' same using each
  have held : ∀ f ∈ t.fields,
      Message.values (t.fields.flatMap fun g => parts g.number (g.settle (values g))) f.number =
        f.settle (values f) := fun f mem =>
    values_flatMap_parts t.fields_sorted (fun g => g.settle (values g)) mem
  have ordered : Ordered t (t.fields.flatMap fun g => parts g.number (g.settle (values g))) := by
    apply List.flatMap_congr
    intro f mem
    rw [held f mem]
  have noUnknown : ∀ e ∈ es ++ es', t.field? e.key.number = none → e.Fits depth := by
    intro e mem none
    have some := known e mem
    rw [none] at some
    cases some
  refine ⟨_, ⟨fun e mem => noUnknown e (List.mem_append_left _ mem), fun f mem => ?_, ordered⟩,
    ⟨fun e mem => noUnknown e (List.mem_append_right _ mem), fun f mem => ?_, ordered⟩⟩
  · exact ⟨values f, gathers f mem, held f mem⟩
  · exact ⟨values' f, gathers' f mem, (held f mem).trans (same f mem)⟩

end Message

namespace Descriptor

namespace Node.Level

variable {n : Node} (h : n.Level)

include h

theorem filter_record_of_not_owns {number : Nat} (foreign : n.kind.owns number = false) :
    (n.record.map Entry.ofPart).filter (·.key.number = number) = [] := by
  apply List.filter_eq_nil_iff.2
  intro e mem
  have own := h.owns_record e mem
  rw [decide_eq_true_iff]
  rintro rfl
  rw [foreign] at own
  cases own

theorem filter_rows_of_ne {number : Nat} (ne : ∀ s ∈ n.kind.slots, s.tag ≠ number) :
    (rowEntries n.rows).filter (·.key.number = number) = [] := by
  apply List.filter_eq_nil_iff.2
  intro e mem
  obtain ⟨row, hr, mem⟩ := List.mem_flatMap.1 mem
  obtain ⟨c, -, rfl⟩ := List.mem_map.1 mem
  rw [decide_eq_true_iff]
  exact ne row.1 (h.slot_mem hr)

theorem filter_entries_own {number : Nat} (own : n.kind.owns number = true) :
    n.entries.filter (·.key.number = number) =
      (n.record.map Entry.ofPart).filter (·.key.number = number) := by
  have notOptions : number ≠ n.kind.optionsTag := by
    rintro rfl
    rw [Kind.owns_optionsTag] at own
    cases own
  have notSlot : ∀ s ∈ n.kind.slots, s.tag ≠ number := by
    rintro s hs rfl
    rw [Kind.owns_tag hs] at own
    cases own
  rw [entries, List.filter_append, List.filter_append, filter_optionsEntries_of_ne notOptions,
    h.filter_rows_of_ne notSlot, List.append_nil, List.append_nil]

theorem filter_entries_options :
    n.entries.filter (·.key.number = n.kind.optionsTag) = optionsEntries n.kind n.options := by
  rw [entries, List.filter_append, List.filter_append, h.filter_record_of_not_owns n.kind.owns_optionsTag,
    filter_optionsEntries_self, h.filter_rows_of_ne fun s => Kind.tag_ne_optionsTag, List.nil_append,
    List.append_nil]

theorem filter_entries_slot {slot : Slot} {row : List Node} (hr : (slot, row) ∈ n.rows) :
    n.entries.filter (·.key.number = slot.tag) = row.map fun c => childEntry (slot, c) := by
  have hs := h.slot_mem hr
  have nodup : (n.rows.map (·.1)).Nodup := h.slots ▸ n.kind.nodup_slots
  have inRow : (n.rows.flatMap fun row => row.2.map fun c => (row.1, c)).filterMap
      (fun child => if child.1 = slot then some child.2 else none) = row :=
    (Kind.filterMap_row nodup id hr).trans (List.map_id row)
  have pairs : ∀ child ∈ n.rows.flatMap (fun row => row.2.map fun c => (row.1, c)),
      child.1 ∈ n.kind.slots := by
    intro child mem
    obtain ⟨r, hr, mem⟩ := List.mem_flatMap.1 mem
    obtain ⟨c, -, rfl⟩ := List.mem_map.1 mem
    exact h.slot_mem hr
  have written : rowEntries n.rows =
      (n.rows.flatMap fun row => row.2.map fun c => (row.1, c)).map childEntry := by
    simp [rowEntries, List.map_flatMap, Function.comp_def]
  rw [entries, List.filter_append, List.filter_append, h.filter_record_of_not_owns (Kind.owns_tag hs),
    filter_optionsEntries_of_ne (Kind.tag_ne_optionsTag hs), List.nil_append, List.nil_append, written]
  conv => rhs; rw [← inRow]
  rw [List.filter_map, List.map_filterMap, ← List.filterMap_eq_filter, List.map_filterMap]
  apply List.filterMap_congr
  intro child mem
  by_cases same : child.1 = slot
  · subst same
    simp [childEntry, Entry.delimited]
  · have other : child.1.tag ≠ slot.tag := fun tag => same (Kind.eq_of_tag (pairs child mem) hs tag)
    simp [childEntry, Entry.delimited, same, other]

theorem exists_row {slot : Slot} (hs : slot ∈ n.kind.slots) : ∃ cs, (slot, cs) ∈ n.rows := by
  obtain ⟨⟨_, cs⟩, hr, rfl⟩ := List.mem_map.1 (h.slots ▸ hs)
  exact ⟨cs, hr⟩

end Node.Level

theorem Kind.single_of_mem_optionsType {kind : Kind} {f : Field} (mem : f ∈ kind.optionsType.fields) :
    ¬ (f.type = .scalar .int32 ∧ f.label.isList) ∧ (f.label = .optional ∨ f.label = .repeated) := by
  revert f
  cases kind <;> decide

namespace OptionSet

def numbers (o : OptionSet) : List Nat :=
  o.fields.map (·.number)

def Known (kind : Kind) (o : OptionSet) : Prop :=
  ∀ number ∈ o.numbers, (kind.optionsType.field? number).isSome

variable {resolve : Resolver} {kind : Kind} {depth : Nat} {o : OptionSet} {m : Message}

theorem Grouped.mem_numbers_iff (h : o.Grouped) {number : Nat} :
    number ∈ o.numbers ↔ o.entries.filter (·.key.number = number) ≠ [] := by
  constructor
  · intro mem
    obtain ⟨f, hf, rfl⟩ := List.mem_map.1 mem
    rw [entries, filter_flatMap_entries h.sound h.nodup hf]
    exact (h.sound f hf).given
  · intro some
    obtain ⟨e, he⟩ := List.exists_mem_of_ne_nil _ some
    obtain ⟨mem, same⟩ := List.mem_filter.1 he
    obtain ⟨f, hf, own⟩ := List.mem_flatMap.1 mem
    rw [← of_decide_eq_true same, (h.sound f hf).number e own]
    exact List.mem_map_of_mem hf

theorem Grouped.values_ne_nil_iff (h : o.Grouped) (known : o.Known kind)
    (row : Message.OfRow depth kind.optionsType [] o.entries m) {number : Nat} :
    m.values number ≠ [] ↔ number ∈ o.numbers := by
  constructor
  · intro some
    obtain ⟨v, hv⟩ := List.exists_mem_of_ne_nil _ some
    obtain ⟨f, hf, rfl, -⟩ := row.ordered.exists_field (Message.mem_of_mem_values hv)
    obtain ⟨values, gathers, settled⟩ := row.gathered f hf
    rw [h.mem_numbers_iff]
    intro none
    rw [none] at gathers
    cases gathers
    have given : f.label ≠ .required := by
      rcases (Kind.single_of_mem_optionsType hf).2 with label | label <;> simp [label]
    exact some (settled.trans (Field.settle_nil given))
  · intro mem
    obtain ⟨f, field⟩ := Option.isSome_iff_exists.1 (known number mem)
    obtain rfl := MessageType.number_of_field? field
    have hf := MessageType.mem_of_field? field
    obtain ⟨values, gathers, settled⟩ := row.gathered f hf
    obtain ⟨single, label⟩ := Kind.single_of_mem_optionsType hf
    obtain ⟨e, he⟩ := List.exists_mem_of_ne_nil _ (h.mem_numbers_iff.1 mem)
    have some := gathers.ne_nil (.inr ⟨e, he, fun _ => single⟩)
    rw [settled]
    rcases label with label | label
    · simpa [Field.settle, label] using some
    · simpa [Field.settle, label] using some

theorem Grouped.entries_keep (h : o.Grouped) (resolve : Resolver) (kind : Kind) :
    ((o.retag resolve kind).keep .runtime).entries =
      o.entries.filter fun e => resolve kind e.key.number = .runtime := by
  have sound := h.sound
  rw [keep_retag]
  simp only [entries, List.flatMap_map, List.filter_flatMap]
  generalize o.fields = fields at sound ⊢
  induction fields with
  | nil => rfl
  | cons f fields ih =>
    have rest := ih fun g mem => sound g (List.mem_cons_of_mem _ mem)
    have number := (sound f List.mem_cons_self).number
    rw [List.flatMap_cons, ← rest, List.filter_cons]
    by_cases runtime : resolve kind f.number = .runtime
    · have all : f.entries.filter (fun e => resolve kind e.key.number = .runtime) = f.entries :=
        List.filter_eq_self.2 fun e mem => by simp [number e mem, runtime]
      simp [runtime, all]
    · have none : f.entries.filter (fun e => resolve kind e.key.number = .runtime) = [] :=
        List.filter_eq_nil_iff.2 fun e mem => by simp [number e mem, runtime]
      simp [runtime, none]

theorem keep_retag_eq_nil_iff :
    ((o.retag resolve kind).keep .runtime).fields = [] ↔
      ∀ number ∈ o.numbers, resolve kind number = .source := by
  rw [keep_eq_nil_iff]
  simp [retag, numbers]

theorem numbers_eq_nil_iff : o.numbers = [] ↔ o.fields = [] := by
  simp [numbers]

end OptionSet

theorem survivors_some (resolve : Resolver) (kind : Kind) (o : OptionSet) :
    survivors resolve kind (some o) =
      if o.numbers ≠ [] ∧ ∀ number ∈ o.numbers, resolve kind number = .source then none
      else some ((o.retag resolve kind).keep .runtime) := by
  rw [survivors, retagOptions, Option.map_some, remaining_some]
  simp only [ne_eq, OptionSet.retag_eq_nil, OptionSet.keep_retag_eq_nil_iff, OptionSet.numbers_eq_nil_iff]

inductive SameNumbers : Option OptionSet → Option OptionSet → Prop
  | none : SameNumbers none none
  | some {o o' : OptionSet} :
      (∀ number, number ∈ o.numbers ↔ number ∈ o'.numbers) → SameNumbers (some o) (some o')

theorem SameNumbers.ne_nil_iff {o o' : OptionSet}
    (same : ∀ number, number ∈ o.numbers ↔ number ∈ o'.numbers) : o.numbers ≠ [] ↔ o'.numbers ≠ [] := by
  simp only [ne_eq, List.eq_nil_iff_forall_not_mem, same]

theorem covers_retag_iff_numbers {resolve : Resolver} {kind : Kind} {o : OptionSet}
    {address path : Address} :
    Covers address (retagOptions resolve kind (some o)) path ↔
      (o.numbers ≠ [] ∧ (∀ number ∈ o.numbers, resolve kind number = .source) ∧ address <+: path) ∨
        ∃ number ∈ o.numbers, resolve kind number = .source ∧ address ++ [(number : Int)] <+: path := by
  rw [retagOptions, Option.map_some, covers_retag_iff, OptionSet.keep_retag_eq_nil_iff, ne_eq, ne_eq,
    OptionSet.numbers_eq_nil_iff]
  simp [OptionSet.numbers]

theorem SameNumbers.covers_iff {resolve : Resolver} {kind : Kind} {options options' : Option OptionSet}
    (h : SameNumbers options options') {address path : Address} :
    Covers address (retagOptions resolve kind options) path ↔
      Covers address (retagOptions resolve kind options') path := by
  cases h with
  | none => rfl
  | some same => simp only [covers_retag_iff_numbers, SameNumbers.ne_nil_iff same, same]

namespace Node

structure Typed (n : Node) : Prop where
  readable : n.Readable
  known : ∀ address c, n.At address c → ∀ o, c.options = some o → o.Known c.kind

/-- Two nodes of a kind hold the same message, each together with more of the record's own: a file's source
locations are kept beside its node, and other records have no more. -/
structure Alike (depth : Nat) (n n' : Node) (more more' : List Entry) : Prop where
  kind_eq : n'.kind = n.kind
  typed : n.Typed
  typed' : n'.Typed
  own : ∀ e ∈ more, n.kind.owns e.key.number = true
  own' : ∀ e ∈ more', n.kind.owns e.key.number = true
  exists_row : ∃ m, Message.OfRow depth n.kind.recordType [] (n.entries ++ more) m ∧
    Message.OfRow depth n.kind.recordType [] (n'.entries ++ more') m

def StrippedAlike (resolve : Resolver) (depth : Nat) (n n' : Node) : Prop :=
  ∃ m, Message.ReadsAs depth n.kind.recordType [] (n.mapOptions (survivors resolve)).encode m ∧
    Message.ReadsAs depth n.kind.recordType [] (n'.mapOptions (survivors resolve)).encode m

variable {depth : Nat} {n n' : Node} {more more' : List Entry} {m : Message}

theorem Typed.level (h : n.Typed) : n.Level :=
  h.readable.level

theorem Typed.child (h : n.Typed) {row : Slot × List Node} (hr : row ∈ n.rows) {c : Node}
    (hc : c ∈ row.2) : c.Typed where
  readable := by
    cases h.readable with
    | mk _ below => exact below row hr c hc
  known address c' at_ := by
    obtain ⟨i, hi⟩ := List.mem_iff_getElem?.1 hc
    exact h.known _ c' (.child hr hi at_)

theorem filter_append_of_not_owns (own : ∀ e ∈ more, n.kind.owns e.key.number = true) {number : Nat}
    (foreign : n.kind.owns number = false) :
    (n.entries ++ more).filter (·.key.number = number) = n.entries.filter (·.key.number = number) := by
  have none : more.filter (·.key.number = number) = [] := by
    apply List.filter_eq_nil_iff.2
    intro e mem
    rw [decide_eq_true_iff]
    rintro rfl
    rw [own e mem] at foreign
    cases foreign
  rw [List.filter_append, none, List.append_nil]

section

variable (le : depth ≤ maxDepth) (h : n.Typed) (own : ∀ e ∈ more, n.kind.owns e.key.number = true)
  (row : Message.OfRow depth n.kind.recordType [] (n.entries ++ more) m)

include h own row

include le in
theorem Typed.options_cases :
    (n.options = none ∧ m.values n.kind.optionsTag = []) ∨
      ∃ o mo, n.options = some o ∧ m.values n.kind.optionsTag = [.message mo] ∧
        ∃ d, depth = d + 1 ∧ Message.OfRow d n.kind.optionsType [] o.entries mo := by
  obtain ⟨values, gathers, settled⟩ := row.gathered _ n.kind.optionsField_mem
  change n.kind.optionsField.Gathers _ [] ((n.entries ++ more).filter (·.key.number = n.kind.optionsTag))
    values at gathers
  change m.values n.kind.optionsTag = values.getLast?.toList at settled
  rw [filter_append_of_not_owns own n.kind.owns_optionsTag, h.level.filter_entries_options] at gathers
  cases options : n.options with
  | none =>
    rw [options] at gathers
    cases gathers
    exact .inl ⟨rfl, settled⟩
  | some o =>
    have readable := h.level.options
    rw [options] at gathers readable
    obtain ⟨mo, last, reads⟩ :=
      gathers.exists_merged le (t := n.kind.optionsType) rfl rfl (by simp [optionsEntries])
    have whole : ((optionsEntries n.kind (some o)).filterMap (·.body.payload?)).flatten =
        o.entries.flatMap (·.raw) := by
      simp [optionsEntries, Entry.delimited, Body.payload?, OptionSet.encode_eq_entries]
    rw [whole] at reads
    refine .inr ⟨o, mo, rfl, by rw [settled, last]; rfl, ?_⟩
    cases depth with
    | zero => exact reads.elim
    | succ d => exact ⟨d, rfl, Message.ReadsAs.ofRow (Nat.le_of_succ_le le) readable.1.fits reads⟩

theorem Typed.exists_messages {slot : Slot} {cs : List Node} (hr : (slot, cs) ∈ n.rows) :
    ∃ ms, m.values slot.tag = ms.map .message ∧
      List.Forall₂ (fun c m' => (c.kind = slot.kind ∧ c.Typed) ∧
        ∃ d, depth = d + 1 ∧ Message.ReadsAs d slot.kind.recordType [] c.encode m') cs ms := by
  have hs := h.level.slot_mem hr
  obtain ⟨f, hf, tag, label, type⟩ := Kind.exists_slotField hs
  obtain ⟨values, gathers, settled⟩ := row.gathered f hf
  rw [tag, filter_append_of_not_owns own (Kind.owns_tag hs), h.level.filter_entries_slot hr] at gathers
  obtain ⟨ms, rfl, each⟩ := gathers.exists_messages label type
  refine ⟨ms, by rw [← tag, settled, Field.settle, label]; rfl, ?_⟩
  rw [List.forall₂_map_left_iff] at each
  refine (List.forall₂_and_left _ _).2 ⟨fun c hc => ⟨h.level.kinds _ hr c hc, h.child hr hc⟩, ?_⟩
  refine each.imp fun c m' nested => ?_
  obtain ⟨p, body, reads⟩ := nested
  cases body
  cases depth with
  | zero => exact reads.elim
  | succ d => exact ⟨d, rfl, reads⟩

end

namespace Alike

variable (le : depth ≤ maxDepth) (h : Alike depth n n' more more')

include le h

theorem options_cases :
    (n.options = none ∧ n'.options = none) ∨ ∃ o o' mo d, n.options = some o ∧ n'.options = some o' ∧
      depth = d + 1 ∧ Message.OfRow d n.kind.optionsType [] o.entries mo ∧
        Message.OfRow d n.kind.optionsType [] o'.entries mo := by
  obtain ⟨m, row, row'⟩ := h.exists_row
  have cases := h.typed.options_cases le h.own row
  have cases' := h.typed'.options_cases le (h.kind_eq ▸ h.own') (h.kind_eq ▸ row')
  rw [h.kind_eq] at cases'
  rcases cases with ⟨none, values⟩ | ⟨o, mo, some, values, d, rfl, reads⟩ <;>
    rcases cases' with ⟨none', values'⟩ | ⟨o', mo', some', values', d', eq, reads'⟩
  · exact .inl ⟨none, none'⟩
  · cases values.symm.trans values'
  · cases values.symm.trans values'
  · cases eq
    cases values.symm.trans values'
    exact .inr ⟨o, o', mo, d, some, some', rfl, reads, reads'⟩

theorem sameNumbers : SameNumbers n.options n'.options := by
  rcases h.options_cases le with ⟨none, none'⟩ | ⟨o, o', mo, d, some, some', -, row, row'⟩
  · rw [none, none']
    exact .none
  · have grouped := h.typed.level.options
    have grouped' := h.typed'.level.options
    have known := h.typed.known _ _ .here o some
    have known' := h.typed'.known _ _ .here o' some'
    rw [h.kind_eq] at known'
    rw [some] at grouped ⊢
    rw [some'] at grouped' ⊢
    refine .some fun number => ?_
    rw [← grouped.1.values_ne_nil_iff known row, grouped'.1.values_ne_nil_iff known' row']

theorem rows {slot : Slot} {cs cs' : List Node} (hr : (slot, cs) ∈ n.rows)
    (hr' : (slot, cs') ∈ n'.rows) :
    List.Forall₂ (fun c c' => c.kind = slot.kind ∧ ∃ d, depth = d + 1 ∧ Alike d c c' [] []) cs cs' := by
  obtain ⟨m, row, row'⟩ := h.exists_row
  obtain ⟨ms, values, each⟩ := h.typed.exists_messages h.own row hr
  obtain ⟨ms', values', each'⟩ := h.typed'.exists_messages (h.kind_eq ▸ h.own') (h.kind_eq ▸ row') hr'
  obtain rfl : ms = ms' := by
    have same := values.symm.trans values'
    exact List.map_injective_iff.2 (fun _ _ eq => Value.message.inj eq) same
  refine (forall₂_exists_iff.2 ⟨ms, each, each'⟩).imp fun c c' both => ?_
  obtain ⟨m', ⟨⟨kind, typed⟩, d, rfl, reads⟩, ⟨kind', typed'⟩, _, eq, reads'⟩ := both
  cases eq
  have le' := Nat.le_of_succ_le le
  rw [← kind, encode_eq_entries] at reads reads'
  refine ⟨kind, d, rfl, kind'.trans kind.symm, typed, typed', by simp, by simp, m', ?_, ?_⟩
  · rw [List.append_nil]
    exact reads.ofRow le' typed.level.fits
  · rw [List.append_nil]
    exact reads'.ofRow le' typed'.level.fits

omit le in
theorem exists_row' {slot : Slot} (hs : slot ∈ n.kind.slots) : ∃ cs', (slot, cs') ∈ n'.rows :=
  h.typed'.level.exists_row (by rwa [h.kind_eq])

theorem exists_at {address : Address} {c : Node} (at_ : n.At address c) :
    ∃ c' d cmore cmore', n'.At address c' ∧ d ≤ maxDepth ∧ Alike d c c' cmore cmore' := by
  induction at_ generalizing depth n' more more' with
  | here => exact ⟨n', depth, more, more', .here, le, h⟩
  | @child n slot cs rest _ i c hr hi _ ih =>
    obtain ⟨cs', hr'⟩ := h.exists_row' (h.typed.level.slot_mem hr)
    have each := h.rows le hr hr'
    obtain ⟨length, get⟩ := List.forall₂_iff_get.1 each
    obtain ⟨bound, rfl⟩ := List.getElem?_eq_some_iff.1 hi
    obtain ⟨-, d, rfl, alike⟩ := get i bound (length ▸ bound)
    obtain ⟨c', d', cmore, cmore', at', le', alike'⟩ := ih (Nat.le_of_succ_le le) alike
    exact ⟨c', d', cmore, cmore', .child hr' (List.getElem?_eq_getElem _) at', le', alike'⟩

omit le in
theorem symm : Alike depth n' n more' more := by
  obtain ⟨kind_eq, typed, typed', own, own', m, row, row'⟩ := h
  rw [← kind_eq] at own own' row row'
  exact ⟨kind_eq.symm, typed', typed, own', own, m, row', row⟩

theorem exists_covers (resolve : Resolver) {path : Address}
    (covers : ∃ e ∈ n.preorder [], Covers (Walk.trace e.1 ++ [(e.2.kind.optionsTag : Int)])
      (retagOptions resolve e.2.kind e.2.options) path) :
    ∃ e ∈ n'.preorder [], Covers (Walk.trace e.1 ++ [(e.2.kind.optionsTag : Int)])
      (retagOptions resolve e.2.kind e.2.options) path := by
  obtain ⟨⟨address, c⟩, mem, covers⟩ := covers
  obtain ⟨c', d, cmore, cmore', at', le', alike⟩ := h.exists_at le (mem_preorder_nil.1 mem)
  refine ⟨(address, c'), mem_preorder_nil.2 at', ?_⟩
  rw [alike.kind_eq]
  exact (alike.sameNumbers le').covers_iff.1 covers

theorem survivors_alike (resolve : Resolver) :
    n.kind.optionsField.SettleAlike (Message.NestedReadsAs depth)
      (optionsEntries n.kind (survivors resolve n.kind n.options))
      (optionsEntries n.kind (survivors resolve n.kind n'.options)) := by
  have same := h.sameNumbers le
  have options := h.typed.level.options
  have options' := h.typed'.level.options
  rcases h.options_cases le with ⟨none, none'⟩ | ⟨o, o', mo, d, some, some', rfl, row, row'⟩
  · rw [none, none']
    exact ⟨[], [], .nil, .nil, rfl⟩
  · rw [some, some'] at same
    rw [some] at options
    rw [some'] at options'
    have read {o : OptionSet} (grouped : o.Grouped)
        (row : Message.OfRow d n.kind.optionsType [] o.entries mo) :
        n.kind.optionsField.Gathers (Message.NestedReadsAs (d + 1)) []
          (optionsEntries n.kind (Option.some ((o.retag resolve n.kind).keep .runtime)))
          [.message (mo.only fun number => resolve n.kind number = .runtime)] := by
      have given : ∀ f ∈ n.kind.optionsType.fields,
          decide (resolve n.kind f.number = .runtime) = false → f.label ≠ .required := by
        intro f mem _
        rcases (Kind.single_of_mem_optionsType mem).2 with label | label <;> simp [label]
      have kept := row.only (fun number => resolve n.kind number = .runtime) given
      rw [← grouped.entries_keep resolve n.kind] at kept
      have reads := (Message.readsAs_iff (Nat.le_of_succ_le le)).2
        ⟨_, ((grouped.retag resolve n.kind).filter _).fits, OptionSet.encode_eq_entries _, kept⟩
      have holds : n.kind.optionsField.Holds (Message.NestedReadsAs (d + 1)) []
          (.delimited ((o.retag resolve n.kind).keep .runtime).encode) [_] :=
        .message rfl (by rw [Field.before_nil]; exact reads)
      exact .cons holds .nil
    cases same with
    | some same =>
      rw [some, some', survivors_some, survivors_some]
      by_cases all : o.numbers ≠ [] ∧ ∀ number ∈ o.numbers, resolve n.kind number = .source
      · have all' := all
        simp only [SameNumbers.ne_nil_iff same, same] at all'
        rw [if_pos all, if_pos all']
        exact ⟨[], [], .nil, .nil, rfl⟩
      · have all' := all
        simp only [SameNumbers.ne_nil_iff same, same] at all'
        rw [if_neg all, if_neg all']
        exact ⟨_, _, read options.1 row, read options'.1 row', rfl⟩

theorem children_alike {resolve : Resolver}
    (below : ∀ d c c', depth = d + 1 → Alike d c c' [] [] → StrippedAlike resolve d c c')
    {slot : Slot} {cs cs' : List Node} (hr : (slot, cs) ∈ n.rows) (hr' : (slot, cs') ∈ n'.rows)
    {f : Field} (label : f.label = .repeated) (type : f.type = .message slot.kind.recordType) :
    f.SettleAlike (Message.NestedReadsAs depth)
      ((cs.map (Node.mapOptions (survivors resolve))).map fun c => childEntry (slot, c))
      ((cs'.map (Node.mapOptions (survivors resolve))).map fun c => childEntry (slot, c)) := by
  have each : List.Forall₂ (fun c c' => ∃ m,
      Message.NestedReadsAs depth slot.kind.recordType [] c.encode m ∧
        Message.NestedReadsAs depth slot.kind.recordType [] c'.encode m)
      (cs.map (Node.mapOptions (survivors resolve)))
      (cs'.map (Node.mapOptions (survivors resolve))) := by
    simp only [List.forall₂_map_left_iff, List.forall₂_map_right_iff]
    refine (h.rows le hr hr').imp fun c c' child => ?_
    obtain ⟨kind, d, rfl, alike⟩ := child
    obtain ⟨m, reads, reads'⟩ := below d c c' rfl alike
    rw [kind] at reads reads'
    exact ⟨m, reads, reads'⟩
  obtain ⟨ms, reads, reads'⟩ := forall₂_exists_iff.1 each
  refine ⟨ms.map .message, ms.map .message, Field.gathers_messages label type ?_,
    Field.gathers_messages label type ?_, rfl⟩
  · exact List.forall₂_map_left_iff.2 (reads.imp fun c m nested => ⟨_, rfl, nested⟩)
  · exact List.forall₂_map_left_iff.2 (reads'.imp fun c m nested => ⟨_, rfl, nested⟩)

theorem exists_row_strip {resolve : Resolver}
    (below : ∀ d c c', depth = d + 1 → Alike d c c' [] [] → StrippedAlike resolve d c c')
    {rest rest' : List Entry} (restOwn : ∀ e ∈ rest ++ rest', n.kind.owns e.key.number = true)
    (known : ∀ e ∈ rest ++ rest', (n.kind.recordType.field? e.key.number).isSome)
    (owned : ∀ f ∈ n.kind.recordType.fields, n.kind.owns f.number = true →
      f.SettleAlike (Message.NestedReadsAs depth)
        ((n.record.map Entry.ofPart ++ rest).filter (·.key.number = f.number))
        ((n'.record.map Entry.ofPart ++ rest').filter (·.key.number = f.number))) :
    ∃ m,
      Message.OfRow depth n.kind.recordType [] ((n.mapOptions (survivors resolve)).entries ++ rest) m ∧
      Message.OfRow depth n.kind.recordType []
        ((n'.mapOptions (survivors resolve)).entries ++ rest') m := by
  have level := (h.typed.readable.survivors resolve).level
  have level' := (h.typed'.readable.survivors resolve).level
  have kind' : (n'.mapOptions (survivors resolve)).kind = n.kind := by rw [kind_mapOptions, h.kind_eq]
  have own : ∀ e ∈ rest, n.kind.owns e.key.number = true :=
    fun e mem => restOwn e (List.mem_append_left _ mem)
  have own' : ∀ e ∈ rest', n.kind.owns e.key.number = true :=
    fun e mem => restOwn e (List.mem_append_right _ mem)
  apply Message.exists_ofRow
  · intro e mem
    simp only [List.mem_append] at mem known
    rcases mem with (mem | mem) | mem | mem
    · simpa using level.field?_isSome e mem
    · exact known e (.inl mem)
    · simpa [kind'] using level'.field?_isSome e mem
    · exact known e (.inr mem)
  · intro f hf
    -- A field is the record's own, its options, or a list of the records below it.
    rcases n.kind.owns_cases f.number with ours | tag | ⟨slot, hs, tag⟩
    · rw [List.filter_append, level.filter_entries_own (by rwa [kind_mapOptions]), record_mapOptions,
        List.filter_append, level'.filter_entries_own (by rwa [kind']), record_mapOptions,
        ← List.filter_append, ← List.filter_append]
      exact owned f hf ours
    · obtain rfl := MessageType.field_ext hf n.kind.optionsField_mem tag
      have foreign := n.kind.owns_optionsTag
      have options := level.filter_entries_options
      have options' := level'.filter_entries_options
      rw [kind_mapOptions, options_mapOptions] at options
      rw [kind', options_mapOptions, h.kind_eq] at options'
      rw [tag, filter_append_of_not_owns (by rwa [kind_mapOptions]) (by rwa [kind_mapOptions]), options,
        filter_append_of_not_owns (by rwa [kind']) (by rwa [kind']), options']
      exact h.survivors_alike le resolve
    · obtain ⟨g, hg, number, label, type⟩ := Kind.exists_slotField hs
      obtain rfl := MessageType.field_ext hf hg (by rw [number, tag])
      obtain ⟨cs, hr⟩ := h.typed.level.exists_row hs
      obtain ⟨cs', hr'⟩ := h.exists_row' hs
      have foreign := Kind.owns_tag hs
      have row : (slot, cs.map (Node.mapOptions (survivors resolve))) ∈
          (n.mapOptions (survivors resolve)).rows := by
        rw [rows_mapOptions]
        exact List.mem_map_of_mem hr
      have row' : (slot, cs'.map (Node.mapOptions (survivors resolve))) ∈
          (n'.mapOptions (survivors resolve)).rows := by
        rw [rows_mapOptions]
        exact List.mem_map_of_mem hr'
      rw [← tag, filter_append_of_not_owns (by rwa [kind_mapOptions]) (by rwa [kind_mapOptions]),
        level.filter_entries_slot row, filter_append_of_not_owns (by rwa [kind']) (by rwa [kind']),
        level'.filter_entries_slot row']
      exact h.children_alike le below hr hr' label type

end Alike

theorem Typed.readsAs_strip {resolve : Resolver} (le : depth ≤ maxDepth) (h : n.Typed) {m : Message}
    (row : Message.OfRow depth n.kind.recordType []
      ((n.mapOptions (survivors resolve)).entries ++ []) m) :
    Message.ReadsAs depth n.kind.recordType [] (n.mapOptions (survivors resolve)).encode m := by
  rw [List.append_nil] at row
  exact (Message.readsAs_iff le).2
    ⟨_, (h.readable.survivors resolve).level.fits, encode_eq_entries _, row⟩

theorem Alike.strip (resolve : Resolver) (le : depth ≤ maxDepth) (h : Alike depth n n' [] []) :
    StrippedAlike resolve depth n n' := by
  induction depth using Nat.strongRecOn generalizing n n' with
  | ind depth ih =>
    have below : ∀ d c c', depth = d + 1 → Alike d c c' [] [] → StrippedAlike resolve d c c' := by
      rintro d c c' rfl alike
      exact ih d (Nat.lt_succ_self d) (Nat.le_of_succ_le le) alike
    obtain ⟨m, row, row'⟩ := h.exists_row
    have owned : ∀ f ∈ n.kind.recordType.fields, n.kind.owns f.number = true →
        f.SettleAlike (Message.NestedReadsAs depth)
          ((n.record.map Entry.ofPart ++ []).filter (·.key.number = f.number))
          ((n'.record.map Entry.ofPart ++ []).filter (·.key.number = f.number)) := by
      intro f hf own
      obtain ⟨values, gathers, settled⟩ := row.gathered f hf
      obtain ⟨values', gathers', settled'⟩ := row'.gathered f hf
      rw [List.append_nil, h.typed.level.filter_entries_own own] at gathers
      rw [List.append_nil, h.typed'.level.filter_entries_own (by rwa [h.kind_eq])] at gathers'
      rw [List.append_nil, List.append_nil]
      exact ⟨values, values', gathers, gathers', settled.symm.trans settled'⟩
    obtain ⟨m', stripped, stripped'⟩ :=
      h.exists_row_strip le below (List.forall_mem_nil _) (List.forall_mem_nil _) owned
    refine ⟨m', h.typed.readsAs_strip le stripped, ?_⟩
    rw [← h.kind_eq] at stripped' ⊢
    exact h.typed'.readsAs_strip le stripped'

end Node

end Descriptor

end CompilerPlugin

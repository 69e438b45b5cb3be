import CompilerPlugin.Proofs.Message.Restrict
import CompilerPlugin.Proofs.Message.Size
import CompilerPlugin.Descriptor.Tree
import Mathlib.Data.List.Flatten

namespace CompilerPlugin.Descriptor

open Wire Schema

namespace Kind

def optionsType : Kind → MessageType
  | file => .fileOptions
  | message => .messageOptions
  | field => .fieldOptions
  | oneof => .oneofOptions
  | extensionRange => .extensionRangeOptions
  | enum => .enumOptions
  | enumValue => .enumValueOptions
  | service => .serviceOptions
  | method => .methodOptions

def optionsField (kind : Kind) : Field :=
  .sub kind.optionsTag "options" kind.optionsType

theorem optionsField_mem (kind : Kind) : kind.optionsField ∈ kind.recordType.fields := by
  cases kind <;> decide

theorem exists_slotField {kind : Kind} {s : Slot} (mem : s ∈ kind.slots) :
    ∃ f ∈ kind.recordType.fields, f.number = s.tag ∧ f.label = .repeated ∧
      f.type = .message s.kind.recordType := by
  revert s
  cases kind <;> decide

theorem slot_kind_ne_file {kind : Kind} {s : Slot} (mem : s ∈ kind.slots) : s.kind ≠ .file := by
  revert s
  cases kind <;> decide

theorem given {kind : Kind} {f : Field} (mem : f ∈ kind.recordType.fields) : f.label ≠ .required := by
  revert f
  cases kind <;> decide

theorem slot?_tag {kind : Kind} {s : Slot} (mem : s ∈ kind.slots) : kind.slot? s.tag = some s := by
  revert s
  cases kind <;> decide

theorem slot?_eq_some {kind : Kind} {number : Nat} {s : Slot} (h : kind.slot? number = some s) :
    s ∈ kind.slots ∧ s.tag = number :=
  ⟨List.mem_of_find?_eq_some h, by simpa using List.find?_some h⟩

def owns (kind : Kind) (number : Nat) : Bool :=
  number ≠ kind.optionsTag && (kind.slot? number).isNone

theorem owns_cases (kind : Kind) (number : Nat) :
    kind.owns number ∨ number = kind.optionsTag ∨ ∃ s ∈ kind.slots, s.tag = number := by
  rw [owns]
  by_cases tag : number = kind.optionsTag
  · exact .inr (.inl tag)
  · cases slot : kind.slot? number with
    | none => exact .inl (by simp [tag])
    | some s => exact .inr (.inr ⟨s, slot?_eq_some slot⟩)

theorem owns_optionsTag (kind : Kind) : kind.owns kind.optionsTag = false := by
  simp [owns]

theorem owns_tag {kind : Kind} {s : Slot} (mem : s ∈ kind.slots) : kind.owns s.tag = false := by
  simp [owns, slot?_tag mem]

theorem compact_of_owns {kind : Kind} {f : Field} (mem : f ∈ kind.recordType.fields)
    (own : kind.owns f.number) :
    (f.Compact ∧ f.plain) ∨
      (kind = .file ∧ f.type = .scalar .int32 ∧ f.label = .repeated) := by
  suffices ((f.type = .scalar .int32 → f.label ≠ .repeated) ∧ f.plain) ∨
      (kind = .file ∧ f.type = .scalar .int32 ∧ f.label = .repeated) by
    refine this.imp_left fun h => ⟨⟨given mem, h.1, (Field.type_of_label mem).1⟩, h.2⟩
  revert f
  cases kind <;> decide

end Kind

section

variable {kind : Kind} {depth : Nat} {es : List Entry} {m : Message}

theorem delimited_of_slot (row : Message.OfRow depth kind.recordType [] es m) {s : Slot}
    (mem : s ∈ kind.slots) : ∀ e ∈ es, e.key.number = s.tag → ∃ p, e.body = .delimited p := by
  intro e he number
  obtain ⟨f, hf, tag, -, type⟩ := Kind.exists_slotField mem
  obtain ⟨values, gathers, -⟩ := row.gathered f hf
  exact gathers.delimited type e (List.mem_filter.2 ⟨he, by simp [number, tag]⟩)

theorem delimited_of_options (row : Message.OfRow depth kind.recordType [] es m) :
    ∀ e ∈ es, e.key.number = kind.optionsTag → ∃ p, e.body = .delimited p := by
  intro e he number
  obtain ⟨values, gathers, -⟩ := row.gathered _ kind.optionsField_mem
  have own : decide (e.key.number = kind.optionsField.number) = true := by
    simp [number, Kind.optionsField, Field.sub]
  exact gathers.delimited (t := kind.optionsType) rfl e (List.mem_filter.2 ⟨he, own⟩)

theorem isOwn_eq (row : Message.OfRow depth kind.recordType [] es m) :
    ∀ e ∈ es, kind.isOwn e = kind.owns e.key.number := by
  intro e mem
  rw [Kind.isOwn, Kind.owns, Kind.child?, Kind.options?]
  by_cases tag : e.key.number = kind.optionsTag
  · obtain ⟨p, body⟩ := delimited_of_options row e mem tag
    simp [tag, body, Body.payload?]
  · cases slot : kind.slot? e.key.number with
    | none => cases e.body.payload? <;> simp [tag]
    | some s =>
      obtain ⟨hs, number⟩ := Kind.slot?_eq_some slot
      obtain ⟨p, body⟩ := delimited_of_slot row hs e mem number.symm
      simp [tag, body, Body.payload?]

theorem filter_isOwn (row : Message.OfRow depth kind.recordType [] es m) :
    es.filter kind.isOwn = es.filter fun e => kind.owns e.key.number :=
  List.filter_congr (isOwn_eq row)

theorem OfRow.own (row : Message.OfRow depth kind.recordType [] es m) :
    Message.OfRow depth kind.recordType [] (es.filter fun e => kind.owns e.key.number)
      (m.only kind.owns) :=
  row.only kind.owns fun _ mem _ => Kind.given mem

theorem reads_own (le : depth ≤ maxDepth) (fits : ∀ e ∈ es, e.Fits maxDepth)
    (row : Message.OfRow depth kind.recordType [] es m) :
    Message.ReadsAs depth kind.recordType []
      ((es.filter fun e => kind.owns e.key.number).flatMap (·.raw)) (m.only kind.owns) :=
  (Message.readsAs_iff le).2 ⟨_, fun e mem => fits e (List.mem_filter.1 mem).1, rfl, OfRow.own row⟩

theorem readRecord_eq_ok (le : depth ≤ maxDepth) (fits : ∀ e ∈ es, e.Fits maxDepth)
    (row : Message.OfRow depth kind.recordType [] es m) :
    kind.readRecord es = .ok (m.only kind.owns) := by
  have reads := (reads_own le fits row).mono le (Nat.le_refl _)
  rw [Kind.readRecord]
  rw [filter_isOwn row, Message.decode_eq_ok.2 reads]
  rfl

theorem wellFormed_own (le : depth ≤ maxDepth) (fits : ∀ e ∈ es, e.Fits maxDepth)
    (row : Message.OfRow depth kind.recordType [] es m) :
    Message.WellFormed depth kind.recordType (m.only kind.owns) :=
  (reads_own le fits row).wellFormed le (.inl rfl)

theorem length_own_le (le : depth ≤ maxDepth) (fits : ∀ e ∈ es, e.Fits maxDepth)
    (row : Message.OfRow depth kind.recordType [] es m) (keep : Nat → Bool)
    (compact : ∀ f ∈ kind.recordType.fields, keep f.number → f.Compact ∧ f.plain) :
    (m.only keep).encode.length ≤ 2 * ((es.filter fun e => keep e.key.number).flatMap (·.raw)).length := by
  have part := row.only keep fun _ mem _ => Kind.given mem
  have bound := part.length_le (fun e mem => fits e (List.mem_filter.1 mem).1) (.inl rfl)
    (fun f mem => ⟨Kind.given mem, fun some => compact f mem ?_⟩) fun t before p m plain reads start => ?_
  · simpa using bound
  · obtain ⟨e, he⟩ := List.exists_mem_of_ne_nil _ some
    obtain ⟨he, number⟩ := List.mem_filter.1 he
    have kept := (List.mem_filter.1 he).2
    rwa [show e.key.number = f.number by simpa using number] at kept
  · have le' := Nat.le_succ_of_le le
    exact ⟨reads.wellFormed le' start, reads.length_le le' plain start⟩

theorem length_word_lt (w : UInt64) : (Value.word w).encode.length < 2 ^ 64 := by
  have bound := w.toNat_lt
  have := Varint.encode_length_le w.toNat 10 (by omega) (by omega)
  rw [Value.encode]
  omega

theorem length_filter_le (keep : Entry → Bool) (es : List Entry) :
    ((es.filter keep).flatMap (·.raw)).length ≤ (es.flatMap (·.raw)).length :=
  (List.filter_sublist.flatMap _).length_le

theorem announceable_own (le : depth ≤ maxDepth) (fits : ∀ e ∈ es, e.Fits maxDepth)
    (row : Message.OfRow depth kind.recordType [] es m)
    (size : (es.flatMap (·.raw)).length < 2 ^ 63) : (m.only kind.owns).Announceable := by
  intro part mem
  have good := wellFormed_own le fits row
  obtain ⟨f, hf, number, held⟩ := good.ordered.exists_field mem
  have allowed := good.allowed f hf part.2 held
  have own := (List.mem_filter.1 mem).2
  rw [number] at own
  rcases Kind.compact_of_owns hf own with ⟨compact, plain⟩ | ⟨-, type, label⟩
  · have bound := length_own_le le fits row (· = f.number) fun g hg same => by
      obtain rfl := MessageType.field_ext hg hf (by simpa using same)
      exact ⟨compact, plain⟩
    have kept : part ∈ m.only (· = f.number) :=
      List.mem_filter.2 ⟨(List.mem_filter.1 mem).1, by simp [number]⟩
    have one := Message.length_encode_le_of_mem kept
    have all := length_filter_le (fun e => decide (e.key.number = f.number)) es
    omega
  · generalize part.2 = v at allowed ⊢
    cases allowed with
    | word => exact length_word_lt _
    | words _ packed => rw [label] at packed; cases packed
    | message type' | double type' | text type' | bytes type' => rw [type] at type'; cases type'

end

end CompilerPlugin.Descriptor

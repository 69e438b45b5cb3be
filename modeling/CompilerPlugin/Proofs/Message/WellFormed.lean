import CompilerPlugin.Proofs.Message.Settled

namespace CompilerPlugin

open Wire Schema

namespace Schema.Field

inductive Allows (nested : MessageType → Message → Prop) (f : Field) : Value → Prop
  | message {t m} : f.type = .message t → nested t m → Allows nested f (.message m)
  | word {s w} :
      f.type = .scalar s → s.wireType = .varint → f.label ≠ .packed → normalizeWord s w = w →
      Allows nested f (.word w)
  | double {w} : f.type = .scalar .double → Allows nested f (.double w)
  | text {s} : f.type = .scalar .text → Allows nested f (.text s)
  | bytes {b} : f.type = .scalar .bytes → Allows nested f (.bytes b)
  | words {ws} :
      f.type = .scalar .int32 → f.label = .packed → (∀ w ∈ ws, normalizeWord .int32 w = w) →
      Allows nested f (.words ws)

end Schema.Field

namespace Message

structure Settled (nested : MessageType → Message → Prop) (t : MessageType) (m : Message) : Prop where
  ordered : m.Ordered t
  settled : ∀ f ∈ t.fields, f.settle (m.values f.number) = m.values f.number
  allowed : ∀ f ∈ t.fields, ∀ v ∈ m.values f.number, f.Allows nested v

/-- A message of a type as a reader leaves it, with messages in it no deeper than allowed. -/
def WellFormed : (depth : Nat) → MessageType → Message → Prop
  | 0 => Settled fun _ _ => False
  | depth + 1 => Settled (WellFormed depth)

def NestedWellFormed : (depth : Nat) → MessageType → Message → Prop
  | 0 => fun _ _ => False
  | depth + 1 => WellFormed depth

theorem wellFormed_iff {depth : Nat} {t : MessageType} {m : Message} :
    WellFormed depth t m ↔ Settled (NestedWellFormed depth) t m := by
  cases depth <;> rfl

namespace WellFormed

variable {depth : Nat} {t : MessageType} {m : Message} (h : WellFormed depth t m)

include h

theorem ordered : m.Ordered t :=
  (wellFormed_iff.1 h).ordered

theorem settled : ∀ f ∈ t.fields, f.settle (m.values f.number) = m.values f.number :=
  (wellFormed_iff.1 h).settled

theorem allowed : ∀ f ∈ t.fields, ∀ v ∈ m.values f.number, f.Allows (NestedWellFormed depth) v :=
  (wellFormed_iff.1 h).allowed

end WellFormed

end Message

namespace Wire

theorem normalizeWord_normalizeWord (s : Scalar) (w : UInt64) :
    normalizeWord s (normalizeWord s w) = normalizeWord s w := by
  cases s with
  | int32 => simp only [normalizeWord, Word.toInt32_ofInt32]
  | bool =>
    simp only [normalizeWord]
    split <;> rfl
  | int64 | uint64 | double | text | bytes => rfl

theorem normalized_of_loops {words words' : List UInt64} {p : List UInt8}
    (h : Loops (readWord .int32) words p words')
    (normal : ∀ w ∈ words, normalizeWord .int32 w = w) : ∀ w ∈ words', normalizeWord .int32 w = w := by
  induction h with
  | nil => exact normal
  | cons head _ ih =>
    obtain ⟨w, -, rfl⟩ := (Reads.map_iff local_readVarint).1 head
    apply ih
    intro w' mem
    rcases List.mem_cons.1 mem with rfl | mem
    · exact normalizeWord_normalizeWord _ w
    · exact normal w' mem

end Wire

namespace Schema.Field

variable {reading : MessageType → Message → List UInt8 → Message → Prop}
  {nested : MessageType → Message → Prop} {f : Field}

theorem before_eq (f : Field) (values : List Value) :
    f.before values = [] ∨ .message (f.before values) ∈ values := by
  rw [before]
  cases f.label with
  | «repeated» | packed => exact .inl rfl
  | optional | required =>
    cases last : values.getLast? with
    | none => exact .inl rfl
    | some v =>
      cases v with
      | message m => exact .inr (List.mem_of_getLast? last)
      | word | double | text | bytes | words => exact .inl rfl

theorem allows_numbers {words : List UInt64} (type : f.type = .scalar .int32)
    (normal : ∀ w ∈ words, normalizeWord .int32 w = w) :
    ∀ v ∈ f.numbers words, f.Allows nested v := by
  intro v mem
  rw [numbers] at mem
  cases label : f.label with
  | packed =>
    simp only [label, List.mem_singleton] at mem
    subst mem
    exact .words type label normal
  | optional | required | «repeated» =>
    simp only [label, List.mem_map] at mem
    obtain ⟨w, mem, rfl⟩ := mem
    exact .word type rfl (by simp [label]) (normal w mem)

/-- Packed fields hold numbers and required ones no messages: no other kind is in the schema. -/
theorem type_of_label {t : MessageType} {f : Field} (mem : f ∈ t.fields) :
    (f.label = .packed → f.type = .scalar .int32) ∧
      (f.label = .required → f.type = .scalar .text ∨ f.type = .scalar .bool) := by
  revert f
  cases t <;> decide

theorem before_allowed {values : List Value} (allowed : ∀ v ∈ values, f.Allows nested v)
    {t : MessageType} (type : f.type = .message t) : f.before values = [] ∨ nested t (f.before values) := by
  rcases before_eq f values with empty | mem
  · exact .inl empty
  · cases allowed _ mem with
    | message type' good =>
      rw [type] at type'
      cases type'
      exact .inr good

theorem Holds.allows {values added : List Value} {b : Body} (h : f.Holds reading values b added)
    (list : f.label = .packed → f.type = .scalar .int32)
    (allowed : ∀ v ∈ values, f.Allows nested v)
    (step : ∀ t before p m, f.type = .message t → reading t before p m →
      (before = [] ∨ nested t before) → nested t m) :
    ∀ v ∈ added, f.Allows nested v := by
  cases h with
  | message type hm =>
    simp only [List.mem_singleton, forall_eq]
    exact .message type (step _ _ _ _ type hm (before_allowed allowed type))
  | @word s w type shape single =>
    simp only [List.mem_singleton, forall_eq]
    refine .word type shape ?_ (normalizeWord_normalizeWord s w)
    intro packed
    have type' := list packed
    rw [type] at type'
    cases type'
    exact single ⟨by simp [packed, Label.isList], rfl⟩
  | double type =>
    simp only [List.mem_singleton, forall_eq]
    exact .double type
  | text type eq =>
    simp only [List.mem_singleton, forall_eq]
    obtain ⟨s, rfl, -⟩ := decodeText_eq_ok_iff.1 eq
    exact .text type
  | bytes type =>
    simp only [List.mem_singleton, forall_eq]
    exact .bytes type
  | number type =>
    apply allows_numbers type
    intro w mem
    rw [List.mem_singleton.1 mem]
    exact normalizeWord_normalizeWord _ _
  | numbers type _ loops =>
    have normal := normalized_of_loops loops (by simp)
    exact allows_numbers type fun w mem => normal w (List.mem_reverse.1 mem)

theorem Gathers.allows {values values' : List Value} {es : List Entry}
    (h : f.Gathers reading values es values')
    (list : f.label = .packed → f.type = .scalar .int32)
    (allowed : ∀ v ∈ values, f.Allows nested v)
    (step : ∀ t before p m, f.type = .message t → reading t before p m →
      (before = [] ∨ nested t before) → nested t m) :
    ∀ v ∈ values', f.Allows nested v := by
  induction h with
  | nil => exact allowed
  | cons head _ ih =>
    apply ih
    intro v mem
    rcases List.mem_append.1 mem with mem | mem
    · exact allowed v mem
    · exact head.allows list allowed step v mem

theorem allows_settle {t : MessageType} (mem : f ∈ t.fields) {values : List Value}
    (allowed : ∀ v ∈ values, f.Allows nested v) : ∀ v ∈ f.settle values, f.Allows nested v := by
  intro v hv
  rw [settle] at hv
  cases label : f.label with
  | optional =>
    simp only [label, Option.mem_toList] at hv
    exact allowed v (List.mem_of_getLast? hv)
  | «repeated» =>
    simp only [label] at hv
    exact allowed v hv
  | required =>
    simp only [label, List.mem_singleton] at hv
    subst hv
    cases last : values.getLast? with
    | some v => exact allowed v (List.mem_of_getLast? last)
    | none =>
      rcases (type_of_label mem).2 label with type | type
      · simp only [type, FieldType.default, Scalar.default, Option.getD_none]
        exact .text type
      · simp only [type, FieldType.default, Scalar.default, Option.getD_none]
        exact .word type rfl (by simp [label]) rfl
  | packed =>
    have type := (type_of_label mem).1 label
    simp only [label] at hv
    split at hv
    · cases hv
    · obtain rfl := List.mem_singleton.1 hv
      refine .words type label ?_
      intro w hw
      obtain ⟨ws, hws, hw⟩ := List.mem_flatten.1 hw
      obtain ⟨v, hv, eq⟩ := List.mem_filterMap.1 hws
      cases allowed v hv with
      | words _ _ normal =>
        cases eq
        exact normal w hw
      | message | word | double | text | bytes => cases eq

end Schema.Field

namespace Message

theorem OfRow.wellFormed {depth : Nat} {t : MessageType} {before m : Message} {es : List Entry}
    (h : OfRow depth t before es m)
    (allowed : ∀ f ∈ t.fields, ∀ v ∈ before.values f.number, f.Allows (NestedWellFormed depth) v)
    (step : ∀ t before p m, NestedReadsAs depth t before p m →
      (before = [] ∨ NestedWellFormed depth t before) → NestedWellFormed depth t m) :
    WellFormed depth t m := by
  refine wellFormed_iff.2 ⟨h.ordered, ?_, ?_⟩
  · intro f mem
    obtain ⟨values, -, eq⟩ := h.gathered f mem
    rw [eq, Field.settle_settle]
  · intro f mem
    obtain ⟨values, gathers, eq⟩ := h.gathered f mem
    rw [eq]
    exact Field.allows_settle mem
      (gathers.allows (Field.type_of_label mem).1 (allowed f mem) fun t before p m _ => step t before p m)

theorem NestedReadsAs.wellFormed {depth : Nat} (le : depth ≤ maxDepth + 1) {t : MessageType}
    {before m : Message} {bytes : List UInt8} (h : NestedReadsAs depth t before bytes m)
    (good : before = [] ∨ NestedWellFormed depth t before) : NestedWellFormed depth t m := by
  induction depth generalizing t before m bytes with
  | zero => exact h.elim
  | succ depth ih =>
    obtain ⟨es, -, -, row⟩ := (readsAs_iff (Nat.le_of_succ_le_succ le)).1 h
    refine row.wellFormed ?_ fun _ _ _ _ reads => ih (Nat.le_of_succ_le le) reads
    intro f mem v hv
    rcases good with rfl | good
    · cases hv
    · exact good.allowed f mem v hv

theorem ReadsAs.wellFormed {depth : Nat} (le : depth ≤ maxDepth) {t : MessageType}
    {before m : Message} {bytes : List UInt8} (h : ReadsAs depth t before bytes m)
    (good : before = [] ∨ WellFormed depth t before) : WellFormed depth t m := by
  have nested : NestedReadsAs (depth + 1) t before bytes m := h
  exact nested.wellFormed (Nat.succ_le_succ le) good

end Message

end CompilerPlugin

import CompilerPlugin.Proofs.Message.Row

namespace CompilerPlugin

open Wire Schema

namespace Schema.Field

variable {nested : MessageType → Message → List UInt8 → Message → Prop} {f : Field}

theorem filterMap_words?_settled (f : Field) (values : List Value) (packed : f.label = .packed) :
    ((f.settle values).filterMap Value.words?).flatten = (values.filterMap Value.words?).flatten := by
  rw [settle]
  rw [packed]
  simp only
  split
  · simp [*]
  · simp [Value.words?]

theorem settle_settle_append (f : Field) (values more : List Value) :
    f.settle (f.settle values ++ more) = f.settle (values ++ more) := by
  cases label : f.label with
  | optional =>
    simp only [settle, label, List.getLast?_append]
    cases values.getLast? <;> rfl
  | required =>
    simp only [settle, label, List.getLast?_append]
    cases values.getLast? <;> cases more.getLast? <;> rfl
  | «repeated» => simp [settle, label]
  | packed =>
    have same := filterMap_words?_settled f values label
    generalize hs : f.settle values = settled at same ⊢
    simp only [settle, label, List.filterMap_append, List.flatten_append, same]

theorem settle_nil (given : f.label ≠ .required) : f.settle [] = [] := by
  rw [settle]
  cases label : f.label with
  | required => exact absurd label given
  | optional | «repeated» | packed => rfl

theorem settle_settle (f : Field) (values : List Value) :
    f.settle (f.settle values) = f.settle values := by
  simpa using settle_settle_append f values []

theorem before_settle_append (f : Field) (values more : List Value) :
    f.before (f.settle values ++ more) = f.before (values ++ more) := by
  cases label : f.label with
  | «repeated» | packed => simp [before, label]
  | optional =>
    simp only [before, settle, label, List.getLast?_append]
    cases values.getLast? <;> rfl
  | required =>
    simp only [before, settle, label, List.getLast?_append]
    cases more.getLast? with
    | some v => rfl
    | none =>
      cases values.getLast? with
      | some v => rfl
      | none =>
        cases f.type with
        | message t => rfl
        | scalar s => cases s <;> rfl

theorem Holds.of_before {values values' : List Value} {b : Body} {added : List Value}
    (h : f.Holds nested values b added) (same : f.before values' = f.before values) :
    f.Holds nested values' b added := by
  cases h with
  | message type hm => exact .message type (same ▸ hm)
  | word type shape single => exact .word type shape single
  | double type => exact .double type
  | text type eq => exact .text type eq
  | bytes type => exact .bytes type
  | number type list => exact .number type list
  | numbers type list loops => exact .numbers type list loops

theorem Gathers.append {values mid values' : List Value} {es es' : List Entry}
    (h : f.Gathers nested values es mid) (h' : f.Gathers nested mid es' values') :
    f.Gathers nested values (es ++ es') values' := by
  induction h with
  | nil => exact h'
  | cons head _ ih => exact .cons head (ih h')

theorem exists_gathers_of_settle {values more values' : List Value} {es : List Entry}
    (h : f.Gathers nested (f.settle values ++ more) es values') :
    ∃ values'', f.Gathers nested (values ++ more) es values'' ∧ f.settle values'' = f.settle values' := by
  generalize start : f.settle values ++ more = held at h
  induction h generalizing more with
  | nil => exact ⟨values ++ more, .nil, by rw [← start, settle_settle_append]⟩
  | @cons held added values' e es head _ ih =>
    subst start
    have start : f.settle values ++ (more ++ added) = f.settle values ++ more ++ added := by simp
    obtain ⟨values'', rest, same⟩ := ih start
    refine ⟨values'', .cons ?_ (by simpa using rest), same⟩
    exact head.of_before (before_settle_append f values more).symm

end Schema.Field

namespace Message

theorem OfRow.append {depth : Nat} {t : MessageType} {before mid m : Message} {es es' : List Entry}
    (h : OfRow depth t before es mid) (h' : OfRow depth t mid es' m) :
    OfRow depth t before (es ++ es') m where
  unknown e mem := (List.mem_append.1 mem).elim (h.unknown e) (h'.unknown e)
  gathered f mem := by
    obtain ⟨values, gathers, eq⟩ := h.gathered f mem
    obtain ⟨values', gathers', eq'⟩ := h'.gathered f mem
    rw [eq, ← List.append_nil (f.settle values)] at gathers'
    obtain ⟨values'', rest, same⟩ := Field.exists_gathers_of_settle gathers'
    rw [List.append_nil] at rest
    refine ⟨values'', ?_, eq'.trans same.symm⟩
    rw [List.filter_append]
    exact gathers.append rest
  ordered := h'.ordered

end Message

end CompilerPlugin

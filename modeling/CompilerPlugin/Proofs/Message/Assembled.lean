import CompilerPlugin.Proofs.Message.RoundTrip

namespace CompilerPlugin

open Wire Schema

namespace Message

@[simp] theorem values_part? (number other : Nat) (value : Option Value) :
    (part? number value).values other = if number = other then value.toList else [] := by
  split
  · subst number
    exact values_parts_self other value.toList
  · rename_i ne
    exact values_parts_of_ne ne value.toList

@[simp] theorem values_parts (number other : Nat) (values : List Value) :
    (parts number values).values other = if number = other then values else [] := by
  split
  · subst number
    exact values_parts_self other values
  · rename_i ne
    exact values_parts_of_ne ne values

section

variable {m : Message} {number : Nat}

theorem value?_eq {value : Option Value} (h : m.values number = value.toList) :
    m.value? number = value := by
  rw [value?, h]
  cases value <;> rfl

theorem text?_eq {text : Option String} (h : m.values number = (text.map .text).toList) :
    m.text? number = text := by
  rw [text?, value?_eq h]
  cases text <;> rfl

theorem word?_eq {word : Option UInt64} (h : m.values number = (word.map .word).toList) :
    m.word? number = word := by
  rw [word?, value?_eq h]
  cases word <;> rfl

theorem int?_eq {int : Option Int32}
    (h : m.values number = (int.map fun n => .word (Word.ofInt32 n)).toList) :
    m.int? number = int := by
  rw [int?, word?, value?_eq h]
  cases int with
  | none => rfl
  | some n => exact congrArg some (Word.toInt32_ofInt32 n)

theorem message?_eq {α : Type} {toMessage : α → Message} {value : Option α}
    (h : m.values number = (value.map fun a => .message (toMessage a)).toList) :
    m.message? number = value.map toMessage := by
  rw [message?, value?_eq h]
  cases value <;> rfl

theorem ints_eq {ints : List Int32}
    (h : m.values number =
      (if ints = [] then none else some (.words (ints.map Word.ofInt32))).toList) :
    m.ints number = ints := by
  rw [Message.ints, h]
  cases ints <;> simp [Value.words?, Function.comp_def, Word.toInt32_ofInt32]

end

end Message

namespace Schema.Field

variable {depth : Nat} {f : Field}

structure Filled (depth : Nat) (f : Field) (values : List Value) : Prop where
  settled : f.settle values = values
  allowed : ∀ v ∈ values, f.Allows (Message.NestedWellFormed depth) v

theorem filled_of_optional {α : Type} {g : α → Value} (label : f.label = .optional)
    (allowed : ∀ a, f.Allows (Message.NestedWellFormed depth) (g a)) (value : Option α) :
    f.Filled depth (value.map g).toList where
  settled := by
    rw [settle, label]
    cases value <;> rfl
  allowed := by
    simp only [Option.mem_toList, Option.map_eq_some_iff]
    rintro _ ⟨a, -, rfl⟩
    exact allowed a

theorem filled_of_repeated {α : Type} {g : α → Value} (label : f.label = .repeated)
    (allowed : ∀ a, f.Allows (Message.NestedWellFormed depth) (g a)) (values : List α) :
    f.Filled depth (values.map g) where
  settled := by rw [settle, label]
  allowed := by
    intro v mem
    obtain ⟨a, -, rfl⟩ := List.mem_map.1 mem
    exact allowed a

theorem filled_text? (label : f.label = .optional) (type : f.type = .scalar .text)
    (text : Option String) : f.Filled depth (text.map .text).toList :=
  filled_of_optional label (fun _ => .text type) text

theorem filled_word? (label : f.label = .optional) (type : f.type = .scalar .uint64)
    (word : Option UInt64) : f.Filled depth (word.map .word).toList :=
  filled_of_optional label (fun _ => .word type rfl (by simp [label]) rfl) word

theorem normalizeWord_ofInt32 (n : Int32) :
    normalizeWord .int32 (Word.ofInt32 n) = Word.ofInt32 n := by
  rw [normalizeWord, Word.toInt32_ofInt32]

theorem filled_int? (label : f.label = .optional) (type : f.type = .scalar .int32)
    (int : Option Int32) : f.Filled depth (int.map fun n => .word (Word.ofInt32 n)).toList :=
  filled_of_optional label
    (fun n => .word type rfl (by simp [label]) (normalizeWord_ofInt32 n)) int

theorem filled_ints (label : f.label = .packed) (type : f.type = .scalar .int32)
    (ints : List Int32) :
    f.Filled depth
      (if ints = [] then none else some (Value.words (ints.map Word.ofInt32))).toList where
  settled := by
    rw [settle, label]
    cases ints <;> simp [Value.words?]
  allowed := by
    intro v mem
    split at mem
    · cases mem
    · obtain rfl := List.mem_singleton.1 mem
      refine .words type label fun w mem => ?_
      obtain ⟨n, -, rfl⟩ := List.mem_map.1 mem
      exact normalizeWord_ofInt32 n

end Schema.Field

namespace Message

inductive Assembled (depth : Nat) : List Field → Message → Prop
  | nil : Assembled depth [] []
  | cons {f values fields m} :
      f.Filled depth values → Assembled depth fields m →
      Assembled depth (f :: fields) (parts f.number values ++ m)

namespace Assembled

variable {depth : Nat} {fields : List Field} {m : Message}

theorem single {f : Field} {values : List Value} (filled : f.Filled depth values) :
    Assembled depth [f] (parts f.number values) := by
  simpa using cons filled nil

theorem values_eq_nil (h : Assembled depth fields m) {number : Nat}
    (other : ∀ f ∈ fields, f.number ≠ number) : m.values number = [] := by
  induction h with
  | nil => rfl
  | @cons f values fields m _ _ ih =>
    rw [values_append, values_parts_of_ne (other f List.mem_cons_self),
      ih fun g mem => other g (List.mem_cons_of_mem f mem)]
    rfl

theorem inOrder (h : Assembled depth fields m)
    (sorted : fields.Pairwise fun f g => f.number < g.number) :
    m = fields.flatMap (fun f => parts f.number (m.values f.number)) ∧
      ∀ f ∈ fields, f.Filled depth (m.values f.number) := by
  induction h with
  | nil => exact ⟨rfl, by simp⟩
  | @cons f values fields m filled rest ih =>
    obtain ⟨least, sorted⟩ := List.pairwise_cons.1 sorted
    obtain ⟨order, all⟩ := ih sorted
    -- no later field has the number of the first, so neither sees the values of the other
    have own : (parts f.number values ++ m).values f.number = values := by
      rw [values_append, values_parts_self, rest.values_eq_nil, List.append_nil]
      exact fun g mem => Nat.ne_of_gt (least g mem)
    have others : ∀ g ∈ fields,
        (parts f.number values ++ m).values g.number = m.values g.number := by
      intro g mem
      rw [values_append, values_parts_of_ne (Nat.ne_of_lt (least g mem)), List.nil_append]
    constructor
    · rw [List.flatMap_cons, own, List.flatMap_congr fun g mem => by rw [others g mem], ← order]
    · intro g mem
      rcases List.mem_cons.1 mem with rfl | mem
      · rwa [own]
      · rw [others g mem]
        exact all g mem

theorem wellFormed {t : MessageType} (h : Assembled depth t.fields m) : WellFormed depth t m := by
  obtain ⟨order, filled⟩ := h.inOrder t.fields_sorted
  exact wellFormed_iff.2
    ⟨order, fun f mem => (filled f mem).settled, fun f mem => (filled f mem).allowed⟩

end Assembled

end Message

end CompilerPlugin

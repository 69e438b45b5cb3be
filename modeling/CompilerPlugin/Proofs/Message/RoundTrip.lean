import CompilerPlugin.Proofs.Message.WellFormed

namespace CompilerPlugin

open Wire Schema

def Value.body : Value → Body
  | .word w => .varint w
  | .double bits => .fixed64 bits
  | .text s => .delimited s.toByteArray.data.toList
  | .bytes b => .delimited b
  | .words ws => .delimited (ws.flatMap fun w => Varint.encode w.toNat)
  | .message m => .delimited (Message.encode m)

def Wire.Entry.ofPart (part : Part) : Entry :=
  ⟨⟨part.1, part.2.wireType⟩, part.2.body, Key.encode ⟨part.1, part.2.wireType⟩ ++ part.2.encode⟩

namespace Wire

theorem Entry.fits_ofPart {depth : Nat} {part : Part} (pos : part.1 ≠ 0) (bound : part.1 < 2 ^ 29)
    (size : part.2.encode.length < 2 ^ 64) : (Entry.ofPart part).Fits (depth + 1) := by
  obtain ⟨number, v⟩ := part
  refine Entry.fits_iff.2 ⟨_, _, rfl, reads_key pos bound, reads_body_iff.2 ?_⟩
  have short {p : List UInt8} (eq : v.encode = encodeDelimited p) : p.length < 2 ^ 64 := by
    have : p.length ≤ (encodeDelimited p).length := by simp [encodeDelimited]
    simp only at size
    rw [eq] at size
    omega
  cases v with
  | word w =>
    simp only [ofPart, Value.body, Value.encode]
    exact ⟨rfl, reads_varint w⟩
  | double bits =>
    simp only [ofPart, Value.body, Value.encode]
    exact ⟨rfl, reads_fixed64 bits⟩
  | text | bytes | words | message =>
    simp only [ofPart, Value.body, Value.encode]
    exact ⟨rfl, reads_delimited (short (by rw [Value.encode]))⟩

theorem loops_words {ws : List UInt64} (normal : ∀ w ∈ ws, normalizeWord .int32 w = w)
    (words : List UInt64) :
    Loops (readWord .int32) words (ws.flatMap fun w => Varint.encode w.toNat) (ws.reverse ++ words) := by
  induction ws generalizing words with
  | nil => exact .nil
  | cons w ws ih =>
    have head : Reads (readWord .int32 words) (Varint.encode w.toNat) (w :: words) := by
      refine (Reads.map_iff local_readVarint).2 ⟨w, reads_varint w, ?_⟩
      rw [normal w List.mem_cons_self]
    rw [List.flatMap_cons]
    have rest := ih (fun w' mem => normal w' (List.mem_cons_of_mem _ mem)) (w :: words)
    exact .cons head (by simpa using rest)

end Wire

namespace Schema.Field

variable {f : Field}

theorem settled_cases (f : Field) {values : List Value} (settled : f.settle values = values) :
    (∀ held, f.before held = []) ∨ values = [] ∨ ∃ v, values = [v] := by
  rw [settle] at settled
  cases label : f.label with
  | «repeated» => exact .inl (before_of_repeated label)
  | packed => exact .inl fun held => by simp [before, label]
  | required =>
    simp only [label] at settled
    exact .inr (.inr ⟨_, settled.symm⟩)
  | optional =>
    simp only [label] at settled
    cases last : values.getLast? with
    | none =>
      rw [last] at settled
      exact .inr (.inl settled.symm)
    | some v =>
      rw [last] at settled
      exact .inr (.inr ⟨v, settled.symm⟩)

theorem gathers_values {nested : MessageType → Message → List UInt8 → Message → Prop} {number : Nat}
    {values : List Value} (settled : f.settle values = values)
    (holds : ∀ v ∈ values, f.Holds nested [] v.body [v]) :
    f.Gathers nested [] (values.map fun v => Entry.ofPart (number, v)) values := by
  rcases f.settled_cases settled with fresh | rfl | ⟨v, rfl⟩
  · clear settled
    suffices ∀ held, f.Gathers nested held (values.map fun v => Entry.ofPart (number, v)) (held ++ values) by
      simpa using this []
    induction values with
    | nil => intro held; simpa using Gathers.nil
    | cons v values ih =>
      intro held
      have rest := ih (fun w mem => holds w (List.mem_cons_of_mem _ mem)) (held ++ [v])
      have head := (holds v List.mem_cons_self).of_before ((fresh held).trans (fresh []).symm)
      exact .cons head (by simpa using rest)
  · exact .nil
  · exact .cons (holds v List.mem_cons_self) .nil

theorem Allows.holds {depth : Nat} {v : Value} (h : f.Allows (Message.NestedWellFormed depth) v)
    (step : ∀ t m, v = .message m → Message.NestedWellFormed depth t m →
      Message.NestedReadsAs depth t [] (Message.encode m) m) :
    f.Holds (Message.NestedReadsAs depth) [] v.body [v] := by
  cases h with
  | @message t m type good =>
    refine .message type ?_
    rw [before_nil]
    exact step t m rfl good
  | @word s w type shape label normal =>
    by_cases ints : f.label.isList ∧ s = .int32
    · obtain ⟨list, rfl⟩ := ints
      have added : f.numbers [normalizeWord .int32 w] = [.word w] := by
        rw [numbers]
        cases h : f.label with
        | packed => exact absurd h label
        | optional | required | «repeated» => simp [normal]
      exact added ▸ .number type list
    · have holds : f.Holds (Message.NestedReadsAs depth) [] (.varint w) [.word (normalizeWord s w)] :=
        .word type shape ints
      rwa [normal] at holds
  | double type => exact .double type
  | text type => exact .text type (decodeText_eq_ok_iff.2 ⟨_, rfl, rfl⟩)
  | bytes type => exact .bytes type
  | @words ws type label normal =>
    have loops := loops_words normal []
    have holds : f.Holds (Message.NestedReadsAs depth) []
        (.delimited (ws.flatMap fun w => Varint.encode w.toNat))
        (f.numbers (ws.reverse ++ []).reverse) :=
      .numbers type (by simp [label, Label.isList]) loops
    simpa [numbers, label, Value.body] using holds

end Schema.Field

namespace Message

theorem encode_eq_flatMap (m : Message) : m.encode = (m.map Entry.ofPart).flatMap (·.raw) := by
  induction m with
  | nil => rfl
  | cons part m ih =>
    obtain ⟨number, v⟩ := part
    rw [Message.encode, ih]
    rfl

theorem filter_map_ofPart (m : Message) (n : Nat) :
    (m.map Entry.ofPart).filter (·.key.number = n) =
      (m.values n).map fun v => Entry.ofPart (n, v) := by
  induction m with
  | nil => rfl
  | cons part m ih =>
    obtain ⟨number, v⟩ := part
    rcases eq_or_ne number n with rfl | other
    · rw [List.map_cons, List.filter_cons_of_pos (by simp [Entry.ofPart]), ih]
      simp [values_cons]
    · rw [List.map_cons, List.filter_cons_of_neg (by simp [Entry.ofPart, other]), ih]
      simp [values_cons, other]

theorem mem_of_mem_values {m : Message} {number : Nat} {v : Value} (h : v ∈ m.values number) :
    (number, v) ∈ m := by
  obtain ⟨part, mem, eq⟩ := List.mem_filterMap.1 h
  split at eq <;> cases eq
  subst number
  exact mem

theorem Ordered.exists_field {t : MessageType} {m : Message} (h : m.Ordered t) {part : Part}
    (mem : part ∈ m) : ∃ f ∈ t.fields, part.1 = f.number ∧ part.2 ∈ m.values f.number := by
  rw [h] at mem
  obtain ⟨f, hf, mem⟩ := List.mem_flatMap.1 mem
  obtain ⟨v, hv, rfl⟩ := List.mem_map.1 mem
  exact ⟨f, hf, rfl, hv⟩

theorem length_encode_le_of_mem {m : Message} {part : Part} (mem : part ∈ m) :
    part.2.encode.length ≤ m.encode.length := by
  induction m with
  | nil => cases mem
  | cons head m ih =>
    rw [Message.encode]
    simp only [List.length_append]
    rcases List.mem_cons.1 mem with rfl | mem
    · omega
    · have := ih mem
      omega

def Announceable (m : Message) : Prop :=
  ∀ part ∈ m, part.2.encode.length < 2 ^ 64

theorem announceable_of_length {m : Message} (size : m.encode.length < 2 ^ 64) : m.Announceable :=
  fun _ mem => Nat.lt_of_le_of_lt (length_encode_le_of_mem mem) size

theorem Ordered.fits {t : MessageType} {m : Message} (h : m.Ordered t) (size : m.Announceable) :
    ∀ e ∈ m.map Entry.ofPart, e.Fits maxDepth := by
  intro e mem
  obtain ⟨part, hp, rfl⟩ := List.mem_map.1 mem
  obtain ⟨f, hf, number, -⟩ := h.exists_field hp
  have pos := MessageType.number_pos hf
  have bound := MessageType.number_lt hf
  have fits : (Entry.ofPart part).Fits (99 + 1) :=
    Entry.fits_ofPart (by omega) (by omega) (size part hp)
  exact fits

theorem Settled.ofRow {depth : Nat} {t : MessageType} {m : Message}
    (h : Settled (NestedWellFormed depth) t m)
    (step : ∀ t number m', (number, .message m') ∈ m → NestedWellFormed depth t m' →
      NestedReadsAs depth t [] m'.encode m') :
    OfRow depth t [] (m.map Entry.ofPart) m where
  unknown e mem none := by
    obtain ⟨part, hp, rfl⟩ := List.mem_map.1 mem
    obtain ⟨f, hf, number, -⟩ := h.ordered.exists_field hp
    rw [Entry.ofPart, number, MessageType.field?_number hf] at none
    cases none
  gathered f hf := by
    refine ⟨m.values f.number, ?_, (h.settled f hf).symm⟩
    rw [filter_map_ofPart]
    apply Field.gathers_values (h.settled f hf)
    intro v hv
    apply (h.allowed f hf v hv).holds
    intro t m' eq good
    subst eq
    exact step t f.number m' (mem_of_mem_values hv) good
  ordered := h.ordered

theorem Announceable.length_of_mem {m m' : Message} {number : Nat} (h : m.Announceable)
    (mem : (number, .message m') ∈ m) : m'.encode.length < 2 ^ 64 := by
  have length := h _ mem
  simp only [Value.encode, encodeDelimited, List.length_append] at length
  omega

theorem WellFormed.ofRow {depth : Nat} (le : depth ≤ maxDepth) {t : MessageType} {m : Message}
    (h : WellFormed depth t m) (size : m.Announceable) :
    OfRow depth t [] (m.map Entry.ofPart) m := by
  induction depth generalizing t m with
  | zero => exact (wellFormed_iff.1 h).ofRow fun _ _ _ _ good => good.elim
  | succ depth ih =>
    have le' := Nat.le_of_succ_le le
    apply (wellFormed_iff.1 h).ofRow
    intro t number m' mem good
    have small := announceable_of_length (size.length_of_mem mem)
    exact (readsAs_iff le').2 ⟨_, good.ordered.fits small, encode_eq_flatMap m',
      ih le' good small⟩

theorem WellFormed.readsAs_encode {depth : Nat} (le : depth ≤ maxDepth) {t : MessageType}
    {m : Message} (h : WellFormed depth t m) (size : m.Announceable) :
    ReadsAs depth t [] m.encode m :=
  (readsAs_iff le).2 ⟨_, h.ordered.fits size, encode_eq_flatMap m, h.ofRow le size⟩

end Message

end CompilerPlugin

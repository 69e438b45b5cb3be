import CompilerPlugin.Proofs.Message.RoundTrip

/-!
How long a message is when it is written again. Overlong numbers shrink, but a negative number may
have come without its sign, in half of its ten bytes; so what is written is at most twice as long as
what was read, as long as nothing missing is written and every number keeps its place in a list.
-/

namespace CompilerPlugin

open Wire Schema

namespace Wire

namespace Varint

theorem length_encode_of_lt {n : Nat} (h : n < 128) : (encode n).length = 1 := by
  rw [encode, if_pos h]
  rfl

theorem length_encode_of_le {n : Nat} (h : 128 ≤ n) :
    (encode n).length = (encode (n / 128)).length + 1 := by
  rw [encode, if_neg (by omega), List.length_cons]

theorem length_encode_mono {m n : Nat} (h : m ≤ n) : (encode m).length ≤ (encode n).length := by
  induction n using Nat.strongRecOn generalizing m with
  | ind n ih =>
    by_cases small : m < 128
    · rw [length_encode_of_lt small]
      exact encode_length_pos n
    · rw [length_encode_of_le (by omega), length_encode_of_le (n := n) (by omega)]
      have := ih (n / 128) (by omega) (show m / 128 ≤ n / 128 by omega)
      omega

theorem length_encode_two_mul_le (n : Nat) : (encode (2 * n)).length ≤ (encode n).length + 1 := by
  rcases Nat.eq_zero_or_pos n with rfl | pos
  · simp
  · rw [← show (128 * n) / 128 = n by omega, ← length_encode_of_le (n := 128 * n) (by omega)]
    exact length_encode_mono (by omega)

theorem length_encode_add_le (m n : Nat) :
    (encode (m + n)).length ≤ (encode m).length + (encode n).length := by
  have pos := encode_length_pos m
  have pos' := encode_length_pos n
  rcases Nat.le_total m n with le | le
  · have := length_encode_mono (show m + n ≤ 2 * n by omega)
    have := length_encode_two_mul_le n
    omega
  · have := length_encode_mono (show m + n ≤ 2 * m by omega)
    have := length_encode_two_mul_le m
    omega

theorem lt_length_encode {digits n : Nat} (h : 128 ^ digits ≤ n) : digits < (encode n).length := by
  induction digits generalizing n with
  | zero => exact encode_length_pos n
  | succ digits ih =>
    rw [pow_succ] at h
    have one := Nat.one_le_pow digits 128 (by omega)
    rw [length_encode_of_le (by omega)]
    have := ih (n := n / 128) (by omega)
    omega

end Varint

theorem toNat_ofInt32_of_lt {w : UInt64} (h : w.toNat % 2 ^ 32 < 2 ^ 31) :
    (Word.ofInt32 (Word.toInt32 w)).toNat = w.toNat % 2 ^ 32 := by
  have low : (w.toBitVec.setWidth 32).toNat = w.toNat % 2 ^ 32 := by simp
  have positive : (w.toBitVec.setWidth 32).msb = false := by
    rw [BitVec.msb_eq_decide, low]
    simpa using h
  have extended : (Word.ofInt32 (Word.toInt32 w)).toBitVec = (w.toBitVec.setWidth 32).signExtend 64 := by
    simp [Word.toInt32, Word.ofInt32]
  rw [← UInt64.toNat_toBitVec, extended, BitVec.signExtend_eq_setWidth_of_msb_false positive,
    BitVec.toNat_setWidth, low]
  omega

theorem length_encode_normalizeWord_le (s : Scalar) (w : UInt64) :
    (Varint.encode (normalizeWord s w).toNat).length ≤ 2 * (Varint.encode w.toNat).length := by
  cases s with
  | int32 =>
    simp only [normalizeWord]
    by_cases positive : w.toNat % 2 ^ 32 < 2 ^ 31
    · rw [toNat_ofInt32_of_lt positive]
      have := Varint.length_encode_mono (Nat.mod_le w.toNat (2 ^ 32))
      omega
    · have bound : (Word.ofInt32 (Word.toInt32 w)).toNat < 128 ^ 10 := by
        have := (Word.ofInt32 (Word.toInt32 w)).toNat_lt
        omega
      have ten := Varint.encode_length_le _ 10 bound (by omega)
      have five : 4 < (Varint.encode w.toNat).length := Varint.lt_length_encode (by omega)
      omega
  | bool =>
    simp only [normalizeWord]
    have pos := Varint.encode_length_pos w.toNat
    split
    · rw [show (0 : UInt64).toNat = 0 from rfl, Varint.length_encode_of_lt (by omega)]
      omega
    · rw [show (1 : UInt64).toNat = 1 from rfl, Varint.length_encode_of_lt (by omega)]
      omega
  | int64 | uint64 | double | text | bytes =>
    simp only [normalizeWord]
    omega

theorem length_encodeDelimited (p : List UInt8) :
    (encodeDelimited p).length = (Varint.encode p.length).length + p.length :=
  List.length_append

theorem length_encodeDelimited_le_add {p q r : List UInt8} (h : r.length ≤ q.length + 2 * p.length) :
    (encodeDelimited r).length ≤ (encodeDelimited q).length + 2 * (encodeDelimited p).length := by
  have mono := Varint.length_encode_mono h
  have add := Varint.length_encode_add_le q.length (2 * p.length)
  have double := Varint.length_encode_two_mul_le p.length
  have pos := Varint.encode_length_pos p.length
  simp only [length_encodeDelimited]
  omega

theorem length_encodeDelimited_append_le (p q : List UInt8) :
    (encodeDelimited (p ++ q)).length ≤ (encodeDelimited p).length + (encodeDelimited q).length := by
  have := Varint.length_encode_add_le p.length q.length
  simp only [length_encodeDelimited, List.length_append]
  omega

theorem length_encodeDelimited_le_two_mul {p r : List UInt8} (h : r.length ≤ 2 * p.length) :
    (encodeDelimited r).length ≤ 2 * (encodeDelimited p).length := by
  have mono := Varint.length_encode_mono h
  have double := Varint.length_encode_two_mul_le p.length
  have pos := Varint.encode_length_pos p.length
  simp only [length_encodeDelimited]
  omega

theorem length_encodeDelimited_le {p : List UInt8} (size : p.length < 2 ^ 64) :
    (encodeDelimited p).length ≤ p.length + 10 := by
  have announced := Varint.encode_length_le p.length 10 (by omega) (by omega)
  rw [length_encodeDelimited]
  omega

theorem length_encode_key_of_lt {number : Nat} (small : number < 16) (t : WireType) :
    (Key.encode ⟨number, t⟩).length = 1 := by
  have code := t.code_lt
  rw [Key.encode, Varint.length_encode_of_lt]
  change number * 8 + t.code < 128
  omega

theorem length_encode_key (number : Nat) (t t' : WireType) :
    (Key.encode ⟨number, t⟩).length = (Key.encode ⟨number, t'⟩).length := by
  have code := t.code_lt
  have code' := t'.code_lt
  by_cases small : number < 16
  · rw [length_encode_key_of_lt small, length_encode_key_of_lt small]
  · simp only [Key.encode]
    rw [Varint.length_encode_of_le (by omega), Varint.length_encode_of_le (n := _ + t'.code) (by omega),
      show (number * 8 + t.code) / 128 = (number * 8 + t'.code) / 128 by omega]

theorem length_encode_key_pos (number : Nat) (t : WireType) : 0 < (Key.encode ⟨number, t⟩).length :=
  Varint.encode_length_pos _

def Body.shortest : Body → Nat
  | .varint w => (Varint.encode w.toNat).length
  | .fixed64 _ => 8
  | .delimited p => (encodeDelimited p).length
  | .group | .fixed32 _ => 0

theorem Entry.Fits.length_le {e : Entry} (h : e.Fits maxDepth) (t : WireType) :
    (Key.encode ⟨e.key.number, t⟩).length + e.body.shortest ≤ e.raw.length := by
  obtain ⟨front, mid, raw, hk, hb⟩ := Entry.fits_iff.1 h
  have key : (Key.encode ⟨e.key.number, e.key.wireType⟩).length ≤ front.length := hk.key.2.2
  have body : e.body.shortest ≤ mid.length := by
    have hb : Reads (readBody (99 + 1) e.key) mid e.body := hb
    have body := reads_body_iff.1 hb
    cases hbody : e.body with
    | varint w =>
      rw [hbody] at body
      exact length_encode_le_of_reads body.2
    | fixed64 w =>
      rw [hbody] at body
      exact Nat.le_of_eq (reads_fixed64_iff.1 body.2).1.symm
    | delimited p =>
      rw [hbody] at body
      exact length_encodeDelimited_le_of_reads body.2
    | group | fixed32 => exact Nat.zero_le _
  rw [raw, List.length_append, length_encode_key e.key.number t e.key.wireType]
  omega

theorem Entry.Fits.length_delimited_le {e : Entry} (h : e.Fits maxDepth) {p : List UInt8}
    (body : e.body = .delimited p) : p.length + 2 ≤ e.raw.length := by
  have whole := h.length_le .lengthDelimited
  have key := length_encode_key_pos e.key.number .lengthDelimited
  have size := Varint.encode_length_pos p.length
  rw [body, Body.shortest, length_encodeDelimited] at whole
  omega

theorem Entry.length_raw_le_of_mem {e : Entry} {es : List Entry} (mem : e ∈ es) :
    e.raw.length ≤ (es.flatMap (·.raw)).length := by
  rw [List.flatMap_def]
  exact (List.sublist_flatten_of_mem (List.mem_map_of_mem mem)).length_le

def wordBytes (words : List UInt64) : List UInt8 :=
  words.flatMap fun w => Varint.encode w.toNat

theorem length_wordBytes_le_of_loops {words words' : List UInt64} {p : List UInt8}
    (h : Loops (readWord .int32) words p words') :
    (wordBytes words').length ≤ (wordBytes words).length + 2 * p.length := by
  induction h with
  | nil => simp
  | cons head _ ih =>
    obtain ⟨w, hw, rfl⟩ := (Reads.map_iff local_readVarint).1 head
    have twice := length_encode_normalizeWord_le .int32 w
    have shortest := length_encode_le_of_reads hw
    simp only [wordBytes, List.flatMap_cons, List.length_append] at ih ⊢
    omega

theorem length_wordBytes_reverse (words : List UInt64) :
    (wordBytes words.reverse).length = (wordBytes words).length := by
  simp [wordBytes, List.length_flatMap, List.sum_reverse]

end Wire

namespace Message

@[simp] theorem encode_nil : Message.encode [] = [] := rfl

theorem parts_append (number : Nat) (values values' : List Value) :
    parts number (values ++ values') = parts number values ++ parts number values' := by
  simp [parts]

theorem length_encode_parts_singleton (number : Nat) (v : Value) (t : WireType) :
    (Message.encode (parts number [v])).length =
      (Key.encode ⟨number, t⟩).length + v.encode.length := by
  rw [length_encode_key number t v.wireType]
  simp [parts, Message.encode]

end Message

namespace Schema.Field

structure Compact (f : Field) : Prop where
  given : f.label ≠ .required
  together : f.type = .scalar .int32 → f.label ≠ .repeated
  packed : f.label = .packed → f.type = .scalar .int32

theorem Compact.label_of_isList {f : Field} (compact : f.Compact) (type : f.type = .scalar .int32)
    (list : f.label.isList) : f.label = .packed := by
  cases label : f.label with
  | packed => rfl
  | «repeated» => exact absurd label (compact.together type)
  | optional | required => simp [label, Label.isList] at list

theorem Compact.not_packed {f : Field} (compact : f.Compact) (other : f.type ≠ .scalar .int32) :
    f.label ≠ .packed := by
  intro packed
  exact other (compact.packed packed)

variable {nested : MessageType → Message → List UInt8 → Message → Prop} {f : Field}

theorem length_settle_single_le {held : List Value} {v : Value} {size n : Nat} (compact : f.Compact)
    (single : f.label ≠ .packed) (value : v.encode.length ≤ 2 * size)
    (raw : (Key.encode ⟨f.number, .lengthDelimited⟩).length + size ≤ n) :
    (Message.encode (Message.parts f.number (f.settle (held ++ [v])))).length ≤
      (Message.encode (Message.parts f.number (f.settle held))).length + 2 * n := by
  have written := Message.length_encode_parts_singleton f.number v .lengthDelimited
  cases label : f.label with
  | optional =>
    have : f.settle (held ++ [v]) = [v] := by simp [settle, label]
    rw [this]
    omega
  | «repeated» =>
    simp only [settle, label, Message.parts_append, Message.encode_append, List.length_append]
    omega
  | required => exact absurd label compact.given
  | packed => exact absurd label single

theorem length_settle_numbers_le {held : List Value} {words : List UInt64} {n : Nat}
    (packed : f.label = .packed)
    (length : (Key.encode ⟨f.number, .lengthDelimited⟩).length +
      (encodeDelimited (wordBytes words)).length ≤ n) :
    (Message.encode (Message.parts f.number (f.settle (held ++ f.numbers words)))).length ≤
      (Message.encode (Message.parts f.number (f.settle held))).length + n := by
  have written (ws : List UInt64) : (Message.encode (Message.parts f.number [.words ws])).length =
      (Key.encode ⟨f.number, .lengthDelimited⟩).length + (encodeDelimited (wordBytes ws)).length := by
    rw [Message.length_encode_parts_singleton f.number _ .lengthDelimited, Value.encode]
    rfl
  have arrived : ((f.numbers words).filterMap Value.words?).flatten = words := by
    simp [numbers, packed, Value.words?]
  simp only [settle, packed, List.filterMap_append, List.flatten_append, arrived]
  generalize (held.filterMap Value.words?).flatten = before
  cases before with
  | nil =>
    cases words with
    | nil => simp [Message.parts]
    | cons w words =>
      simp only [List.nil_append]
      rw [written]
      omega
  | cons w before =>
    simp only [List.cons_append]
    have grown := length_encodeDelimited_append_le (wordBytes (w :: before)) (wordBytes words)
    have joined : wordBytes (w :: (before ++ words)) = wordBytes (w :: before) ++ wordBytes words := by
      simp [wordBytes]
    rw [written, written, joined]
    omega

theorem settle_of_before (given : f.label ≠ .required) {held : List Value} (h : f.before held ≠ []) :
    f.settle held = [.message (f.before held)] ∧ ∀ v, f.settle (held ++ [v]) = [v] := by
  cases label : f.label with
  | required => exact absurd label given
  | «repeated» | packed => simp [before, label] at h
  | optional =>
    refine ⟨?_, fun v => by simp [settle, label]⟩
    cases last : held.getLast? with
    | none => simp [before, label, last] at h
    | some v =>
      cases v with
      | message m => simp [settle, before, label, last]
      | word | double | text | bytes | words => simp [before, label, last] at h

theorem length_message_le {held : List Value} {m : Message} {p : List UInt8} {n : Nat}
    (compact : f.Compact) (single : f.label ≠ .packed)
    (read : m.encode.length ≤ (f.before held).encode.length + 2 * p.length)
    (raw : (Key.encode ⟨f.number, .lengthDelimited⟩).length + (encodeDelimited p).length ≤ n) :
    (Message.encode (Message.parts f.number (f.settle (held ++ [.message m])))).length ≤
      (Message.encode (Message.parts f.number (f.settle held))).length + 2 * n := by
  by_cases fresh : f.before held = []
  · have twice := length_encodeDelimited_le_two_mul (r := m.encode) (p := p) (by simpa [fresh] using read)
    exact length_settle_single_le compact single (by rwa [Value.encode]) raw
  · -- What is gone on from is not written beside the message but as a part of it.
    obtain ⟨before, after⟩ := settle_of_before compact.given fresh
    have grown := length_encodeDelimited_le_add read
    rw [before, after, Message.length_encode_parts_singleton f.number _ .lengthDelimited,
      Message.length_encode_parts_singleton f.number _ .lengthDelimited, Value.encode, Value.encode]
    omega

theorem Holds.length_le {held added : List Value} {e : Entry} (h : f.Holds nested held e.body added)
    (compact : f.Compact) (fits : e.Fits maxDepth) (number : e.key.number = f.number)
    (step : ∀ t p m, f.type = .message t → nested t (f.before held) p m →
      m.encode.length ≤ (f.before held).encode.length + 2 * p.length) :
    (Message.encode (Message.parts f.number (f.settle (held ++ added)))).length ≤
      (Message.encode (Message.parts f.number (f.settle held))).length + 2 * e.raw.length := by
  have raw := fits.length_le .lengthDelimited
  rw [number] at raw
  generalize body : e.body = b at h raw
  cases h with
  | @message t p m type hm =>
    have single := compact.not_packed (by simp [type])
    exact length_message_le compact single (step t p m type hm) raw
  | @word s w type shape single =>
    have twice := length_encode_normalizeWord_le s w
    have single : f.label ≠ .packed := by
      intro packed
      have type' := compact.packed packed
      rw [type] at type'
      cases type'
      exact single ⟨by simp [packed, Label.isList], rfl⟩
    exact length_settle_single_le compact single (by rwa [Value.encode]) raw
  | @double w type =>
    have single := compact.not_packed (by simp [type])
    apply length_settle_single_le compact single ?_ raw
    rw [Value.encode, length_toLittleEndian, Body.shortest]
    omega
  | @text p v type eq =>
    obtain ⟨s, rfl, rfl⟩ := decodeText_eq_ok_iff.1 eq
    have single := compact.not_packed (by simp [type])
    apply length_settle_single_le compact single ?_ raw
    rw [Value.encode, Body.shortest]
    omega
  | @bytes p type =>
    have single := compact.not_packed (by simp [type])
    apply length_settle_single_le compact single ?_ raw
    rw [Value.encode, Body.shortest]
    omega
  | @number w type list =>
    refine length_settle_numbers_le (compact.label_of_isList type list) ?_
    have twice := length_encode_normalizeWord_le .int32 w
    have key := length_encode_key_pos f.number .lengthDelimited
    have small : (Varint.encode (normalizeWord .int32 w).toNat).length ≤ 10 := by
      have bound := (normalizeWord .int32 w).toNat_lt
      exact Varint.encode_length_le _ 10 (by omega) (by omega)
    rw [length_encodeDelimited, wordBytes, List.flatMap_singleton, Varint.length_encode_of_lt (by omega)]
    simp only [Body.shortest] at raw
    omega
  | @numbers p words type list loops =>
    refine length_settle_numbers_le (compact.label_of_isList type list) ?_
    have read := length_wordBytes_le_of_loops loops
    rw [← length_wordBytes_reverse words] at read
    have twice := length_encodeDelimited_le_two_mul (r := wordBytes words.reverse) (p := p)
      (by simpa [wordBytes] using read)
    simp only [Body.shortest] at raw
    omega

theorem Gathers.length_le {good : MessageType → Message → Prop} {held values : List Value}
    {es : List Entry} (h : f.Gathers nested held es values) (compact : f.Compact)
    (fits : ∀ e ∈ es, e.Fits maxDepth ∧ e.key.number = f.number)
    (allowed : ∀ v ∈ held, f.Allows good v)
    (step : ∀ t before p m, f.type = .message t → nested t before p m → (before = [] ∨ good t before) →
      good t m ∧ m.encode.length ≤ before.encode.length + 2 * p.length) :
    (Message.encode (Message.parts f.number (f.settle values))).length ≤
      (Message.encode (Message.parts f.number (f.settle held))).length +
        2 * (es.flatMap (·.raw)).length := by
  induction h with
  | nil => simp
  | @cons held added values e es head _ ih =>
    obtain ⟨fit, number⟩ := fits e List.mem_cons_self
    have one := head.length_le compact fit number fun t p m type reads =>
      (step t _ p m type reads (before_allowed allowed type)).2
    have allowed' : ∀ v ∈ held ++ added, f.Allows good v := by
      intro v mem
      rcases List.mem_append.1 mem with mem | mem
      · exact allowed v mem
      · exact head.allows compact.packed allowed
          (fun t before p m type reads start => (step t before p m type reads start).1) v mem
    have rest := ih (fun e' mem => fits e' (List.mem_cons_of_mem _ mem)) allowed'
    rw [List.flatMap_cons, List.length_append]
    omega

end Schema.Field

namespace Message

theorem length_filter_flatMap_add (es : List Entry) (number : Nat) :
    ((es.filter (·.key.number = number)).flatMap (·.raw)).length +
        ((es.filter (·.key.number ≠ number)).flatMap (·.raw)).length =
      (es.flatMap (·.raw)).length := by
  induction es with
  | nil => rfl
  | cons e es ih =>
    by_cases same : e.key.number = number
    · rw [List.filter_cons_of_pos (by simpa using same), List.filter_cons_of_neg (by simpa using same)]
      simp only [List.flatMap_cons, List.length_append]
      omega
    · rw [List.filter_cons_of_neg (by simpa using same), List.filter_cons_of_pos (by simpa using same)]
      simp only [List.flatMap_cons, List.length_append]
      omega

theorem length_flatMap_parts_le {fields : List Field}
    (sorted : fields.Pairwise fun f g => f.number < g.number) {before after : Field → List Value}
    {es : List Entry}
    (each : ∀ f ∈ fields, (Message.encode (parts f.number (after f))).length ≤
      (Message.encode (parts f.number (before f))).length +
        2 * ((es.filter (·.key.number = f.number)).flatMap (·.raw)).length) :
    (Message.encode (fields.flatMap fun f => parts f.number (after f))).length ≤
      (Message.encode (fields.flatMap fun f => parts f.number (before f))).length +
        2 * (es.flatMap (·.raw)).length := by
  induction fields generalizing es with
  | nil => simp
  | cons g fields ih =>
    obtain ⟨least, sorted⟩ := List.pairwise_cons.1 sorted
    have one := each g List.mem_cons_self
    have each' : ∀ f ∈ fields, (Message.encode (parts f.number (after f))).length ≤
        (Message.encode (parts f.number (before f))).length +
          2 * (((es.filter (·.key.number ≠ g.number)).filter
            (·.key.number = f.number)).flatMap (·.raw)).length := by
      intro f mem
      have less := least f mem
      have same : (es.filter (·.key.number ≠ g.number)).filter (·.key.number = f.number) =
          es.filter (·.key.number = f.number) := by
        rw [List.filter_filter]
        apply List.filter_congr
        intro e _
        by_cases this : e.key.number = f.number
        · simp only [this, decide_true, Bool.true_and]
          simp
          omega
        · simp [this]
      rw [same]
      exact each f (List.mem_cons_of_mem _ mem)
    have rest := ih sorted each'
    have split := length_filter_flatMap_add es g.number
    simp only [List.flatMap_cons, Message.encode_append, List.length_append]
    omega

end Message

namespace Schema

def MessageType.plain : MessageType → Bool
  | .reservedRange | .enumReservedRange | .sourceCodeInfo | .location => true
  | _ => false

namespace Field

def plain (f : Field) : Bool :=
  match f.type with
  | .message t => t.plain
  | .scalar _ => true

theorem compact_of_plain {t : MessageType} (h : t.plain) {f : Field} (mem : f ∈ t.fields) :
    f.Compact ∧ f.plain := by
  suffices f.label ≠ .required ∧ (f.type = .scalar .int32 → f.label ≠ .repeated) ∧ f.plain from
    ⟨⟨this.1, this.2.1, (type_of_label mem).1⟩, this.2.2⟩
  revert f
  cases t with
  | reservedRange | enumReservedRange | sourceCodeInfo | location => decide
  | _ => cases h

end Field

end Schema

namespace Message

theorem OfRow.length_le {depth : Nat} {t : MessageType} {before m : Message} {es : List Entry}
    (h : OfRow depth t before es m) (fits : ∀ e ∈ es, e.Fits maxDepth)
    (start : before = [] ∨ WellFormed depth t before)
    (own : ∀ f ∈ t.fields, f.label ≠ .required ∧
      (es.filter (·.key.number = f.number) ≠ [] → f.Compact ∧ f.plain))
    (step : ∀ t before p m, t.plain → NestedReadsAs depth t before p m →
      (before = [] ∨ NestedWellFormed depth t before) →
      NestedWellFormed depth t m ∧ m.encode.length ≤ before.encode.length + 2 * p.length) :
    m.encode.length ≤ before.encode.length + 2 * (es.flatMap (·.raw)).length := by
  have settled : ∀ f ∈ t.fields, f.settle (before.values f.number) = before.values f.number := by
    intro f mem
    rcases start with rfl | good
    · exact Field.settle_nil (own f mem).1
    · exact good.settled f mem
  have ordered : before.Ordered t := by
    rcases start with rfl | good
    · simp [Ordered, parts]
    · exact good.ordered
  have allowed : ∀ f ∈ t.fields, ∀ v ∈ before.values f.number, f.Allows (NestedWellFormed depth) v := by
    intro f mem v hv
    rcases start with rfl | good
    · cases hv
    · exact good.allowed f mem v hv
  rw [h.ordered, ordered]
  apply length_flatMap_parts_le t.fields_sorted
  intro f mem
  obtain ⟨values, gathers, eq⟩ := h.gathered f mem
  rw [eq]
  by_cases none : es.filter (·.key.number = f.number) = []
  · rw [none] at gathers
    cases gathers
    rw [settled f mem]
    omega
  · obtain ⟨compact, nested⟩ := (own f mem).2 none
    have fits' : ∀ e ∈ es.filter (·.key.number = f.number), e.Fits maxDepth ∧ e.key.number = f.number := by
      intro e he
      obtain ⟨inRow, number⟩ := List.mem_filter.1 he
      exact ⟨fits e inRow, by simpa using number⟩
    have bound := gathers.length_le compact fits' (allowed f mem) fun t before p m type reads =>
      step t before p m (by simpa [Field.plain, type] using nested) reads
    rwa [settled f mem] at bound

theorem NestedReadsAs.length_le {depth : Nat} (le : depth ≤ maxDepth + 1) {t : MessageType}
    (small : t.plain) {before m : Message} {bytes : List UInt8}
    (h : NestedReadsAs depth t before bytes m)
    (start : before = [] ∨ NestedWellFormed depth t before) :
    m.encode.length ≤ before.encode.length + 2 * bytes.length := by
  induction depth generalizing t before m bytes with
  | zero => exact h.elim
  | succ depth ih =>
    obtain ⟨es, fits, rfl, row⟩ := (readsAs_iff (Nat.le_of_succ_le_succ le)).1 h
    have le' := Nat.le_of_succ_le le
    have own (f : Field) (mem : f ∈ t.fields) := Field.compact_of_plain small mem
    exact row.length_le fits start (fun f mem => ⟨(own f mem).1.given, fun _ => own f mem⟩)
      fun t before p m plain reads start => ⟨reads.wellFormed le' start, ih le' plain reads start⟩

end Message

end CompilerPlugin

import CompilerPlugin.Proofs.Message.Restrict
import CompilerPlugin.Proofs.Message.RoundTrip

/-!
What can be told of a message from its own bytes being read at all. A length that does not fit in 64 bits
stops the reader, and so does a message that is nested too deep; so a message of any depth that is read is
no deeper than the reader allows, and it is read as itself.
-/

namespace CompilerPlugin

open Wire Schema

namespace Wire

theorem Varint.lt_of_run_encode {limit n : Nat} {rest : List UInt8} {p : Nat × List UInt8}
    (h : (stepWithin (limit + 1)).run (encode n ++ rest) = .ok p) : n < 2 * 128 ^ limit := by
  induction limit generalizing n p with
  | zero =>
    rw [encode] at h
    split at h
    · rename_i small
      have last : (UInt8.ofNat n).toNat = n := by
        rw [UInt8.toNat_ofNat']
        omega
      rw [List.singleton_append, run_stepWithin_cons, last, if_pos small] at h
      split at h
      · cases h
      · omega
    · rename_i large
      have low : ¬ (UInt8.ofNat (n % 128 + 128)).toNat < 128 := by
        rw [UInt8.toNat_ofNat']
        omega
      rw [List.cons_append, run_stepWithin_cons, if_neg low] at h
      cases h
  | succ limit ih =>
    have power := Nat.one_le_pow limit 128 (by omega)
    rw [pow_succ]
    rw [encode] at h
    split at h
    · omega
    · rename_i large
      have low : ¬ (UInt8.ofNat (n % 128 + 128)).toNat < 128 := by
        rw [UInt8.toNat_ofNat']
        omega
      rw [List.cons_append, run_stepWithin_cons, if_neg low] at h
      cases high : (stepWithin (limit + 1)).run (encode (n / 128) ++ rest) with
      | error e => simp [high, Except.map] at h
      | ok q =>
        have := ih high
        omega

theorem length_lt_of_run_encodeDelimited {p q rest tail : List UInt8}
    (h : readDelimited.run (encodeDelimited p ++ rest) = .ok (q, tail)) : p.length < 2 ^ 64 := by
  obtain ⟨n, hn, -⟩ := run_readDelimited.1 h
  rw [encodeDelimited, List.append_assoc] at hn
  obtain ⟨w, hw, -⟩ := Step.run_map.1 hn
  exact Varint.lt_of_run_encode hw

namespace Entry

theorem fits_ofPart_of_run {part : Part} (pos : part.1 ≠ 0) (bound : part.1 < 2 ^ 29)
    {rest tail : List UInt8} {read : Key × Body}
    (h : (Entry.read maxDepth).run ((Entry.ofPart part).raw ++ rest) = .ok (read, tail)) :
    (Entry.ofPart part).Fits maxDepth := by
  obtain ⟨number, v⟩ := part
  have key : Reads readKey (Key.encode ⟨number, v.wireType⟩) ⟨number, v.wireType⟩ :=
    reads_key pos bound
  obtain ⟨k, mid, hk, hb⟩ := Step.run_andThen.1 h
  rw [Entry.ofPart, List.append_assoc, key (v.encode ++ rest)] at hk
  cases hk
  obtain ⟨b, hb, -⟩ := Step.run_map.1 hb
  refine fits_iff.2 ⟨_, _, rfl, key, reads_body_iff.2 ?_⟩
  have announced {p : List UInt8} (shape : v.wireType = .lengthDelimited)
      (eq : v.encode = encodeDelimited p) : Reads readDelimited v.encode p := by
    rw [maxDepth, readBody] at hb
    simp only [shape, eq] at hb
    obtain ⟨q, hq, -⟩ := Step.run_map.1 hb
    exact eq ▸ reads_delimited (length_lt_of_run_encodeDelimited hq)
  cases v with
  | word w => exact ⟨rfl, by simpa only [Value.encode] using reads_varint w⟩
  | double bits => exact ⟨rfl, by simpa only [Value.encode] using reads_fixed64 bits⟩
  | text | bytes | words | message => exact ⟨rfl, announced rfl (by rw [Value.encode])⟩

theorem eq_map_ofPart {m : Message} (numbers : ∀ part ∈ m, part.1 ≠ 0 ∧ part.1 < 2 ^ 29) {es : List Entry}
    (fits : ∀ e ∈ es, e.Fits maxDepth) (same : es.flatMap (·.raw) = (m.map ofPart).flatMap (·.raw)) :
    es = m.map ofPart := by
  have nonempty {e : Entry} (h : e.Fits maxDepth) : 0 < e.raw.length := Reads.length_pos h
  induction m generalizing es with
  | nil =>
    cases es with
    | nil => rfl
    | cons e es =>
      have length := congrArg List.length same
      have := nonempty (fits e List.mem_cons_self)
      simp only [List.flatMap_cons, List.length_append, List.map_nil, List.flatMap_nil,
        List.length_nil] at length
      omega
  | cons part m ih =>
    obtain ⟨⟨pos, bound⟩, others⟩ := List.forall_mem_cons.1 numbers
    cases es with
    | nil =>
      have length := congrArg List.length same
      have := Varint.encode_length_pos (part.1 * 8 + part.2.wireType.code)
      simp only [List.map_cons, List.flatMap_cons, List.flatMap_nil, List.length_append, List.length_nil,
        ofPart, Key.encode] at length
      omega
    | cons e es =>
      obtain ⟨first, rest⟩ := List.forall_mem_cons.1 fits
      rw [List.flatMap_cons, List.map_cons, List.flatMap_cons] at same
      have run := first (es.flatMap (·.raw))
      rw [same] at run
      have fits' := fits_ofPart_of_run pos bound run
      rw [fits' ((m.map ofPart).flatMap (·.raw))] at run
      obtain ⟨body, tail⟩ := Prod.mk.inj (Except.ok.inj run)
      have raw : (ofPart part).raw = e.raw := by
        rw [tail] at same
        exact (List.append_cancel_right same).symm
      rw [List.map_cons, ih others rest tail.symm]
      obtain ⟨key, value⟩ := Prod.mk.inj body
      obtain ⟨k, b, r⟩ := e
      simp only at key value raw
      rw [← key, ← value, ← raw]

end Entry

end Wire

namespace Schema.Field

variable {nested : MessageType → Message → List UInt8 → Message → Prop} {f : Field}

theorem Gathers.holds_of_settled {number : Nat} {values values' : List Value}
    (settled : f.settle values = values)
    (h : f.Gathers nested [] (values.map fun v => Entry.ofPart (number, v)) values') :
    ∀ v ∈ values, ∃ added, f.Holds nested [] v.body added := by
  intro v mem
  rcases f.settled_cases settled with fresh | rfl | ⟨w, rfl⟩
  · obtain ⟨held, added, holds⟩ := h.exists_holds _ (List.mem_map.2 ⟨v, mem, rfl⟩)
    exact ⟨added, holds.of_before ((fresh []).trans (fresh held).symm)⟩
  · cases mem
  · obtain rfl := List.mem_singleton.1 mem
    cases h with
    | cons holds _ => exact ⟨_, holds⟩

theorem gathers_of_forall₂ {es : List Entry} {values : List Value}
    (each : List.Forall₂ (fun e v => ∀ held, f.Holds nested held e.body [v]) es values)
    (held : List Value) : f.Gathers nested held es (held ++ values) := by
  induction each generalizing held with
  | nil => simpa using Gathers.nil
  | @cons e v es values head _ ih =>
    have rest := ih (held ++ [v])
    rw [List.append_assoc] at rest
    exact .cons (head held) rest

end Schema.Field

namespace Message

theorem number_of_ordered {t : MessageType} {m : Message} (h : m.Ordered t) :
    ∀ part ∈ m, part.1 ≠ 0 ∧ part.1 < 2 ^ 29 := by
  intro part mem
  obtain ⟨f, hf, number, -⟩ := h.exists_field mem
  have pos := MessageType.number_pos hf
  have bound := MessageType.number_lt hf
  omega

theorem row_of_readsAs_encode {depth : Nat} (le : depth ≤ maxDepth) {t : MessageType} {m m' : Message}
    (ordered : m.Ordered t) (h : ReadsAs depth t [] m.encode m') :
    (∀ e ∈ m.map Entry.ofPart, e.Fits maxDepth) ∧ OfRow depth t [] (m.map Entry.ofPart) m' := by
  obtain ⟨es, fits, bytes, row⟩ := (readsAs_iff le).1 h
  rw [encode_eq_flatMap] at bytes
  rw [← Entry.eq_map_ofPart (number_of_ordered ordered) fits bytes.symm]
  exact ⟨fits, row⟩

theorem WellFormed.of_row {depth depth' : Nat} (le : depth ≤ maxDepth) {t : MessageType} {m m' : Message}
    (typed : WellFormed depth' t m) (h : ReadsAs depth t [] m.encode m')
    (step : ∀ t m m', NestedWellFormed depth' t m → NestedReadsAs depth t [] m.encode m' →
      NestedWellFormed depth t m ∧ NestedReadsAs depth t [] m.encode m) :
    WellFormed depth t m ∧ ReadsAs depth t [] m.encode m := by
  obtain ⟨fits, row⟩ := row_of_readsAs_encode le typed.ordered h
  -- A message in the message was read where it stands, and there nothing had come before it.
  have nested {f : Field} (hf : f ∈ t.fields) {t' : MessageType} {part : Message}
      (type : f.type = .message t') (mem : .message part ∈ m.values f.number)
      (good : NestedWellFormed depth' t' part) :
      NestedWellFormed depth t' part ∧ NestedReadsAs depth t' [] part.encode part := by
    obtain ⟨values, gathers, -⟩ := row.gathered f hf
    rw [filter_map_ofPart] at gathers
    obtain ⟨added, holds⟩ := gathers.holds_of_settled (typed.settled f hf) _ mem
    obtain ⟨p, m', body, -, reads⟩ := (Field.holds_message_iff type).1 holds
    cases body
    rw [f.before_nil] at reads
    exact step _ _ _ good reads
  have settled : Settled (NestedWellFormed depth) t m := by
    refine ⟨typed.ordered, typed.settled, fun f hf v mem => ?_⟩
    cases typed.allowed f hf v mem with
    | message type good => exact .message type (nested hf type mem good).1
    | word type shape label normal => exact .word type shape label normal
    | double type => exact .double type
    | text type => exact .text type
    | bytes type => exact .bytes type
    | words type label normal => exact .words type label normal
  refine ⟨wellFormed_iff.2 settled,
    (readsAs_iff le).2 ⟨_, fits, encode_eq_flatMap m, ⟨row.unknown, fun f hf => ?_, typed.ordered⟩⟩⟩
  refine ⟨m.values f.number, ?_, (typed.settled f hf).symm⟩
  rw [filter_map_ofPart]
  refine Field.gathers_values (typed.settled f hf) fun v mem => ?_
  have allowed := typed.allowed f hf v mem
  cases v with
  | message part =>
    cases allowed with
    | message type good =>
      refine .message type ?_
      rw [f.before_nil]
      exact (nested hf type mem good).2
  | word | double | text | bytes | words =>
    refine (settled.allowed f hf _ mem).holds ?_
    rintro _ _ ⟨⟩

theorem WellFormed.of_readsAs_encode {depth depth' : Nat} (le : depth ≤ maxDepth) {t : MessageType}
    {m m' : Message} (typed : WellFormed depth' t m) (h : ReadsAs depth t [] m.encode m') :
    WellFormed depth t m ∧ ReadsAs depth t [] m.encode m := by
  induction depth generalizing depth' t m m' with
  | zero => exact typed.of_row le h fun _ _ _ _ reads => reads.elim
  | succ depth ih =>
    refine typed.of_row le h fun t m m' good reads => ?_
    cases depth' with
    | zero => exact good.elim
    | succ depth' => exact ih (Nat.le_of_succ_le le) good reads

end Message

end CompilerPlugin

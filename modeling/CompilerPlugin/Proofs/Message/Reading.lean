import CompilerPlugin.Proofs.Wire.Row
import CompilerPlugin.Message.Encode

namespace CompilerPlugin

open Wire Schema

namespace Schema

namespace Field

def before (f : Field) (values : List Value) : Message :=
  match f.label with
  | .repeated | .packed => []
  | .optional | .required =>
    match values.getLast? with
    | some (.message m) => m
    | _ => []

inductive Holds (nested : MessageType → Message → List UInt8 → Message → Prop) (f : Field)
    (values : List Value) : Body → List Value → Prop
  | message {t p m} :
      f.type = .message t → nested t (f.before values) p m → Holds nested f values (.delimited p) [.message m]
  | word {s w} :
      f.type = .scalar s → s.wireType = .varint → ¬ (f.label.isList ∧ s = .int32) →
      Holds nested f values (.varint w) [.word (normalizeWord s w)]
  | double {w} : f.type = .scalar .double → Holds nested f values (.fixed64 w) [.double w]
  | text {p v} :
      f.type = .scalar .text → decodeText p = .ok v → Holds nested f values (.delimited p) [v]
  | bytes {p} : f.type = .scalar .bytes → Holds nested f values (.delimited p) [.bytes p]
  | number {w} :
      f.type = .scalar .int32 → f.label.isList →
      Holds nested f values (.varint w) (f.numbers [normalizeWord .int32 w])
  | numbers {p words} :
      f.type = .scalar .int32 → f.label.isList → Loops (readWord .int32) [] p words →
      Holds nested f values (.delimited p) (f.numbers words.reverse)

variable {nested : MessageType → Message → List UInt8 → Message → Prop} {f : Field}
  {values added : List Value} {b : Body}

theorem before_nil (f : Field) : f.before [] = [] := by
  rw [before]
  cases f.label <;> rfl

theorem before_of_repeated (label : f.label = .repeated) (values : List Value) :
    f.before values = [] := by
  rw [before, label]

theorem holds_message_iff {t : MessageType} (type : f.type = .message t) :
    f.Holds nested values b added ↔
      ∃ p m, b = .delimited p ∧ added = [.message m] ∧ nested t (f.before values) p m := by
  constructor
  · intro h
    cases h with
    | message type' reads =>
      cases type.symm.trans type'
      exact ⟨_, _, rfl, rfl, reads⟩
    | word type' | double type' | text type' | bytes type' | number type' | numbers type' =>
      cases type.symm.trans type'
  · rintro ⟨p, m, rfl, rfl, reads⟩
    exact .message type reads

theorem holds_numbers_iff (type : f.type = .scalar .int32) (list : f.label.isList) :
    f.Holds nested values b added ↔
      (∃ w, b = .varint w ∧ added = f.numbers [normalizeWord .int32 w]) ∨
        ∃ p words, b = .delimited p ∧ Loops (readWord .int32) [] p words ∧
          added = f.numbers words.reverse := by
  constructor
  · intro h
    cases h with
    | number => exact .inl ⟨_, rfl, rfl⟩
    | numbers _ _ loops => exact .inr ⟨_, _, rfl, loops, rfl⟩
    | word type' _ single =>
      cases type.symm.trans type'
      exact absurd ⟨list, rfl⟩ single
    | message type' | double type' | text type' | bytes type' => cases type.symm.trans type'
  · rintro (⟨w, rfl, rfl⟩ | ⟨p, words, rfl, loops, rfl⟩)
    · exact .number type list
    · exact .numbers type list loops

end Field

end Schema

namespace Message

def ReadsAs (depth : Nat) (t : MessageType) (before : Message) (bytes : List UInt8) (m : Message) :
    Prop :=
  ∃ arrived, Loops (readPart depth (readNested depth) t) before.reverse bytes arrived ∧
    m = t.canonical arrived.reverse

def NestedReadsAs : (depth : Nat) → MessageType → Message → List UInt8 → Message → Prop
  | 0 => fun _ _ _ _ => False
  | depth + 1 => ReadsAs depth

def Takes (depth : Nat) (t : MessageType) (held : Message) (e : Entry) (held' : Message) : Prop :=
  match t.field? e.key.number with
  | none => e.Fits depth ∧ held' = held
  | some f =>
    ∃ added, f.Holds (NestedReadsAs depth) (held.values f.number) e.body added ∧
      held' = held ++ parts f.number added

inductive TakesAll (depth : Nat) (t : MessageType) : Message → List Entry → Message → Prop
  | nil {held} : TakesAll depth t held [] held
  | cons {held mid held' e es} :
      Takes depth t held e mid → TakesAll depth t mid es held' → TakesAll depth t held (e :: es) held'

end Message

namespace Wire

theorem reads_body_iff {depth : Nat} {key : Key} {front : List UInt8} {b : Body} :
    Reads (readBody (depth + 1) key) front b ↔
      match b with
      | .varint w => key.wireType = .varint ∧ Reads readVarint front w
      | .fixed64 w => key.wireType = .sixtyFourBit ∧ Reads readFixed64 front w
      | .delimited p => key.wireType = .lengthDelimited ∧ Reads readDelimited front p
      | .group => key.wireType = .startGroup ∧ Reads (readGroup (readBody depth) key.number) front .group
      | .fixed32 w => key.wireType = .thirtyTwoBit ∧ Reads readFixed32 front w := by
  rw [readBody]
  cases key.wireType with
  | varint => cases b <;> simp [Reads.map_iff local_readVarint]
  | sixtyFourBit => cases b <;> simp [Reads.map_iff local_readFixed64]
  | lengthDelimited => cases b <;> simp [Reads.map_iff local_readDelimited]
  | thirtyTwoBit => cases b <;> simp [Reads.map_iff local_readFixed32]
  | endGroup => cases b <;> simp [Reads.not_fail]
  | startGroup =>
    have group (b : Body) (h : Reads (readGroup (readBody depth) key.number) front b) : b = .group :=
      ((run_readGroup (local_readBody depth)).1 (h [])).1
    cases b <;> simp <;> exact fun h => by cases group _ h

theorem soFar_eq (f : Field) (arrived : Message) :
    soFar f arrived = f.before (Message.values arrived.reverse f.number) := by
  have last : (Message.values arrived.reverse f.number).getLast? =
      (arrived.find? (·.1 = f.number)).map (·.2) := by
    induction arrived with
    | nil => rfl
    | cons part arrived ih =>
      by_cases same : part.1 = f.number
      · simp [Message.values_append, Message.values_cons, same]
      · simp [Message.values_append, Message.values_cons, same, ih]
  rw [soFar, Field.before]
  rw [last]
  cases f.label with
  | repeated | packed => rfl
  | optional | required =>
    cases arrived.find? (·.1 = f.number) with
    | none => rfl
    | some part =>
      obtain ⟨n, v⟩ := part
      cases v <;> rfl

theorem local_expecting {α : Type} {expected : WireType} {key : Key} {s : Step α} (hs : s.Local) :
    (expecting expected key s).Local := by
  rw [expecting]
  split
  · exact hs
  · exact .fail

theorem Reads.expecting_iff {α : Type} {expected : WireType} {key : Key} {s : Step α}
    {front : List UInt8} {a : α} :
    Reads (expecting expected key s) front a ↔ key.wireType = expected ∧ Reads s front a := by
  rw [expecting]
  split
  · simp [*]
  · simp [*, Reads.not_fail]

theorem decodeText_eq_ok_iff {p : List UInt8} {v : Value} :
    decodeText p = .ok v ↔ ∃ s : String, v = .text s ∧ s.toByteArray.data.toList = p := by
  rw [decodeText, String.fromUTF8?]
  constructor
  · intro h
    split at h
    · rename_i s hs
      cases h
      split at hs
      · cases hs
        exact ⟨_, rfl, rfl⟩
      · cases hs
    · cases h
  · rintro ⟨s, rfl, rfl⟩
    simp [s.isValidUTF8, String.fromUTF8]

theorem local_readWord (s : Scalar) (words : List UInt64) : (readWord s words).Local :=
  local_readVarint.map

theorem local_readScalar (s : Scalar) : (readScalar s).Local := by
  cases s with
  | double => exact local_readFixed64.map
  | text => exact local_readDelimited.refine
  | bytes => exact local_readDelimited.map
  | int32 | int64 | uint64 | bool => exact local_readVarint.map

theorem local_readNumbers (f : Field) (s : Scalar) (key : Key) : (readNumbers f s key).Local := by
  rw [readNumbers]
  split
  · exact (local_delimited (local_readWord s)).map
  · exact local_expecting (local_readWord s []).map

section

variable {nested : MessageType → Message → Step Message}
  {reading : MessageType → Message → List UInt8 → Message → Prop}

theorem local_readValues (hlocal : ∀ t m, (nested t m).Local) (f : Field) (key : Key)
    (arrived : Message) : (readValues nested f key arrived).Local := by
  rw [readValues]
  split
  · exact local_expecting (hlocal _ _).map
  · split
    · exact local_readNumbers f _ key
    · exact local_expecting (local_readScalar _).map

theorem reads_numbers_iff {depth : Nat} {f : Field} {key : Key} {values : List Value}
    {front : List UInt8} {added : List Value} (type : f.type = .scalar .int32)
    (list : f.label.isList) :
    Reads (readNumbers f .int32 key) front added ↔
      ∃ b, Reads (readBody (depth + 1) key) front b ∧ f.Holds reading values b added := by
  rw [readNumbers]
  simp only [Field.holds_numbers_iff type list]
  by_cases many : key.wireType = .lengthDelimited
  · rw [if_pos many, Reads.map_iff (local_delimited (local_readWord .int32))]
    simp only [Reads.loop_iff (local_readWord .int32)]
    constructor
    · rintro ⟨words, ⟨p, hp, loops⟩, rfl⟩
      exact ⟨.delimited p, reads_body_iff.2 ⟨many, hp⟩, .inr ⟨p, words, rfl, loops, rfl⟩⟩
    · rintro ⟨_, hb, ⟨w, rfl, -⟩ | ⟨p, words, rfl, loops, rfl⟩⟩
      · exact absurd many (by simp [(reads_body_iff.1 hb).1])
      · exact ⟨words, ⟨p, (reads_body_iff.1 hb).2, loops⟩, rfl⟩
  · rw [if_neg many, Reads.expecting_iff, Reads.map_iff (local_readWord .int32 [])]
    simp only [readWord, Reads.map_iff local_readVarint]
    constructor
    · rintro ⟨one, words, ⟨w, hw, rfl⟩, rfl⟩
      exact ⟨.varint w, reads_body_iff.2 ⟨one, hw⟩, .inl ⟨w, rfl, rfl⟩⟩
    · rintro ⟨_, hb, ⟨w, rfl, rfl⟩ | ⟨p, words, rfl, -⟩⟩
      · exact ⟨(reads_body_iff.1 hb).1, _, ⟨w, (reads_body_iff.1 hb).2, rfl⟩, rfl⟩
      · exact absurd (reads_body_iff.1 hb).1 many

theorem reads_scalar_iff {depth : Nat} {f : Field} {s : Scalar} {key : Key} {values : List Value}
    {front : List UInt8} {added : List Value} (type : f.type = .scalar s)
    (single : ¬ (f.label.isList ∧ s = .int32)) :
    Reads (expecting s.wireType key ((readScalar s).map fun v => [v])) front added ↔
      ∃ b, Reads (readBody (depth + 1) key) front b ∧ f.Holds reading values b added := by
  rw [Reads.expecting_iff, Reads.map_iff (local_readScalar s)]
  constructor
  · rintro ⟨shape, v, hv, rfl⟩
    cases s with
    | double =>
      obtain ⟨w, hw, rfl⟩ := (Reads.map_iff local_readFixed64).1 hv
      exact ⟨.fixed64 w, reads_body_iff.2 ⟨shape, hw⟩, .double type⟩
    | text =>
      obtain ⟨p, hp, eq⟩ := (Reads.refine_iff local_readDelimited).1 hv
      exact ⟨.delimited p, reads_body_iff.2 ⟨shape, hp⟩, .text type eq⟩
    | bytes =>
      obtain ⟨p, hp, rfl⟩ := (Reads.map_iff local_readDelimited).1 hv
      exact ⟨.delimited p, reads_body_iff.2 ⟨shape, hp⟩, .bytes type⟩
    | int32 | int64 | uint64 | bool =>
      obtain ⟨w, hw, rfl⟩ := (Reads.map_iff local_readVarint).1 hv
      exact ⟨.varint w, reads_body_iff.2 ⟨shape, hw⟩, .word type rfl single⟩
  · rintro ⟨b, hb, holds⟩
    cases holds with
    | message type' => rw [type] at type'; cases type'
    | word type' shape =>
      rw [type] at type'
      cases type'
      have hw := reads_body_iff.1 hb
      refine ⟨hw.1.trans shape.symm, _, ?_, rfl⟩
      cases s <;> cases shape <;> exact (Reads.map_iff local_readVarint).2 ⟨_, hw.2, rfl⟩
    | double type' =>
      rw [type] at type'
      cases type'
      have hw := reads_body_iff.1 hb
      exact ⟨hw.1, _, (Reads.map_iff local_readFixed64).2 ⟨_, hw.2, rfl⟩, rfl⟩
    | text type' eq =>
      rw [type] at type'
      cases type'
      have hp := reads_body_iff.1 hb
      exact ⟨hp.1, _, (Reads.refine_iff local_readDelimited).2 ⟨_, hp.2, eq⟩, rfl⟩
    | bytes type' =>
      rw [type] at type'
      cases type'
      have hp := reads_body_iff.1 hb
      exact ⟨hp.1, _, (Reads.map_iff local_readDelimited).2 ⟨_, hp.2, rfl⟩, rfl⟩
    | number type' list | numbers type' list =>
      rw [type] at type'
      cases type'
      exact absurd ⟨list, rfl⟩ single

theorem reads_values_iff (hlocal : ∀ t m, (nested t m).Local)
    (hnested : ∀ t before front m,
      Reads (nested t before) front m ↔ ∃ p, Reads readDelimited front p ∧ reading t before p m)
    {depth : Nat} {f : Field} {key : Key} {arrived : Message} {front : List UInt8}
    {added : List Value} :
    Reads (readValues nested f key arrived) front added ↔
      ∃ b, Reads (readBody (depth + 1) key) front b ∧
        f.Holds reading (Message.values arrived.reverse f.number) b added := by
  rw [readValues]
  cases type : f.type with
  | message t =>
    simp only
    rw [Reads.expecting_iff, Reads.map_iff (hlocal _ _), soFar_eq]
    simp only [hnested, Field.holds_message_iff type]
    constructor
    · rintro ⟨shape, m, ⟨p, hp, hm⟩, rfl⟩
      exact ⟨.delimited p, reads_body_iff.2 ⟨shape, hp⟩, p, m, rfl, rfl, hm⟩
    · rintro ⟨_, hb, p, m, rfl, rfl, hm⟩
      have hp := reads_body_iff.1 hb
      exact ⟨hp.1, m, ⟨p, hp.2, hm⟩, rfl⟩
  | scalar s =>
    simp only
    split
    · rename_i ints
      obtain ⟨list, rfl⟩ := ints
      exact reads_numbers_iff type list
    · rename_i single
      exact reads_scalar_iff type single

theorem local_readPart (hlocal : ∀ t m, (nested t m).Local) (depth : Nat) (t : MessageType)
    (arrived : Message) : (readPart depth nested t arrived).Local := by
  apply local_readKey.andThen
  intro key
  cases t.field? key.number with
  | none => exact (local_readBody depth key).map
  | some f => exact (local_readValues hlocal f key arrived).map.inField

end

theorem local_readNested (depth : Nat) (t : MessageType) (m : Message) :
    (readNested depth t m).Local := by
  induction depth generalizing t m with
  | zero => exact .fail
  | succ depth ih => exact (local_delimited (local_readPart ih depth t)).map

theorem reads_nested_iff {depth : Nat} (t : MessageType) (before : Message) (front : List UInt8)
    (m : Message) :
    Reads (readNested depth t before) front m ↔
      ∃ p, Reads readDelimited front p ∧ Message.NestedReadsAs depth t before p m := by
  cases depth with
  | zero => simp [readNested, Message.NestedReadsAs, Reads.not_fail]
  | succ depth =>
    have hstep := local_readPart (local_readNested depth) depth t
    rw [readNested, Reads.map_iff (local_delimited hstep)]
    simp only [Reads.loop_iff hstep, Message.NestedReadsAs, Message.ReadsAs]
    constructor
    · rintro ⟨arrived, ⟨p, hp, loops⟩, rfl⟩
      exact ⟨p, hp, arrived, loops, rfl⟩
    · rintro ⟨p, hp, arrived, loops, rfl⟩
      exact ⟨arrived, ⟨p, hp, loops⟩, rfl⟩

theorem reads_part_iff {depth : Nat} (le : depth ≤ maxDepth) {t : MessageType}
    {arrived arrived' : Message} {front : List UInt8} :
    Reads (readPart depth (readNested depth) t arrived) front arrived' ↔
      ∃ e : Entry, e.raw = front ∧ e.Fits maxDepth ∧
        Message.Takes depth t arrived.reverse e arrived'.reverse := by
  have values (f : Field) (key : Key) (mid : List UInt8) (added : List Value) :
      Reads (readValues (readNested depth) f key arrived) mid added ↔
        ∃ b, Reads (readBody maxDepth key) mid b ∧
          f.Holds (Message.NestedReadsAs depth) (Message.values arrived.reverse f.number) b added :=
    reads_values_iff (local_readNested depth) reads_nested_iff
  constructor
  · intro h
    obtain ⟨key, fst, snd, rfl, hk, hv⟩ := h.exists_of_andThen local_readKey fun key => by
      cases t.field? key.number with
      | none => exact (local_readBody depth key).map
      | some f => exact (local_readValues (local_readNested depth) f key arrived).map.inField
    cases known : t.field? key.number with
    | none =>
      simp only [known] at hv
      obtain ⟨b, hb, rfl⟩ := (Reads.map_iff (local_readBody depth key)).1 hv
      have fits : Entry.Fits depth ⟨key, b, fst ++ snd⟩ := Entry.fits_iff.2 ⟨fst, snd, rfl, hk, hb⟩
      exact ⟨⟨key, b, fst ++ snd⟩, rfl, fits.mono le, by simp [Message.Takes, known, fits]⟩
    | some f =>
      simp only [known, Reads.inField_iff] at hv
      obtain ⟨added, ha, rfl⟩ :=
        (Reads.map_iff (local_readValues (local_readNested depth) f key arrived)).1 hv
      obtain ⟨b, hb, holds⟩ := (values f key snd added).1 ha
      refine ⟨⟨key, b, fst ++ snd⟩, rfl, Entry.fits_iff.2 ⟨fst, snd, rfl, hk, hb⟩, ?_⟩
      simp only [Message.Takes, known]
      exact ⟨added, holds, by simp [Message.parts]⟩
  · rintro ⟨e, rfl, fits, takes⟩
    obtain ⟨fst, snd, raw, hk, hb⟩ := Entry.fits_iff.1 fits
    rw [Message.Takes] at takes
    cases known : t.field? e.key.number with
    | none =>
      simp only [known] at takes
      obtain ⟨fits, held⟩ := takes
      obtain ⟨fst, snd, raw, hk, hb⟩ := Entry.fits_iff.1 fits
      rw [raw]
      refine hk.andThen ?_
      simp only [known]
      exact (Reads.map_iff (local_readBody depth e.key)).2 ⟨_, hb, (List.reverse_inj.1 held).symm⟩
    | some f =>
      simp only [known] at takes
      obtain ⟨added, holds, held⟩ := takes
      rw [raw]
      refine hk.andThen ?_
      simp only [known, Reads.inField_iff]
      refine (Reads.map_iff (local_readValues (local_readNested depth) f e.key arrived)).2 ?_
      refine ⟨added, (values f e.key snd added).2 ⟨e.body, hb, holds⟩, ?_⟩
      have := congrArg List.reverse held
      simpa [Message.parts] using this.symm

end Wire

namespace Message

@[simp] theorem values_parts_self (number : Nat) (values : List Value) :
    Message.values (parts number values) number = values := by
  induction values with
  | nil => rfl
  | cons v values ih =>
    rw [parts, List.map_cons, values_cons, if_pos rfl]
    exact congrArg (v :: ·) ih

theorem values_parts_of_ne {number other : Nat} (ne : number ≠ other) (values : List Value) :
    Message.values (parts number values) other = [] := by
  induction values with
  | nil => rfl
  | cons v values ih =>
    rw [parts, List.map_cons, values_cons, if_neg ne]
    exact ih

theorem messages_eq {m : Message} {number : Nat} {ms : List Message}
    (h : m.values number = ms.map .message) : m.messages number = ms := by
  rw [messages, h, List.filterMap_map]
  simp [Function.comp_def, Value.message?]

theorem blobs_eq {m : Message} {number : Nat} {bs : List (List UInt8)}
    (h : m.values number = bs.map .bytes) : m.blobs number = bs := by
  rw [blobs, h, List.filterMap_map]
  simp [Function.comp_def, Value.bytes?]

theorem loops_iff {depth : Nat} (le : depth ≤ maxDepth) {t : MessageType} {arrived arrived' : Message}
    {bytes : List UInt8} :
    Loops (readPart depth (readNested depth) t) arrived bytes arrived' ↔
      ∃ es : List Entry, (∀ e ∈ es, e.Fits maxDepth) ∧ bytes = es.flatMap (·.raw) ∧
        TakesAll depth t arrived.reverse es arrived'.reverse := by
  constructor
  · intro h
    induction h with
    | nil => exact ⟨[], by simp, rfl, .nil⟩
    | cons head _ ih =>
      obtain ⟨e, rfl, fits, takes⟩ := (reads_part_iff le).1 head
      obtain ⟨es, all, rfl, rest⟩ := ih
      refine ⟨e :: es, ?_, by simp, .cons takes rest⟩
      intro e' mem
      rcases List.mem_cons.1 mem with rfl | mem
      · exact fits
      · exact all e' mem
  · rintro ⟨es, all, rfl, takes⟩
    induction es generalizing arrived with
    | nil =>
      generalize stop : arrived'.reverse = held at takes
      cases takes
      rw [← List.reverse_inj.1 stop]
      exact .nil
    | cons e es ih =>
      cases takes with
      | @cons _ mid _ _ _ head rest =>
        rw [List.flatMap_cons]
        have one : Reads (readPart depth (readNested depth) t arrived) e.raw mid.reverse :=
          (reads_part_iff le).2 ⟨e, rfl, all e List.mem_cons_self, by rwa [List.reverse_reverse]⟩
        refine .cons one (ih (fun e' mem => all e' (List.mem_cons_of_mem _ mem)) ?_)
        rwa [List.reverse_reverse]

end Message

end CompilerPlugin

import CompilerPlugin.Proofs.Message.Reading
import Mathlib.Data.List.Basic

namespace CompilerPlugin

open Wire Schema

namespace Schema.Field

inductive Gathers (nested : MessageType → Message → List UInt8 → Message → Prop) (f : Field) :
    List Value → List Entry → List Value → Prop
  | nil {values} : Gathers nested f values [] values
  | cons {values added values' e es} :
      Holds nested f values e.body added → Gathers nested f (values ++ added) es values' →
      Gathers nested f values (e :: es) values'

end Schema.Field

namespace Schema

theorem find?_number {fields : List Field} (sorted : fields.Pairwise fun f g => f.number < g.number)
    {f : Field} (mem : f ∈ fields) : fields.find? (·.number = f.number) = some f := by
  induction fields with
  | nil => cases mem
  | cons g fields ih =>
    obtain ⟨least, sorted⟩ := List.pairwise_cons.1 sorted
    rcases List.mem_cons.1 mem with rfl | mem
    · simp
    · have less := least f mem
      rw [List.find?_cons_of_neg (by simp; omega), ih sorted mem]

theorem MessageType.field?_number {t : MessageType} {f : Field} (mem : f ∈ t.fields) :
    t.field? f.number = some f :=
  find?_number t.fields_sorted mem

theorem MessageType.field_ext {t : MessageType} {f g : Field} (hf : f ∈ t.fields) (hg : g ∈ t.fields)
    (number : f.number = g.number) : f = g := by
  have known := field?_number hf
  rw [number, field?_number hg] at known
  cases known
  rfl

end Schema

namespace Message

def Ordered (t : MessageType) (m : Message) : Prop :=
  m = t.fields.flatMap fun f => parts f.number (m.values f.number)

/-- What a row of entries makes of a message, said of one field at a time. -/
structure OfRow (depth : Nat) (t : MessageType) (before : Message) (es : List Entry) (m : Message) :
    Prop where
  unknown : ∀ e ∈ es, t.field? e.key.number = none → e.Fits depth
  gathered : ∀ f ∈ t.fields, ∃ values,
    f.Gathers (NestedReadsAs depth) (before.values f.number)
      (es.filter (·.key.number = f.number)) values ∧ m.values f.number = f.settle values
  ordered : m.Ordered t

theorem takesAll_values {depth : Nat} {t : MessageType} {held held' : Message} {es : List Entry}
    (h : TakesAll depth t held es held') :
    (∀ e ∈ es, t.field? e.key.number = none → e.Fits depth) ∧
      ∀ f ∈ t.fields, f.Gathers (NestedReadsAs depth) (held.values f.number)
        (es.filter (·.key.number = f.number)) (held'.values f.number) := by
  induction h with
  | nil => exact ⟨by simp, fun f _ => .nil⟩
  | @cons held mid held' e es takes _ ih =>
    obtain ⟨unknown, gathers⟩ := ih
    rw [Takes] at takes
    cases known : t.field? e.key.number with
    | none =>
      simp only [known] at takes
      obtain ⟨fits, rfl⟩ := takes
      constructor
      · intro e' mem
        rcases List.mem_cons.1 mem with rfl | mem
        · exact fun _ => fits
        · exact unknown e' mem
      · intro f mem
        have other : e.key.number ≠ f.number := by
          intro same
          have := List.find?_eq_none.1 known f mem
          simp [same] at this
        simpa [other] using gathers f mem
    | some g =>
      simp only [known] at takes
      obtain ⟨added, holds, rfl⟩ := takes
      have number := MessageType.number_of_field? known
      constructor
      · intro e' mem
        rcases List.mem_cons.1 mem with rfl | mem
        · simp [known]
        · exact unknown e' mem
      · intro f mem
        have rest := gathers f mem
        by_cases same : g.number = f.number
        · rw [← number, same, MessageType.field?_number mem] at known
          cases known
          rw [List.filter_cons_of_pos (by simp [number])]
          rw [values_append, values_parts_self] at rest
          exact .cons holds rest
        · rw [List.filter_cons_of_neg (by simpa [← number] using same)]
          simpa [values_parts_of_ne same] using rest

theorem exists_takesAll {depth : Nat} {t : MessageType} {es : List Entry} {held : Message}
    {P : Field → List Value → Prop}
    (unknown : ∀ e ∈ es, t.field? e.key.number = none → e.Fits depth)
    (gathered : ∀ f ∈ t.fields, ∃ values, f.Gathers (NestedReadsAs depth) (held.values f.number)
      (es.filter (·.key.number = f.number)) values ∧ P f values) :
    ∃ held', TakesAll depth t held es held' ∧ ∀ f ∈ t.fields, P f (held'.values f.number) := by
  induction es generalizing held with
  | nil =>
    refine ⟨held, .nil, ?_⟩
    intro f mem
    obtain ⟨values, gathers, holds⟩ := gathered f mem
    cases gathers
    exact holds
  | cons e es ih =>
    have unknown' := fun e' mem => unknown e' (List.mem_cons_of_mem _ mem)
    cases known : t.field? e.key.number with
    | none =>
      have rest : ∀ f ∈ t.fields, ∃ values, f.Gathers (NestedReadsAs depth) (held.values f.number)
          (es.filter (·.key.number = f.number)) values ∧ P f values := by
        intro f mem
        have other : e.key.number ≠ f.number := by
          intro same
          rw [same, MessageType.field?_number mem] at known
          cases known
        simpa [other] using gathered f mem
      obtain ⟨held', takes, holds⟩ := ih unknown' rest
      refine ⟨held', .cons ?_ takes, holds⟩
      simpa [Takes, known] using unknown e List.mem_cons_self known
    | some g =>
      have number := MessageType.number_of_field? known
      obtain ⟨values, gathers, hg⟩ := gathered g (MessageType.mem_of_field? known)
      rw [List.filter_cons_of_pos (by simp [number])] at gathers
      cases gathers with
      | @cons _ added _ _ _ head tail =>
        -- Only the field of this entry goes on from more than before.
        have rest : ∀ f ∈ t.fields, ∃ values,
            f.Gathers (NestedReadsAs depth) ((held ++ parts g.number added).values f.number)
              (es.filter (·.key.number = f.number)) values ∧ P f values := by
          intro f mem
          by_cases same : g.number = f.number
          · rw [← number, same, MessageType.field?_number mem] at known
            cases known
            exact ⟨values, by simpa using tail, hg⟩
          · have := gathered f mem
            rw [List.filter_cons_of_neg (by simpa [← number] using same)] at this
            simpa [values_parts_of_ne same] using this
        obtain ⟨held', takes, holds⟩ := ih unknown' rest
        refine ⟨held', .cons ?_ takes, holds⟩
        simp only [Takes, known]
        exact ⟨added, head, rfl⟩

theorem values_flatMap_parts_of_lt {fields : List Field} {number : Nat}
    (least : ∀ g ∈ fields, number < g.number) (values : Field → List Value) :
    Message.values (fields.flatMap fun g => parts g.number (values g)) number = [] := by
  induction fields with
  | nil => rfl
  | cons g fields ih =>
    have greater := least g List.mem_cons_self
    rw [List.flatMap_cons, values_append, values_parts_of_ne (by omega),
      ih fun k mem => least k (List.mem_cons_of_mem _ mem)]
    rfl

theorem values_flatMap_parts {fields : List Field}
    (sorted : fields.Pairwise fun f g => f.number < g.number) (values : Field → List Value)
    {f : Field} (mem : f ∈ fields) :
    Message.values (fields.flatMap fun g => parts g.number (values g)) f.number = values f := by
  induction fields with
  | nil => cases mem
  | cons g fields ih =>
    obtain ⟨least, sorted⟩ := List.pairwise_cons.1 sorted
    rw [List.flatMap_cons, values_append]
    rcases List.mem_cons.1 mem with rfl | mem
    · rw [values_flatMap_parts_of_lt least, values_parts_self, List.append_nil]
    · have less := least f mem
      rw [values_parts_of_ne (by omega), ih sorted mem, List.nil_append]

theorem values_canonical {t : MessageType} (arrived : Message) {f : Field} (mem : f ∈ t.fields) :
    Message.values (t.canonical arrived) f.number = f.settle (arrived.values f.number) :=
  values_flatMap_parts t.fields_sorted (fun f => f.settle (arrived.values f.number)) mem

theorem ordered_canonical (t : MessageType) (arrived : Message) : Ordered t (t.canonical arrived) := by
  apply List.flatMap_congr
  intro f mem
  rw [values_canonical arrived mem]
  rfl

theorem Ordered.eq_canonical {t : MessageType} {m arrived : Message} (h : m.Ordered t)
    (values : ∀ f ∈ t.fields, m.values f.number = f.settle (arrived.values f.number)) :
    m = t.canonical arrived := by
  rw [h]
  apply List.flatMap_congr
  intro f mem
  rw [values f mem]
  rfl

theorem readsAs_iff {depth : Nat} (le : depth ≤ maxDepth) {t : MessageType} {before m : Message}
    {bytes : List UInt8} :
    ReadsAs depth t before bytes m ↔
      ∃ es : List Entry, (∀ e ∈ es, e.Fits maxDepth) ∧ bytes = es.flatMap (·.raw) ∧
        OfRow depth t before es m := by
  rw [ReadsAs]
  simp only [loops_iff le, List.reverse_reverse]
  constructor
  · rintro ⟨arrived, ⟨es, fits, rfl, takes⟩, rfl⟩
    obtain ⟨unknown, gathers⟩ := takesAll_values takes
    refine ⟨es, fits, rfl, unknown, ?_, ordered_canonical t _⟩
    intro f mem
    exact ⟨_, gathers f mem, values_canonical _ mem⟩
  · rintro ⟨es, fits, rfl, row⟩
    obtain ⟨held, takes, holds⟩ := exists_takesAll row.unknown row.gathered
    exact ⟨held.reverse, ⟨es, fits, rfl, by rwa [List.reverse_reverse]⟩,
      row.ordered.eq_canonical (by rwa [List.reverse_reverse])⟩

theorem decode_eq_ok {t : MessageType} {bytes : List UInt8} {m : Message} :
    Message.decode t bytes = .ok m ↔ ReadsAs maxDepth t [] bytes m := by
  have loops (arrived : Message) :
      readAll (readPart maxDepth (readNested maxDepth) t) [] bytes = .ok arrived ↔
        Loops (readPart maxDepth (readNested maxDepth) t) [] bytes arrived :=
    readAll_eq_ok (local_readPart (local_readNested maxDepth) maxDepth t)
  rw [Message.decode, ReadsAs]
  simp only [← loops, List.reverse_nil]
  cases readAll (readPart maxDepth (readNested maxDepth) t) [] bytes <;> simp [eq_comm]

theorem OfRow.congr {depth : Nat} {t : MessageType} {before m : Message} {es es' : List Entry}
    (h : OfRow depth t before es m)
    (same : ∀ n, es'.filter (·.key.number = n) = es.filter (·.key.number = n)) :
    OfRow depth t before es' m where
  unknown e mem := by
    have : e ∈ es.filter (·.key.number = e.key.number) := by
      rw [← same]
      simpa using mem
    exact h.unknown e (List.mem_filter.1 this).1
  gathered f mem := by
    rw [same]
    exact h.gathered f mem
  ordered := h.ordered

end Message

end CompilerPlugin

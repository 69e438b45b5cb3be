import CompilerPlugin.Proofs.Message.Restrict
import CompilerPlugin.Proofs.Message.RoundTrip

namespace CompilerPlugin

open Wire Schema

theorem Schema.MessageType.isSome_field? {t : MessageType} {f : Field} (mem : f ∈ t.fields) :
    (t.field? f.number).isSome := by
  rw [field?_number mem]
  rfl

namespace Message

variable {depth : Nat} {t : MessageType} {m m' arrived : Message}

theorem Ordered.ext (h : m.Ordered t) (h' : m'.Ordered t)
    (same : ∀ f ∈ t.fields, m.values f.number = m'.values f.number) : m = m' := by
  rw [h, h']
  apply List.flatMap_congr
  intro f mem
  rw [same f mem]

theorem values_eq_nil {number : Nat} (other : ∀ part ∈ m, part.1 ≠ number) : m.values number = [] := by
  apply List.filterMap_eq_nil_iff.2
  intro part mem
  exact if_neg (other part mem)

theorem Ordered.known (h : m.Ordered t) : ∀ part ∈ m, (t.field? part.1).isSome := by
  intro part mem
  obtain ⟨f, hf, number, -⟩ := h.exists_field mem
  rw [number]
  exact MessageType.isSome_field? hf

theorem WellFormed.only (h : WellFormed depth t m) (keep : Nat → Bool)
    (given : ∀ f ∈ t.fields, keep f.number = false → f.label ≠ .required) :
    WellFormed depth t (m.only keep) := by
  obtain ⟨ordered, settled, allowed⟩ := wellFormed_iff.1 h
  refine wellFormed_iff.2 ⟨ordered.only keep, ?_, ?_⟩
  · intro f mem
    rw [values_only]
    cases kept : keep f.number with
    | true => exact settled f mem
    | false => exact Field.settle_nil (given f mem kept)
  · intro f mem v hv
    rw [values_only] at hv
    split at hv
    · exact allowed f mem v hv
    · cases hv

theorem wellFormed_canonical
    (allowed : ∀ f ∈ t.fields, ∀ v ∈ arrived.values f.number, f.Allows (NestedWellFormed depth) v) :
    WellFormed depth t (t.canonical arrived) := by
  refine wellFormed_iff.2 ⟨ordered_canonical t arrived, ?_, ?_⟩
  · intro f mem
    rw [values_canonical arrived mem, Field.settle_settle]
  · intro f mem
    rw [values_canonical arrived mem]
    exact Field.allows_settle mem (allowed f mem)

theorem ofRow_canonical (le : depth ≤ maxDepth)
    (settled : ∀ f ∈ t.fields, f.settle (arrived.values f.number) = arrived.values f.number)
    (allowed : ∀ f ∈ t.fields, ∀ v ∈ arrived.values f.number, f.Allows (NestedWellFormed depth) v)
    (known : ∀ part ∈ arrived, (t.field? part.1).isSome) (size : arrived.Announceable) :
    OfRow depth t [] (arrived.map Entry.ofPart) (t.canonical arrived) := by
  have good := wellFormed_canonical allowed
  have ordered := ordered_canonical t arrived
  have same (number : Nat) : values (t.canonical arrived) number = values arrived number := by
    cases field : t.field? number with
    | some f =>
      obtain rfl := MessageType.number_of_field? field
      have mem := MessageType.mem_of_field? field
      rw [values_canonical arrived mem, settled f mem]
    | none =>
      have other {m : Message} (known : ∀ part ∈ m, (t.field? part.1).isSome) : m.values number = [] := by
        apply values_eq_nil
        rintro part mem rfl
        have some := known part mem
        rw [field] at some
        cases some
      rw [other known, other ordered.known]
  have short : Announceable (t.canonical arrived) := by
    intro part mem
    obtain ⟨f, hf, number, held⟩ := ordered.exists_field mem
    rw [same] at held
    exact size (f.number, part.2) (mem_of_mem_values held)
  apply (good.ofRow le short).congr
  intro number
  rw [filter_map_ofPart, filter_map_ofPart, same]

end Message

end CompilerPlugin

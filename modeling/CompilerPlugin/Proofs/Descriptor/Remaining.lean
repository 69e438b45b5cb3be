import CompilerPlugin.Descriptor.OptionSet
import Mathlib.Logic.Basic

namespace CompilerPlugin.Descriptor

def hasSource : Option OptionSet → Prop
  | none => False
  | some options => ∃ f ∈ options.fields, f.retention = .source

instance (options : Option OptionSet) : Decidable (hasSource options) := by
  cases options <;> unfold hasSource <;> infer_instance

/-- What is left of a record's options. Those that are all kept in source only leave nothing, but an
empty message stays. -/
def remaining : Option OptionSet → Option OptionSet
  | none => none
  | some options =>
    if ∀ f ∈ options.fields, f.retention ≠ .source then some options
    else if ∀ f ∈ options.fields, f.retention = .source then none
    else some ⟨options.fields.filter (·.retention = .runtime)⟩

def removed (address : Address) : Option OptionSet → List Address
  | none => []
  | some options =>
    if ∀ f ∈ options.fields, f.retention ≠ .source then []
    else if ∀ f ∈ options.fields, f.retention = .source then [address]
    else (options.fields.filter (·.retention = .source)).map fun f => address ++ [(f.number : Int)]

theorem remaining_of_not_hasSource {options : Option OptionSet} (h : ¬ hasSource options) :
    remaining options = options := by
  cases options with
  | none => rfl
  | some options =>
    have all : ∀ f ∈ options.fields, f.retention ≠ .source := fun f mem source => h ⟨f, mem, source⟩
    rw [remaining, if_pos all]

theorem removed_of_not_hasSource {options : Option OptionSet} (h : ¬ hasSource options)
    (address : Address) : removed address options = [] := by
  cases options with
  | none => rfl
  | some options =>
    have all : ∀ f ∈ options.fields, f.retention ≠ .source := fun f mem source => h ⟨f, mem, source⟩
    rw [removed, if_pos all]

theorem mem_removed_iff {address a : Address} {options : Option OptionSet} :
    a ∈ removed address options ↔ ∃ o, options = some o ∧
      ((o.fields ≠ [] ∧ (∀ f ∈ o.fields, f.retention = .source) ∧ a = address) ∨
        ∃ f ∈ o.fields, ∃ g ∈ o.fields, f.retention = .source ∧ g.retention = .runtime ∧
          a = address ++ [(f.number : Int)]) := by
  have other {f : OptionField} (ne : f.retention ≠ .source) : f.retention = .runtime := by
    cases h : f.retention with
    | runtime => rfl
    | source => exact absurd h ne
  cases options with
  | none => simp [removed]
  | some o =>
    simp only [removed, Option.some.injEq, exists_eq_left']
    by_cases none : ∀ f ∈ o.fields, f.retention ≠ .source
    · rw [if_pos none]
      constructor
      · intro mem
        cases mem
      · rintro (⟨ne, all, -⟩ | ⟨f, hf, -, -, source, -⟩)
        · obtain ⟨f, hf⟩ := List.exists_mem_of_ne_nil _ ne
          exact absurd (all f hf) (none f hf)
        · exact absurd source (none f hf)
    · rw [if_neg none]
      by_cases all : ∀ f ∈ o.fields, f.retention = .source
      · rw [if_pos all, List.mem_singleton]
        constructor
        · intro eq
          have ne : o.fields ≠ [] := fun empty => none (by simp [empty])
          exact .inl ⟨ne, all, eq⟩
        · rintro (⟨-, -, eq⟩ | ⟨-, -, g, hg, -, runtime, -⟩)
          · exact eq
          · rw [all g hg] at runtime
            cases runtime
      · rw [if_neg all]
        constructor
        · intro mem
          obtain ⟨f, hf, rfl⟩ := List.mem_map.1 mem
          obtain ⟨hf, source⟩ := List.mem_filter.1 hf
          obtain ⟨g, not⟩ := not_forall.1 all
          obtain ⟨hg, ne⟩ := Classical.not_imp.1 not
          exact .inr ⟨f, hf, g, hg, of_decide_eq_true source, other ne, rfl⟩
        · rintro (⟨-, source, -⟩ | ⟨f, hf, -, -, source, -, rfl⟩)
          · exact absurd source all
          · exact List.mem_map.2 ⟨f, List.mem_filter.2 ⟨hf, decide_eq_true source⟩, rfl⟩

theorem exists_tail_of_mem_removed {address a : Address} {options : Option OptionSet}
    (h : a ∈ removed address options) : ∃ tail, a = address ++ tail := by
  rcases mem_removed_iff.1 h with ⟨o, -, ⟨-, -, eq⟩ | ⟨f, -, -, -, -, -, eq⟩⟩
  · exact ⟨[], by simpa using eq⟩
  · exact ⟨[(f.number : Int)], eq⟩

theorem exists_of_remaining_eq_some {options : Option OptionSet} {o' : OptionSet}
    (h : remaining options = some o') :
    ∃ o, options = some o ∧ (∀ f ∈ o'.fields, f ∈ o.fields ∧ f.retention ≠ .source) ∧
      ¬ (o.fields ≠ [] ∧ ∀ f ∈ o.fields, f.retention = .source) := by
  cases options with
  | none => cases h
  | some o =>
    rw [remaining] at h
    refine ⟨o, rfl, ?_⟩
    split at h
    · rename_i none
      cases h
      constructor
      · intro f mem
        exact ⟨mem, none f mem⟩
      · rintro ⟨ne, all⟩
        obtain ⟨f, mem⟩ := List.exists_mem_of_ne_nil _ ne
        exact none f mem (all f mem)
    · split at h
      · cases h
      · rename_i some
        cases h
        constructor
        · intro f mem
          obtain ⟨mem, runtime⟩ := List.mem_filter.1 mem
          rw [decide_eq_true_eq] at runtime
          exact ⟨mem, by simp [runtime]⟩
        · rintro ⟨_, all⟩
          exact some all

theorem not_hasSource_remaining {options : Option OptionSet} : ¬ hasSource (remaining options) := by
  cases h : remaining options with
  | none => exact id
  | some o =>
    obtain ⟨given, -, kept, -⟩ := exists_of_remaining_eq_some h
    rintro ⟨f, mem, source⟩
    exact (kept f mem).2 source

end CompilerPlugin.Descriptor

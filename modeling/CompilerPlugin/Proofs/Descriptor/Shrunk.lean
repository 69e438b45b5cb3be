import CompilerPlugin.Proofs.Descriptor.Readable
import CompilerPlugin.Proofs.Descriptor.Stripped

namespace CompilerPlugin.Descriptor

open Wire

theorem length_flatMap_le {α β : Type} {l : List α} {f g : α → List β}
    (each : ∀ x ∈ l, (f x).length ≤ (g x).length) : (l.flatMap f).length ≤ (l.flatMap g).length := by
  induction l with
  | nil => exact Nat.le_refl _
  | cons x l ih =>
    rw [List.flatMap_cons, List.flatMap_cons, List.length_append, List.length_append]
    exact Nat.add_le_add (each x List.mem_cons_self) (ih fun y mem => each y (List.mem_cons_of_mem _ mem))

theorem length_delimited_le {number : Nat} {p q : List UInt8} (h : p.length ≤ q.length) :
    (Entry.delimited number p).raw.length ≤ (Entry.delimited number q).raw.length := by
  have mono := Varint.length_encode_mono h
  simp only [Entry.delimited, List.length_append, length_encodeDelimited]
  omega

def optionsLength (kind : Kind) (options : Option OptionSet) : Nat :=
  ((Node.optionsEntries kind options).flatMap (·.raw)).length

structure Shrinks (f : Kind → Option OptionSet → Option OptionSet) : Prop where
  readable : ∀ kind options, OptionsReadable options → OptionsReadable (f kind options)
  short : ∀ kind options, optionsLength kind (f kind options) ≤ optionsLength kind options

theorem shrinks_retag (resolve : Resolver) : Shrinks (retagOptions resolve) where
  readable kind options h := by
    cases options with
    | none => trivial
    | some o => exact ⟨h.1.retag resolve kind, by rw [OptionSet.encode_retag]; exact h.2⟩
  short kind options := by
    cases options with
    | none => exact Nat.le_refl _
    | some o => simp [optionsLength, retagOptions, Node.optionsEntries]

theorem OptionSet.length_encode_filter_le (o : OptionSet) (keep : OptionField → Bool) :
    (encode ⟨o.fields.filter keep⟩).length ≤ o.encode.length :=
  (List.filter_sublist.flatMap _).length_le

theorem shrinks_remaining : Shrinks fun _ => remaining where
  readable _ options h := by
    cases options with
    | none => trivial
    | some o =>
      have fewer := o.length_encode_filter_le (·.retention = .runtime)
      rw [remaining]
      split
      · exact h
      · split
        · trivial
        · exact ⟨h.1.filter _, Nat.lt_of_le_of_lt fewer h.2⟩
  short kind options := by
    cases options with
    | none => exact Nat.le_refl _
    | some o =>
      have fewer := o.length_encode_filter_le (·.retention = .runtime)
      rw [remaining]
      split
      · exact Nat.le_refl _
      · split
        · exact Nat.zero_le _
        · simpa [optionsLength, Node.optionsEntries] using length_delimited_le fewer

def survivors (resolve : Resolver) (kind : Kind) (options : Option OptionSet) : Option OptionSet :=
  remaining (retagOptions resolve kind options)

namespace Node

variable {f : Kind → Option OptionSet → Option OptionSet} {n : Node}

theorem Readable.mapOptions (shrinks : Shrinks f) (h : n.Readable) :
    (n.mapOptions f).Readable ∧ (n.mapOptions f).encode.length ≤ n.encode.length := by
  induction h with
  | @mk n level _ ih =>
    refine ⟨.mk ⟨?_, ?_, ?_, ?_, ?_⟩ ?_, ?_⟩
    · rw [kind_mapOptions, record_mapOptions]
      exact level.record
    · rw [options_mapOptions]
      exact shrinks.readable _ _ level.options
    · rw [slots_mapOptions, kind_mapOptions, level.slots]
    · intro row hr c hc
      obtain ⟨row', hr', same, c', hc', rfl⟩ := exists_of_mem_rows_mapOptions hr hc
      rw [kind_mapOptions, level.kinds row' hr' c' hc', same]
    · intro row hr c hc
      obtain ⟨row', hr', -, c', hc', rfl⟩ := exists_of_mem_rows_mapOptions hr hc
      exact Nat.lt_of_le_of_lt (ih row' hr' c' hc').2 (level.short row' hr' c' hc')
    · intro row hr c hc
      obtain ⟨row', hr', -, c', hc', rfl⟩ := exists_of_mem_rows_mapOptions hr hc
      exact (ih row' hr' c' hc').1
    · have options := shrinks.short n.kind n.options
      have rows : ((rowEntries (n.rows.map fun row => (row.1, row.2.map (Node.mapOptions f)))).flatMap
          (·.raw)).length ≤ ((rowEntries n.rows).flatMap (·.raw)).length := by
        simp only [rowEntries, List.flatMap_map, List.flatMap_assoc]
        apply length_flatMap_le
        intro row hr
        apply length_flatMap_le
        intro c hc
        exact length_delimited_le (ih row hr c hc).2
      rw [optionsLength, optionsLength] at options
      rw [encode_eq_entries, encode_eq_entries, entries, entries, kind_mapOptions, record_mapOptions,
        options_mapOptions, rows_mapOptions]
      simp only [List.flatMap_append, List.length_append]
      omega

theorem Readable.retag (h : n.Readable) (resolve : Resolver) : (n.retag resolve).Readable :=
  (h.mapOptions (shrinks_retag resolve)).1

theorem Readable.stripped (h : n.Readable) : n.stripped.Readable := by
  rw [stripped_eq]
  exact (h.mapOptions shrinks_remaining).1

theorem stripped_retag (resolve : Resolver) (n : Node) :
    (n.retag resolve).stripped = n.mapOptions (survivors resolve) := by
  rw [stripped_eq, retag, mapOptions_mapOptions]
  rfl

theorem Readable.survivors (h : n.Readable) (resolve : Resolver) :
    (n.mapOptions (Descriptor.survivors resolve)).Readable :=
  stripped_retag resolve n ▸ (h.retag resolve).stripped

end Node

end CompilerPlugin.Descriptor

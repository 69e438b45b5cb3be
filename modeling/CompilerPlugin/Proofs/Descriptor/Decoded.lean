import CompilerPlugin.Proofs.Descriptor.Readable

namespace CompilerPlugin.Descriptor

open Wire Schema

theorem owned_of_ofRow {kind : Kind} {es : List Entry} {m : Message}
    (row : Message.OfRow maxDepth kind.recordType [] (es.filter fun e => kind.owns e.key.number) m) :
    ∀ part ∈ m, kind.owns part.1 = true := by
  intro part mem
  obtain ⟨f, hf, number, held⟩ := row.ordered.exists_field mem
  obtain ⟨values, gathers, settled⟩ := row.gathered f hf
  cases own : kind.owns f.number with
  | true => rw [number, own]
  | false =>
    have none : (es.filter fun e => kind.owns e.key.number).filter (·.key.number = f.number) = [] := by
      apply List.filter_eq_nil_iff.2
      intro e he
      have kept := (List.mem_filter.1 he).2
      rw [decide_eq_true_iff]
      intro same
      rw [same, own] at kept
      cases kept
    rw [none] at gathers
    cases gathers
    rw [settled, Message.values_nil, Field.settle_nil (Kind.given hf)] at held
    cases held

namespace Node

variable {resolve : Resolver} {kind : Kind} {es : List Entry} {n : Node}

namespace FromRow

theorem fits_own (h : FromRow resolve kind es n) :
    ∀ e ∈ es.filter fun e => kind.owns e.key.number, e.Fits maxDepth :=
  fun e mem => h.fits e (List.mem_filter.1 mem).1

theorem only_owns (h : FromRow resolve kind es n) : n.record.only kind.owns = n.record :=
  List.filter_eq_self.2 (owned_of_ofRow h.own)

theorem ownRecord (h : FromRow resolve kind es n) (size : (es.flatMap (·.raw)).length < 2 ^ 63) :
    OwnRecord kind n.record where
  wellFormed := h.only_owns ▸ wellFormed_own (Nat.le_refl _) h.fits_own h.own
  owned := owned_of_ofRow h.own
  announceable := by
    have fewer := length_filter_le (fun e => kind.owns e.key.number) es
    have own := announceable_own (Nat.le_refl _) h.fits_own h.own (by omega)
    rwa [h.only_owns] at own

theorem length_record_le (h : FromRow resolve kind es n) (inner : kind ≠ .file) :
    n.record.encode.length ≤ 2 * ((es.filter fun e => kind.owns e.key.number).flatMap (·.raw)).length := by
  have own := length_own_le (Nat.le_refl _) h.fits_own h.own kind.owns fun f hf own =>
    (Kind.compact_of_owns hf own).resolve_right fun file => inner file.1
  have twice : (es.filter fun e => kind.owns e.key.number).filter (fun e => kind.owns e.key.number) =
      es.filter fun e => kind.owns e.key.number :=
    List.filter_eq_self.2 fun e mem => (List.mem_filter.1 mem).2
  rwa [h.only_owns, twice] at own

theorem options_cases (h : FromRow resolve kind es n) :
    n.options = none ∨ ∃ o, n.options = some o ∧ o.Grouped ∧
      (Entry.delimited kind.optionsTag o.encode).raw.length ≤
        ((es.filter (·.key.number = kind.optionsTag)).flatMap (·.raw)).length := by
  rcases readOptions_eq_ok_iff.1 h.options with ⟨-, absent⟩ | ⟨given, row, is_row, present⟩
  · exact .inl absent
  · rw [filterMap_options?] at given is_row
    have fits : ∀ e ∈ es.filter (·.key.number = kind.optionsTag), e.Fits maxDepth :=
      fun e mem => h.fits e (List.mem_filter.1 mem).1
    have tagged : ∀ e ∈ es.filter (·.key.number = kind.optionsTag),
        e.key.number = kind.optionsTag ∧ ∃ p, e.body = .delimited p := by
      intro e mem
      obtain ⟨mem, tag⟩ := List.mem_filter.1 mem
      have tag := of_decide_eq_true tag
      exact ⟨tag, h.delimited e mem (by rw [tag, Kind.owns_optionsTag])⟩
    have merged := length_merged_le fits tagged fun none => given (by rw [none]; rfl)
    obtain ⟨grouped, length⟩ := OptionSet.grouped_of_decode
      (OptionSet.decode_eq_ok_iff.2 ⟨row, is_row, rfl⟩ : OptionSet.decode resolve kind _ = .ok _)
    refine .inr ⟨_, present, grouped, ?_⟩
    simpa [Entry.delimited, encodeDelimited, length] using merged

theorem length_options_le (h : FromRow resolve kind es n) :
    ((optionsEntries kind n.options).flatMap (·.raw)).length ≤
      ((es.filter (·.key.number = kind.optionsTag)).flatMap (·.raw)).length := by
  rcases h.options_cases with none | ⟨o, some, -, short⟩
  · simp [none, optionsEntries]
  · simpa [some, optionsEntries] using short

theorem optionsReadable (h : FromRow resolve kind es n) (size : (es.flatMap (·.raw)).length < 2 ^ 63) :
    OptionsReadable n.options := by
  rcases h.options_cases with none | ⟨o, some, grouped, short⟩
  · rw [none]
    trivial
  · rw [some]
    have fewer := length_filter_le (fun e => decide (e.key.number = kind.optionsTag)) es
    simp only [Entry.delimited, List.length_append, length_encodeDelimited] at short
    exact ⟨grouped, by omega⟩

end FromRow

theorem kind_of_decode {bytes : List UInt8} (h : decode resolve kind bytes = .ok n) : n.kind = kind := by
  obtain ⟨es, -, row⟩ := exists_fromRow h
  exact row.kind_eq

theorem readable_of_decode {bytes : List UInt8} (h : decode resolve kind bytes = .ok n)
    (size : bytes.length < 2 ^ 63) :
    n.Readable ∧ (kind ≠ .file → n.encode.length ≤ 2 * bytes.length) := by
  refine decode_induction (P := fun kind bytes n => bytes.length < 2 ^ 63 →
    n.Readable ∧ (kind ≠ .file → n.encode.length ≤ 2 * bytes.length)) ?_ h size
  intro kind es n row ih size
  -- The bound goes down with the children, whose bytes are among those of their record.
  have below : ∀ child ∈ es.filterMap kind.child?, (nodeOf resolve child).Readable ∧
      (nodeOf resolve child).encode.length ≤ 2 * child.2.length := by
    intro child mem
    have shorter := row.length_lt mem
    obtain ⟨e, -, read⟩ := List.mem_filterMap.1 mem
    have inner := Kind.slot_kind_ne_file (Kind.child?_eq_some read).1
    obtain ⟨readable, short⟩ := ih child mem (by omega)
    exact ⟨readable, short inner⟩
  have level : n.Level := by
    refine ⟨row.kind_eq ▸ row.ownRecord size, row.optionsReadable size, ?_, ?_, ?_⟩
    · rw [row.kind_eq, row.slots]
    · intro slot hr c hc
      obtain ⟨child, mem, same, rfl⟩ := row.mem_rows hr hc
      rw [← same, kind_of_decode (row.children child mem)]
    · intro slot hr c hc
      obtain ⟨child, mem, same, rfl⟩ := row.mem_rows hr hc
      have short := (below child mem).2
      have within := length_child_le row.fits mem
      omega
  refine ⟨.mk level ?_, ?_⟩
  · intro slot hr c hc
    obtain ⟨child, mem, -, rfl⟩ := row.mem_rows hr hc
    exact (below child mem).1
  · intro inner
    have record := row.length_record_le inner
    have options := row.length_options_le
    have children := length_rowEntries_le row.fits fun child mem => (below child mem).2
    have all := length_filters_le kind es
    rw [← row.rows] at children
    rw [encode_eq_entries, entries, row.kind_eq]
    simp only [List.flatMap_append, List.length_append, ← Message.encode_eq_flatMap]
    omega

end Node

end CompilerPlugin.Descriptor

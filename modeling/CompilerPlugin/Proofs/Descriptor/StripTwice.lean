import CompilerPlugin.Proofs.Descriptor.TreeRoundTrip

namespace CompilerPlugin.Descriptor

open Wire

def Resolver.or (first second : Resolver) : Resolver := fun kind number =>
  if first kind number = .source ∨ second kind number = .source then .source else .runtime

theorem Resolver.or_eq_source {first second : Resolver} {kind : Kind} {number : Int} :
    first.or second kind number = .source ↔
      first kind number = .source ∨ second kind number = .source := by
  rw [Resolver.or]
  split <;> simp [*]

theorem Resolver.or_comm (first second : Resolver) : first.or second = second.or first := by
  funext kind number
  simp only [Resolver.or, Or.comm]

theorem Resolver.or_self (resolve : Resolver) : resolve.or resolve = resolve := by
  funext kind number
  rw [Resolver.or]
  cases resolve kind number <;> simp

theorem Retention.ne_source {r : Retention} : r ≠ .source ↔ r = .runtime := by
  cases r <;> simp

namespace OptionSet

theorem keep_retag (resolve : Resolver) (kind : Kind) (o : OptionSet) :
    (o.retag resolve kind).keep .runtime =
      ⟨(o.fields.filter fun f => resolve kind f.number = .runtime).map
        fun f => { f with retention := .runtime }⟩ := by
  rw [keep, retag, List.filter_map]
  congr 1
  apply List.map_congr_left
  intro f mem
  have runtime : resolve kind f.number = .runtime := of_decide_eq_true (List.mem_filter.1 mem).2
  simp only [runtime]

theorem keep_retag_keep (first second : Resolver) (kind : Kind) (o : OptionSet) :
    (((o.retag first kind).keep .runtime).retag second kind).keep .runtime =
      (o.retag (first.or second) kind).keep .runtime := by
  have both (f : OptionField) :
      (decide (second kind f.number = .runtime) && decide (first kind f.number = .runtime)) =
        decide (first.or second kind f.number = .runtime) := by
    rw [← Bool.decide_and, decide_eq_decide]
    simp only [← Retention.ne_source, ne_eq, Resolver.or_eq_source, not_or, and_comm]
  simp only [keep_retag, List.filter_map, List.map_map, List.filter_filter, Function.comp_def, both]

theorem mem_fields_keep_retag {resolve : Resolver} {kind : Kind} {o : OptionSet} {f : OptionField} :
    f ∈ ((o.retag resolve kind).keep .runtime).fields ↔
      ∃ g ∈ o.fields, resolve kind g.number = .runtime ∧ { g with retention := .runtime } = f := by
  simp [keep_retag, and_assoc]

theorem retag_eq_nil {resolve : Resolver} {kind : Kind} {o : OptionSet} :
    (o.retag resolve kind).fields = [] ↔ o.fields = [] := by
  simp [retag]

theorem keep_eq_nil {retention : Retention} {o : OptionSet} (h : o.fields = []) :
    (o.keep retention).fields = [] := by
  simp [keep, h]

theorem keep_eq_nil_iff {o : OptionSet} :
    (o.keep .runtime).fields = [] ↔ ∀ f ∈ o.fields, f.retention = .source := by
  simp [keep, ← Retention.ne_source]

end OptionSet

theorem remaining_some (o : OptionSet) :
    remaining (some o) =
      if o.fields ≠ [] ∧ (o.keep .runtime).fields = [] then none else some (o.keep .runtime) := by
  rw [remaining]
  split
  · rename_i none
    have kept : o.keep .runtime = o := by
      have same : o.fields.filter (·.retention = .runtime) = o.fields :=
        List.filter_eq_self.2 fun f mem => decide_eq_true (Retention.ne_source.1 (none f mem))
      rw [OptionSet.keep, same]
    rw [kept, if_neg (by simp)]
  · rename_i some
    have given : o.fields ≠ [] := by
      intro empty
      rw [empty] at some
      exact some (List.forall_mem_nil _)
    simp only [← OptionSet.keep_eq_nil_iff, given, ne_eq, not_false_eq_true, true_and,
      OptionSet.keep]

def Covers (address : Address) (options : Option OptionSet) (path : Address) : Prop :=
  ∃ a ∈ removed address options, a <+: path

theorem covers_some_iff {address path : Address} {o : OptionSet} :
    Covers address (some o) path ↔
      (o.fields ≠ [] ∧ (o.keep .runtime).fields = [] ∧ address <+: path) ∨
        ∃ f ∈ o.fields, f.retention = .source ∧ address ++ [(f.number : Int)] <+: path := by
  rw [Covers]
  simp only [mem_removed_iff, Option.some.injEq, exists_eq_left', OptionSet.keep_eq_nil_iff]
  constructor
  · rintro ⟨a, ⟨ne, source, rfl⟩ | ⟨f, hf, g, -, source, -, rfl⟩, pre⟩
    · exact .inl ⟨ne, source, pre⟩
    · exact .inr ⟨f, hf, source, pre⟩
  · rintro (⟨ne, source, pre⟩ | ⟨f, hf, source, pre⟩)
    · exact ⟨address, .inl ⟨ne, source, rfl⟩, pre⟩
    · by_cases others : ∀ g ∈ o.fields, g.retention = .source
      · exact ⟨address, .inl ⟨List.ne_nil_of_mem hf, others, rfl⟩, (List.prefix_append _ _).trans pre⟩
      · obtain ⟨g, hg, runtime⟩ : ∃ g ∈ o.fields, g.retention ≠ .source := by simpa using others
        exact ⟨_, .inr ⟨f, hf, g, hg, source, Retention.ne_source.1 runtime, rfl⟩, pre⟩

theorem covers_none {address path : Address} : ¬ Covers address none path := by
  simp [Covers, removed]

theorem covers_retag_iff {resolve : Resolver} {kind : Kind} {address path : Address} {o : OptionSet} :
    Covers address (some (o.retag resolve kind)) path ↔
      (o.fields ≠ [] ∧ ((o.retag resolve kind).keep .runtime).fields = [] ∧ address <+: path) ∨
        ∃ f ∈ o.fields, resolve kind f.number = .source ∧ address ++ [(f.number : Int)] <+: path := by
  rw [covers_some_iff, ne_eq, OptionSet.retag_eq_nil]
  simp [OptionSet.retag]

section

variable (first second : Resolver) (kind : Kind)

theorem survivors_survivors (options : Option OptionSet) :
    survivors second kind (survivors first kind options) = survivors (first.or second) kind options := by
  cases options with
  | none => rfl
  | some o =>
    simp only [survivors, retagOptions, Option.map_some, remaining_some, ne_eq, OptionSet.retag_eq_nil]
    rw [← OptionSet.keep_retag_keep first second]
    have kept := @OptionSet.keep_eq_nil .runtime (o.retag first kind)
    -- Whether nothing was there or nothing is left decides between empty options and none.
    generalize (o.retag first kind).keep .runtime = left at kept
    rw [OptionSet.retag_eq_nil] at kept
    rcases eq_or_ne left.fields [] with empty | more
    · have rest : (left.retag second kind).fields = [] := OptionSet.retag_eq_nil.2 empty
      rcases eq_or_ne o.fields [] with nothing | given
      · simp [empty, nothing, rest, remaining_some]
      · simp [empty, given, OptionSet.keep_eq_nil rest, remaining]
    · have given : o.fields ≠ [] := fun nothing => more (kept nothing)
      simp [more, given, remaining_some, OptionSet.retag_eq_nil]

theorem covers_retag_survivors {address path : Address} (options : Option OptionSet) :
    Covers address (retagOptions first kind options) path ∨
        Covers address (retagOptions second kind (survivors first kind options)) path ↔
      Covers address (retagOptions (first.or second) kind options) path := by
  cases options with
  | none => simp [survivors, retagOptions, covers_none, remaining]
  | some o =>
    have above {n : Nat} (h : address ++ [(n : Int)] <+: path) : address <+: path :=
      (List.prefix_append _ _).trans h
    simp only [survivors, retagOptions, Option.map_some, remaining_some, covers_retag_iff,
      ← OptionSet.keep_retag_keep first second]
    have kept := @OptionSet.mem_fields_keep_retag first kind o
    have none := @OptionSet.keep_eq_nil .runtime (o.retag first kind)
    generalize (o.retag first kind).keep .runtime = left at kept none
    simp only [ne_eq, OptionSet.retag_eq_nil, Resolver.or_eq_source] at none ⊢
    split
    -- The whole message goes in the first round, and nothing is left for the second.
    · rename_i all
      have rest : ((left.retag second kind).keep .runtime).fields = [] :=
        OptionSet.keep_eq_nil (OptionSet.retag_eq_nil.2 all.2)
      constructor
      · rintro ((⟨-, -, pre⟩ | ⟨f, -, -, pre⟩) | absent)
        · exact .inl ⟨all.1, rest, pre⟩
        · exact .inl ⟨all.1, rest, above pre⟩
        · exact absurd absent covers_none
      · rintro (⟨-, -, pre⟩ | ⟨f, -, -, pre⟩)
        · exact .inl (.inl ⟨all.1, all.2, pre⟩)
        · exact .inl (.inl ⟨all.1, all.2, above pre⟩)
    -- Some options stay in the first round. The message goes in the second if those do.
    · rename_i some
      rw [Option.map_some, covers_retag_iff]
      constructor
      · rintro ((⟨given, empty, -⟩ | ⟨f, hf, source, pre⟩) | ⟨left, empty, pre⟩ | ⟨f, hf, source, pre⟩)
        · exact absurd ⟨given, empty⟩ some
        · exact .inr ⟨f, hf, .inl source, pre⟩
        · exact .inl ⟨fun nothing => left (none nothing), empty, pre⟩
        · obtain ⟨g, hg, -, rfl⟩ := kept.1 hf
          exact .inr ⟨g, hg, .inr source, pre⟩
      · rintro (⟨given, empty, pre⟩ | ⟨f, hf, source, pre⟩)
        · exact .inr (.inl ⟨fun nothing => some ⟨given, nothing⟩, empty, pre⟩)
        · cases early : first kind f.number with
          | source => exact .inl (.inr ⟨f, hf, early, pre⟩)
          | runtime =>
            have late := source.resolve_left (by simp [early])
            exact .inr (.inr ⟨_, kept.2 ⟨f, hf, early, rfl⟩, late, pre⟩)

end

namespace Tree

theorem covers_removedSet_iff {t : Tree} {n : Node} {f : Kind → Option OptionSet → Option OptionSet}
    (root : t.root = n.mapOptions f) {path : Address} :
    t.removedSet.covers path = true ↔ ∃ e ∈ n.preorder [],
      Covers (Walk.trace e.1 ++ [(e.2.kind.optionsTag : Int)]) (f e.2.kind e.2.options) path := by
  simp only [removedSet, AddressTrie.covers_insertAll, AddressTrie.covers_empty, Bool.false_eq_true,
    false_or, Node.mem_removals, ← Node.mem_preorder_nil, root, Node.preorder_mapOptions, List.mem_map]
  constructor
  · rintro ⟨a, ⟨_, _, ⟨e, he, same⟩, ha⟩, pre⟩
    cases same
    rw [Node.kind_mapOptions, Node.options_mapOptions] at ha
    exact ⟨e, he, a, ha, pre⟩
  · rintro ⟨e, he, a, ha, pre⟩
    refine ⟨a, ⟨_, _, ⟨e, he, rfl⟩, ?_⟩, pre⟩
    rwa [Node.kind_mapOptions, Node.options_mapOptions]

theorem covers_strip_retag (first second : Resolver) (t : Tree) (path : Address) :
    ((t.retag first).removedSet.covers path || ((t.retag first).strip.retag second).removedSet.covers path) =
      (t.retag (first.or second)).removedSet.covers path := by
  have twice : ((t.retag first).strip.retag second).root = t.root.mapOptions fun kind options =>
      retagOptions second kind (survivors first kind options) := by
    rw [retag, root_strip_retag, Node.retag, Node.mapOptions_mapOptions]
  rw [Bool.eq_iff_iff, Bool.or_eq_true, covers_removedSet_iff rfl, covers_removedSet_iff twice,
    covers_removedSet_iff rfl, ← exists_or]
  simp only [← and_or_left, covers_retag_survivors]

theorem strip_retag_strip {t : Tree} (h : t.Readable) (first second : Resolver) :
    ((t.retag first).strip.retag second).strip = (t.retag (first.or second)).strip := by
  have root : ((t.retag first).strip.retag second).strip.root = (t.retag (first.or second)).strip.root := by
    simp only [root_strip_retag, Node.mapOptions_mapOptions, survivors_survivors]
  have info : ((t.retag first).strip.retag second).strip.sourceInfo =
      (t.retag (first.or second)).strip.sourceInfo := by
    rw [sourceInfo_strip ((h.retag first).strip.retag second), sourceInfo_strip (h.retag _)]
    have once : ((t.retag first).strip.retag second).sourceInfo = (t.retag first).strip.sourceInfo := rfl
    rw [once, sourceInfo_strip (h.retag first), Option.map_map]
    congr 1
    funext info
    simp only [Function.comp_apply, messages_infoOf, List.filter_filter, ← covers_strip_retag first second,
      Bool.not_or, Bool.and_comm]
  generalize ((t.retag first).strip.retag second).strip = twice at root info
  obtain ⟨twiceRoot, twiceInfo⟩ := twice
  simp only at root info
  rw [root, info]

end Tree

theorem stripEncoded_encode_strip {t : Tree} (h : t.Readable) (first second : Resolver) :
    stripEncoded second (t.retag first).strip.encode = .ok (t.retag (first.or second)).strip.encode := by
  rw [stripEncoded_eq ((h.retag first).strip.decode_encode second), Tree.retag_retag,
    Tree.strip_retag_strip h]

/-- Bytes that any resolver reads are stripped by every one, and what is left is stripped again. Two
rounds leave, byte for byte, what one round leaves that drops what either drops, so their order does
not matter and a second round of the same changes nothing. -/
theorem stripEncoded_stripEncoded {resolve : Resolver} {bytes : List UInt8} {t : Tree}
    (h : Tree.decode resolve bytes = .ok t) (size : bytes.length < 2 ^ 63) (first second : Resolver) :
    ∃ once twice, stripEncoded first bytes = .ok once ∧ stripEncoded second once = .ok twice ∧
      stripEncoded (first.or second) bytes = .ok twice ∧
      (stripEncoded second bytes >>= stripEncoded first) = .ok twice ∧
      stripEncoded first once = .ok once := by
  have readable := Tree.readable_of_decode h size
  refine ⟨(t.retag first).strip.encode, (t.retag (first.or second)).strip.encode, ?_, ?_, ?_, ?_, ?_⟩
  · exact stripEncoded_eq h first
  · exact stripEncoded_encode_strip readable first second
  · exact stripEncoded_eq h _
  · have back := stripEncoded_encode_strip readable second first
    rw [Resolver.or_comm] at back
    rw [stripEncoded_eq h second]
    exact back
  · have again := stripEncoded_encode_strip readable first first
    rwa [Resolver.or_self] at again

def mapEntryGoes : Resolver := fun kind number =>
  if kind = .message ∧ number = 7 then .source else .runtime

theorem stripEncoded_notedFirst :
    stripEncoded Tree.deprecationGoes Tree.notedFirst =
        .ok [0x22, 0x04, 0x3a, 0x02, 0x38, 0x01, 0x4a, 0x00] ∧
      stripEncoded mapEntryGoes [0x22, 0x04, 0x3a, 0x02, 0x38, 0x01, 0x4a, 0x00] =
        .ok [0x22, 0x00, 0x4a, 0x00] ∧
      stripEncoded (Tree.deprecationGoes.or mapEntryGoes) Tree.notedFirst =
        .ok [0x22, 0x00, 0x4a, 0x00] := by
  have first : stripEncoded Tree.deprecationGoes Tree.notedFirst =
      .ok [0x22, 0x04, 0x3a, 0x02, 0x38, 0x01, 0x4a, 0x00] := by decide +kernel
  have both : stripEncoded (Tree.deprecationGoes.or mapEntryGoes) Tree.notedFirst =
      .ok [0x22, 0x00, 0x4a, 0x00] := by decide +kernel
  obtain ⟨once, twice, h₁, h₂, h₃, -, -⟩ :=
    stripEncoded_stripEncoded Tree.decode_notedFirst (by decide) Tree.deprecationGoes mapEntryGoes
  rw [first] at h₁
  rw [both] at h₃
  cases h₁
  cases h₃
  exact ⟨first, h₂, both⟩

end CompilerPlugin.Descriptor

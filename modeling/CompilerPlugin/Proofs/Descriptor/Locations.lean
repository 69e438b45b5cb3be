import CompilerPlugin.Proofs.Descriptor.SourceInfo
import CompilerPlugin.Proofs.Descriptor.Shape

namespace CompilerPlugin.Descriptor

namespace Tree

/-- What stripping removes: the options of a record as a whole if all are kept in source only, else
those single ones that are. The addresses of records are given as `spell` writes them. -/
inductive Removed (spell : Address → Address) (t : Tree) : Address → Prop
  | options {P n o} :
      (P, n) ∈ t.root.preorder [] → n.options = some o → o.fields ≠ [] →
      (∀ f ∈ o.fields, f.retention = .source) →
      Removed spell t (spell P ++ [(n.kind.optionsTag : Int)])
  | option {P n o f g} :
      (P, n) ∈ t.root.preorder [] → n.options = some o → f ∈ o.fields → f.retention = .source →
      g ∈ o.fields → g.retention = .runtime →
      Removed spell t (spell P ++ [(n.kind.optionsTag : Int), (f.number : Int)])

def Drops (spell : Address → Address) (t : Tree) (path : Address) : Prop :=
  ∃ address, t.Removed spell address ∧ address <+: path

/-- Every index is one that an address can hold, so no row has more than 2 ^ 31 records. -/
def Addressable (t : Tree) : Prop :=
  ∀ e ∈ t.root.preorder [], ∀ row ∈ e.2.rows, row.2.length ≤ 2147483648

theorem exists_of_mem_removed {n : Node} (shaped : n.Shaped) {address a : Address} {o : OptionSet}
    (remains : remaining n.options = some o) (h : a ∈ removed address n.options) :
    ∃ number : Nat, a = address ++ [(number : Int)] ∧ ∀ f ∈ o.fields, f.number ≠ number := by
  obtain ⟨o', options, kept, some⟩ := exists_of_remaining_eq_some remains
  rcases mem_removed_iff.1 h with ⟨o'', options', ⟨ne, all, -⟩ | ⟨g, hg, -, -, source, -, eq⟩⟩
  · rw [options] at options'
    cases options'
    exact absurd ⟨ne, all⟩ some
  · rw [options] at options'
    cases options'
    refine ⟨g.number, eq, ?_⟩
    intro f mem same
    obtain ⟨hf, runtime⟩ := kept f mem
    obtain rfl := List.inj_on_of_nodup_map (shaped.nodup_options options) hf hg same
    exact runtime source

theorem addressable_of_decode {resolve : Resolver} {bytes : List UInt8} {t : Tree}
    (h : Tree.decode resolve bytes = .ok t) (size : bytes.length ≤ 2 ^ 32) : t.Addressable := by
  rintro ⟨P, m⟩ mem row hr
  have rows := Tree.length_row_le h (Node.mem_preorder_nil.1 mem) row hr
  omega

theorem removed_iff {spell : Address → Address} {t : Tree} {a : Address} :
    t.Removed spell a ↔
      ∃ P n, t.root.At P n ∧ a ∈ removed (spell P ++ [(n.kind.optionsTag : Int)]) n.options := by
  simp only [mem_removed_iff]
  constructor
  · intro h
    cases h with
    | @options P n o mem options ne all =>
      exact ⟨P, n, Node.mem_preorder_nil.1 mem, o, options, .inl ⟨ne, all, rfl⟩⟩
    | @option P n o f g mem options hf source hg runtime =>
      exact ⟨P, n, Node.mem_preorder_nil.1 mem, o, options,
        .inr ⟨f, hf, g, hg, source, runtime, by simp⟩⟩
  · rintro ⟨P, n, hn, o, options, ⟨ne, all, rfl⟩ | ⟨f, hf, g, hg, source, runtime, rfl⟩⟩
    · exact .options (Node.mem_preorder_nil.2 hn) options ne all
    · rw [List.append_assoc]
      exact .option (Node.mem_preorder_nil.2 hn) options hf source hg runtime

theorem covers_removedSet {t : Tree} {path : Address} :
    t.removedSet.covers path = true ↔ t.Drops Walk.trace path := by
  simp [removedSet, AddressTrie.covers_insertAll, Node.mem_removals, removed_iff, Drops]

theorem trace_of_addressable {t : Tree} (short : t.Addressable) {P : Address} {n : Node}
    (hn : t.root.At P n) : Walk.trace P = P := by
  have rows (Q : Address) (q : Node) (hq : t.root.At Q q) :
      ∀ row ∈ q.rows, row.2.length ≤ 2147483648 := short _ (Node.mem_preorder_nil.2 hq)
  generalize t.root = root at hn rows
  induction hn with
  | here => rfl
  | @child n slot row rest m i c inRows child _ ih =>
    have index : i < row.length := (List.getElem?_eq_some_iff.1 child).1
    have bound := rows [] n .here _ inRows
    have step : Walk.step i = i := by
      rw [Walk.step]
      simp only at bound
      omega
    rw [Walk.trace, step, ih fun Q q hq => rows _ q (.child inRows child hq)]

theorem drops_trace_iff {t : Tree} (short : t.Addressable) {path : Address} :
    t.Drops Walk.trace path ↔ t.Drops id path := by
  simp only [Drops, removed_iff]
  constructor
  · rintro ⟨a, ⟨P, n, hn, ha⟩, pre⟩
    rw [trace_of_addressable short hn] at ha
    exact ⟨a, ⟨P, n, hn, ha⟩, pre⟩
  · rintro ⟨a, ⟨P, n, hn, ha⟩, pre⟩
    refine ⟨a, ⟨P, n, hn, ?_⟩, pre⟩
    rwa [trace_of_addressable short hn]

theorem Removed.own {t : Tree} (shaped : t.root.Shaped) {P : Address} {n : Node}
    (hn : t.root.At P n) {a rest : Address} (h : t.Removed id a) (pre : a <+: P ++ rest)
    (outside : ∀ s ∈ n.kind.slots, rest.head? ≠ some (s.tag : Int)) :
    a ∈ removed (P ++ [(n.kind.optionsTag : Int)]) n.options := by
  obtain ⟨Q, q, hq, ha⟩ := removed_iff.1 h
  rw [id] at ha
  obtain ⟨tail, eq⟩ := exists_tail_of_mem_removed ha
  rw [List.append_assoc, List.singleton_append] at eq
  -- Either node may stand above the other; unless they are one, a slot meets a tag that is none.
  have front : Q <+: P ++ rest := (List.prefix_append Q _).trans (eq ▸ pre)
  rcases List.prefix_or_prefix_of_prefix front (List.prefix_append P rest) with ⟨r, rfl⟩ | ⟨r, rfl⟩
  · have below := hq.descend shaped hn
    cases below with
    | here =>
      simp only [List.append_nil]
      exact ha
    | child inRows _ _ =>
      rw [eq, List.append_assoc, List.prefix_append_right_inj] at pre
      have tag := (List.cons_prefix_cons.1 pre).1
      have slot := (shaped.at hq).slot_mem inRows
      exact absurd (by exact_mod_cast tag.symm) (Kind.tag_ne_optionsTag slot)
  · have below := hn.descend shaped hq
    cases below with
    | here =>
      simp only [List.append_nil] at ha
      exact ha
    | child inRows _ _ =>
      rw [eq, List.append_assoc, List.prefix_append_right_inj] at pre
      have slot := (shaped.at hn).slot_mem inRows
      cases rest with
      | nil => simp at pre
      | cons tag rest =>
        have tag := (List.cons_prefix_cons.1 pre).1
        exact absurd (by rw [tag]; rfl) (outside _ slot)

theorem not_drops {t : Tree} (shaped : t.root.Shaped) {P : Address} {n : Node} (hn : t.root.At P n)
    {rest : Address} (outside : ∀ s ∈ n.kind.slots, rest.head? ≠ some (s.tag : Int))
    (own : ∀ a ∈ removed (P ++ [(n.kind.optionsTag : Int)]) n.options, ¬ a <+: P ++ rest) :
    ¬ t.Drops id (P ++ rest) := by
  rintro ⟨a, removed, pre⟩
  exact own a (removed.own shaped hn pre outside) pre

open scoped Classical in
/-- Of the source locations just those are dropped that point at what is removed or into it, where what
is removed has the addresses that the walk writes. Those are the addresses of the tree unless a row has
more than 2 ^ 31 records, for which it takes more than 2 ^ 32 bytes. So every record keeps the locations
of itself and of its own fields, and the options that remain keep theirs, those of the single options as
well as that of the options as a whole. -/
theorem locations_strip {resolve : Resolver} {bytes : List UInt8} {t : Tree}
    (h : Tree.decode resolve bytes = .ok t) :
    (t.strip.sourceInfo.map (Message.messages · 1) =
      t.sourceInfo.map fun info =>
        (info.messages 1).filter fun location => ¬ t.Drops Walk.trace (addressOf location)) ∧
    (bytes.length ≤ 2 ^ 32 → t.Addressable) ∧
    (t.Addressable →
      (t.strip.sourceInfo.map (Message.messages · 1) =
        t.sourceInfo.map fun info =>
          (info.messages 1).filter fun location => ¬ t.Drops id (addressOf location)) ∧
      ∀ P n, (P, n) ∈ t.root.preorder [] →
        (∀ rest : Address, rest.head? ≠ some (n.kind.optionsTag : Int) →
          (∀ s ∈ n.kind.slots, rest.head? ≠ some (s.tag : Int)) → ¬ t.Drops id (P ++ rest)) ∧
        ∀ o, remaining n.options = some o →
          ¬ t.Drops id (P ++ [(n.kind.optionsTag : Int)]) ∧
          ∀ f ∈ o.fields, ∀ rest,
            ¬ t.Drops id (P ++ (n.kind.optionsTag : Int) :: (f.number : Int) :: rest)) := by
  have shaped := shaped_of_decode h
  have kept : t.strip.sourceInfo.map (Message.messages · 1) =
      t.sourceInfo.map fun info =>
        (info.messages 1).filter fun location => ¬ t.Drops Walk.trace (addressOf location) := by
    rw [messages_strip]
    congr 1
    funext info
    apply List.filter_congr
    intro location _
    rw [Bool.eq_iff_iff]
    simp [← covers_removedSet]
  refine ⟨kept, addressable_of_decode h, fun short => ⟨?_, fun P n mem => ?_⟩⟩
  · simpa only [drops_trace_iff short] using kept
  · have hn := Node.mem_preorder_nil.1 mem
    have other : ∀ s ∈ n.kind.slots, (some (n.kind.optionsTag : Int)) ≠ some (s.tag : Int) := by
      intro s slot same
      exact Kind.tag_ne_optionsTag slot (by exact_mod_cast (Option.some.inj same).symm)
    refine ⟨fun rest ne outside => ?_, fun o remains => ⟨?_, fun f mem rest => ?_⟩⟩
    · refine not_drops shaped hn outside ?_
      intro a ha pre
      obtain ⟨tail, rfl⟩ := exists_tail_of_mem_removed ha
      rw [List.append_assoc, List.prefix_append_right_inj] at pre
      cases rest with
      | nil => simp at pre
      | cons tag rest =>
        have same := (List.cons_prefix_cons.1 pre).1
        exact ne (by rw [same]; rfl)
    · refine not_drops shaped hn other ?_
      intro a ha pre
      obtain ⟨number, rfl, -⟩ := exists_of_mem_removed (shaped.at hn) remains ha
      have length := pre.length_le
      simp at length
    · refine not_drops shaped hn other ?_
      intro a ha pre
      obtain ⟨number, rfl, others⟩ := exists_of_mem_removed (shaped.at hn) remains ha
      rw [List.append_assoc, List.prefix_append_right_inj] at pre
      have same := (List.cons_prefix_cons.1 (List.cons_prefix_cons.1 pre).2).1
      exact others f mem (by exact_mod_cast same.symm)

/-- A message that is deprecated and a map entry, one that is deprecated only, and where they and
their options were. -/
def noted : List UInt8 :=
  [0x22, 0x09, 0x0a, 0x01, 0x4d, 0x3a, 0x04, 0x18, 0x01, 0x38, 0x01, 0x22, 0x07, 0x0a, 0x01, 0x4e,
   0x3a, 0x02, 0x18, 0x01, 0x4a, 0x2c, 0x0a, 0x04, 0x0a, 0x02, 0x04, 0x00, 0x0a, 0x05, 0x0a, 0x03,
   0x04, 0x00, 0x07, 0x0a, 0x06, 0x0a, 0x04, 0x04, 0x00, 0x07, 0x03, 0x0a, 0x06, 0x0a, 0x04, 0x04,
   0x00, 0x07, 0x07, 0x0a, 0x05, 0x0a, 0x03, 0x04, 0x01, 0x07, 0x0a, 0x06, 0x0a, 0x04, 0x04, 0x01,
   0x07, 0x03]

def deprecationGoes : Resolver := fun kind number =>
  if kind = .message ∧ number = 3 then .source else .runtime

def deprecated : OptionField :=
  ⟨3, .source, [⟨⟨3, .varint⟩, .varint 1, [0x18, 0x01]⟩]⟩

def mapEntry : OptionField :=
  ⟨7, .runtime, [⟨⟨7, .varint⟩, .varint 1, [0x38, 0x01]⟩]⟩

def notedMessage : Node :=
  .mk .message [(1, .text "M")] (some ⟨[deprecated, mapEntry]⟩) (Kind.message.arrange [])

def notedTree : Tree where
  root := .mk .file [] none (Kind.file.arrange
    [(⟨4, .message⟩, notedMessage),
     (⟨4, .message⟩,
      .mk .message [(1, .text "N")] (some ⟨[deprecated]⟩) (Kind.message.arrange []))])
  sourceInfo := some (Message.parts 1
    ([[4, 0], [4, 0, 7], [4, 0, 7, 3], [4, 0, 7, 7], [4, 1, 7], [4, 1, 7, 3]].map fun path =>
      .message [(1, .words path)]))

theorem locations_strip_noted :
    Tree.decode deprecationGoes noted = .ok notedTree ∧ notedTree.Addressable ∧
      notedTree.strip.locations = some [[4, 0], [4, 0, 7], [4, 0, 7, 7]] ∧
      ¬ notedTree.Drops id [4, 0] ∧ ¬ notedTree.Drops id [4, 0, 7] ∧
      ¬ notedTree.Drops id [4, 0, 7, 7] := by
  have decoded : Tree.decode deprecationGoes noted = .ok notedTree := by decide +kernel
  have there : ([4, 0], notedMessage) ∈ notedTree.root.preorder [] :=
    List.mem_of_getElem? (i := 1) rfl
  obtain ⟨-, small, exact_⟩ := locations_strip decoded
  have short := small (by decide)
  obtain ⟨record, options⟩ := (exact_ short).2 _ _ there
  obtain ⟨whole, single⟩ := options ⟨[mapEntry]⟩ rfl
  refine ⟨decoded, short, by decide +kernel, ?_, whole, ?_⟩
  · exact record [] (by decide) (by decide)
  · exact single mapEntry List.mem_cons_self []

end Tree

end CompilerPlugin.Descriptor

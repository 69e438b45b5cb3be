import CompilerPlugin.Proofs.Descriptor.Regrouped

/-!
Which bytes are records all the way down, and what a tree asks of them. Each record is a row of whole
entries and so is each record in it. Of the options it is only what the occurrences say together that
must be a row: an occurrence may end in the middle of an entry if the next goes on with it. A typed
reader takes no such bytes.
-/

namespace CompilerPlugin.Descriptor

open Wire Schema

/-- Whole entries to the last byte, here and in every child, and on each level entries that the law
allows. -/
inductive Formed (law : Kind → List Entry → Prop) : Kind → List UInt8 → Prop
  | mk {kind bytes es} : IsRow bytes es → law kind es →
      (∀ child ∈ es.filterMap kind.child?, Formed law child.1.kind child.2) → Formed law kind bytes

namespace Kind

/-- Every occurrence of the options is whole by itself. -/
def OptionsApart (kind : Kind) (es : List Entry) : Prop :=
  ∀ payload ∈ es.filterMap kind.options?, Complete payload

/-- The occurrences of the options are whole when they are put together. -/
def OptionsTogether (kind : Kind) (es : List Entry) : Prop :=
  Complete (es.filterMap kind.options?).flatten

/-- Every occurrence of the options ends between two entries of the options put together. -/
def OptionsUncut (kind : Kind) (es : List Entry) : Prop :=
  ∀ front, front <+: es.filterMap kind.options? → Complete front.flatten

def RecordReadable (kind : Kind) (es : List Entry) : Prop :=
  ∃ m, kind.readRecord es = .ok m

theorem optionsApart_iff_uncut {kind : Kind} {es : List Entry} :
    kind.OptionsApart es ↔ kind.OptionsUncut es :=
  forall_complete_iff

theorem OptionsApart.together {kind : Kind} {es : List Entry} (h : kind.OptionsApart es) :
    kind.OptionsTogether es :=
  complete_flatten h

theorem exists_readOptions_iff (resolve : Resolver) {kind : Kind} {es : List Entry} :
    (∃ options, kind.readOptions resolve es = .ok options) ↔ kind.OptionsTogether es := by
  simp only [readOptions_eq_ok_iff]
  constructor
  · rintro ⟨_, ⟨none, -⟩ | ⟨-, row, is_row, -⟩⟩
    · rw [OptionsTogether, none]
      exact .nil
    · exact ⟨row, is_row⟩
  · rintro ⟨row, is_row⟩
    rcases eq_or_ne (es.filterMap kind.options?) [] with none | given
    · exact ⟨_, .inl ⟨none, rfl⟩⟩
    · exact ⟨_, .inr ⟨given, row, is_row, rfl⟩⟩

end Kind

namespace Formed

variable {law law' : Kind → List Entry → Prop} {kind : Kind} {bytes : List UInt8}

theorem imp (more : ∀ kind es, law kind es → law' kind es) (h : Formed law kind bytes) :
    Formed law' kind bytes := by
  induction h with
  | mk row here _ ih => exact .mk row (more _ _ here) ih

theorem both (h : Formed law kind bytes) (h' : Formed law' kind bytes) :
    Formed (fun kind es => law kind es ∧ law' kind es) kind bytes := by
  induction h with
  | mk row here _ ih =>
    obtain ⟨row', here', below'⟩ := h'
    -- both laws are about the same entries
    obtain rfl := row.unique row'
    exact .mk row ⟨here, here'⟩ fun child mem => ih child mem (below' child mem)

end Formed

namespace Node

variable (resolve : Resolver) {kind : Kind} {bytes : List UInt8}

theorem exists_decode_iff :
    (∃ n, decode resolve kind bytes = .ok n) ↔
      Formed (fun kind es => kind.OptionsTogether es ∧ kind.RecordReadable es) kind bytes := by
  constructor
  · rintro ⟨n, hn⟩
    refine decode_induction (P := fun kind bytes _ => Formed _ kind bytes) ?_ hn
    intro kind es n row below
    refine .mk (isRow_iff.2 ⟨row.fits, rfl⟩) ⟨?_, ?_⟩ below
    · exact (Kind.exists_readOptions_iff resolve).1 ⟨_, row.options⟩
    · exact ⟨_, (readRecord_eq_ok_iff row.fits).2 row.record⟩
  · intro h
    induction h with
    | @mk kind bytes es row here _ ih =>
      obtain ⟨together, record, hr⟩ := here
      obtain ⟨options, ho⟩ := (Kind.exists_readOptions_iff resolve).2 together
      have children : ∀ child ∈ es.filterMap kind.child?,
          decode resolve child.1.kind child.2 = .ok (nodeOf resolve child) := by
        intro child mem
        obtain ⟨n, hn⟩ := ih child mem
        rw [nodeOf_eq hn, hn]
      exact ⟨_, decode_eq_ok (split_eq_complete_iff.2 row) children ho hr⟩

end Node

theorem complete_of_reads {depth : Nat} (le : depth ≤ maxDepth + 1) {t : MessageType}
    {before m : Message} {bytes : List UInt8} (h : Message.NestedReadsAs depth t before bytes m) :
    Complete bytes := by
  cases depth with
  | zero => exact h.elim
  | succ depth =>
    obtain ⟨es, fits, bytes_eq, -⟩ := (Message.readsAs_iff (Nat.le_of_succ_le_succ le)).1 h
    exact ⟨es, isRow_iff.2 ⟨fits, bytes_eq⟩⟩

theorem optionsApart_of_ofRow {kind : Kind} {depth : Nat} (le : depth ≤ maxDepth + 1) {es : List Entry}
    {m : Message} (row : Message.OfRow depth kind.recordType [] es m) : kind.OptionsApart es := by
  intro payload mem
  obtain ⟨e, he, read⟩ := List.mem_filterMap.1 mem
  obtain ⟨number, body⟩ := Kind.options?_eq_some.1 read
  obtain ⟨values, gathers, -⟩ := row.gathered _ kind.optionsField_mem
  have own : decide (e.key.number = kind.optionsField.number) = true := decide_eq_true number
  obtain ⟨held, added, holds⟩ := gathers.exists_holds e (List.mem_filter.2 ⟨he, own⟩)
  obtain ⟨p, m', body', -, reads⟩ := (Field.holds_message_iff rfl).1 holds
  cases body.symm.trans body'
  exact complete_of_reads le reads

theorem formed_of_reads {depth : Nat} (le : depth ≤ maxDepth + 1) {kind : Kind} {bytes : List UInt8}
    {m : Message} (h : Message.NestedReadsAs depth kind.recordType [] bytes m) :
    Formed Kind.OptionsApart kind bytes := by
  induction depth generalizing kind bytes m with
  | zero => exact h.elim
  | succ depth ih =>
    obtain ⟨es, fits, rfl, row⟩ := (Message.readsAs_iff (Nat.le_of_succ_le_succ le)).1 h
    refine .mk (isRow_iff.2 ⟨fits, rfl⟩) (optionsApart_of_ofRow (Nat.le_of_succ_le le) row) ?_
    intro child mem
    obtain ⟨-, m', reads⟩ := exists_reads_child row mem
    exact ih (Nat.le_of_succ_le le) reads

theorem formed_of_decode {bytes : List UInt8} {d : FileDescriptor}
    (h : FileDescriptor.decode bytes = .ok d) : Formed Kind.OptionsApart .file bytes := by
  have reads : Message.NestedReadsAs (maxDepth + 1) Kind.file.recordType [] bytes d :=
    Message.decode_eq_ok.1 h
  exact formed_of_reads (Nat.le_refl _) reads

namespace Tree

variable (resolve : Resolver) {bytes : List UInt8}

theorem exists_decode_iff_formed :
    (∃ t, decode resolve bytes = .ok t) ↔
      Formed (fun kind es => kind.OptionsTogether es ∧ kind.RecordReadable es) .file bytes := by
  rw [← Node.exists_decode_iff resolve]
  constructor
  · rintro ⟨t, ht⟩
    obtain ⟨n, hn, -⟩ := decode_eq_ok_iff.1 ht
    exact ⟨n, hn⟩
  · rintro ⟨n, hn⟩
    exact ⟨_, decode_eq_ok_iff.2 ⟨n, hn, rfl⟩⟩

theorem exists_decode_of_typed {d : FileDescriptor} (h : FileDescriptor.decode bytes = .ok d) :
    ∃ t, decode resolve bytes = .ok t := by
  have reads : Message.ReadsAs maxDepth Kind.file.recordType [] bytes d := Message.decode_eq_ok.1 h
  obtain ⟨es, fits, rfl, row⟩ := (Message.readsAs_iff (Nat.le_refl _)).1 reads
  obtain ⟨options, hn, -⟩ := exists_node (Nat.le_refl _) (agrees resolve (Nat.le_refl _)) fits row
  exact ⟨_, decode_eq_ok_iff.2 ⟨_, hn, rfl⟩⟩

/-- What a tree takes, what it would have to refuse for every occurrence of options to be whole by
itself, and that a typed reader does refuse it. -/
theorem decode_formed (bytes : List UInt8) :
    ((∃ t, decode resolve bytes = .ok t) ↔
      Formed (fun kind es => kind.OptionsTogether es ∧ kind.RecordReadable es) .file bytes) ∧
    ((∃ t, decode resolve bytes = .ok t) ∧ Formed Kind.OptionsApart .file bytes ↔
      Formed (fun kind es => kind.OptionsUncut es ∧ kind.RecordReadable es) .file bytes) ∧
    ((∃ d, FileDescriptor.decode bytes = .ok d) →
      (∃ t, decode resolve bytes = .ok t) ∧ Formed Kind.OptionsApart .file bytes) := by
  refine ⟨exists_decode_iff_formed resolve, ?_, ?_⟩
  · rw [exists_decode_iff_formed]
    constructor
    · rintro ⟨accepted, apart⟩
      exact (accepted.both apart).imp fun _ _ h => ⟨Kind.optionsApart_iff_uncut.1 h.2, h.1.2⟩
    · intro h
      have apart := h.imp fun _ _ here => And.imp_left Kind.optionsApart_iff_uncut.2 here
      exact ⟨apart.imp fun _ _ here => here.imp_left Kind.OptionsApart.together,
        apart.imp fun _ _ here => here.1⟩
  · rintro ⟨d, hd⟩
    exact ⟨exists_decode_of_typed resolve hd, formed_of_decode hd⟩

def wholeOptions : List UInt8 :=
  [0x22, 0x04, 0x3a, 0x02, 0x08, 0x01] ++ [0x42, 0x03, 0x0a, 0x01, 0x61] ++
    [0x42, 0x03, 0x42, 0x01, 0x62]

theorem decode_formed_wholeOptions :
    (∃ d, FileDescriptor.decode wholeOptions = .ok d) ∧
      (∃ t, decode (fun _ _ => .runtime) wholeOptions = .ok t) ∧
      Formed Kind.OptionsApart .file wholeOptions := by
  have decodes : FileDescriptor.decode wholeOptions =
      .ok [(4, .message [(7, .message [(1, .word 1)])]),
        (8, .message [(1, .text "a"), (8, .text "b")])] := by decide +kernel
  exact ⟨⟨_, decodes⟩, (decode_formed _ _).2.2 ⟨_, decodes⟩⟩

/-- Options in two occurrences, the first of which announces five bytes that stand in the second. -/
def cutOptions : List UInt8 :=
  [0x42, 0x02, 0x0a, 0x05] ++ [0x42, 0x05, 0x61, 0x62, 0x63, 0x64, 0x65]

theorem decode_cutOptions :
    (∃ t, decode (fun _ _ => .runtime) cutOptions = .ok t ∧
        t.encode = [0x42, 0x07, 0x0a, 0x05, 0x61, 0x62, 0x63, 0x64, 0x65]) ∧
      ¬ Formed Kind.OptionsApart .file cutOptions ∧
      ¬ ∃ d, FileDescriptor.decode cutOptions = .ok d := by
  have decodes : decode (fun _ _ => .runtime) cutOptions =
      .ok ⟨.mk .file [] (some ⟨[⟨1, .runtime, [⟨⟨1, .lengthDelimited⟩,
        .delimited [0x61, 0x62, 0x63, 0x64, 0x65], [0x0a, 0x05, 0x61, 0x62, 0x63, 0x64, 0x65]⟩]⟩]⟩)
        (Kind.file.arrange []), none⟩ := by decide +kernel
  have splits : split cutOptions =
      ([⟨⟨8, .lengthDelimited⟩, .delimited [0x0a, 0x05], [0x42, 0x02, 0x0a, 0x05]⟩,
        ⟨⟨8, .lengthDelimited⟩, .delimited [0x61, 0x62, 0x63, 0x64, 0x65],
          [0x42, 0x05, 0x61, 0x62, 0x63, 0x64, 0x65]⟩], .complete) := by decide +kernel
  have truncated : (split [0x0a, 0x05]).2 = .badValue ⟨1, .lengthDelimited⟩ ⟨.underflow, []⟩ := by decide +kernel
  have cut : ¬ Formed Kind.OptionsApart .file cutOptions := by
    intro formed
    cases formed with
    | mk row apart _ =>
      obtain rfl := row.unique (split_eq_complete_iff.1 splits)
      have whole := complete_iff.1 (apart [0x0a, 0x05] (by decide))
      rw [truncated] at whole
      cases whole
  refine ⟨⟨_, decodes, by decide +kernel⟩, cut, ?_⟩
  rintro ⟨_, typed⟩
  exact cut (formed_of_decode typed)

end Tree

end CompilerPlugin.Descriptor

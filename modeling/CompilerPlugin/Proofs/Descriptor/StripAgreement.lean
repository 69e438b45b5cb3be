import CompilerPlugin.Proofs.Descriptor.Alike
import CompilerPlugin.Proofs.Descriptor.Declarations

namespace CompilerPlugin

open Wire Schema

namespace Message.WellFormed

variable {depth : Nat} {t t' : MessageType} {m : Message} (h : WellFormed depth t m)

include h

theorem values_eq_messages {f : Field} (hf : f ∈ t.fields) (type : f.type = .message t') :
    m.values f.number = (m.messages f.number).map .message ∧
      ∀ m' ∈ m.messages f.number, NestedWellFormed depth t' m' := by
  have allowed := h.allowed f hf
  rw [messages]
  generalize m.values f.number = values at allowed
  induction values with
  | nil => exact ⟨rfl, List.forall_mem_nil _⟩
  | cons v values ih =>
    obtain ⟨same, nested⟩ := ih fun w mem => allowed w (List.mem_cons_of_mem _ mem)
    cases allowed v List.mem_cons_self with
    | message type' good =>
      cases type.symm.trans type'
      rw [List.filterMap_cons_some (by rfl), List.map_cons, ← same]
      exact ⟨rfl, List.forall_mem_cons.2 ⟨good, nested⟩⟩
    | word type' | double type' | text type' | bytes type' | words type' => cases type.symm.trans type'

theorem values_sub {number : Nat} {name : String} (hf : .sub number name t' ∈ t.fields) :
    m.values number = [] ∨ ∃ m', m.values number = [.message m'] ∧ NestedWellFormed depth t' m' := by
  have settled := h.settled _ hf
  have allowed := h.allowed _ hf
  simp only [Field.sub, Field.settle] at settled allowed
  cases last : (m.values number).getLast? with
  | none => exact .inl (List.getLast?_eq_none_iff.1 last)
  | some v =>
    rw [last] at settled
    cases allowed v (List.mem_of_getLast? last) with
    | message type good =>
      cases type
      exact .inr ⟨_, settled.symm, good⟩
    | word type | double type | text type | bytes type | words type => cases type

end Message.WellFormed

namespace Descriptor

/-- No options in these bytes have a field that their type does not know. -/
def KnownOptions (kind : Kind) (bytes : List UInt8) : Prop :=
  ∀ address kind' record, recordAt? kind bytes address = some (kind', record) →
    ∀ e ∈ optionEntries kind' record, (kind'.optionsType.field? e.key.number).isSome

namespace Node

variable {resolve : Resolver} {kind : Kind} {bytes : List UInt8} {es : List Entry} {n : Node}

theorem FromRow.mem_numbers (h : FromRow resolve kind es n) {o : OptionSet} (options : n.options = some o)
    {number : Nat} (mem : number ∈ o.numbers) :
    ∃ e ∈ optionEntries kind (es.flatMap (·.raw)), e.key.number = number := by
  rcases h.options_eq with ⟨none, -⟩ | some
  · cases none.symm.trans options
  · cases some.symm.trans options
    simpa [OptionSet.numbers, OptionSet.ofEntries] using mem

theorem exists_recordAt?_of_at (h : decode resolve kind bytes = .ok n) {address : Address} {c : Node}
    (at_ : n.At address c) :
    ∃ record, recordAt? kind bytes address = some (c.kind, record) ∧
      decode resolve c.kind record = .ok c := by
  induction at_ generalizing kind bytes with
  | here => exact ⟨bytes, by rw [kind_of_decode h]; rfl, by rwa [kind_of_decode h]⟩
  | @child n slot cs rest _ i c hr hi _ ih =>
    obtain ⟨es, rfl, row⟩ := exists_fromRow h
    have hs : slot ∈ kind.slots := row.slots ▸ List.mem_map_of_mem hr
    rw [show cs = _ from row.row_eq hr, List.getElem?_map, Option.map_eq_some_iff] at hi
    obtain ⟨payload, inSlot, rfl⟩ := hi
    have child := (mem_payloads_iff hs).1 (List.mem_of_getElem? inSlot)
    obtain ⟨record, there, reads⟩ := ih (row.children _ child)
    refine ⟨record, ?_, reads⟩
    rw [recordAt?_cons hs (by rwa [split_flatMap row.fits]), there]

theorem known_of_decode (h : decode resolve kind bytes = .ok n) (known : KnownOptions kind bytes)
    {address : Address} {c : Node} (at_ : n.At address c) {o : OptionSet} (options : c.options = some o) :
    o.Known c.kind := by
  obtain ⟨record, there, reads⟩ := exists_recordAt?_of_at h at_
  obtain ⟨es, rfl, row⟩ := exists_fromRow reads
  intro number mem
  obtain ⟨e, he, rfl⟩ := row.mem_numbers options mem
  exact known _ _ _ there e he

end Node

theorem payloads_map_ofPart {m : Message} {number : Nat} {ms : List Message}
    (values : m.values number = ms.map .message) :
    payloads number (m.map Entry.ofPart) = ms.map Message.encode := by
  rw [payloads_eq_filter, Message.filter_map_ofPart, values, List.filterMap_map, List.filterMap_map,
    ← List.filterMap_eq_map]
  rfl

theorem knownOptions_encode {depth : Nat} {kind : Kind} {m : Message}
    (good : Message.WellFormed depth kind.recordType m) (size : m.encode.length < 2 ^ 64) :
    KnownOptions kind m.encode := by
  intro address kind' record at_
  -- An address leads from a message to a message in it, which is again well formed and no longer.
  refine recordAt?_induction (P := fun kind bytes _ => ∀ {depth m}, bytes = m.encode →
    Message.WellFormed depth kind.recordType m → m.encode.length < 2 ^ 64 →
    ∀ e ∈ optionEntries kind' record, (kind'.optionsType.field? e.key.number).isSome)
    ?_ ?_ at_ rfl good size
  · rintro depth m same good size
    have short := Message.announceable_of_length size
    obtain rfl : record = m.encode := same
    rw [optionEntries, Message.encode_eq_flatMap, split_flatMap (good.ordered.fits short)]
    rcases good.values_sub (Kind.optionsField_mem kind') with
      (none : m.values _ = List.map .message []) |
      ⟨mo, (some : m.values _ = List.map .message [mo]), inner⟩
    · rw [payloads_map_ofPart none, List.map_nil, List.flatten_nil, split_nil]
      exact List.forall_mem_nil _
    · rw [payloads_map_ofPart some, List.map_singleton, List.flatten_singleton]
      have part : (kind'.optionsTag, .message mo) ∈ m := Message.mem_of_mem_values (by simp [some])
      cases depth with
      | zero => exact inner.elim
      | succ depth =>
        have ordered : Message.Ordered kind'.optionsType mo := Message.WellFormed.ordered inner
        have fits := ordered.fits (Message.announceable_of_length (short.length_of_mem part))
        rw [Message.encode_eq_flatMap, split_flatMap fits]
        intro e mem
        obtain ⟨option, ho, rfl⟩ := List.mem_map.1 mem
        exact ordered.known option ho
  · rintro kind slot _ payload index rest hs inSlot below depth m rfl good size
    have short := Message.announceable_of_length size
    rw [Message.encode_eq_flatMap, split_flatMap (good.ordered.fits short)] at inSlot
    obtain ⟨f, hf, tag, label, type⟩ := Kind.exists_slotField hs
    obtain ⟨values, nested⟩ := good.values_eq_messages hf type
    rw [tag] at values nested
    rw [payloads_map_ofPart values, List.getElem?_map, Option.map_eq_some_iff] at inSlot
    obtain ⟨c, there, rfl⟩ := inSlot
    have mem := List.mem_of_getElem? there
    have part : (slot.tag, .message c) ∈ m :=
      Message.mem_of_mem_values (values ▸ List.mem_map_of_mem mem)
    have inner := nested c mem
    cases depth with
    | zero => exact inner.elim
    | succ depth => exact below rfl inner (short.length_of_mem part)

namespace Tree

variable {resolve : Resolver} {bytes : List UInt8} {t : Tree} {d : FileDescriptor}

theorem typed_of_decode (h : decode resolve bytes = .ok t) (size : bytes.length < 2 ^ 63)
    (known : KnownOptions .file bytes) : t.root.Typed where
  readable := (readable_of_decode h size).root
  known address c at_ o options := by
    obtain ⟨n, hn, rfl⟩ := decode_eq_ok_iff.1 h
    obtain ⟨kind, record, own, rows⟩ := n
    cases at_ with
    | here => exact Node.known_of_decode hn known .here options
    | child hr hi below => exact Node.known_of_decode hn known (.child hr hi below) options

theorem record_of_decode (decodes : FileDescriptor.decode bytes = .ok d)
    (h : decode resolve bytes = .ok t) :
    t.root.record = Message.without (Message.only Kind.file.owns d) sourceInfoTag ∧
      t.sourceInfo = Message.message? (Message.only Kind.file.owns d) sourceInfoTag := by
  have le := Nat.le_refl maxDepth
  obtain ⟨es, fits, rfl, (row : Message.OfRow maxDepth Kind.file.recordType [] es d)⟩ :=
    (Message.readsAs_iff le).1 (Message.decode_eq_ok.1 decodes)
  obtain ⟨options, hn, -⟩ := exists_node le (agrees resolve le) fits row
  rw [decode, hn] at h
  cases h
  exact ⟨rfl, rfl⟩

theorem Readable.reads_iff (h : t.Readable) :
    Message.ReadsAs maxDepth .file [] t.encode d ↔
      Message.OfRow maxDepth .file [] (t.root.entries ++ infoEntries t.sourceInfo) d := by
  have fits : ∀ e ∈ t.root.entries ++ infoEntries t.sourceInfo, e.Fits maxDepth := fun e mem =>
    (List.mem_append.1 mem).elim (h.root.level.fits e) (h.fits_infoEntries e)
  rw [encode_eq_entries]
  constructor
  · exact Message.ReadsAs.ofRow (Nat.le_refl _) fits
  · exact fun row => (Message.readsAs_iff (Nat.le_refl _)).2 ⟨_, fits, rfl, row⟩

theorem known_infoEntries {info : Option Message} :
    ∀ e ∈ infoEntries info, (Kind.file.recordType.field? e.key.number).isSome := by
  intro e mem
  cases info with
  | none => cases mem
  | some info =>
    obtain rfl := List.mem_singleton.1 mem
    rfl

theorem exists_strip {t' : Tree} (readable : t.Readable) (readable' : t'.Readable)
    (alike : Node.Alike maxDepth t.root t'.root (infoEntries t.sourceInfo) (infoEntries t'.sourceInfo))
    (record : t'.root.record = t.root.record) (info : t'.sourceInfo = t.sourceInfo) (resolve : Resolver) :
    ∃ d, Message.ReadsAs maxDepth .file [] (t.retag resolve).strip.encode d ∧
      Message.ReadsAs maxDepth .file [] (t'.retag resolve).strip.encode d := by
  have le := Nat.le_refl maxDepth
  -- What goes decides which locations go, so that is compared before the messages are.
  have covers (path : Address) :
      (t'.retag resolve).removedSet.covers path = (t.retag resolve).removedSet.covers path := by
    rw [Bool.eq_iff_iff, covers_removedSet_iff rfl, covers_removedSet_iff rfl]
    exact ⟨alike.symm.exists_covers le resolve, alike.exists_covers le resolve⟩
  have locations : (t'.retag resolve).strip.sourceInfo = (t.retag resolve).strip.sourceInfo := by
    rw [sourceInfo_strip (readable'.retag resolve), sourceInfo_strip (readable.retag resolve)]
    simp only [covers]
    rw [retag, retag, info]
  have stripped := (readable.retag resolve).strip
  have stripped' := (readable'.retag resolve).strip
  have own : ∀ e ∈ infoEntries (t.retag resolve).strip.sourceInfo ++
      infoEntries (t'.retag resolve).strip.sourceInfo, Kind.file.owns e.key.number = true := fun e mem =>
    (List.mem_append.1 mem).elim (owns_infoEntries e) (owns_infoEntries e)
  have known : ∀ e ∈ infoEntries (t.retag resolve).strip.sourceInfo ++
      infoEntries (t'.retag resolve).strip.sourceInfo,
      (Kind.file.recordType.field? e.key.number).isSome := fun e mem =>
    (List.mem_append.1 mem).elim (known_infoEntries e) (known_infoEntries e)
  rw [← readable.file] at own known
  obtain ⟨m, row, row'⟩ := alike.exists_row_strip le
    (fun d c c' eq alike => alike.strip resolve (by omega)) own known fun f hf _ => by
      rw [readable.file] at hf
      obtain ⟨values, gathers, -⟩ := stripped.ofRow.gathered f hf
      rw [root_strip_retag, Node.record_mapOptions] at gathers
      rw [record, locations]
      exact ⟨values, values, gathers, gathers, rfl⟩
  rw [readable.file] at row row'
  refine ⟨m, stripped.reads_iff.2 ?_, stripped'.reads_iff.2 ?_⟩
  · rwa [root_strip_retag]
  · rwa [root_strip_retag]

end Tree

/-- A descriptor comes to the same whichever way it is stripped: as the bytes that it came in, and as
the message that was read from them and is written anew for it. Its options may have come in any order and
in any number of pieces, as long as none has a field that its type does not know; both strippers succeed,
and what is left of the bytes is read as what is left of the message, source locations and all. -/
theorem stripDescriptor_of_decode {bytes : List UInt8} {d : FileDescriptor}
    (decodes : FileDescriptor.decode bytes = .ok d) (known : KnownOptions .file bytes)
    (size : bytes.length < 2 ^ 63) (again : d.encode.length < 2 ^ 63) (resolve : Resolver) :
    ∃ out d', stripEncoded resolve bytes = .ok out ∧ stripDescriptor resolve d = .ok d' ∧
      FileDescriptor.decode out = .ok d' := by
  have le := Nat.le_refl maxDepth
  have good : Message.WellFormed maxDepth .file d :=
    (Message.decode_eq_ok.1 decodes).wellFormed le (.inl rfl)
  have back : FileDescriptor.decode d.encode = .ok d := by
    have short := Message.announceable_of_length (Nat.lt_trans again (by decide))
    exact Message.decode_eq_ok.2 (good.readsAs_encode le short)
  have known' : KnownOptions .file d.encode := knownOptions_encode good (Nat.lt_trans again (by decide))
  obtain ⟨t, tree, reads⟩ := exists_tree resolve decodes
  obtain ⟨t', tree', reads'⟩ := exists_tree resolve back
  have readable := Tree.readable_of_decode tree size
  have readable' := Tree.readable_of_decode tree' again
  obtain ⟨record, info⟩ := Tree.record_of_decode decodes tree
  obtain ⟨record', info'⟩ := Tree.record_of_decode back tree'
  have alike : Node.Alike maxDepth t.root t'.root (infoEntries t.sourceInfo)
      (infoEntries t'.sourceInfo) := by
    refine ⟨readable'.file.trans readable.file.symm, Tree.typed_of_decode tree size known,
      Tree.typed_of_decode tree' again known', ?_, ?_, d, ?_, ?_⟩
    all_goals rw [readable.file]
    · exact owns_infoEntries
    · exact owns_infoEntries
    · exact readable.reads_iff.1 (reads size)
    · exact readable'.reads_iff.1 (reads' again)
  obtain ⟨d', stripped, stripped'⟩ := Tree.exists_strip readable readable' alike
    (record'.trans record.symm) (info'.trans info.symm) resolve
  refine ⟨_, d', stripEncoded_eq tree resolve, ?_, Message.decode_eq_ok.2 stripped⟩
  rw [Tree.retag_eq_self tree'] at stripped'
  rw [stripDescriptor, Tree.ofDescriptor, tree']
  exact Tree.toDescriptor_eq_ok.2 stripped'

/-- The locations of a file's options and of its deprecation, and then the options in two pieces: a package
name and the deprecation. -/
def inPieces : List UInt8 :=
  [0x4a, 0x0b, 0x0a, 0x03, 0x0a, 0x01, 0x08, 0x0a, 0x04, 0x0a, 0x02, 0x08, 0x17,
   0x42, 0x03, 0x0a, 0x01, 0x70, 0x42, 0x03, 0xb8, 0x01, 0x01]

def inPiecesDescriptor : FileDescriptor :=
  [(8, .message [(1, .text "p"), (23, .word 1)]),
   (9, .message [(1, .message [(1, .words [8])]), (1, .message [(1, .words [8, 23])])])]

def fileDeprecationGoes : Resolver := fun kind number =>
  if kind = .file ∧ number = 23 then .source else .runtime

theorem knownOptions_inPieces : KnownOptions .file inPieces := by
  have own : optionEntries .file inPieces =
      [⟨⟨1, .lengthDelimited⟩, .delimited [0x70], [0x0a, 0x01, 0x70]⟩,
       ⟨⟨23, .varint⟩, .varint 1, [0xb8, 0x01, 0x01]⟩] := by decide +kernel
  have childless : ∀ slot ∈ Kind.file.slots, payloads slot.tag (split inPieces).1 = [] := by
    have numbers : (split inPieces).1.map (·.key.number) = [9, 8, 8] := by decide +kernel
    have other : ∀ slot ∈ Kind.file.slots, slot.tag ∉ [9, 8, 8] := by decide
    intro slot hs
    apply List.filterMap_eq_nil_iff.2
    intro e mem
    refine if_neg fun tag => other slot hs ?_
    rw [← tag, ← numbers]
    exact List.mem_map_of_mem mem
  intro address kind record there
  cases address with
  | nil =>
    cases there
    rw [own]
    decide
  | cons step address =>
    obtain ⟨slot, hs, index, rest, payload, -, -, inSlot, -⟩ := exists_of_recordAt?_cons there
    rw [childless slot hs] at inSlot
    cases inSlot

theorem stripDescriptor_inPieces :
    stripEncoded fileDeprecationGoes inPieces =
        .ok [0x42, 0x03, 0x0a, 0x01, 0x70, 0x4a, 0x05, 0x0a, 0x03, 0x0a, 0x01, 0x08] ∧
      stripDescriptor fileDeprecationGoes inPiecesDescriptor =
        .ok [(8, .message [(1, .text "p")]), (9, .message [(1, .message [(1, .words [8])])])] := by
  have decodes : FileDescriptor.decode inPieces = .ok inPiecesDescriptor := by decide +kernel
  have left : stripEncoded fileDeprecationGoes inPieces =
      .ok [0x42, 0x03, 0x0a, 0x01, 0x70, 0x4a, 0x05, 0x0a, 0x03, 0x0a, 0x01, 0x08] := by decide +kernel
  have again : FileDescriptor.decode
      [0x42, 0x03, 0x0a, 0x01, 0x70, 0x4a, 0x05, 0x0a, 0x03, 0x0a, 0x01, 0x08] =
      .ok [(8, .message [(1, .text "p")]), (9, .message [(1, .message [(1, .words [8])])])] := by decide +kernel
  have length : Message.encode inPiecesDescriptor = [0x42, 0x06, 0x0a, 0x01, 0x70, 0xb8, 0x01, 0x01,
      0x4a, 0x0b, 0x0a, 0x03, 0x0a, 0x01, 0x08, 0x0a, 0x04, 0x0a, 0x02, 0x08, 0x17] := by decide +kernel
  obtain ⟨out, d', encoded, typed, read⟩ := stripDescriptor_of_decode decodes knownOptions_inPieces
    (by decide) (by rw [length]; decide) fileDeprecationGoes
  rw [left] at encoded
  cases encoded
  rw [again] at read
  cases read
  exact ⟨left, typed⟩

end Descriptor

end CompilerPlugin

import CompilerPlugin.Proofs.Descriptor.TreeRoundTrip

namespace CompilerPlugin

open Wire Schema

namespace Wire

theorem Loops.readWord_ne_nil {s : Scalar} {words words' : List UInt64} {p : List UInt8}
    (h : Loops (readWord s) words p words') (given : words ≠ [] ∨ p ≠ []) : words' ≠ [] := by
  induction h with
  | nil => exact given.resolve_right fun h => h rfl
  | cons head _ ih =>
    obtain ⟨w, -, rfl⟩ := (Reads.map_iff local_readVarint).1 head
    exact ih (.inl (List.cons_ne_nil _ _))

end Wire

namespace Schema.Field

variable {nested : MessageType → Message → List UInt8 → Message → Prop} {f : Field}

theorem numbers_ne_nil {words : List UInt64} (given : words ≠ []) : f.numbers words ≠ [] := by
  rw [numbers]
  split
  · simp
  · simpa using given

theorem Holds.ne_nil {held added : List Value} {b : Body} (h : f.Holds nested held b added)
    (given : b = .delimited [] → ¬ (f.type = .scalar .int32 ∧ f.label.isList)) : added ≠ [] := by
  cases h with
  | message | word | double | text | bytes => simp
  | number => exact numbers_ne_nil (by simp)
  | numbers type list loops =>
    have words := loops.readWord_ne_nil (.inr fun empty => given (by rw [empty]) ⟨type, list⟩)
    exact numbers_ne_nil (by simpa using words)

theorem Gathers.ne_nil {held values : List Value} {es : List Entry} (h : f.Gathers nested held es values)
    (given : held ≠ [] ∨
      ∃ e ∈ es, e.body = .delimited [] → ¬ (f.type = .scalar .int32 ∧ f.label.isList)) :
    values ≠ [] := by
  induction h with
  | nil => simpa using given
  | @cons held added values e es head _ ih =>
    apply ih
    rcases given with given | ⟨e', mem, given⟩
    · exact .inl (by simp [given])
    · rcases List.mem_cons.1 mem with rfl | mem
      · exact .inl (by simp [head.ne_nil given])
      · exact .inr ⟨e', mem, given⟩

end Schema.Field

namespace Descriptor

def payloads (number : Nat) (es : List Entry) : List (List UInt8) :=
  es.filterMap fun e => if e.key.number = number then e.body.payload? else none

def recordAt? (kind : Kind) (bytes : List UInt8) : Address → Option (Kind × List UInt8)
  | [] => some (kind, bytes)
  | .ofNat tag :: .ofNat index :: rest =>
    match kind.slot? tag with
    | none => none
    | some slot =>
      match (payloads tag (split bytes).1)[index]? with
      | none => none
      | some payload => recordAt? slot.kind payload rest
  | _ => none

def HasField (number : Nat) (bytes : List UInt8) : Prop :=
  ∃ e ∈ (split bytes).1, e.key.number = number

def HasValue (number : Nat) (bytes : List UInt8) : Prop :=
  ∃ e ∈ (split bytes).1, e.key.number = number ∧ e.body ≠ .delimited []

theorem exists_of_recordAt?_cons {kind : Kind} {bytes : List UInt8} {step : Int} {address : Address}
    {found : Kind × List UInt8} (h : recordAt? kind bytes (step :: address) = some found) :
    ∃ slot ∈ kind.slots, ∃ (index : Nat) (rest : Address) (payload : List UInt8),
      step = slot.tag ∧ address = (index : Int) :: rest ∧
        (payloads slot.tag (split bytes).1)[index]? = some payload ∧
        recordAt? slot.kind payload rest = some found := by
  unfold recordAt? at h
  split at h
  · rename_i eq
    cases eq
  · rename_i tag index rest eq
    cases eq
    split at h
    · cases h
    · rename_i slot known
      obtain ⟨mem, rfl⟩ := Kind.slot?_eq_some known
      split at h
      · cases h
      · rename_i payload inSlot
        exact ⟨slot, mem, index, rest, payload, rfl, rfl, inSlot, h⟩
  · cases h

theorem recordAt?_induction {found : Kind × List UInt8} {P : Kind → List UInt8 → Address → Prop}
    (here : P found.1 found.2 [])
    (below : ∀ {kind slot bytes payload} {index : Nat} {rest}, slot ∈ kind.slots →
      (payloads slot.tag (split bytes).1)[index]? = some payload → P slot.kind payload rest →
      P kind bytes ((slot.tag : Int) :: (index : Int) :: rest))
    {kind : Kind} {bytes : List UInt8} {address : Address}
    (h : recordAt? kind bytes address = some found) : P kind bytes address := by
  induction hlen : address.length using Nat.strongRecOn generalizing kind bytes address with
  | ind length ih =>
    subst hlen
    cases address with
    | nil =>
      cases h
      exact here
    | cons step address =>
      obtain ⟨slot, hs, index, rest, payload, rfl, rfl, inSlot, h⟩ := exists_of_recordAt?_cons h
      have shorter : rest.length < ((slot.tag : Int) :: (index : Int) :: rest).length := by
        simp only [List.length_cons]
        omega
      exact below hs inSlot (ih rest.length shorter h rfl)

theorem recordAt?_cons {kind : Kind} {bytes payload : List UInt8} {slot : Slot} (mem : slot ∈ kind.slots)
    {index : Nat} (inSlot : (payloads slot.tag (split bytes).1)[index]? = some payload)
    (rest : Address) :
    recordAt? kind bytes ((slot.tag : Int) :: (index : Int) :: rest) = recordAt? slot.kind payload rest := by
  have known := Kind.slot?_tag mem
  change recordAt? kind bytes (.ofNat slot.tag :: .ofNat index :: rest) = _
  rw [recordAt?]
  simp only [known, inSlot]

theorem payloads_eq {kind : Kind} {slot : Slot} (mem : slot ∈ kind.slots) (es : List Entry) :
    payloads slot.tag es = (es.filterMap kind.child?).filterMap fun child =>
      if child.1 = slot then some child.2 else none := by
  rw [payloads, List.filterMap_filterMap]
  apply List.filterMap_congr
  intro e _
  by_cases number : e.key.number = slot.tag
  · simp only [Kind.child?, number, Kind.slot?_tag mem]
    cases e.body.payload? <;> simp
  · rw [if_neg number]
    cases child : kind.child? e with
    | none => rfl
    | some c =>
      have other : c.1 ≠ slot := by
        rintro rfl
        exact number (Kind.child?_eq_some child).2.1
      simp [other]

theorem Node.Level.payloads_entries {n : Node} (h : n.Level) {more : List Entry}
    (own : ∀ e ∈ more, n.kind.owns e.key.number = true) {row : Slot × List Node} (mem : row ∈ n.rows) :
    payloads row.1.tag (n.entries ++ more) = row.2.map Node.encode := by
  have nodup : (n.rows.map (·.1)).Nodup := h.slots ▸ n.kind.nodup_slots
  rw [payloads_eq (h.slot_mem mem), h.filterMap_child? own, Kind.filterMap_row nodup Node.encode mem]

theorem Node.FromRow.row_eq {resolve : Resolver} {kind : Kind} {es : List Entry} {n : Node}
    (h : Node.FromRow resolve kind es n) {row : Slot × List Node} (mem : row ∈ n.rows) :
    row.2 = (payloads row.1.tag es).map fun payload => nodeOf resolve (row.1, payload) := by
  rw [h.rows] at mem
  obtain ⟨slot, hs, rfl⟩ := List.mem_map.1 mem
  rw [payloads_eq hs, childrenOf, List.filterMap_map, List.map_filterMap]
  apply List.filterMap_congr
  intro child _
  rcases eq_or_ne child.1 slot with rfl | other
  · simp
  · simp [other]

/-- What the fields of a record come to: those with a value are still there if the type of the record
knows them, and gone if not. -/
def KeepsKnown (kind : Kind) (es es' : List Entry) : Prop :=
  ∀ number, number ≠ kind.optionsTag →
    (∃ e ∈ es, e.key.number = number ∧ e.body ≠ .delimited []) →
    ((∃ e ∈ es', e.key.number = number) ↔ (kind.recordType.field? number).isSome)

namespace Node

variable {resolve : Resolver} {kind : Kind} {es : List Entry} {n : Node}
  {f : Kind → Option OptionSet → Option OptionSet}

theorem exists_ofPart_iff {m : Message} {number : Nat} :
    (∃ e ∈ m.map Entry.ofPart, e.key.number = number) ↔ m.values number ≠ [] := by
  constructor
  · rintro ⟨e, mem, rfl⟩
    obtain ⟨part, hp, rfl⟩ := List.mem_map.1 mem
    exact List.ne_nil_of_mem (List.mem_filterMap.2 ⟨part, hp, if_pos rfl⟩)
  · intro some
    obtain ⟨v, hv⟩ := List.exists_mem_of_ne_nil _ some
    exact ⟨_, List.mem_map_of_mem (Message.mem_of_mem_values hv), rfl⟩

theorem settle_ne_nil {g : Field} (mem : g ∈ kind.recordType.fields) {values : List Value}
    (some : values ≠ []) : g.settle values ≠ [] := by
  have label : g.label = .optional ∨ g.label = .repeated := by
    revert g
    cases kind <;> decide
  rcases label with label | label
  · simpa [Field.settle, label] using some
  · simpa [Field.settle, label] using some

theorem FromRow.values_ne_nil (h : FromRow resolve kind es n) {g : Field}
    (mem : g ∈ kind.recordType.fields) (own : kind.owns g.number = true) {e : Entry} (he : e ∈ es)
    (number : e.key.number = g.number) (given : e.body ≠ .delimited []) :
    n.record.values g.number ≠ [] := by
  obtain ⟨values, gathers, settled⟩ := h.own.gathered g mem
  rw [settled]
  apply settle_ne_nil mem
  apply gathers.ne_nil
  refine .inr ⟨e, ?_, fun empty => absurd empty given⟩
  exact List.mem_filter.2 ⟨List.mem_filter.2 ⟨he, by rw [number, own]⟩, by simp [number]⟩

theorem Level.field?_isSome (h : n.Level) :
    ∀ e ∈ n.entries, (n.kind.recordType.field? e.key.number).isSome := by
  intro e mem
  rcases mem_entries.1 mem with own | option | ⟨row, hr, c, hc, rfl⟩
  · obtain ⟨part, hp, rfl⟩ := List.mem_map.1 own
    exact h.record.wellFormed.ordered.known part hp
  · cases ho : n.options with
    | none =>
      rw [ho] at option
      cases option
    | some o =>
      rw [ho] at option
      obtain rfl := List.mem_singleton.1 option
      exact MessageType.isSome_field? n.kind.optionsField_mem
  · obtain ⟨g, hg, tag, -, -⟩ := Kind.exists_slotField (h.slot_mem hr)
    have known := MessageType.isSome_field? hg
    rwa [tag] at known

theorem FromRow.keepsKnown (h : FromRow resolve kind es n) (level : (n.mapOptions f).Level) :
    KeepsKnown kind es (n.mapOptions f).entries := by
  rintro number notOptions ⟨e, mem, rfl, given⟩
  constructor
  · rintro ⟨e', mem', same⟩
    have known := level.field?_isSome e' mem'
    rwa [kind_mapOptions, h.kind_eq, same] at known
  · intro known
    obtain ⟨g, hg⟩ := Option.isSome_iff_exists.1 known
    have number := MessageType.number_of_field? hg
    have field := MessageType.mem_of_field? hg
    rcases kind.owns_cases e.key.number with own | tag | ⟨slot, hs, tag⟩
    · have values := h.values_ne_nil field (by rw [number, own]) mem number.symm given
      rw [number] at values
      obtain ⟨e', own', same⟩ := exists_ofPart_iff.2 values
      refine ⟨e', mem_entries.2 (.inl ?_), same⟩
      rwa [record_mapOptions]
    · exact absurd tag notOptions
    · obtain ⟨p, body⟩ := h.delimited e mem (by rw [← tag, Kind.owns_tag hs])
      have there : p ∈ payloads slot.tag es :=
        List.mem_filterMap.2 ⟨e, mem, by simp [tag, body, Body.payload?]⟩
      obtain ⟨row, hr, rfl⟩ := List.mem_map.1 (h.slots ▸ hs)
      have child : nodeOf resolve (row.1, p) ∈ row.2 := by
        rw [h.row_eq hr]
        exact List.mem_map_of_mem there
      refine ⟨childEntry (row.1, (nodeOf resolve (row.1, p)).mapOptions f), mem_entries.2 ?_, tag⟩
      refine .inr (.inr ⟨(row.1, row.2.map (mapOptions f)), ?_, _, List.mem_map_of_mem child, rfl⟩)
      rw [rows_mapOptions]
      exact List.mem_map.2 ⟨row, hr, rfl⟩

theorem FromRow.exists_child (h : FromRow resolve kind es n) {n' : Node} (kind' : n'.kind = kind)
    (rows' : n'.rows = (n.mapOptions f).rows) (readable : n'.Readable) {more : List Entry}
    (own : ∀ e ∈ more, kind.owns e.key.number = true) {slot : Slot} (hs : slot ∈ kind.slots)
    {index : Nat} {payload : List UInt8} (inSlot : (payloads slot.tag es)[index]? = some payload) :
    ∃ c, decode resolve slot.kind payload = .ok c ∧ (c.mapOptions f).Readable ∧
      (payloads slot.tag (n'.entries ++ more))[index]? = some (c.mapOptions f).encode := by
  subst kind'
  obtain ⟨row, hr, rfl⟩ := List.mem_map.1 (h.slots ▸ hs)
  have hr' : (row.1, row.2.map (mapOptions f)) ∈ n'.rows := by
    rw [rows', rows_mapOptions]
    exact List.mem_map.2 ⟨row, hr, rfl⟩
  have child : (row.1, payload) ∈ es.filterMap n'.kind.child? := by
    have mem := List.mem_of_getElem? inSlot
    rw [payloads_eq hs] at mem
    obtain ⟨c, hc, eq⟩ := List.mem_filterMap.1 mem
    split at eq
    · rename_i same
      cases eq
      rwa [← same]
    · cases eq
  refine ⟨nodeOf resolve (row.1, payload), h.children _ child, ?_, ?_⟩
  · cases readable with
    | mk _ below =>
      apply below _ hr'
      apply List.mem_map_of_mem
      rw [h.row_eq hr]
      exact List.mem_map_of_mem (List.mem_of_getElem? inSlot)
  · rw [readable.level.payloads_entries own hr', h.row_eq hr]
    simp [inSlot]

theorem exists_recordAt {bytes : List UInt8} (h : decode resolve kind bytes = .ok n)
    (readable : (n.mapOptions f).Readable) {address : Address} {found : Kind × List UInt8}
    (at_ : recordAt? kind bytes address = some found) :
    ∃ record, recordAt? kind (n.mapOptions f).encode address = some (found.1, record) ∧
      KeepsKnown found.1 (split found.2).1 (split record).1 := by
  refine recordAt?_induction (P := fun kind bytes address => ∀ {n}, decode resolve kind bytes = .ok n →
    (n.mapOptions f).Readable → ∃ record,
      recordAt? kind (n.mapOptions f).encode address = some (found.1, record) ∧
        KeepsKnown found.1 (split found.2).1 (split record).1) ?_ ?_ at_ h readable
  · intro n h readable
    obtain ⟨es, bytes, row⟩ := exists_fromRow h
    refine ⟨_, rfl, ?_⟩
    rw [bytes, split_flatMap row.fits, encode_eq_entries, split_flatMap readable.level.fits]
    exact row.keepsKnown readable.level
  · intro kind slot bytes payload index rest hs inSlot below n h readable
    obtain ⟨es, rfl, row⟩ := exists_fromRow h
    rw [split_flatMap row.fits] at inSlot
    have kind' : (n.mapOptions f).kind = kind := by rw [kind_mapOptions, row.kind_eq]
    obtain ⟨c, hc, readableChild, inSlot'⟩ :=
      row.exists_child kind' rfl readable (List.forall_mem_nil _) hs inSlot
    rw [List.append_nil] at inSlot'
    have written : (split (n.mapOptions f).encode).1 = (n.mapOptions f).entries := by
      rw [encode_eq_entries, split_flatMap readable.level.fits]
    rw [recordAt?_cons hs (by rw [written]; exact inSlot')]
    exact below hc readableChild

end Node

theorem exists_infoEntries_iff {info : Option Message} {number : Nat} :
    (∃ e ∈ infoEntries info, e.key.number = number) ↔ info.isSome ∧ sourceInfoTag = number := by
  cases info <;> simp [infoEntries, Entry.ofPart]

namespace Tree

theorem rows_ofNode (n : Node) : (ofNode n).root.rows = n.rows := by
  obtain ⟨kind, record, options, rows⟩ := n
  rfl

theorem exists_entry_iff {n : Node} (own : OwnRecord .file n.record) {t s : Tree} (tree : t = ofNode n)
    {f : Kind → Option OptionSet → Option OptionSet} (root : s.root = t.root.mapOptions f)
    (info : s.sourceInfo.isSome = t.sourceInfo.isSome) {number : Nat} :
    (∃ e ∈ s.root.entries ++ infoEntries s.sourceInfo, e.key.number = number) ↔
      ∃ e ∈ (n.mapOptions f).entries, e.key.number = number := by
  obtain ⟨kind, record, options, rows⟩ := n
  subst tree
  have values := values_sourceInfo own.wellFormed
  rw [root, ofNode, Node.mapOptions_mk, Node.mapOptions_mk, Node.entries, Node.entries]
  simp only [List.mem_append, or_and_right, exists_or, Node.exists_ofPart_iff, exists_infoEntries_iff,
    info, ofNode, Node.kind, Node.record, Node.options, Node.rows]
  simp only [Node.record] at values
  rcases eq_or_ne number sourceInfoTag with rfl | other
  · rw [values, Message.values_without_self]
    cases record.message? sourceInfoTag <;> simp [or_comm]
  · rw [Message.values_without_of_ne _ other]
    simp [Ne.symm other]

end Tree

/-- A descriptor is stripped of more than its options. Of the fields with a value that a record has,
wherever it stands, those are still there that the type of its kind knows; all others are gone. -/
theorem hasField_stripEncoded_iff {resolve : Resolver} {bytes : List UInt8} {t : Tree}
    (h : Tree.decode resolve bytes = .ok t) (size : bytes.length < 2 ^ 63) (resolve' : Resolver) :
    ∃ out, stripEncoded resolve' bytes = .ok out ∧
      ∀ address kind record, recordAt? .file bytes address = some (kind, record) →
        ∃ record', recordAt? .file out address = some (kind, record') ∧
          ∀ number, number ≠ kind.optionsTag → HasValue number record →
            (HasField number record' ↔ (kind.recordType.field? number).isSome) := by
  refine ⟨_, stripEncoded_eq h resolve', ?_⟩
  have stripped := ((Tree.readable_of_decode h size).retag resolve').strip
  have info := Tree.isSome_sourceInfo_strip ((Tree.readable_of_decode h size).retag resolve')
  have root := Tree.root_strip_retag resolve' t
  obtain ⟨n, hn, tree⟩ := Tree.decode_eq_ok_iff.1 h
  have readable := (Node.readable_of_decode hn size).1
  obtain ⟨es, rfl, row⟩ := Node.exists_fromRow hn
  intro address kind record found
  cases address with
  | nil =>
    cases found
    refine ⟨_, rfl, ?_⟩
    intro number notOptions given
    have own : OwnRecord .file n.record := row.kind_eq ▸ readable.level.record
    have keeps := row.keepsKnown (readable.survivors resolve').level number notOptions
    rw [HasValue, split_flatMap row.fits] at given
    rw [HasField, stripped.split_encode, Tree.exists_entry_iff own tree.symm root info]
    exact keeps given
  | cons step address =>
    obtain ⟨slot, hs, index, rest, payload, rfl, rfl, inSlot, below⟩ := exists_of_recordAt?_cons found
    rw [split_flatMap row.fits] at inSlot
    have rows : (t.retag resolve').strip.root.rows = (n.mapOptions (survivors resolve')).rows := by
      rw [root, Node.rows_mapOptions, Node.rows_mapOptions, ← tree, Tree.rows_ofNode]
    obtain ⟨c, hc, readableChild, inSlot'⟩ :=
      row.exists_child stripped.file rows stripped.root owns_infoEntries hs inSlot
    rw [recordAt?_cons hs (by rw [stripped.split_encode]; exact inSlot')]
    exact Node.exists_recordAt hc readableChild below

def editionFile : List UInt8 :=
  [0x0a, 0x07, 0x61, 0x2e, 0x70, 0x72, 0x6f, 0x74, 0x6f, 0x70, 0xe8, 0x07]

def nameEntry : Entry :=
  ⟨⟨1, .lengthDelimited⟩, .delimited [0x61, 0x2e, 0x70, 0x72, 0x6f, 0x74, 0x6f],
    [0x0a, 0x07, 0x61, 0x2e, 0x70, 0x72, 0x6f, 0x74, 0x6f]⟩

def editionEntry : Entry :=
  ⟨⟨14, .varint⟩, .varint 1000, [0x70, 0xe8, 0x07]⟩

def editionTree : Tree :=
  ⟨.mk .file [(1, .text "a.proto")] none (Kind.file.arrange []), none⟩

theorem split_editionFile : split editionFile = ([nameEntry, editionEntry], .complete) := by decide +kernel

theorem decode_editionFile : Tree.decode (fun _ _ => .runtime) editionFile = .ok editionTree := by decide +kernel

theorem hasValue_editionFile : HasValue 1 editionFile ∧ HasValue 14 editionFile := by
  simp only [HasValue, split_editionFile]
  exact ⟨⟨nameEntry, by simp, rfl, by decide⟩, ⟨editionEntry, by simp, rfl, by decide⟩⟩

theorem hasField_stripEncoded_editionFile :
    ∃ out, stripEncoded (fun _ _ => .runtime) editionFile = .ok out ∧
      HasField 1 out ∧ ¬ HasField 14 out := by
  obtain ⟨out, stripped, each⟩ :=
    hasField_stripEncoded_iff decode_editionFile (by decide) fun _ _ => .runtime
  obtain ⟨record', there, keeps⟩ := each [] .file editionFile rfl
  cases there
  obtain ⟨name, edition⟩ := hasValue_editionFile
  refine ⟨out, stripped, (keeps 1 (by decide) name).2 rfl, ?_⟩
  intro kept
  have known := (keeps 14 (by decide) edition).1 kept
  cases known

theorem stripEncoded_drops_edition :
    ¬ ∀ (resolve : Resolver) (bytes : List UInt8) (t : Tree), Tree.decode resolve bytes = .ok t →
      ∃ out, stripEncoded resolve bytes = .ok out ∧
        ∀ address kind record, recordAt? .file bytes address = some (kind, record) →
          ∃ record', recordAt? .file out address = some (kind, record') ∧
            ∀ number, number ≠ kind.optionsTag → HasValue number record → HasField number record' := by
  intro lossless
  obtain ⟨out, stripped, each⟩ := lossless _ _ _ decode_editionFile
  have dropped : stripEncoded (fun _ _ => .runtime) editionFile = .ok nameEntry.raw := by decide +kernel
  rw [dropped] at stripped
  cases stripped
  obtain ⟨record', there, keeps⟩ := each [] .file editionFile rfl
  cases there
  obtain ⟨e, mem, edition⟩ := keeps 14 (by decide) hasValue_editionFile.2
  have row : split nameEntry.raw = ([nameEntry], .complete) := by decide +kernel
  rw [row] at mem
  obtain rfl := List.mem_singleton.1 mem
  cases edition

end Descriptor

end CompilerPlugin

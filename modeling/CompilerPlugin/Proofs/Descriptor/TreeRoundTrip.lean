import CompilerPlugin.Proofs.Descriptor.Decoded
import CompilerPlugin.Proofs.Descriptor.Locations
import CompilerPlugin.Proofs.Descriptor.Shrunk
import CompilerPlugin.Proofs.Descriptor.TypedView
import CompilerPlugin.Proofs.Message.Canonical

namespace CompilerPlugin.Descriptor

open Wire Schema

namespace Node

theorem kind_stripped (n : Node) : n.stripped.kind = n.kind := by
  rw [stripped_eq, kind_mapOptions]

theorem record_stripped (n : Node) : n.stripped.record = n.record := by
  rw [stripped_eq, record_mapOptions]

theorem retagOptions_eq_self {resolve : Resolver} {kind : Kind} {options : Option OptionSet}
    (same : ∀ o, options = some o → ∀ f ∈ o.fields, f.retention = resolve kind f.number) :
    retagOptions resolve kind options = options := by
  cases options with
  | none => rfl
  | some o =>
    rw [retagOptions, Option.map_some, OptionSet.retag]
    congr
    conv => rhs; rw [← List.map_id o.fields]
    apply List.map_congr_left
    intro f mem
    rw [← same o rfl f mem]
    rfl

theorem retention_of_mem_retag {resolve : Resolver} {kind : Kind} {o : OptionSet} :
    ∀ f ∈ (o.retag resolve kind).fields, f.retention = resolve kind f.number := by
  intro f mem
  obtain ⟨g, -, rfl⟩ := List.mem_map.1 mem
  rfl

theorem retag_stripped_retag (resolve : Resolver) (n : Node) :
    (n.retag resolve).stripped.retag resolve = (n.retag resolve).stripped := by
  rw [stripped_retag, retag, mapOptions_mapOptions]
  congr 1
  funext kind options
  apply retagOptions_eq_self
  intro o' remains f mem
  obtain ⟨o, tagged, kept, -⟩ := exists_of_remaining_eq_some remains
  obtain ⟨before, -, rfl⟩ := Option.map_eq_some_iff.1 tagged
  exact retention_of_mem_retag f (kept f mem).1

theorem Readable.level {n : Node} (h : n.Readable) : n.Level := by
  cases h with
  | mk level _ => exact level

theorem Readable.withRecord {kind : Kind} {record record' : Message} {options : Option OptionSet}
    {rows : List (Slot × List Node)} (h : (Node.mk kind record options rows).Readable)
    (own : OwnRecord kind record') : (Node.mk kind record' options rows).Readable := by
  cases h with
  | mk level below => exact .mk ⟨own, level.options, level.slots, level.kinds, level.short⟩ below

end Node

theorem OwnRecord.only {kind : Kind} {m : Message} (h : OwnRecord kind m) (keep : Nat → Bool) :
    OwnRecord kind (m.only keep) where
  wellFormed := h.wellFormed.only keep fun _ mem _ => Kind.given mem
  owned part mem := h.owned part (List.mem_filter.1 mem).1
  announceable part mem := h.announceable part (List.mem_filter.1 mem).1

structure InfoReadable (info : Message) : Prop where
  wellFormed : Message.NestedWellFormed maxDepth .sourceCodeInfo info
  short : (Value.message info).encode.length < 2 ^ 64

def infoOf (locations : List Message) : Message :=
  Message.parts 1 (locations.map .message)

theorem messages_infoOf (locations : List Message) : (infoOf locations).messages 1 = locations :=
  Message.messages_eq (Message.values_parts_self 1 _)

theorem infoOf_messages {info : Message} (good : Message.NestedWellFormed maxDepth .sourceCodeInfo info) :
    infoOf (info.messages 1) = info := by
  have good : Message.WellFormed 99 .sourceCodeInfo info := good
  have one : info = Message.parts 1 (info.values 1) := by
    simpa [Message.Ordered, MessageType.fields, Field.subs] using good.ordered
  have messages : (info.messages 1).map Value.message = info.values 1 := by
    have all := good.allowed (.subs 1 "location" .location) (by decide)
    rw [Message.messages, List.map_filterMap]
    conv => rhs; rw [← List.filterMap_some (l := info.values 1)]
    apply List.filterMap_congr
    intro v mem
    cases all v mem with
    | message => rfl
    | word type | double type | text type | bytes type | words type => cases type
  rw [infoOf, messages, ← one]

theorem InfoReadable.filter {info : Message} (h : InfoReadable info) (keep : Message → Bool) :
    InfoReadable (infoOf ((info.messages 1).filter keep)) where
  wellFormed := by
    have good : Message.WellFormed 99 .sourceCodeInfo info := h.wellFormed
    have fewer : ∀ v ∈ ((info.messages 1).filter keep).map Value.message, v ∈ info.values 1 := by
      intro v mem
      obtain ⟨location, hl, rfl⟩ := List.mem_map.1 mem
      have there := List.mem_map_of_mem (f := Value.message) (List.mem_filter.1 hl).1
      have whole := congrArg (Message.values · 1) (infoOf_messages h.wellFormed)
      simp only [infoOf, Message.values_parts_self] at whole
      rwa [whole] at there
    suffices Message.WellFormed 99 .sourceCodeInfo (infoOf ((info.messages 1).filter keep)) from this
    refine Message.wellFormed_iff.2 ⟨?_, ?_, ?_⟩
    · simp [Message.Ordered, infoOf, MessageType.fields, Field.subs]
    · simp [MessageType.fields, Field.subs, Field.settle]
    · intro f mem v hv
      obtain rfl := List.mem_singleton.1 mem
      simp only [Field.subs, infoOf, Message.values_parts_self] at hv
      exact good.allowed _ mem v (fewer v hv)
  short := by
    have whole := h.short
    rw [← infoOf_messages h.wellFormed] at whole
    have shorter : (infoOf ((info.messages 1).filter keep)).encode.length ≤
        (infoOf (info.messages 1)).encode.length := by
      rw [Message.encode_eq_flatMap, Message.encode_eq_flatMap]
      exact (((List.filter_sublist.map Value.message).map (fun v => (1, v))).map Entry.ofPart
        |>.flatMap _).length_le
    have mono := Varint.length_encode_mono shorter
    simp only [Value.encode, length_encodeDelimited] at whole ⊢
    omega

theorem eq_sourceInfoField {f : Field} (mem : f ∈ MessageType.file.fields)
    (tag : f.number = sourceInfoTag) :
    f = .sub sourceInfoTag "source_code_info" .sourceCodeInfo :=
  MessageType.field_ext mem sourceInfoField_mem tag

theorem owns_infoEntries {info : Option Message} :
    ∀ e ∈ infoEntries info, Kind.file.owns e.key.number = true := by
  intro e mem
  cases info with
  | none => cases mem
  | some info =>
    obtain rfl := List.mem_singleton.1 mem
    rfl

namespace Tree

structure Readable (t : Tree) : Prop where
  root : t.root.Readable
  file : t.root.kind = .file
  apart : ∀ part ∈ t.root.record, part.1 ≠ sourceInfoTag
  info : ∀ info, t.sourceInfo = some info → InfoReadable info

def arrived (t : Tree) : Message :=
  t.root.record ++ (t.sourceInfo.toList.map .message |> Message.parts sourceInfoTag)

theorem encode_eq_entries (t : Tree) :
    t.encode = (t.root.entries ++ infoEntries t.sourceInfo).flatMap (·.raw) := by
  rw [encode, Node.encode_eq_entries, encodeSourceInfo_eq, List.flatMap_append]

theorem map_arrived (t : Tree) :
    t.arrived.map Entry.ofPart = t.root.record.map Entry.ofPart ++ infoEntries t.sourceInfo := by
  rw [arrived, List.map_append]
  cases t.sourceInfo <;> rfl

namespace Readable

variable {t : Tree} (h : t.Readable)

include h

theorem values_arrived_self :
    t.arrived.values sourceInfoTag = t.sourceInfo.toList.map .message := by
  rw [arrived, Message.values_append, Message.values_eq_nil h.apart, List.nil_append,
    Message.values_parts_self]

omit h in
theorem values_arrived_of_ne {number : Nat} (other : number ≠ sourceInfoTag) :
    t.arrived.values number = t.root.record.values number := by
  rw [arrived, Message.values_append, Message.values_parts_of_ne (Ne.symm other), List.append_nil]

theorem ownRecord : OwnRecord .file t.root.record :=
  h.file ▸ h.root.level.record

theorem settled : ∀ f ∈ MessageType.file.fields,
    f.settle (t.arrived.values f.number) = t.arrived.values f.number := by
  intro f mem
  rcases eq_or_ne f.number sourceInfoTag with tag | other
  · obtain rfl := eq_sourceInfoField mem tag
    rw [tag, h.values_arrived_self]
    cases t.sourceInfo <;> rfl
  · rw [values_arrived_of_ne other]
    exact h.ownRecord.wellFormed.settled f mem

theorem allowed : ∀ f ∈ MessageType.file.fields, ∀ v ∈ t.arrived.values f.number,
    f.Allows (Message.NestedWellFormed maxDepth) v := by
  intro f mem v hv
  rcases eq_or_ne f.number sourceInfoTag with tag | other
  · obtain rfl := eq_sourceInfoField mem tag
    rw [tag, h.values_arrived_self] at hv
    obtain ⟨info, some, rfl⟩ := List.mem_map.1 hv
    exact .message rfl (h.info info (Option.mem_toList.1 some)).wellFormed
  · rw [values_arrived_of_ne other] at hv
    exact h.ownRecord.wellFormed.allowed f mem v hv

theorem ofRow : Message.OfRow maxDepth .file []
    (t.root.record.map Entry.ofPart ++ infoEntries t.sourceInfo)
    (MessageType.file.canonical t.arrived) := by
  rw [← map_arrived]
  apply Message.ofRow_canonical (Nat.le_refl _) h.settled h.allowed
  · intro part mem
    rcases List.mem_append.1 mem with own | info
    · exact h.ownRecord.wellFormed.ordered.known part own
    · obtain ⟨v, -, rfl⟩ := List.mem_map.1 info
      rfl
  · intro part mem
    rcases List.mem_append.1 mem with own | info
    · exact h.ownRecord.announceable part own
    · obtain ⟨v, hv, rfl⟩ := List.mem_map.1 info
      obtain ⟨_, some, rfl⟩ := List.mem_map.1 hv
      exact (h.info _ (Option.mem_toList.1 some)).short

theorem ofNode_canonical (options : Option OptionSet) (rows : List (Slot × List Node)) :
    ofNode (.mk .file (MessageType.file.canonical t.arrived) options rows) =
      ⟨.mk .file t.root.record options rows, t.sourceInfo⟩ := by
  have ordered := Message.ordered_canonical .file t.arrived
  have record : Message.without (MessageType.file.canonical t.arrived) sourceInfoTag = t.root.record := by
    apply Message.Ordered.ext (ordered.only (· ≠ sourceInfoTag))
      h.ownRecord.wellFormed.ordered
    intro f mem
    rcases eq_or_ne f.number sourceInfoTag with tag | other
    · rw [tag, Message.values_eq_nil h.apart, Message.values_only]
      rfl
    · rw [Message.values_only, Message.values_canonical _ mem, h.settled f mem,
        values_arrived_of_ne other]
      simp [other]
  have info : Message.message? (MessageType.file.canonical t.arrived) sourceInfoTag = t.sourceInfo := by
    have values : Message.values (MessageType.file.canonical t.arrived) sourceInfoTag = _ :=
      (Message.values_canonical t.arrived sourceInfoField_mem).trans (h.settled _ sourceInfoField_mem)
    rw [Message.message?, Message.value?, values]
    rw [Field.sub, h.values_arrived_self]
    cases t.sourceInfo <;> rfl
  rw [ofNode, record, info]

theorem fits_infoEntries : ∀ e ∈ infoEntries t.sourceInfo, e.Fits maxDepth := by
  intro e mem
  cases some : t.sourceInfo with
  | none =>
    rw [some] at mem
    cases mem
  | some info =>
    rw [some] at mem
    obtain rfl := List.mem_singleton.1 mem
    have fits : (Entry.ofPart (sourceInfoTag, .message info)).Fits (99 + 1) :=
      Entry.fits_ofPart (by simp [sourceInfoTag]) (by simp [sourceInfoTag]) (h.info info some).short
    exact fits

theorem split_encode :
    split t.encode = (t.root.entries ++ infoEntries t.sourceInfo, .complete) := by
  rw [encode_eq_entries, split_flatMap fun e mem => ?_]
  exact (List.mem_append.1 mem).elim (h.root.level.fits e) (h.fits_infoEntries e)

theorem decode_encode (resolve : Resolver) : decode resolve t.encode = .ok (t.retag resolve) := by
  -- The source locations come last, so they are read as entries of the record after all others.
  have level := h.root.level
  have each : ∀ row ∈ t.root.rows, ∀ c ∈ row.2,
      Node.decode resolve row.1.kind c.encode = .ok (c.retag resolve) := by
    intro row hr c hc
    rw [← level.kinds row hr c hc]
    cases h.root with
    | mk _ below => exact (below row hr c hc).decode_encode resolve
  have own : ∀ e ∈ infoEntries t.sourceInfo, t.root.kind.owns e.key.number = true := by
    rw [h.file]
    exact owns_infoEntries
  have record : Message.OfRow maxDepth t.root.kind.recordType []
      (t.root.record.map Entry.ofPart ++ infoEntries t.sourceInfo)
      (MessageType.file.canonical t.arrived) := by
    rw [h.file]
    exact h.ofRow
  have row := (level.fromRow each h.fits_infoEntries own record).decode_eq_ok
  rw [← encode_eq_entries, h.file] at row
  rw [decode, row, Except.map, h.ofNode_canonical]
  obtain ⟨⟨kind, record, options, rows⟩, info⟩ := t
  obtain rfl : kind = .file := h.file
  rw [retag, Node.retag, Node.mapOptions_mk]
  rfl

end Readable

theorem readable_of_decode {resolve : Resolver} {bytes : List UInt8} {t : Tree}
    (h : decode resolve bytes = .ok t) (size : bytes.length < 2 ^ 63) : t.Readable := by
  obtain ⟨n, hn, rfl⟩ := decode_eq_ok_iff.1 h
  have file := Node.kind_of_decode hn
  have readable := (Node.readable_of_decode hn size).1
  obtain ⟨kind, record, options, rows⟩ := n
  obtain rfl : kind = .file := file
  have own : OwnRecord .file record := readable.level.record
  refine ⟨readable.withRecord (own.only (· ≠ sourceInfoTag)), rfl, ?_, ?_⟩
  · intro part mem
    exact of_decide_eq_true (List.mem_filter.1 mem).2
  · intro info some
    have held : .message info ∈ record.values sourceInfoTag := by
      rw [values_sourceInfo own.wellFormed]
      exact List.mem_map_of_mem (Option.mem_toList.2 some)
    refine ⟨?_, own.announceable _ (Message.mem_of_mem_values held)⟩
    cases own.wellFormed.allowed _ sourceInfoField_mem _ held with
    | message type good =>
      cases type
      exact good

theorem Readable.retag {t : Tree} (h : t.Readable) (resolve : Resolver) : (t.retag resolve).Readable where
  root := h.root.retag resolve
  file := by rw [Tree.retag, Node.retag, Node.kind_mapOptions, h.file]
  apart := by
    rw [Tree.retag, Node.retag, Node.record_mapOptions]
    exact h.apart
  info := h.info

theorem sourceInfo_strip {t : Tree} (h : t.Readable) :
    t.strip.sourceInfo = t.sourceInfo.map fun info =>
      infoOf ((info.messages 1).filter fun location => !t.removedSet.covers (addressOf location)) := by
  rw [strip]
  simp only
  cases some : t.sourceInfo with
  | none =>
    rw [infoPatch_of_none some]
    rfl
  | some info =>
    rw [infoPatch_eq some, pruneLocations]
    split
    · rename_i all
      have same := List.filter_eq_self.2 (List.length_filter_eq_length_iff.1 all)
      rw [Option.map_some, same, infoOf_messages (h.info info some).wellFormed]
      rfl
    · rfl

theorem Readable.strip {t : Tree} (h : t.Readable) : t.strip.Readable where
  root := by
    rw [root_strip]
    exact h.root.stripped
  file := by rw [root_strip, Node.kind_stripped, h.file]
  apart := by
    rw [root_strip, Node.record_stripped]
    exact h.apart
  info := by
    intro info some
    rw [sourceInfo_strip h] at some
    obtain ⟨before, there, rfl⟩ := Option.map_eq_some_iff.1 some
    exact (h.info before there).filter _

theorem root_strip_retag (resolve : Resolver) (t : Tree) :
    (t.retag resolve).strip.root = t.root.mapOptions (survivors resolve) := by
  rw [root_strip, retag, Node.stripped_retag]

theorem isSome_sourceInfo_strip {t : Tree} (h : t.Readable) :
    t.strip.sourceInfo.isSome = t.sourceInfo.isSome := by
  rw [sourceInfo_strip h, Option.isSome_map]

theorem retag_strip {resolve : Resolver} {t : Tree} (h : t.retag resolve = t) :
    t.strip.retag resolve = t.strip := by
  have root : t.root.retag resolve = t.root := congrArg Tree.root h
  have stripped : t.strip.root.retag resolve = t.strip.root := by
    rw [root_strip, ← root, Node.retag_stripped_retag]
  rw [retag, stripped]

/-- Reading undoes writing on every tree that was read and on what is left of it stripped: the same
bytes are written again, and they are the same tree again. -/
theorem decode_encode_of_decode {resolve : Resolver} {bytes : List UInt8} {t : Tree}
    (h : decode resolve bytes = .ok t) (size : bytes.length < 2 ^ 63) :
    ∀ s ∈ [t, t.strip], decode resolve s.encode = .ok s ∧
      (decode resolve s.encode).map encode = .ok s.encode := by
  have readable := readable_of_decode h size
  have same := retag_eq_self h
  have back : ∀ s ∈ [t, t.strip], decode resolve s.encode = .ok s := by
    simp only [List.forall_mem_cons, List.not_mem_nil, false_imp_iff, implies_true, and_true]
    constructor
    · rw [readable.decode_encode, same]
    · rw [readable.strip.decode_encode, retag_strip same]
  intro s mem
  refine ⟨back s mem, ?_⟩
  rw [back s mem]
  rfl

/-- A message that is a map entry and deprecated, after the source location of its deprecation. -/
def notedFirst : List UInt8 :=
  [0x4a, 0x08, 0x0a, 0x06, 0x0a, 0x04, 0x04, 0x00, 0x07, 0x03,
   0x22, 0x06, 0x3a, 0x04, 0x38, 0x01, 0x18, 0x01]

def notedFirstTree : Tree where
  root := .mk .file [] none (Kind.file.arrange
    [(⟨4, .message⟩, .mk .message [] (some ⟨[mapEntry, deprecated]⟩) (Kind.message.arrange []))])
  sourceInfo := some [(1, .message [(1, .words [4, 0, 7, 3])])]

theorem decode_notedFirst : decode deprecationGoes notedFirst = .ok notedFirstTree := by decide +kernel

theorem decode_encode_notedFirst :
    decode deprecationGoes notedFirst = .ok notedFirstTree ∧
      decode deprecationGoes notedFirstTree.encode = .ok notedFirstTree ∧
      decode deprecationGoes notedFirstTree.strip.encode = .ok notedFirstTree.strip := by
  have back := decode_encode_of_decode decode_notedFirst (by decide)
  exact ⟨decode_notedFirst, (back _ (by simp)).1, (back _ (by simp)).1⟩

end Tree

theorem stripEncoded_eq {resolve : Resolver} {bytes : List UInt8} {t : Tree}
    (h : Tree.decode resolve bytes = .ok t) (resolve' : Resolver) :
    stripEncoded resolve' bytes = .ok (t.retag resolve').strip.encode := by
  rw [stripEncoded, Tree.decode_retag resolve' h]
  rfl

end CompilerPlugin.Descriptor

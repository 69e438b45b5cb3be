import CompilerPlugin.Proofs.Descriptor.Declarations
import CompilerPlugin.Proofs.Descriptor.TypedView
import CompilerPlugin.Proofs.Request.Encoded

namespace CompilerPlugin

open Wire Schema

namespace Schema.Field

variable {nested : MessageType → Message → List UInt8 → Message → Prop} {f : Field}

theorem Gathers.exists_delimited (blobs : f.type = .scalar .bytes) {held values : List Value}
    {es : List Entry} (h : f.Gathers nested held es values) {p : List UInt8}
    (mem : .bytes p ∈ values) : .bytes p ∈ held ∨ ∃ e ∈ es, e.body = .delimited p := by
  induction h with
  | nil => exact .inl mem
  | @cons held added values e es head _ ih =>
    rcases ih mem with before | ⟨e', inRow, body⟩
    · rcases List.mem_append.1 before with before | new
      · exact .inl before
      · refine .inr ⟨e, List.mem_cons_self, ?_⟩
        generalize e.body = b at head
        cases head with
        | bytes => rw [Value.bytes.inj (List.mem_singleton.1 new)]
        | word => cases List.mem_singleton.1 new
        | message type | double type | text type | number type | numbers type =>
          rw [blobs] at type
          cases type
    · exact .inr ⟨e', List.mem_cons_of_mem _ inRow, body⟩

end Schema.Field

namespace Message

theorem length_lt_of_mem_blobs {t : MessageType} {bytes : List UInt8} {m : Message}
    (h : Message.decode t bytes = .ok m) (number : Nat) (name : String)
    (field : Field.many number name .bytes ∈ t.fields) {p : List UInt8} (mem : p ∈ m.blobs number) :
    p.length < bytes.length := by
  obtain ⟨es, fits, rfl, row⟩ := (readsAs_iff (Nat.le_refl _)).1 (decode_eq_ok.1 h)
  obtain ⟨values, gathers, held⟩ := row.gathered _ field
  obtain ⟨v, inValues, blob⟩ := List.mem_filterMap.1 mem
  have held : m.values number = values := held
  rw [held] at inValues
  cases v with
  | bytes b =>
    cases blob
    rcases gathers.exists_delimited rfl inValues with none | ⟨e, inRow, body⟩
    · cases none
    · have split := split_flatMap fits
      exact delimited_length_lt_of_mem_split (by rw [split]; exact (List.mem_filter.1 inRow).1) body
  | word | double | text | words | message => cases blob

end Message

namespace Request.Accepted

open Descriptor

variable {bytes : List UInt8} {a : Accepted}

def EncodesWithin (size : Nat) (bytes : List UInt8) (d : FileDescriptor) : Prop :=
  bytes.length < size ∧ Encodes bytes d

theorem encodesWithin (h : ofBytes bytes = .ok a) :
    List.Forall₂ (EncodesWithin bytes.length) a.encoded.protoFiles a.request.protoFiles ∧
      List.Forall₂ (EncodesWithin bytes.length) a.encoded.sourceFiles a.request.sourceFiles := by
  obtain ⟨once, twice⟩ := ofBytes_eq_ok_iff.1 h
  obtain ⟨encoded, again, files, sources⟩ := exists_encoded once
  obtain rfl : a.encoded = encoded := by simpa [twice] using again
  rw [EncodedDescriptors.decode] at twice
  cases read : Message.decode .encodedDescriptors bytes with
  | error e => simp [read, Except.map] at twice
  | ok m =>
    rw [read] at twice
    have eq : a.encoded = .ofMessage m := (Except.ok.inj twice).symm
    rw [eq] at files sources ⊢
    constructor
    · refine (List.forall₂_and_left _ _).2 ⟨fun p mem => ?_, files⟩
      exact Message.length_lt_of_mem_blobs read 15 "proto_file" (by decide) mem
    · refine (List.forall₂_and_left _ _).2 ⟨fun p mem => ?_, sources⟩
      exact Message.length_lt_of_mem_blobs read 17 "source_file_descriptors" (by decide) mem

theorem exists_declared {size : Nat}
    (files : List.Forall₂ (EncodesWithin size) a.encoded.protoFiles a.request.protoFiles) :
    ∃ declared, Declared.ofFiles a.encoded.protoFiles = .ok declared ∧ a.declared = .ok declared := by
  obtain ⟨trees, each⟩ := exists_mapM_eq_ok (f := Tree.decode fun _ _ => .runtime)
    (fun p d encodes => by
      obtain ⟨t, tree, -⟩ := exists_tree (fun _ _ => .runtime) encodes.2
      exact ⟨t, tree⟩) files
  have read : Declared.ofFiles a.encoded.protoFiles = .ok ⟨trees.flatMap Declared.ofTree⟩ := by
    rw [Declared.ofFiles, each]
    rfl
  refine ⟨_, read, ?_⟩
  rw [Accepted.declared, read]
  rfl

theorem descriptors_eq_error_iff {withSource : Bool} {e : Error} :
    a.descriptors withSource = .error e ↔
      e = .missingSourceRetentionData ∧ withSource = true ∧ a.request.sourceFiles = [] := by
  cases withSource with
  | false => simp [descriptors]
  | true =>
    cases sources : a.request.sourceFiles with
    | nil => simp [descriptors, sources, eq_comm]
    | cons => simp [descriptors, sources]

theorem descriptor?_eq_error_iff {path : String} {withSource : Bool} {e : Error} :
    a.descriptor? path withSource = .error e ↔
      e = .missingSourceRetentionData ∧ a.hasCopy path withSource = true ∧
        a.request.sourceFiles = [] := by
  rw [descriptor?, ← descriptors_eq_error_iff]
  cases a.descriptors (a.hasCopy path withSource) with
  | error e' => simp [bind, Except.bind]
  | ok ds => simp [bind, Except.bind, pure, Except.pure]

/-- Nothing in an accepted request turns out not to be a descriptor. The declarations of options can
always be read and are those of all its files, and a file has a tree exactly where it has a descriptor,
which the tree written back is; only copies that did not come can be missing. -/
theorem tree?_of_ofBytes (h : ofBytes bytes = .ok a) :
    (∃ declared, a.declared = .ok declared ∧
      ∀ kind number, declared.isSource kind number = true ↔
        ∃ file ∈ a.encoded.protoFiles, ∃ field,
          FieldWithin .file file field ∧ DeclaresSource field kind number) ∧
      ∀ path withSource,
        Alike (Option.Rel fun t d => bytes.length < 2 ^ 63 → t.toDescriptor = .ok d)
          (a.tree? path withSource) (a.descriptor? path withSource) ∧
        ∀ e, a.tree? path withSource = .error e ↔
          e = .missingSourceRetentionData ∧ a.hasCopy path withSource = true ∧
            a.request.sourceFiles = [] := by
  obtain ⟨files, sources⟩ := encodesWithin h
  obtain ⟨declared, collected, read⟩ := exists_declared files
  refine ⟨⟨declared, read, fun _ _ => Declared.isSource_iff collected⟩, fun path withSource => ?_⟩
  have alike : Alike (Option.Rel fun t d => bytes.length < 2 ^ 63 → t.toDescriptor = .ok d)
      (a.tree? path withSource) (a.descriptor? path withSource) := by
    have came := alike_encoded? files sources path withSource
    rw [tree?]
    generalize a.encoded? path withSource = encoded, a.descriptor? path withSource = decoded at came
    cases came with
    | error e => exact .error e
    | ok found =>
      cases found with
      | none => exact .ok .none
      | some encodes =>
        obtain ⟨t, tree, reads⟩ := exists_tree declared.resolver encodes.2
        rw [read]
        simp only [bind, Except.bind, tree, Except.mapError]
        refine .ok (.some fun size => Tree.toDescriptor_eq_ok.2 (reads ?_))
        exact Nat.lt_trans encodes.1 size
  exact ⟨alike, fun e => (alike.eq_error_iff e).trans descriptor?_eq_error_iff⟩

/-- A file that declares an option of messages and has it on one, in the second of two pieces, before its
name. A group that nothing knows comes last. -/
def declaringFile : List UInt8 :=
  [0x22, 0x0a, 0x3a, 0x04, 0x80, 0xb5, 0x18, 0x01, 0x3a, 0x02, 0x18, 0x01, 0x0a, 0x07, 0x61, 0x2e, 0x70,
   0x72, 0x6f, 0x74, 0x6f, 0x3a, 0x2a, 0x12, 0x1f, 0x2e, 0x67, 0x6f, 0x6f, 0x67, 0x6c, 0x65, 0x2e, 0x70,
   0x72, 0x6f, 0x74, 0x6f, 0x62, 0x75, 0x66, 0x2e, 0x4d, 0x65, 0x73, 0x73, 0x61, 0x67, 0x65, 0x4f, 0x70,
   0x74, 0x69, 0x6f, 0x6e, 0x73, 0x18, 0xd0, 0x86, 0x03, 0x42, 0x03, 0x88, 0x01, 0x02, 0xa3, 0x06, 0x08,
   0x01, 0xa4, 0x06]

def declaring : List UInt8 :=
  [0x0a, 0x07, 0x61, 0x2e, 0x70, 0x72, 0x6f, 0x74, 0x6f] ++ [0x7a, 0x47] ++ declaringFile

def declaringDescriptor : FileDescriptor :=
  [(1, .text "a.proto"),
   (4, .message [(7, .message [(3, .word 1)])]),
   (7, .message [(2, .text ".google.protobuf.MessageOptions"), (3, .word 50000), (8, .message [])])]

def declaringTree : Tree :=
  ⟨.mk .file [(1, .text "a.proto")] none
    (Kind.file.arrange
      [(⟨4, .message⟩,
        .mk .message []
          (some ⟨[⟨50000, .runtime, [⟨⟨50000, .varint⟩, .varint 1, [0x80, 0xb5, 0x18, 1]⟩]⟩,
            ⟨3, .runtime, [⟨⟨3, .varint⟩, .varint 1, [0x18, 1]⟩]⟩]⟩)
          (Kind.message.arrange [])),
       (⟨7, .field⟩,
        .mk .field [(2, .text ".google.protobuf.MessageOptions"), (3, .word 50000)]
          (some ⟨[⟨17, .runtime, [⟨⟨17, .varint⟩, .varint 2, [0x88, 1, 2]⟩]⟩]⟩) [])]), none⟩

theorem decode_declaringFile :
    Tree.decode (fun _ _ => .runtime) declaringFile = .ok declaringTree := by decide +kernel

theorem tree?_declaring :
    ∃ a t, ofBytes declaring = .ok a ∧ a.declared = .ok ⟨[(.message, 50000)]⟩ ∧
      (∃ field, FieldWithin .file declaringFile field ∧ DeclaresSource field .message 50000) ∧
      a.tree? "a.proto" false = .ok (some t) ∧ t.toDescriptor = .ok declaringDescriptor ∧
      a.tree? "a.proto" true = .error .missingSourceRetentionData := by
  have once : Request.decode declaring = .ok ⟨["a.proto"], none, none, [declaringDescriptor], []⟩ := by
    decide +kernel
  have twice : EncodedDescriptors.decode declaring = .ok ⟨[declaringFile], []⟩ := by
    decide +kernel
  let a : Accepted := ⟨_, ⟨[declaringFile], []⟩,
    (by rfl : Request.check ⟨["a.proto"], none, none, [declaringDescriptor], []⟩ = .ok ())⟩
  have accepted : ofBytes declaring = .ok a := ofBytes_eq_ok_iff.2 ⟨once, twice⟩
  obtain ⟨⟨d, read, declares⟩, trees⟩ := tree?_of_ofBytes accepted
  have declared : a.declared = .ok ⟨[(.message, 50000)]⟩ := by
    simp only [Accepted.declared, Declared.ofFiles, a, List.mapM_cons, List.mapM_nil,
      decode_declaringFile]
    rfl
  obtain rfl : ⟨[(.message, 50000)]⟩ = d := Except.ok.inj (declared.symm.trans read)
  have field := (declares .message 50000).1 (by decide)
  obtain ⟨alike, -⟩ := trees "a.proto" false
  have found : a.descriptor? "a.proto" false = .ok (some declaringDescriptor) := by rfl
  have missing : a.tree? "a.proto" true = .error .missingSourceRetentionData :=
    ((trees "a.proto" true).2 _).2 ⟨rfl, by decide, rfl⟩
  have size : declaring.length < 2 ^ 63 := by simp [declaring, declaringFile]
  rw [found] at alike
  generalize tree : a.tree? "a.proto" false = result at alike
  cases alike with
  | ok same =>
    cases same with
    | @some t _ back =>
      exact ⟨a, t, accepted, declared, by simpa [a] using field, tree, back (by decide), missing⟩

end Request.Accepted

end CompilerPlugin

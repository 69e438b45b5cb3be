import CompilerPlugin.Proofs.Message.Restrict
import CompilerPlugin.Request.Accepted
import Mathlib.Data.List.Forall2

namespace CompilerPlugin

open Wire Schema

def Encodes (bytes : List UInt8) (d : FileDescriptor) : Prop :=
  FileDescriptor.decode bytes = .ok d

namespace Schema.Field

variable {nested nested' : MessageType → Message → List UInt8 → Message → Prop} {f g : Field}
  {t : MessageType}

theorem Gathers.exists_payloads (messages : f.label = .repeated ∧ f.type = .message t)
    (blobs : g.type = .scalar .bytes) {held values : List Value} {es : List Entry}
    (h : f.Gathers nested held es values) :
    ∃ ps ms, values = held ++ ms.map .message ∧ List.Forall₂ (nested t []) ps ms ∧
      ∀ held', g.Gathers nested' held' es (held' ++ ps.map .bytes) := by
  induction h with
  | nil =>
    refine ⟨[], [], by simp, .nil, ?_⟩
    intro held'
    simpa using Gathers.nil
  | @cons held added values e es head _ ih =>
    obtain ⟨ps, ms, rfl, each, gathers⟩ := ih
    obtain ⟨p, m, body, rfl, reads⟩ := (holds_message_iff messages.2).1 head
    rw [before_of_repeated messages.1] at reads
    refine ⟨p :: ps, m :: ms, by simp, .cons reads each, ?_⟩
    intro held'
    have one : g.Holds nested' held' e.body [.bytes p] := by
      rw [body]
      exact .bytes blobs
    have rest := gathers (held' ++ [.bytes p])
    rw [List.append_assoc] at rest
    exact .cons one rest

end Schema.Field

namespace Message

theorem encodes_of_nestedReadsAs {bytes : List UInt8} {d : FileDescriptor}
    (h : NestedReadsAs maxDepth .file [] bytes d) : Encodes bytes d := by
  -- A descriptor in a request has one level of nesting less than one by itself.
  have reads : ReadsAs 99 .file [] bytes d := h
  exact decode_eq_ok.2 (reads.mono (by decide) (Nat.le_refl _))

theorem OfRow.exists_descriptors {es : List Entry} {m : Message}
    (row : OfRow maxDepth .request [] es m) (number : Nat) (name : String)
    (mem : Field.subs number name .file ∈ MessageType.request.fields) :
    ∃ ps, List.Forall₂ Encodes ps (m.messages number) ∧
      (Field.many number name .bytes).Gathers (NestedReadsAs maxDepth) []
        (es.filter (·.key.number = number)) (ps.map .bytes) := by
  obtain ⟨values, gathers, settled⟩ := row.gathered _ mem
  obtain ⟨ps, ms, rfl, each, again⟩ := gathers.exists_payloads (g := .many number name .bytes) ⟨rfl, rfl⟩ rfl
  have held : m.values number = ms.map .message := settled
  rw [messages_eq held]
  exact ⟨ps, each.imp fun _ _ => encodes_of_nestedReadsAs, again []⟩

theorem exists_encodedDescriptors {bytes : List UInt8} {m : Message}
    (h : Message.decode .request bytes = .ok m) :
    ∃ m', Message.decode .encodedDescriptors bytes = .ok m' ∧
      List.Forall₂ Encodes (m'.blobs 15) (m.messages 15) ∧
      List.Forall₂ Encodes (m'.blobs 17) (m.messages 17) := by
  obtain ⟨es, fits, rfl, row⟩ := (readsAs_iff (Nat.le_refl _)).1 (decode_eq_ok.1 h)
  obtain ⟨ps, all, gathers⟩ := row.exists_descriptors 15 "proto_file" (by decide)
  obtain ⟨qs, copies, gathers'⟩ := row.exists_descriptors 17 "source_file_descriptors" (by decide)
  let arrived : Message := parts 15 (ps.map .bytes) ++ parts 17 (qs.map .bytes)
  have files : arrived.values 15 = ps.map .bytes := by
    simp [arrived, values_parts_of_ne (show 17 ≠ 15 by decide)]
  have sources : arrived.values 17 = qs.map .bytes := by
    simp [arrived, values_parts_of_ne (show 15 ≠ 17 by decide)]
  let m' := MessageType.encodedDescriptors.canonical arrived
  have held {f : Field} (mem : f ∈ MessageType.encodedDescriptors.fields) :
      m'.values f.number = f.settle (arrived.values f.number) :=
    values_canonical arrived mem
  have row' : OfRow maxDepth .encodedDescriptors [] es m' := by
    refine ⟨fun e mem _ => fits e mem, ?_, ordered_canonical _ arrived⟩
    intro f mem
    refine ⟨arrived.values f.number, ?_, held mem⟩
    rcases List.mem_pair.1 mem with rfl | rfl
    · exact files ▸ gathers
    · exact sources ▸ gathers'
  have inFiles : m'.blobs 15 = ps :=
    blobs_eq ((held (f := .many 15 "proto_file" .bytes) (by decide)).trans files)
  have inSources : m'.blobs 17 = qs :=
    blobs_eq ((held (f := .many 17 "source_file_descriptors" .bytes) (by decide)).trans sources)
  refine ⟨m', decode_eq_ok.2 ((readsAs_iff (Nat.le_refl _)).2 ⟨es, fits, rfl, row'⟩), ?_, ?_⟩
  · rwa [inFiles]
  · rwa [inSources]

end Message

inductive Alike {ε α β : Type} (R : α → β → Prop) : Except ε α → Except ε β → Prop
  | error (e : ε) : Alike R (.error e) (.error e)
  | ok {a : α} {b : β} : R a b → Alike R (.ok a) (.ok b)

theorem Alike.eq_error_iff {ε α β : Type} {R : α → β → Prop} {x : Except ε α} {y : Except ε β}
    (h : Alike R x y) (e : ε) : x = .error e ↔ y = .error e := by
  cases h <;> simp

namespace Request

theorem accept_eq_ok_iff {r : Request} {encoded : EncodedDescriptors} {a : Accepted} :
    r.accept encoded = .ok a ↔ a.request = r ∧ a.encoded = encoded := by
  rw [accept]
  constructor
  · intro h
    split at h
    · cases h
    · cases h
      exact ⟨rfl, rfl⟩
  · rintro ⟨rfl, rfl⟩
    split
    · next v failed => simp [a.check_eq] at failed
    · rfl

namespace Accepted

variable {bytes : List UInt8} {a : Accepted}

theorem ofBytes_eq_ok_iff :
    ofBytes bytes = .ok a ↔
      Request.decode bytes = .ok a.request ∧ EncodedDescriptors.decode bytes = .ok a.encoded := by
  rw [ofBytes]
  cases Request.decode bytes with
  | error e => simp [Except.mapError, bind, Except.bind]
  | ok r =>
    cases EncodedDescriptors.decode bytes with
    | error e => simp [Except.mapError, bind, Except.bind]
    | ok encoded =>
      simp only [Except.mapError, bind, Except.bind, accept_eq_ok_iff, Except.ok.injEq]
      simp only [eq_comm]

theorem exists_encoded {r : Request} (h : Request.decode bytes = .ok r) :
    ∃ encoded, EncodedDescriptors.decode bytes = .ok encoded ∧
      List.Forall₂ Encodes encoded.protoFiles r.protoFiles ∧
      List.Forall₂ Encodes encoded.sourceFiles r.sourceFiles := by
  rw [Request.decode] at h
  cases read : Message.decode .request bytes with
  | error e => simp [read, Except.map] at h
  | ok m =>
    obtain ⟨m', again, files, sources⟩ := Message.exists_encodedDescriptors read
    rw [read] at h
    cases h
    exact ⟨.ofMessage m', by rw [EncodedDescriptors.decode, again]; rfl, files, sources⟩

theorem exists_ofBytes {r : Request} (h : Request.decode bytes = .ok r) (good : r.check = .ok ()) :
    ∃ a, ofBytes bytes = .ok a ∧ a.request = r := by
  obtain ⟨encoded, again, -⟩ := exists_encoded h
  exact ⟨⟨r, encoded, good⟩, ofBytes_eq_ok_iff.2 ⟨h, again⟩, rfl⟩

theorem lt_of_position? {ds : List FileDescriptor} {path : String} {i : Nat}
    (h : position? ds path = some i) : i < ds.length := by
  obtain ⟨⟨d, j⟩, last, rfl⟩ := Option.map_eq_some_iff.1 h
  have mem := (List.mem_filter.1 (List.mem_of_getLast? last)).1
  exact List.snd_lt_of_mem_zipIdx mem

theorem rel_find? {α β : Type} [Inhabited α] [Inhabited β] {R : α → β → Prop} {values : List α}
    {values' : List β} (each : List.Forall₂ R values values') {ds : List FileDescriptor}
    (length : ds.length = values.length) (path : String) :
    Option.Rel R (find? ds values path) (find? ds values' path) := by
  rw [find?, find?]
  cases found : position? ds path with
  | none => exact .none
  | some i =>
    have lt : i < values.length := length ▸ lt_of_position? found
    have lt' : i < values'.length := each.length_eq ▸ lt
    simp only [Option.map_some, getElem!_pos values i lt, getElem!_pos values' i lt']
    exact .some (each.get lt lt')

theorem rel_encodedDescriptors {R : List UInt8 → FileDescriptor → Prop}
    (files : List.Forall₂ R a.encoded.protoFiles a.request.protoFiles)
    (sources : List.Forall₂ R a.encoded.sourceFiles a.request.sourceFiles) {withSource : Bool}
    {ds : List FileDescriptor} (h : a.descriptors withSource = .ok ds) :
    List.Forall₂ R (a.encodedDescriptors withSource) ds := by
  cases withSource with
  | false =>
    cases h
    exact files
  | true =>
    simp only [descriptors, Bool.not_true, Bool.false_eq_true, if_false] at h
    split at h
    · cases h
    · cases h
      exact sources

theorem alike_encoded? {R : List UInt8 → FileDescriptor → Prop}
    (files : List.Forall₂ R a.encoded.protoFiles a.request.protoFiles)
    (sources : List.Forall₂ R a.encoded.sourceFiles a.request.sourceFiles) (path : String)
    (withSource : Bool) :
    Alike (Option.Rel R) (a.encoded? path withSource) (a.descriptor? path withSource) := by
  rw [encoded?, descriptor?]
  cases had : a.descriptors (a.hasCopy path withSource) with
  | error e => exact .error e
  | ok ds =>
    have each := rel_encodedDescriptors files sources had
    exact .ok (rel_find? each each.length_eq.symm path)

/-- Of a request that was accepted, every descriptor may be had as it came: at each place and under
each name the bytes are found where the decoded descriptor is, and missing where that is. -/
theorem encoded_of_ofBytes (h : ofBytes bytes = .ok a) :
    List.Forall₂ Encodes a.encoded.protoFiles a.request.protoFiles ∧
      List.Forall₂ Encodes a.encoded.sourceFiles a.request.sourceFiles ∧
      ∀ withSource,
        (∀ ds, a.descriptors withSource = .ok ds → ∀ path i, position? ds path = some i →
          i < ds.length ∧ i < (a.encodedDescriptors withSource).length) ∧
        (∀ path, Alike (Option.Rel Encodes) (a.encoded? path withSource)
          (a.descriptor? path withSource)) ∧
        Alike (List.Forall₂ Encodes) (a.encodedToGenerate withSource) (a.toGenerate withSource) := by
  obtain ⟨once, twice⟩ := ofBytes_eq_ok_iff.1 h
  obtain ⟨encoded, again, files, sources⟩ := exists_encoded once
  obtain rfl : a.encoded = encoded := by simpa [twice] using again
  have each {withSource : Bool} {ds : List FileDescriptor}
      (had : a.descriptors withSource = .ok ds) :
      List.Forall₂ Encodes (a.encodedDescriptors withSource) ds :=
    rel_encodedDescriptors files sources had
  have found {withSource : Bool} {ds : List FileDescriptor}
      (had : a.descriptors withSource = .ok ds) (path : String) :
      Option.Rel Encodes (find? ds (a.encodedDescriptors withSource) path) (find? ds ds path) :=
    rel_find? (each had) (each had).length_eq.symm path
  refine ⟨files, sources, fun withSource => ⟨?_, ?_, ?_⟩⟩
  · intro ds had path i at_
    have lt := lt_of_position? at_
    exact ⟨lt, (each had).length_eq ▸ lt⟩
  · intro path
    exact alike_encoded? files sources path withSource
  · rw [encodedToGenerate, toGenerate]
    cases had : a.descriptors withSource with
    | error e => exact .error e
    | ok ds =>
      have same : List.Forall₂ Eq a.filesToGenerate a.filesToGenerate := List.forall₂_refl _
      refine .ok (List.rel_filterMap ?_ same)
      rintro path _ rfl
      exact found had path

def withEdition : List UInt8 :=
  [10, 7, 97, 46, 112, 114, 111, 116, 111, 112, 232, 7]

def withOption : List UInt8 :=
  [10, 7, 97, 46, 112, 114, 111, 116, 111, 66, 4, 128, 181, 24, 1]

/-- A request for `a.proto` with an edition in its descriptor, and a custom option in the copy that keeps
source-only options. -/
def withCopies : List UInt8 :=
  [10, 7, 97, 46, 112, 114, 111, 116, 111] ++ [122, 12] ++ withEdition ++ [138, 1, 15] ++ withOption

theorem decode_withCopies :
    Request.decode withCopies =
      .ok ⟨["a.proto"], none, none, [[(1, .text "a.proto")]],
        [[(1, .text "a.proto"), (8, .message [])]]⟩ := by
  decide +kernel

theorem encoded_withCopies :
    ∃ a, ofBytes withCopies = .ok a ∧
      a.encoded? "a.proto" false = .ok (some withEdition) ∧
      a.encoded? "a.proto" true = .ok (some withOption) ∧
      a.encodedToGenerate true = .ok [withOption] ∧
      Encodes withEdition [(1, .text "a.proto")] ∧
      Encodes withOption [(1, .text "a.proto"), (8, .message [])] := by
  have twice : EncodedDescriptors.decode withCopies = .ok ⟨[withEdition], [withOption]⟩ := by decide +kernel
  let a : Accepted := ⟨_, ⟨[withEdition], [withOption]⟩, (by rfl : Request.check ⟨["a.proto"], none, none,
    [[(1, .text "a.proto")]], [[(1, .text "a.proto"), (8, .message [])]]⟩ = .ok ())⟩
  have accepted : ofBytes withCopies = .ok a := ofBytes_eq_ok_iff.2 ⟨decode_withCopies, twice⟩
  obtain ⟨files, sources, -⟩ := encoded_of_ofBytes accepted
  exact ⟨a, accepted, by rfl, by rfl, by rfl, (List.forall₂_cons.1 files).1,
    (List.forall₂_cons.1 sources).1⟩

end Accepted

end Request

end CompilerPlugin

import CompilerPlugin.Proofs.Descriptor.Agreement

namespace CompilerPlugin.Descriptor

open Wire Schema

def infoEntries : Option Message → List Entry
  | none => []
  | some info => [Entry.ofPart (sourceInfoTag, .message info)]

theorem encodeSourceInfo_eq (info : Option Message) :
    Tree.encodeSourceInfo info = (infoEntries info).flatMap (·.raw) := by
  cases info with
  | none => rfl
  | some info => simp [Tree.encodeSourceInfo, infoEntries, Entry.ofPart, Value.encode, Value.wireType]

theorem sourceInfoField_mem :
    Field.sub sourceInfoTag "source_code_info" .sourceCodeInfo ∈ MessageType.file.fields := by
  decide

theorem values_sourceInfo {depth : Nat} {m : Message} (good : Message.WellFormed depth .file m) :
    m.values sourceInfoTag = (m.message? sourceInfoTag).toList.map .message := by
  have settled := good.settled _ sourceInfoField_mem
  have allowed := good.allowed _ sourceInfoField_mem
  simp only [Field.sub, Field.settle] at settled allowed
  rw [Message.message?, Message.value?]
  cases last : (m.values sourceInfoTag).getLast? with
  | none => rw [List.getLast?_eq_none_iff.1 last]; rfl
  | some v =>
    rw [last] at settled
    have held := allowed v (List.mem_of_getLast? last)
    rw [← settled]
    cases held with
    | message => rfl
    | word type | double type | text type | bytes type | words type => cases type

theorem filter_entries_ofNode (resolve : Resolver) {depth : Nat} (le : depth ≤ maxDepth)
    {es : List Entry} {m : Message} (fits : ∀ e ∈ es, e.Fits maxDepth)
    (row : Message.OfRow depth Kind.file.recordType [] es m) (options : Option OptionSet) (number : Nat) :
    ((Tree.ofNode (nodeOfRow resolve .file es m options)).root.entries ++
        infoEntries (Tree.ofNode (nodeOfRow resolve .file es m options)).sourceInfo).filter
          (·.key.number = number) =
      (nodeOfRow resolve .file es m options).entries.filter (·.key.number = number) := by
  have info := values_sourceInfo (wellFormed_own le fits row)
  rw [filter_entries]
  simp only [nodeOfRow, Tree.ofNode, Node.entries, Node.record, Node.kind, Node.options, Node.rows,
    List.filter_append, Message.filter_map_ofPart]
  rcases eq_or_ne number sourceInfoTag with rfl | other
  · rw [Message.values_without_self, info, filter_optionsEntries_of_ne (by decide),
      filter_rowEntries_of_ne (by decide)]
    cases (m.only Kind.file.owns).message? sourceInfoTag with
    | none => rfl
    | some info => simp [infoEntries, Entry.ofPart]
  · rw [Message.values_without_of_ne _ other]
    cases (m.only Kind.file.owns).message? sourceInfoTag with
    | none => simp [infoEntries]
    | some info => simp [infoEntries, Entry.ofPart, Ne.symm other]

theorem Tree.toDescriptor_eq_ok {t : Tree} {d : FileDescriptor} :
    t.toDescriptor = .ok d ↔ Message.ReadsAs maxDepth .file [] t.encode d := by
  rw [Tree.toDescriptor, FileDescriptor.decode, ← Message.decode_eq_ok]
  cases Message.decode .file t.encode <;> simp [Except.mapError]

theorem exists_tree (resolve : Resolver) {bytes : List UInt8} {d : FileDescriptor}
    (h : FileDescriptor.decode bytes = .ok d) :
    ∃ t, Tree.decode resolve bytes = .ok t ∧
      (bytes.length < 2 ^ 63 → Message.ReadsAs maxDepth .file [] t.encode d) := by
  have le := Nat.le_refl maxDepth
  obtain ⟨es, fits, rfl, row⟩ := (Message.readsAs_iff le).1 (Message.decode_eq_ok.1 h)
  have row : Message.OfRow maxDepth Kind.file.recordType [] es d := row
  obtain ⟨options, hn, rewritten⟩ := exists_node le (agrees resolve le) fits row
  have same := filter_entries_ofNode resolve le fits row options
  refine ⟨Tree.ofNode (nodeOfRow resolve .file es d options), ?_, fun size => ?_⟩
  · rw [Tree.decode, hn]
    rfl
  · generalize Tree.ofNode (nodeOfRow resolve .file es d options) = t at same
    obtain ⟨fits', row', -⟩ := rewritten size
    -- The source locations moved to the end, but each number has the entries it had.
    have fits'' : ∀ e ∈ t.root.entries ++ infoEntries t.sourceInfo, e.Fits maxDepth := by
      intro e mem
      have kept : e ∈ (t.root.entries ++ infoEntries t.sourceInfo).filter
          (·.key.number = e.key.number) := List.mem_filter.2 ⟨mem, by simp⟩
      rw [same] at kept
      exact fits' e (List.mem_filter.1 kept).1
    have bytes : t.encode = (t.root.entries ++ infoEntries t.sourceInfo).flatMap (·.raw) := by
      rw [Tree.encode, Node.encode_eq_entries, encodeSourceInfo_eq, List.flatMap_append]
    exact (Message.readsAs_iff le).2 ⟨_, fits'', bytes, row'.congr same⟩

/-- The tree of a descriptor agrees with the typed reader. Whatever that accepts is read as a tree,
and the tree written back is the same descriptor to it; only a length of more than 63 bits could not
be announced again. -/
theorem toDescriptor_of_decode (resolve : Resolver) {bytes : List UInt8} {d : FileDescriptor}
    (h : FileDescriptor.decode bytes = .ok d) :
    ∃ t, Tree.decode resolve bytes = .ok t ∧ (bytes.length < 2 ^ 63 → t.toDescriptor = .ok d) := by
  obtain ⟨t, tree, reads⟩ := exists_tree resolve h
  exact ⟨t, tree, fun size => Tree.toDescriptor_eq_ok.2 (reads size)⟩

/-- A message before the name of its file, with options in two pieces, a length longer than it need
be, a group that nothing knows and numbers both one by one and in a row. -/
def scattered : List UInt8 :=
  [0x22, 0x23, 0x3a, 0x02, 0x18, 0x01, 0x0a, 0x01, 0x4d, 0x12, 0x0f, 0x0a, 0x01, 0x66, 0x18, 0xff,
   0xff, 0xff, 0xff, 0x0f, 0x42, 0x04, 0x80, 0xb5, 0x18, 0x01, 0x3a, 0x82, 0x00, 0x38, 0x01, 0xa3,
   0x06, 0x08, 0x01, 0xa4, 0x06, 0x0a, 0x01, 0x61, 0x52, 0x02, 0x01, 0x02, 0x50, 0x03]

def scatteredDescriptor : FileDescriptor :=
  [(1, .text "a"),
   (4, .message
     [(1, .text "M"),
      (2, .message [(1, .text "f"), (3, .word 0xffffffffffffffff), (8, .message [])]),
      (7, .message [(3, .word 1), (7, .word 1)])]),
   (10, .word 1), (10, .word 2), (10, .word 3)]

theorem toDescriptor_scattered :
    ∃ t, Tree.decode (fun _ _ => .source) scattered = .ok t ∧ t.toDescriptor = .ok scatteredDescriptor := by
  have decoded : FileDescriptor.decode scattered = .ok scatteredDescriptor := by decide +kernel
  obtain ⟨t, tree, back⟩ := toDescriptor_of_decode (fun _ _ => .source) decoded
  exact ⟨t, tree, back (by decide)⟩

end CompilerPlugin.Descriptor

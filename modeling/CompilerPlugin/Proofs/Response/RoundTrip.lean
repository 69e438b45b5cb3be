import CompilerPlugin.Proofs.Message.Assembled
import CompilerPlugin.Response.Basic

namespace CompilerPlugin

open Wire Schema Message

namespace CodeSpan

theorem wellFormed_toMessage (depth : Nat) (s : CodeSpan) : WellFormed depth .codeSpan s.toMessage := by
  apply Assembled.wellFormed
  simp only [toMessage, List.append_assoc]
  exact .cons (Field.filled_ints rfl rfl s.path) <|
    .cons (Field.filled_text? rfl rfl s.sourceFile) <|
    .cons (Field.filled_int? rfl rfl s.start) <|
    .single (Field.filled_int? rfl rfl s.stop)

theorem ofMessage_toMessage (s : CodeSpan) : ofMessage s.toMessage = s := by
  have path : s.toMessage.ints 1 = s.path := ints_eq (by simp [toMessage])
  have sourceFile : s.toMessage.text? 2 = s.sourceFile := text?_eq (by simp [toMessage])
  have start : s.toMessage.int? 3 = s.start := int?_eq (by simp [toMessage])
  have stop : s.toMessage.int? 4 = s.stop := int?_eq (by simp [toMessage])
  rw [ofMessage, path, sourceFile, start, stop]

end CodeSpan

namespace GeneratedCodeInfo

theorem wellFormed_toMessage (depth : Nat) (c : GeneratedCodeInfo) :
    WellFormed (depth + 1) .generatedCodeInfo c.toMessage :=
  Assembled.wellFormed <| .single <|
    Field.filled_of_repeated rfl (fun s => .message rfl (s.wellFormed_toMessage depth)) c.spans

theorem ofMessage_toMessage (c : GeneratedCodeInfo) : ofMessage c.toMessage = c := by
  have spans : c.toMessage.messages 1 = c.spans.map CodeSpan.toMessage :=
    messages_eq (by simp [toMessage])
  rw [ofMessage, spans, List.map_map]
  simp [Function.comp_def, CodeSpan.ofMessage_toMessage]

end GeneratedCodeInfo

namespace GeneratedFile

theorem wellFormed_toMessage (depth : Nat) (f : GeneratedFile) :
    WellFormed (depth + 2) .generatedFile f.toMessage := by
  apply Assembled.wellFormed
  simp only [toMessage, List.append_assoc]
  exact .cons (Field.filled_text? rfl rfl f.name) <|
    .cons (Field.filled_text? rfl rfl f.insertionPoint) <|
    .cons (Field.filled_text? rfl rfl f.content) <|
    .single <| Field.filled_of_optional rfl
      (fun c => .message rfl (c.wellFormed_toMessage depth)) f.generatedCodeInfo

theorem ofMessage_toMessage (f : GeneratedFile) : ofMessage f.toMessage = f := by
  have name : f.toMessage.text? 1 = f.name := text?_eq (by simp [toMessage])
  have insertionPoint : f.toMessage.text? 2 = f.insertionPoint := text?_eq (by simp [toMessage])
  have content : f.toMessage.text? 15 = f.content := text?_eq (by simp [toMessage])
  have info : f.toMessage.message? 16 = f.generatedCodeInfo.map GeneratedCodeInfo.toMessage :=
    message?_eq (by simp [toMessage])
  rw [ofMessage, name, insertionPoint, content, info, Option.map_map]
  simp [Function.comp_def, GeneratedCodeInfo.ofMessage_toMessage]

end GeneratedFile

namespace Response

theorem wellFormed_toMessage (depth : Nat) (r : Response) :
    WellFormed (depth + 3) .response r.toMessage := by
  apply Assembled.wellFormed
  simp only [toMessage, List.append_assoc]
  exact .cons (Field.filled_text? rfl rfl r.error) <|
    .cons (Field.filled_word? rfl rfl r.supportedFeatures) <|
    .cons (Field.filled_int? rfl rfl r.minimumEdition) <|
    .cons (Field.filled_int? rfl rfl r.maximumEdition) <|
    .single <| Field.filled_of_repeated rfl
      (fun f => .message rfl (f.wellFormed_toMessage depth)) r.files

theorem ofMessage_toMessage (r : Response) : ofMessage r.toMessage = r := by
  have error : r.toMessage.text? 1 = r.error := text?_eq (by simp [toMessage])
  have features : r.toMessage.word? 2 = r.supportedFeatures := word?_eq (by simp [toMessage])
  have minimum : r.toMessage.int? 3 = r.minimumEdition := int?_eq (by simp [toMessage])
  have maximum : r.toMessage.int? 4 = r.maximumEdition := int?_eq (by simp [toMessage])
  have files : r.toMessage.messages 15 = r.files.map GeneratedFile.toMessage :=
    messages_eq (by simp [toMessage])
  rw [ofMessage, error, features, minimum, maximum, files, List.map_map]
  simp [Function.comp_def, GeneratedFile.ofMessage_toMessage]

theorem decode_encode_of_announceable {r : Response} (size : r.toMessage.Announceable) :
    decode r.encode = .ok r := by
  have good : WellFormed maxDepth .response r.toMessage := r.wellFormed_toMessage 97
  have reads := good.readsAs_encode (Nat.le_refl _) size
  rw [decode, encode, decode_eq_ok.2 reads]
  exact congrArg Except.ok r.ofMessage_toMessage

theorem decode_encode (r : Response) (size : r.encode.length < 2 ^ 64) :
    decode r.encode = .ok r :=
  decode_encode_of_announceable (announceable_of_length size)

end Response

def GeneratedFile.numbers (f : GeneratedFile) : List Nat :=
  (f.name.map fun _ => 1).toList ++ (f.insertionPoint.map fun _ => 2).toList ++
    (f.content.map fun _ => 15).toList ++ (f.generatedCodeInfo.map fun _ => 16).toList

def GeneratedFile.encode (f : GeneratedFile) : List UInt8 :=
  Message.encode f.toMessage

namespace Response

def numbers (r : Response) : List Nat :=
  (r.error.map fun _ => 1).toList ++ (r.supportedFeatures.map fun _ => 2).toList ++
    (r.minimumEdition.map fun _ => 3).toList ++ (r.maximumEdition.map fun _ => 4).toList ++
    r.files.map fun _ => 15

end Response

namespace Message

theorem split_encode {depth : Nat} {t : MessageType} {m : Message} (h : WellFormed depth t m)
    (size : m.Announceable) : split m.encode = (m.map Entry.ofPart, .complete) := by
  rw [encode_eq_flatMap]
  exact split_flatMap (h.ordered.fits size)

theorem map_fst_part? {α : Type} (number : Nat) (g : α → Value) (value : Option α) :
    (part? number (value.map g)).map (·.1) = (value.map fun _ => number).toList := by
  cases value <;> rfl

end Message

theorem GeneratedFile.split_encode (f : GeneratedFile) (size : f.encode.length < 2 ^ 64) :
    ∃ row, split f.encode = (row, .complete) ∧ row.map (·.key.number) = f.numbers := by
  refine ⟨_, Message.split_encode (f.wellFormed_toMessage 0) (announceable_of_length size), ?_⟩
  rw [List.map_map]
  change f.toMessage.map (·.1) = f.numbers
  simp only [toMessage, numbers, List.map_append, map_fst_part?]

namespace Response

theorem values_files (r : Response) :
    r.toMessage.values 15 = r.files.map fun f => .message f.toMessage := by
  simp [toMessage]

theorem split_encode (r : Response) (size : r.encode.length < 2 ^ 64) :
    ∃ row, split r.encode = (row, .complete) ∧ row.map (·.key.number) = r.numbers ∧
      row.filter (·.key.number = 15) = r.files.map fun f => .delimited 15 f.encode := by
  refine ⟨_, Message.split_encode (r.wellFormed_toMessage 0) (announceable_of_length size), ?_, ?_⟩
  · rw [List.map_map]
    change r.toMessage.map (·.1) = r.numbers
    simp only [toMessage, numbers, List.map_append, map_fst_part?, parts, List.map_map]
    rfl
  · rw [filter_map_ofPart, values_files, List.map_map]
    rfl

/-- A response is read back whole from its bytes, so no other response has the same. On the wire a record
has exactly the fields that are there, and they are there even if they are empty. -/
theorem encode_faithful (r : Response) (size : r.encode.length < 2 ^ 64) :
    decode r.encode = .ok r ∧ (∀ other : Response, other.encode = r.encode → other = r) ∧
      (∃ row, split r.encode = (row, .complete) ∧ row.map (·.key.number) = r.numbers ∧
        row.filter (·.key.number = 15) = r.files.map fun f => .delimited 15 f.encode) ∧
      ∀ f ∈ r.files, ∃ row, split f.encode = (row, .complete) ∧
        row.map (·.key.number) = f.numbers := by
  refine ⟨decode_encode r size, fun other same => ?_, r.split_encode size, fun f mem => ?_⟩
  · have back : decode other.encode = .ok other := decode_encode other (same ▸ size)
    rw [same, decode_encode r size] at back
    exact (Except.ok.inj back).symm
  · have part : (15, .message f.toMessage) ∈ r.toMessage :=
      mem_of_mem_values (r.values_files ▸ List.mem_map.2 ⟨f, mem, rfl⟩)
    exact f.split_encode ((announceable_of_length size).length_of_mem part)

def sparse : Response where
  error := some ""
  supportedFeatures := some 0
  minimumEdition := some (-1)
  files :=
    [{ name := some "", generatedCodeInfo := some {} }, {},
      { content := some "é", generatedCodeInfo := some ⟨[{ path := [4, -1], start := some 0 }]⟩ }]

theorem encode_faithful_sparse :
    sparse.encode.length < 2 ^ 64 ∧ decode sparse.encode = .ok sparse ∧
      encode { sparse with error := none } ≠ sparse.encode ∧
      sparse.numbers = [1, 2, 3, 15, 15, 15] ∧
      ∃ row, split (GeneratedFile.encode { name := some "", generatedCodeInfo := some {} }) =
        (row, .complete) ∧ row.map (·.key.number) = [1, 16] := by
  have bytes : sparse.encode.length = 50 := by decide +kernel
  have size : sparse.encode.length < 2 ^ 64 := by rw [bytes]; decide
  obtain ⟨read, only, -, files⟩ := encode_faithful sparse size
  refine ⟨size, read, fun same => ?_, rfl, files _ List.mem_cons_self⟩
  have absent : none = some "" := congrArg Response.error (only _ same)
  cases absent

end Response

end CompilerPlugin

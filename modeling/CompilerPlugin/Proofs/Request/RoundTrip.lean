import CompilerPlugin.Proofs.Message.Assembled
import CompilerPlugin.Proofs.Message.Rereading
import CompilerPlugin.Proofs.Request.Trees

namespace CompilerPlugin

open Wire Schema Message

namespace Schema.Field

theorem filled_of_forall {f : Field} {depth : Nat} {values : List Value} (label : f.label = .repeated)
    (allowed : ∀ v ∈ values, f.Allows (NestedWellFormed depth) v) : f.Filled depth values :=
  ⟨by rw [settle, label], allowed⟩

end Schema.Field

namespace Version

theorem wellFormed_toMessage (depth : Nat) (v : Version) : WellFormed depth .version v.toMessage := by
  apply Assembled.wellFormed
  simp only [toMessage, List.append_assoc]
  exact .cons (Field.filled_int? rfl rfl v.major) <|
    .cons (Field.filled_int? rfl rfl v.minor) <|
    .cons (Field.filled_int? rfl rfl v.patch) <|
    .single (Field.filled_text? rfl rfl v.suffix)

theorem ofMessage_toMessage (v : Version) : ofMessage v.toMessage = v := by
  have major : v.toMessage.int? 1 = v.major := int?_eq (by simp [toMessage])
  have minor : v.toMessage.int? 2 = v.minor := int?_eq (by simp [toMessage])
  have patch : v.toMessage.int? 3 = v.patch := int?_eq (by simp [toMessage])
  have suffix : v.toMessage.text? 4 = v.suffix := text?_eq (by simp [toMessage])
  rw [ofMessage, major, minor, patch, suffix]

end Version

namespace Request

variable {r : Request} {depth : Nat}

/-- The descriptors in a request have the fields of their types and no others, each with what it may hold,
nested to whatever depth. -/
def Typed (r : Request) : Prop :=
  ∃ depth, ∀ d ∈ r.protoFiles ++ r.sourceFiles, WellFormed depth .file d

theorem texts_eq {m : Message} {number : Nat} {texts : List String}
    (h : m.values number = texts.map .text) : m.texts number = texts := by
  rw [Message.texts, h, List.filterMap_map]
  simp [Function.comp_def, Value.text?]

theorem wellFormed_toMessage (typed : ∀ d ∈ r.protoFiles ++ r.sourceFiles, WellFormed depth .file d) :
    WellFormed (depth + 1) .request r.toMessage := by
  have files (ds : List FileDescriptor) (sub : ds ⊆ r.protoFiles ++ r.sourceFiles) (f : Field)
      (type : f.type = .message .file) :
      ∀ v ∈ ds.map .message, f.Allows (NestedWellFormed (depth + 1)) v := by
    intro v mem
    obtain ⟨d, hd, rfl⟩ := List.mem_map.1 mem
    exact .message type (typed d (sub hd))
  apply Assembled.wellFormed
  simp only [toMessage, List.append_assoc]
  exact .cons (Field.filled_of_repeated rfl (fun _ => .text rfl) r.filesToGenerate) <|
    .cons (Field.filled_text? rfl rfl r.parameter) <|
    .cons (Field.filled_of_optional rfl (fun v => .message rfl (v.wellFormed_toMessage depth))
      r.compilerVersion) <|
    .cons (Field.filled_of_forall rfl (files _ (List.subset_append_left _ _) _ rfl)) <|
    .single (Field.filled_of_forall rfl (files _ (List.subset_append_right _ _) _ rfl))

theorem values_toMessage (r : Request) :
    r.toMessage.values 15 = r.protoFiles.map .message ∧
      r.toMessage.values 17 = r.sourceFiles.map .message := by
  simp [toMessage]

theorem ofMessage_toMessage (r : Request) : ofMessage r.toMessage = r := by
  have targets : r.toMessage.texts 1 = r.filesToGenerate := texts_eq (by simp [toMessage])
  have parameter : r.toMessage.text? 2 = r.parameter := text?_eq (by simp [toMessage])
  have version : r.toMessage.message? 3 = r.compilerVersion.map Version.toMessage :=
    message?_eq (by simp [toMessage])
  have files : r.toMessage.messages 15 = r.protoFiles := messages_eq r.values_toMessage.1
  have sources : r.toMessage.messages 17 = r.sourceFiles := messages_eq r.values_toMessage.2
  rw [ofMessage, targets, parameter, version, files, sources, Option.map_map]
  simp [Function.comp_def, Version.ofMessage_toMessage]

theorem decode_eq_ok_iff {bytes : List UInt8} :
    decode bytes = .ok r ↔ ∃ m, Message.decode .request bytes = .ok m ∧ ofMessage m = r := by
  rw [decode]
  cases Message.decode .request bytes <;> simp [Except.map]

theorem reads_of_decode {r' : Request} (typed : r.Typed) (decodes : decode r.encode = .ok r') :
    (∀ e ∈ r.toMessage.map Entry.ofPart, e.Fits maxDepth) ∧ decode r.encode = .ok r := by
  obtain ⟨depth, each⟩ := typed
  obtain ⟨m, read, -⟩ := decode_eq_ok_iff.1 decodes
  have good := wellFormed_toMessage each
  have reads : ReadsAs maxDepth .request [] r.toMessage.encode m := decode_eq_ok.1 read
  refine ⟨(row_of_readsAs_encode (Nat.le_refl _) good.ordered reads).1,
    decode_eq_ok_iff.2 ⟨r.toMessage, ?_, ?_⟩⟩
  · exact decode_eq_ok.2 (good.of_readsAs_encode (Nat.le_refl _) reads).2
  · exact r.ofMessage_toMessage

end Request

namespace EncodedDescriptors

def toMessage (e : EncodedDescriptors) : Message :=
  parts 15 (e.protoFiles.map .bytes) ++ parts 17 (e.sourceFiles.map .bytes)

theorem values_toMessage (e : EncodedDescriptors) :
    e.toMessage.values 15 = e.protoFiles.map .bytes ∧
      e.toMessage.values 17 = e.sourceFiles.map .bytes := by
  simp [toMessage]

theorem ofMessage_toMessage (e : EncodedDescriptors) : ofMessage e.toMessage = e := by
  rw [ofMessage, blobs_eq e.values_toMessage.1, blobs_eq e.values_toMessage.2]

theorem wellFormed_toMessage (depth : Nat) (e : EncodedDescriptors) :
    WellFormed depth .encodedDescriptors e.toMessage :=
  Assembled.wellFormed <|
    .cons (Field.filled_of_repeated rfl (fun _ => .bytes rfl) e.protoFiles) <|
    .single (Field.filled_of_repeated rfl (fun _ => .bytes rfl) e.sourceFiles)

theorem gathers_blobs {nested : MessageType → Message → List UInt8 → Message → Prop} {f : Field}
    (blobs : f.type = .scalar .bytes) {m : Message} {ds : List FileDescriptor}
    (values : m.values f.number = ds.map .message) :
    f.Gathers nested [] ((m.map Entry.ofPart).filter (·.key.number = f.number))
      ((ds.map Message.encode).map .bytes) := by
  rw [filter_map_ofPart, values, List.map_map, List.map_map, ← List.nil_append (ds.map _)]
  refine Field.gathers_of_forall₂ ?_ []
  exact List.forall₂_map_left_iff.2 (List.forall₂_map_right_iff.2
    (List.forall₂_same.2 fun d _ held => .bytes blobs))

theorem decode_encode {r : Request} (fits : ∀ e ∈ r.toMessage.map Entry.ofPart, e.Fits maxDepth) :
    decode r.encode = .ok (.ofRequest r) := by
  have row : OfRow maxDepth .encodedDescriptors [] (r.toMessage.map Entry.ofPart)
      (ofRequest r).toMessage := by
    refine ⟨fun e mem _ => fits e mem, fun f hf => ?_, ((ofRequest r).wellFormed_toMessage 0).ordered⟩
    obtain ⟨files, sources⟩ := (ofRequest r).values_toMessage
    rcases List.mem_pair.1 hf with rfl | rfl
    · exact ⟨_, gathers_blobs rfl r.values_toMessage.1, files⟩
    · exact ⟨_, gathers_blobs rfl r.values_toMessage.2, sources⟩
  have read : Message.decode .encodedDescriptors r.encode = .ok (ofRequest r).toMessage :=
    decode_eq_ok.2 ((readsAs_iff (Nat.le_refl _)).2 ⟨_, fits, encode_eq_flatMap _, row⟩)
  rw [decode, read]
  exact congrArg Except.ok (ofRequest r).ofMessage_toMessage

end EncodedDescriptors

namespace Request.Accepted

/-- A request and its own bytes come to the same. As long as the bytes can be read at all they are read as
the request, with each descriptor as it would be written by itself, and both are turned down for the same
violation or are the same to whoever asks. -/
theorem ofBytes_encode {r r' : Request} (typed : r.Typed) (decodes : Request.decode r.encode = .ok r') :
    EncodedDescriptors.decode r.encode = .ok (.ofRequest r) ∧ Request.decode r.encode = .ok r ∧
      ((∃ v, ofRequest r = .error (.request v) ∧ ofBytes r.encode = .error (.request v)) ∨
        ∃ a, ofRequest r = .ok a ∧ ofBytes r.encode = .ok a) := by
  obtain ⟨fits, once⟩ := reads_of_decode typed decodes
  have twice := EncodedDescriptors.decode_encode fits
  have same : ofBytes r.encode = ofRequest r := by
    rw [ofBytes, once, twice]
    rfl
  refine ⟨twice, once, ?_⟩
  rw [same, ofRequest, accept]
  split
  · next v _ => exact .inl ⟨v, rfl, rfl⟩
  · exact .inr ⟨_, rfl, rfl⟩

def declaringRequest : Request where
  filesToGenerate := ["a.proto"]
  parameter := some ""
  compilerVersion := some { minor := some (-1) }
  protoFiles := [declaringDescriptor]
  sourceFiles := [declaringDescriptor]

def unversioned : Request :=
  { declaringRequest with compilerVersion := none }

theorem typed_declaringRequest : declaringRequest.Typed := by
  have read : FileDescriptor.decode declaringDescriptor.encode = .ok declaringDescriptor := by decide +kernel
  have good : WellFormed maxDepth .file declaringDescriptor :=
    (decode_eq_ok.1 read).wellFormed (Nat.le_refl _) (.inl rfl)
  refine ⟨maxDepth, fun d mem => ?_⟩
  rcases List.mem_pair.1 mem with rfl | rfl <;> exact good

theorem ofBytes_encode_declaring :
    (EncodedDescriptors.decode declaringRequest.encode = .ok (.ofRequest declaringRequest) ∧
      ofBytes declaringRequest.encode = .error (.request (.negativeVersion .minor (-1)))) ∧
      ∃ a, ofRequest unversioned = .ok a ∧ ofBytes unversioned.encode = .ok a ∧
        a.encoded = .ofRequest unversioned := by
  constructor
  · have read : Request.decode declaringRequest.encode = .ok declaringRequest := by decide +kernel
    obtain ⟨twice, -, refused | ⟨a, accepted, -⟩⟩ := ofBytes_encode typed_declaringRequest read
    · obtain ⟨v, first, second⟩ := refused
      have violation : ofRequest declaringRequest = .error (.request (.negativeVersion .minor (-1))) := by
        rfl
      exact ⟨twice, second.trans (first.symm.trans violation)⟩
    · cases accepted.symm.trans (show ofRequest declaringRequest = .error _ by rfl)
  · have read : Request.decode unversioned.encode = .ok unversioned := by decide +kernel
    obtain ⟨twice, -, ⟨v, refused, -⟩ | ⟨a, first, second⟩⟩ :=
      ofBytes_encode (r := unversioned) typed_declaringRequest read
    · cases refused.symm.trans (show ofRequest unversioned = .ok _ by rfl)
    · have again := (ofBytes_eq_ok_iff.1 second).2
      exact ⟨a, first, second, Except.ok.inj (again.symm.trans twice)⟩

end Request.Accepted

end CompilerPlugin

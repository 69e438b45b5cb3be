import CompilerPlugin.Message.Basic
import CompilerPlugin.Wire.Entry

namespace CompilerPlugin

open Wire

namespace Value

def wireType : Value → WireType
  | .word _ => .varint
  | .double _ => .sixtyFourBit
  | .text _ | .bytes _ | .words _ | .message _ => .lengthDelimited

end Value

mutual

def Value.encode : Value → List UInt8
  | .word w => Varint.encode w.toNat
  | .double bits => toLittleEndian 8 bits.toNat
  | .text s => encodeDelimited s.toByteArray.data.toList
  | .bytes b => encodeDelimited b
  | .words ws => encodeDelimited (ws.flatMap fun w => Varint.encode w.toNat)
  | .message parts => encodeDelimited (Message.encode parts)

def Message.encode : Message → List UInt8
  | [] => []
  | (number, value) :: parts =>
    (Key.encode ⟨number, value.wireType⟩ ++ value.encode) ++ Message.encode parts

end

@[simp] theorem Message.encode_append (m m' : Message) :
    Message.encode (m ++ m') = Message.encode m ++ Message.encode m' := by
  induction m with
  | nil => simp [Message.encode]
  | cons part m ih =>
    obtain ⟨number, value⟩ := part
    simp [Message.encode, ih]

end CompilerPlugin

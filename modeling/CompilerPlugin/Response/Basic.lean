import CompilerPlugin.Message.Encode
import CompilerPlugin.Message.Decode

namespace CompilerPlugin

structure CodeSpan where
  path : List Int32 := []
  sourceFile : Option String := none
  start : Option Int32 := none
  stop : Option Int32 := none
deriving DecidableEq, Repr, Inhabited

namespace CodeSpan

def ofMessage (m : Message) : CodeSpan :=
  ⟨m.ints 1, m.text? 2, m.int? 3, m.int? 4⟩

def toMessage (s : CodeSpan) : Message :=
  let int (n : Int32) := Value.word (Word.ofInt32 n)
  let path := if s.path = [] then none else some (Value.words (s.path.map Word.ofInt32))
  Message.part? 1 path ++ Message.part? 2 (s.sourceFile.map .text) ++
    Message.part? 3 (s.start.map int) ++ Message.part? 4 (s.stop.map int)

end CodeSpan

structure GeneratedCodeInfo where
  spans : List CodeSpan := []
deriving DecidableEq, Repr, Inhabited

namespace GeneratedCodeInfo

def ofMessage (m : Message) : GeneratedCodeInfo :=
  ⟨(m.messages 1).map CodeSpan.ofMessage⟩

def toMessage (c : GeneratedCodeInfo) : Message :=
  Message.parts 1 (c.spans.map fun s => .message s.toMessage)

end GeneratedCodeInfo

/-- One record of the answer. Without a name it goes on with the file before it; with an insertion
point its content belongs into a file that another plugin made. -/
structure GeneratedFile where
  name : Option String := none
  insertionPoint : Option String := none
  content : Option String := none
  generatedCodeInfo : Option GeneratedCodeInfo := none
deriving DecidableEq, Repr, Inhabited

namespace GeneratedFile

def new (name content : String) : GeneratedFile :=
  { name, content }

def continuation (content : String) : GeneratedFile :=
  { content }

def insertion (name insertionPoint content : String) : GeneratedFile :=
  { name, insertionPoint, content }

def nameText (f : GeneratedFile) : String :=
  f.name.getD ""

def isInsertion (f : GeneratedFile) : Bool :=
  f.insertionPoint.getD "" ≠ ""

def ofMessage (m : Message) : GeneratedFile :=
  ⟨m.text? 1, m.text? 2, m.text? 15, (m.message? 16).map GeneratedCodeInfo.ofMessage⟩

def toMessage (f : GeneratedFile) : Message :=
  Message.part? 1 (f.name.map .text) ++ Message.part? 2 (f.insertionPoint.map .text) ++
    Message.part? 15 (f.content.map .text) ++
    Message.part? 16 (f.generatedCodeInfo.map fun c => .message c.toMessage)

end GeneratedFile

structure Response where
  error : Option String := none
  supportedFeatures : Option UInt64 := none
  minimumEdition : Option Int32 := none
  maximumEdition : Option Int32 := none
  files : List GeneratedFile := []
deriving DecidableEq, Repr, Inhabited

namespace Response

def ofError (message : String) : Response :=
  { error := message }

def ofMessage (m : Message) : Response :=
  ⟨m.text? 1, m.word? 2, m.int? 3, m.int? 4, (m.messages 15).map GeneratedFile.ofMessage⟩

def toMessage (r : Response) : Message :=
  let int (n : Int32) := Value.word (Word.ofInt32 n)
  Message.part? 1 (r.error.map .text) ++ Message.part? 2 (r.supportedFeatures.map .word) ++
    Message.part? 3 (r.minimumEdition.map int) ++ Message.part? 4 (r.maximumEdition.map int) ++
    Message.parts 15 (r.files.map fun f => .message f.toMessage)

def encode (r : Response) : List UInt8 :=
  Message.encode r.toMessage

def decode (bytes : List UInt8) : Except Wire.ReadError Response :=
  (Message.decode .response bytes).map ofMessage

end Response

end CompilerPlugin

import CompilerPlugin.Message.Encode
import CompilerPlugin.Message.Decode

namespace CompilerPlugin

structure Version where
  major : Option Int32 := none
  minor : Option Int32 := none
  patch : Option Int32 := none
  suffix : Option String := none
deriving DecidableEq, Repr

namespace Version

def ofMessage (m : Message) : Version :=
  ⟨m.int? 1, m.int? 2, m.int? 3, m.text? 4⟩

def toMessage (v : Version) : Message :=
  let int (n : Int32) := Value.word (Word.ofInt32 n)
  Message.part? 1 (v.major.map int) ++ Message.part? 2 (v.minor.map int) ++
    Message.part? 3 (v.patch.map int) ++ Message.part? 4 (v.suffix.map .text)

end Version

abbrev FileDescriptor := Message

namespace FileDescriptor

def name (d : FileDescriptor) : String :=
  (d.text? 1).getD ""

def dependencies (d : FileDescriptor) : List String :=
  d.texts 3

/-- The names of the messages at the top level, an absent one being empty. -/
def messageNames (d : FileDescriptor) : List String :=
  (d.messages 4).map fun m => (m.text? 1).getD ""

def ofNames (name package : Option String) (dependencies messages : List String) : FileDescriptor :=
  Message.part? 1 (name.map .text) ++ Message.part? 2 (package.map .text) ++
    Message.parts 3 (dependencies.map .text) ++
    Message.parts 4 (messages.map fun m => .message [(1, .text m)])

def decode (bytes : List UInt8) : Except Wire.ReadError FileDescriptor :=
  Message.decode .file bytes

end FileDescriptor

structure Request where
  filesToGenerate : List String := []
  parameter : Option String := none
  compilerVersion : Option Version := none
  protoFiles : List FileDescriptor := []
  sourceFiles : List FileDescriptor := []
deriving DecidableEq, Inhabited

namespace Request

def ofMessage (m : Message) : Request :=
  ⟨m.texts 1, m.text? 2, (m.message? 3).map Version.ofMessage, m.messages 15, m.messages 17⟩

def toMessage (r : Request) : Message :=
  Message.parts 1 (r.filesToGenerate.map .text) ++ Message.part? 2 (r.parameter.map .text) ++
    Message.part? 3 (r.compilerVersion.map fun v => .message v.toMessage) ++
    Message.parts 15 (r.protoFiles.map .message) ++ Message.parts 17 (r.sourceFiles.map .message)

def encode (r : Request) : List UInt8 :=
  Message.encode r.toMessage

def decode (bytes : List UInt8) : Except Wire.ReadError Request :=
  (Message.decode .request bytes).map ofMessage

end Request

/-- The descriptors of a request as bytes. Unlike decoded ones these keep custom options. -/
structure EncodedDescriptors where
  protoFiles : List (List UInt8)
  sourceFiles : List (List UInt8)
deriving DecidableEq, Repr

namespace EncodedDescriptors

def ofRequest (r : Request) : EncodedDescriptors :=
  ⟨r.protoFiles.map Message.encode, r.sourceFiles.map Message.encode⟩

def ofMessage (m : Message) : EncodedDescriptors :=
  ⟨m.blobs 15, m.blobs 17⟩

def decode (bytes : List UInt8) : Except Wire.ReadError EncodedDescriptors :=
  (Message.decode .encodedDescriptors bytes).map ofMessage

end EncodedDescriptors

end CompilerPlugin

import CompilerPlugin.Request.Violation
import CompilerPlugin.Response.Issue
import CompilerPlugin.Descriptor.Error

namespace CompilerPlugin

mutual

inductive Error where
  | request (violation : Request.Violation)
  | response (violation : Response.Violation)
  | decode (error : Wire.ReadError)
  | io (text : String)
  | unknownArguments (args : List String)
  | alreadyFinalized
  | missingSourceRetentionData
  | descriptor (error : Descriptor.TreeError)
  | exit (code : Int32)
  | handler (error : HandlerError)

inductive HandlerError where
  | text (text : String)
  | context (text : String) (source : HandlerError)
  | exit (code : Int32)
  | library (error : Error)

end

def exitMessage (code : Int32) : String :=
  "exit status " ++ toString code.toInt

def unknownArgumentsMessage : List String → String
  | [arg] => "unknown argument: " ++ arg
  | args => "unknown arguments: " ++ " ".intercalate args

mutual

def Error.message : Error → String
  | .request v => "CodeGeneratorRequest: " ++ v.message
  | .response v => "CodeGeneratorResponse: " ++ v.message
  | .decode e => "decode error: " ++ e.message
  | .io text => "io error: " ++ text
  | .unknownArguments args => unknownArgumentsMessage args
  | .alreadyFinalized => "CodeGeneratorResponse: already finalized"
  | .missingSourceRetentionData =>
    "source_file_descriptors not set on CodeGeneratorRequest but source-retention options " ++
      "requested - you likely need to upgrade your protobuf compiler"
  | .descriptor e => "CodeGeneratorRequest: " ++ e.message
  | .exit code => exitMessage code
  | .handler e => e.message

def HandlerError.message : HandlerError → String
  | .text text => text
  | .context text _ => text
  | .exit code => exitMessage code
  | .library e => e.message

end

namespace HandlerError

/-- The exit code that a chain of sources leads to. An error of a handler inside an error of this
library has no source, so nothing is found behind it. -/
def exitCode? : HandlerError → Option Int32
  | text _ => none
  | context _ source => source.exitCode?
  | exit code => some code
  | library (.exit code) => some code
  | library _ => none

/-- The error of the run when its handler fails. An exit code found by way of contexts counts for
more than their texts. -/
def toError (e : HandlerError) : Error :=
  match e with
  | library error => error
  | e =>
    match e.exitCode? with
    | some code => .exit code
    | none => .handler e

end HandlerError

/-- The exit code of a program that did not succeed, from the status the system reports: the second
byte when the program ended by itself, else 1. -/
def exitCodeOfStatus? (status : Int32) : Option Int32 :=
  let raw := status.toUInt32.toNat
  if raw = 0 then none
  else if raw % 128 = 0 then some (Int32.ofNat (raw / 256 % 256))
  else some 1

end CompilerPlugin

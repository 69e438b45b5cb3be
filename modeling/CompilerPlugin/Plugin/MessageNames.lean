import CompilerPlugin.Plugin.Run

namespace CompilerPlugin.Plugin.MessageNames

open Response (Writer)

def version : String := "0.1.0"

def options : Options :=
  ({} : Options).withVersion version

def content (d : FileDescriptor) : String :=
  String.join (d.messageNames.map (· ++ "\n"))

def write (call : Writer.Call) : ExceptT HandlerError Handling Unit :=
  .mk (.write call fun answer =>
    .done (match answer with
      | .ok _ => .ok ()
      | .error e => .error (.library e)))

def listNames (context : Context) : List FileDescriptor → ExceptT HandlerError Handling Unit
  | [] => return ()
  | d :: rest => do
    if context.cancelled then throw (.text "interrupted")
    write (.addFile (d.name ++ ".txt") (content d))
    listNames context rest

def generate (context : Context) (request : Request.Accepted) :
    ExceptT HandlerError Handling Unit := do
  write .proto3Optional
  match request.toGenerate false with
  | .error e => throw (.library e)
  | .ok ds => listNames context ds

def handler : Handler Unit := fun context request =>
  (generate context request).run.andThen fun result => .done ⟨(), result⟩

def process (env : Environment) : Exit :=
  Plugin.process env options handler

end CompilerPlugin.Plugin.MessageNames

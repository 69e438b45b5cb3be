import CompilerPlugin.Plugin.Handler

namespace CompilerPlugin.Plugin

structure Options where
  version : Option String := none
  warnings : WarningSink := .print
  mode : Response.Mode := .strict

namespace Options

def withVersion (o : Options) (version : String) : Options :=
  { o with version := if version = "" then none else some version }

def withMode (o : Options) (mode : Response.Mode) : Options :=
  { o with mode }

def collecting (o : Options) : Options :=
  { o with warnings := .collect }

/-- Settings may make the judgement milder, never stricter. -/
def withSettings (o : Options) (s : Settings) : Options :=
  match s.mode with
  | .lenient => o.withMode .lenient
  | .strict => o

def describe (o : Options) : String :=
  let version := match o.version with
    | some v => "Some(" ++ Text.quoted v ++ ")"
    | none => "None"
  "RunOptions \x7b version: " ++ version ++ ", warning_handler: " ++
    toString o.warnings.isHandler ++ ", mode: " ++ o.mode.name ++ " \x7d"

end Options

end CompilerPlugin.Plugin

import CompilerPlugin.Wire.Fault

namespace CompilerPlugin.Descriptor

/-- Either a fault of the wire, or an options message or a child that is said to be longer than what
is left of its record. -/
inductive TreeError where
  | decode (error : Wire.ReadError)
  | truncated
deriving DecidableEq, Repr

def TreeError.message : TreeError → String
  | .decode e => "malformed descriptor: " ++ e.message
  | .truncated => "malformed descriptor: length-delimited field overruns its message"

end CompilerPlugin.Descriptor

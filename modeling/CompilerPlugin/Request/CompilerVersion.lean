import CompilerPlugin.Request.Basic

namespace CompilerPlugin

/-- What is absent counts as 0, and so would a negative number. -/
structure CompilerVersion where
  major : Nat
  minor : Nat
  patch : Nat
  suffix : String
deriving DecidableEq, Repr

namespace CompilerVersion

def ofVersion (v : Version) : CompilerVersion :=
  let number (n : Option Int32) := (n.getD 0).toInt.toNat
  ⟨number v.major, number v.minor, number v.patch, v.suffix.getD ""⟩

/-- Up to version 3 a patch of zero is left out. -/
def release (v : CompilerVersion) : String :=
  if v.major ≤ 3 ∧ v.patch = 0 then toString v.major ++ "." ++ toString v.minor
  else toString v.major ++ "." ++ toString v.minor ++ "." ++ toString v.patch

def display (v : CompilerVersion) : String :=
  if v.suffix = "" then v.release else v.release ++ "-" ++ v.suffix

end CompilerVersion

end CompilerPlugin

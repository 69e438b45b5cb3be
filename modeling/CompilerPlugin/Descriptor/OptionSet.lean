import CompilerPlugin.Descriptor.Error
import CompilerPlugin.Descriptor.Kind
import CompilerPlugin.Wire.Split

/-!
An options message taken apart by field numbers. Nothing is known of the fields but their bytes, so
custom options are kept as they are.
-/

namespace CompilerPlugin.Descriptor

open Wire

structure OptionField where
  number : Nat
  retention : Retention
  entries : List Entry
deriving DecidableEq, Repr

namespace OptionField

def encoded (f : OptionField) : List UInt8 :=
  f.entries.flatMap (·.raw)

/-- What a number reads as: the last occurrence counts, and all must have the shape of one. -/
def varint? (f : OptionField) : Option UInt64 :=
  (f.entries.mapM fun (e : Entry) => e.body.varint?).bind List.getLast?

end OptionField

/-- Options in the order in which their numbers first occur. -/
structure OptionSet where
  fields : List OptionField
deriving DecidableEq, Repr

namespace OptionSet

def ofEntries (resolve : Resolver) (kind : Kind) (entries : List Entry) : OptionSet :=
  ⟨(entries.map (·.key.number)).eraseDups.map fun number =>
    { number
      retention := resolve kind number
      entries := entries.filter (·.key.number = number) }⟩

def decode (resolve : Resolver) (kind : Kind) (bytes : List UInt8) : Except TreeError OptionSet :=
  match split bytes with
  | (entries, .complete) => .ok (ofEntries resolve kind entries)
  | (_, .badKey e) => .error (.decode e)
  | (_, .badValue _ e) => .error (.decode e)

def get? (o : OptionSet) (number : Int) : Option OptionField :=
  o.fields.find? fun f => f.number = number

def isEmpty (o : OptionSet) : Bool :=
  o.fields.isEmpty

def encode (o : OptionSet) : List UInt8 :=
  o.fields.flatMap (·.encoded)

def keep (o : OptionSet) (retention : Retention) : OptionSet :=
  ⟨o.fields.filter (·.retention = retention)⟩

end OptionSet

end CompilerPlugin.Descriptor

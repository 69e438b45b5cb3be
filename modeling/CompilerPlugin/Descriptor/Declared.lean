import CompilerPlugin.Descriptor.Tree

namespace CompilerPlugin.Descriptor

structure Declared where
  source : List (Kind × Int)
deriving DecidableEq, Repr

def retentionTag : Int := 17

def retentionSource : UInt64 := 2

def Node.declares? (n : Node) : Option (Kind × Int) :=
  if n.kind = .field ∧
      ((n.options.bind (·.get? retentionTag)).bind (·.varint?)) = some retentionSource then
    (Kind.ofOptionsMessage? ((n.record.text? 2).getD "")).map fun kind =>
      (kind, ((n.record.int? 3).getD 0).toInt)
  else none

namespace Declared

def isSource (d : Declared) (kind : Kind) (number : Int) : Bool :=
  d.source.contains (kind, number)

def isEmpty (d : Declared) : Bool :=
  d.source.isEmpty

def resolver (d : Declared) : Resolver := fun kind number =>
  if d.isSource kind number then .source else .runtime

def ofTree (t : Tree) : List (Kind × Int) :=
  (t.root.preorder []).filterMap fun entry => entry.2.declares?

def ofFiles (files : List (List UInt8)) : Except TreeError Declared := do
  let trees ← files.mapM (Tree.decode fun _ _ => .runtime)
  return ⟨trees.flatMap ofTree⟩

end Declared

end CompilerPlugin.Descriptor

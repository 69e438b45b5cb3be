import CompilerPlugin.Descriptor.Tree
import CompilerPlugin.Descriptor.AddressTrie

/-!
A tree without the options that are kept in source only. What changes is said by patches: what has
nothing to remove stays the very thing it was. One walk through the tree makes the patch and collects
the addresses of what it removes.
-/

namespace CompilerPlugin.Descriptor

/-- What becomes of a node. A replaced one keeps its record. -/
inductive Patch where
  | keep
  | replace (options : Option OptionSet) (rows : List (List Patch))

namespace Patch

mutual

def apply : Patch → Node → Node
  | keep, n => n
  | replace options patches, .mk kind record _ rows =>
    .mk kind record options (applyRows patches rows)

def applyRows : List (List Patch) → List (Slot × List Node) → List (Slot × List Node)
  | patches :: rest, (slot, row) :: rows => (slot, applyRow patches row) :: applyRows rest rows
  | _, rows => rows

def applyRow : List Patch → List Node → List Node
  | p :: rest, n :: row => p.apply n :: applyRow rest row
  | _, row => row

end

mutual

def replaced (address : Address) : Patch → Node → List Address
  | keep, _ => []
  | replace _ patches, .mk _ _ _ rows => address :: replacedRows address patches rows

def replacedRows (address : Address) :
    List (List Patch) → List (Slot × List Node) → List Address
  | patches :: rest, (slot, row) :: rows =>
    replacedRow (address ++ [(slot.tag : Int)]) 0 patches row ++ replacedRows address rest rows
  | _, _ => []

def replacedRow (address : Address) (index : Nat) : List Patch → List Node → List Address
  | p :: rest, n :: row =>
    p.replaced (address ++ [(index : Int)]) n ++ replacedRow address (index + 1) rest row
  | _, _ => []

end

def kept (row : List Node) : List Patch :=
  row.map fun _ => keep

def keptRows (rows : List (Slot × List Node)) : List (List Patch) :=
  rows.map fun row => kept row.2

end Patch

/-- Where a walk through a tree stands, and what it has removed so far if that is asked for. -/
structure Walk where
  address : Address
  removed : Option AddressTrie

namespace Walk

def start (track : Bool) : Walk :=
  ⟨[], if track then some .empty else none⟩

/-- The step to the child with this index. Addresses are made of 32-bit numbers, and what is beyond
them has the largest. -/
def step (index : Int) : Int :=
  min index 2147483647

def enter {α : Type} (step : Int) (act : Walk → α × Walk) (w : Walk) : α × Walk :=
  let r := act { w with address := w.address ++ [step] }
  (r.1, { r.2 with address := r.2.address.dropLast })

def mark (w : Walk) : Walk :=
  { w with removed := w.removed.map fun removed => removed.insert w.address }

end Walk

inductive OptionsEdit where
  | unchanged
  | changed (options : Option OptionSet)

/-- Options that all go leave nothing behind, not even an empty message; what is removed is then the
options as a whole, else the single ones. -/
def stripOptions : Option OptionSet → Walk → OptionsEdit × Walk
  | none, w => (.unchanged, w)
  | some options, w =>
    let source := options.fields.filter (·.retention = .source)
    if source.length = 0 then (.unchanged, w)
    else if source.length = options.fields.length then (.changed none, w.mark)
    else
      (.changed (some (options.keep .runtime)),
        source.foldl (fun w f => (w.enter f.number fun w => ((), w.mark)).2) w)

namespace Node

/-- A row with one more node in it. The row is only written down once a node of it is replaced; those
before it then stay. -/
def extend (index : Nat) : Option (List Patch) → Patch → Option (List Patch)
  | none, .keep => none
  | none, .replace options rows => some (List.replicate index .keep ++ [.replace options rows])
  | some patches, p => some (patches ++ [p])

/-- All rows with a new one in its place. They are only copied once one of them changes. -/
def place (kept : List (List Patch)) (index : Nat) :
    Option (List (List Patch)) → Option (List Patch) → Option (List (List Patch))
  | rows, none => rows
  | rows, some row => some ((rows.getD kept).set index row)

def patch (options : Option OptionSet) (kept : List (List Patch)) :
    OptionsEdit → Option (List (List Patch)) → Patch
  | .unchanged, none => .keep
  | .unchanged, some rows => .replace options rows
  | .changed options, rows => .replace options (rows.getD kept)

mutual

def strip : Node → Walk → Patch × Walk
  | mk kind _ options rows, w =>
    let own := w.enter kind.optionsTag (stripOptions options)
    let below := stripRows (Patch.keptRows rows) 0 none rows own.2
    (patch options (Patch.keptRows rows) own.1 below.1, below.2)

def stripRows (kept : List (List Patch)) (index : Nat) (patches : Option (List (List Patch))) :
    List (Slot × List Node) → Walk → Option (List (List Patch)) × Walk
  | [], w => (patches, w)
  | (slot, row) :: rows, w =>
    let r := w.enter slot.tag (stripRow 0 none row)
    stripRows kept (index + 1) (place kept index patches r.1) rows r.2

def stripRow (index : Nat) (patches : Option (List Patch)) :
    List Node → Walk → Option (List Patch) × Walk
  | [], w => (patches, w)
  | n :: row, w =>
    let r := w.enter (Walk.step index) n.strip
    stripRow (index + 1) (extend index patches r.1) row r.2

end

end Node

inductive InfoPatch where
  | keep
  | replace (info : Message)

def InfoPatch.apply : InfoPatch → Option Message → Option Message
  | keep, info => info
  | replace info, _ => some info

namespace Tree

def pruneLocations (removed : AddressTrie) (info : Message) : InfoPatch :=
  let locations := info.messages 1
  let kept := locations.filter fun location => !removed.covers (addressOf location)
  if kept.length = locations.length then .keep
  else .replace (Message.parts 1 (kept.map .message))

def hasLocations (t : Tree) : Bool :=
  match t.sourceInfo with
  | some info => !(info.messages 1).isEmpty
  | none => false

def walk (t : Tree) : Patch × Walk :=
  t.root.strip (.start t.hasLocations)

def patch (t : Tree) : Patch :=
  t.walk.1

/-- A tree with nothing to remove stays as it is, source locations and all. -/
def infoPatch (t : Tree) : InfoPatch :=
  match t.walk with
  | (.keep, _) => .keep
  | (.replace _ _, w) =>
    match t.sourceInfo, w.removed with
    | some info, some removed => if removed.isEmpty then .keep else pruneLocations removed info
    | _, _ => .keep

def dropsLocation (t : Tree) : Bool :=
  match t.infoPatch with
  | .keep => false
  | .replace _ => true

def strip (t : Tree) : Tree :=
  ⟨t.patch.apply t.root, t.infoPatch.apply t.sourceInfo⟩

end Tree

def stripEncoded (resolve : Resolver) (bytes : List UInt8) : Except TreeError (List UInt8) :=
  (Tree.decode resolve bytes).map fun t => t.strip.encode

/-- Strips a descriptor that was decoded, and so has built-in options only. -/
def stripDescriptor (resolve : Resolver) (d : FileDescriptor) : Except TreeError FileDescriptor := do
  let t ← Tree.ofDescriptor resolve d
  t.strip.toDescriptor

end CompilerPlugin.Descriptor

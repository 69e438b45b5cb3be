import CompilerPlugin.Descriptor.OptionSet
import CompilerPlugin.Message.Encode

namespace CompilerPlugin.Descriptor

open Wire

/-- The record holds neither options nor children; those stand beside it, the children in one row
for each slot of the kind. -/
inductive Node where
  | mk (kind : Kind) (record : Message) (options : Option OptionSet)
      (rows : List (Slot × List Node))

namespace Node

def kind : Node → Kind
  | mk kind _ _ _ => kind

def record : Node → Message
  | mk _ record _ _ => record

def options : Node → Option OptionSet
  | mk _ _ options _ => options

def rows : Node → List (Slot × List Node)
  | mk _ _ _ rows => rows

/-- The record's name, empty for an absent one. An extension range has no name. -/
def name (n : Node) : String :=
  (n.record.text? 1).getD ""

def children (n : Node) (tag : Nat) : List Node :=
  match n.rows.find? (·.1.tag = tag) with
  | some (_, row) => row
  | none => []

def encodeOptions (kind : Kind) : Option OptionSet → List UInt8
  | none => []
  | some options => Key.encode ⟨kind.optionsTag, .lengthDelimited⟩ ++ encodeDelimited options.encode

mutual

def encode : Node → List UInt8
  | mk kind record options rows =>
    record.encode ++ encodeOptions kind options ++ encodeRows rows

def encodeRows : List (Slot × List Node) → List UInt8
  | [] => []
  | (slot, row) :: rest => encodeRow slot row ++ encodeRows rest

def encodeRow (slot : Slot) : List Node → List UInt8
  | [] => []
  | n :: rest =>
    Key.encode ⟨slot.tag, .lengthDelimited⟩ ++ encodeDelimited n.encode ++ encodeRow slot rest

end

mutual

def preorder (address : Address) : Node → List (Address × Node)
  | mk kind record options rows =>
    (address, mk kind record options rows) :: preorderRows address rows

def preorderRows (address : Address) : List (Slot × List Node) → List (Address × Node)
  | [] => []
  | (slot, row) :: rest => preorderRow (address ++ [(slot.tag : Int)]) 0 row ++ preorderRows address rest

def preorderRow (address : Address) (index : Nat) : List Node → List (Address × Node)
  | [] => []
  | n :: rest => n.preorder (address ++ [(index : Int)]) ++ preorderRow address (index + 1) rest

end

mutual

def same : Node → Node → Bool
  | mk kind record options rows, mk kind' record' options' rows' =>
    kind == kind' && record == record' && options == options' && sameRows rows rows'

def sameRows : List (Slot × List Node) → List (Slot × List Node) → Bool
  | [], [] => true
  | (slot, row) :: rest, (slot', row') :: rest' =>
    slot == slot' && sameRow row row' && sameRows rest rest'
  | _, _ => false

def sameRow : List Node → List Node → Bool
  | [], [] => true
  | n :: rest, n' :: rest' => n.same n' && sameRow rest rest'
  | _, _ => false

end

mutual

theorem same_iff : ∀ n n' : Node, n.same n' = true ↔ n = n'
  | mk _ _ _ rows, mk _ _ _ rows' => by simp [same, sameRows_iff rows rows', and_assoc]

theorem sameRows_iff : ∀ rows rows' : List (Slot × List Node), sameRows rows rows' = true ↔ rows = rows'
  | [], rows' => by cases rows' <;> simp [sameRows]
  | (_, row) :: rest, [] => by simp [sameRows]
  | (_, row) :: rest, (_, row') :: rest' => by
    simp [sameRows, sameRow_iff row row', sameRows_iff rest rest']

theorem sameRow_iff : ∀ row row' : List Node, sameRow row row' = true ↔ row = row'
  | [], row' => by cases row' <;> simp [sameRow]
  | n :: rest, [] => by simp [sameRow]
  | n :: rest, n' :: rest' => by simp [sameRow, same_iff n n', sameRow_iff rest rest']

end

instance : DecidableEq Node :=
  fun n n' => decidable_of_iff _ (same_iff n n')

end Node

end CompilerPlugin.Descriptor

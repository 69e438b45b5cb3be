import CompilerPlugin.Wire.Varint

namespace CompilerPlugin.Wire

structure Key where
  number : Nat
  wireType : WireType
deriving DecidableEq, Repr

namespace Key

/-- A key fits in 32 bits, its low three bits name a shape, and no field has number 0. -/
def ofWord (word : UInt64) : Except Fault Key :=
  if UInt32.size ≤ word.toNat then .error (.key word)
  else
    match WireType.ofCode? (word.toNat % 8) with
    | none => .error (.wireType (word.toNat % 8))
    | some wireType =>
      if word.toNat / 8 = 0 then .error .fieldNumber else .ok ⟨word.toNat / 8, wireType⟩

def encode (key : Key) : List UInt8 :=
  Varint.encode (key.number * 8 + key.wireType.code)

end Key

def readKey : Step Key :=
  readVarint.refine Key.ofWord

def ofLittleEndian : List UInt8 → Nat
  | [] => 0
  | b :: bs => b.toNat + 256 * ofLittleEndian bs

def toLittleEndian : (width n : Nat) → List UInt8
  | 0, _ => []
  | width + 1, n => UInt8.ofNat (n % 256) :: toLittleEndian width (n / 256)

theorem length_toLittleEndian (width n : Nat) : (toLittleEndian width n).length = width := by
  induction width generalizing n with
  | zero => rfl
  | succ width ih => simp [toLittleEndian, ih]

def readFixed64 : Step UInt64 :=
  (Step.take 8 (by decide)).map fun bytes => UInt64.ofNat (ofLittleEndian bytes)

def readFixed32 : Step UInt32 :=
  (Step.take 4 (by decide)).map fun bytes => UInt32.ofNat (ofLittleEndian bytes)

/-- The value of an entry. What a group holds is of no interest to anyone. -/
inductive Body where
  | varint (word : UInt64)
  | fixed64 (word : UInt64)
  | delimited (payload : List UInt8)
  | group
  | fixed32 (word : UInt32)
deriving DecidableEq, Repr

namespace Body

def varint? : Body → Option UInt64
  | varint word => some word
  | _ => none

def payload? : Body → Option (List UInt8)
  | delimited payload => some payload
  | _ => none

theorem payload?_eq_some {b : Body} {p : List UInt8} : b.payload? = some p ↔ b = delimited p := by
  cases b <;> simp [payload?]

end Body

def untilEndGroup (body : Key → Step Body) (number bound : Nat) (i : Input) (le : i.size ≤ bound) :
    Except ReadError { r : Input // r.size < bound } :=
  match readKey i with
  | .error e => .error e
  | .ok (key, r) =>
    if key.wireType = .endGroup then
      if key.number = number then .ok ⟨r.1, Nat.lt_of_lt_of_le r.2 le⟩
      else .error { fault := .strayEndGroup }
    else
      match body key r.1 with
      | .error e => .error e
      | .ok (_, r') =>
        untilEndGroup body number bound r'.1
          (Nat.le_trans (Nat.le_of_lt (r.size_lt r')) le)
termination_by i.size
decreasing_by exact r.size_lt r'

def readGroup (body : Key → Step Body) (number : Nat) : Step Body := fun i =>
  match untilEndGroup body number i.size i (Nat.le_refl _) with
  | .error e => .error e
  | .ok r => .ok (.group, r)

def readBody : (depth : Nat) → Key → Step Body
  | 0, _ => Step.fail .depth
  | depth + 1, key =>
    match key.wireType with
    | .varint => readVarint.map .varint
    | .sixtyFourBit => readFixed64.map .fixed64
    | .lengthDelimited => readDelimited.map .delimited
    | .startGroup => readGroup (readBody depth) key.number
    | .endGroup => Step.fail .strayEndGroup
    | .thirtyTwoBit => readFixed32.map .fixed32

def maxDepth : Nat := 100

end CompilerPlugin.Wire

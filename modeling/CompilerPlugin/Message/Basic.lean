import CompilerPlugin.Schema.Fields

/-!
Messages as values: the field occurrences that a message has, in the order of their numbers. What is
absent is not there; what is present may be empty. Numbers other than doubles are held as the 64-bit
words they are written as.
-/

namespace CompilerPlugin

inductive Value where
  | word (word : UInt64)
  | double (bits : UInt64)
  | text (text : String)
  | bytes (bytes : List UInt8)
  | words (words : List UInt64)
  | message (parts : List (Nat × Value))
deriving Repr, Inhabited

abbrev Part := Nat × Value

abbrev Message := List Part

namespace Word

/-- A 32-bit number is written with its sign in all 64 bits. -/
def ofInt32 (n : Int32) : UInt64 :=
  n.toInt64.toUInt64

def toInt32 (word : UInt64) : Int32 :=
  word.toUInt32.toInt32

theorem toInt32_ofInt32 (n : Int32) : toInt32 (ofInt32 n) = n := by
  apply Int32.toBitVec_inj.1
  have : (toInt32 (ofInt32 n)).toBitVec = (n.toBitVec.signExtend 64).setWidth 32 := by
    simp [toInt32, ofInt32]
  rw [this]
  ext i hi
  simp [BitVec.getElem_signExtend, hi, show i < 64 by omega]

end Word

namespace Value

def word? : Value → Option UInt64
  | .word w => some w
  | _ => none

def text? : Value → Option String
  | .text s => some s
  | _ => none

def bytes? : Value → Option (List UInt8)
  | .bytes b => some b
  | _ => none

def words? : Value → Option (List UInt64)
  | .words ws => some ws
  | _ => none

def message? : Value → Option Message
  | .message m => some m
  | _ => none

mutual

def same : Value → Value → Bool
  | .word v, .word w | .double v, .double w => v == w
  | .text s, .text t => s == t
  | .bytes b, .bytes c => b == c
  | .words vs, .words ws => vs == ws
  | .message ps, .message qs => sameParts ps qs
  | _, _ => false

def sameParts : List (Nat × Value) → List (Nat × Value) → Bool
  | [], [] => true
  | (number, v) :: ps, (number', w) :: qs => number == number' && v.same w && sameParts ps qs
  | _, _ => false

end

mutual

theorem same_iff : ∀ v w : Value, v.same w = true ↔ v = w
  | .message ps, w => by cases w <;> simp [same, sameParts_iff ps]
  | .word _, w | .double _, w | .text _, w | .bytes _, w | .words _, w => by
    cases w <;> simp [same]

theorem sameParts_iff : ∀ ps qs : List (Nat × Value), sameParts ps qs = true ↔ ps = qs
  | [], qs => by cases qs <;> simp [sameParts]
  | (_, v) :: ps, [] => by simp [sameParts]
  | (_, v) :: ps, (_, w) :: qs => by simp [sameParts, same_iff v w, sameParts_iff ps qs]

end

instance : DecidableEq Value :=
  fun v w => decidable_of_iff _ (same_iff v w)

end Value

namespace Message

def values (m : Message) (number : Nat) : List Value :=
  m.filterMap fun part => if part.1 = number then some part.2 else none

def value? (m : Message) (number : Nat) : Option Value :=
  (m.values number).getLast?

def word? (m : Message) (number : Nat) : Option UInt64 :=
  (m.value? number).bind Value.word?

def int? (m : Message) (number : Nat) : Option Int32 :=
  (m.word? number).map Word.toInt32

def text? (m : Message) (number : Nat) : Option String :=
  (m.value? number).bind Value.text?

def message? (m : Message) (number : Nat) : Option Message :=
  (m.value? number).bind Value.message?

def texts (m : Message) (number : Nat) : List String :=
  (m.values number).filterMap Value.text?

def blobs (m : Message) (number : Nat) : List (List UInt8) :=
  (m.values number).filterMap Value.bytes?

def messages (m : Message) (number : Nat) : List Message :=
  (m.values number).filterMap Value.message?

def ints (m : Message) (number : Nat) : List Int32 :=
  ((m.values number).filterMap Value.words?).flatten.map Word.toInt32

def without (m : Message) (number : Nat) : Message :=
  m.filter fun part => part.1 ≠ number

def part? (number : Nat) (value : Option Value) : Message :=
  value.toList.map fun v => (number, v)

def parts (number : Nat) (values : List Value) : Message :=
  values.map fun v => (number, v)

@[simp] theorem values_nil (number : Nat) : values [] number = [] := rfl

theorem values_cons (part : Part) (m : Message) (number : Nat) :
    values (part :: m) number =
      if part.1 = number then part.2 :: values m number else values m number := by
  by_cases h : part.1 = number <;> simp [values, h]

@[simp] theorem values_append (m m' : Message) (number : Nat) :
    values (m ++ m') number = values m number ++ values m' number := by
  simp [values]

theorem values_without_self (m : Message) (number : Nat) : (m.without number).values number = [] := by
  induction m with
  | nil => rfl
  | cons part m ih =>
    by_cases h : part.1 = number
    · simpa [without, h] using ih
    · simpa [without, h, values_cons] using ih

theorem values_without_of_ne (m : Message) {number other : Nat} (h : other ≠ number) :
    (m.without number).values other = m.values other := by
  induction m with
  | nil => rfl
  | cons part m ih =>
    by_cases hp : part.1 = number
    · have : part.1 ≠ other := fun e => h (e.symm.trans hp)
      simpa [without, hp, values_cons, this, Ne.symm h] using ih
    · simpa [without, hp, values_cons] using congrArg (fun l => if part.1 = other then part.2 :: l else l) ih

end Message

end CompilerPlugin

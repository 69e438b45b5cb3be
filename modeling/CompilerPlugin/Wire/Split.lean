import CompilerPlugin.Wire.Entry

namespace CompilerPlugin.Wire

structure Entry where
  key : Key
  body : Body
  raw : List UInt8
deriving DecidableEq, Repr

/-- How a row of entries ends: at the end of the bytes, at a key that cannot be read, or at a key
whose value cannot. -/
inductive Ending where
  | complete
  | badKey (error : ReadError)
  | badValue (key : Key) (error : ReadError)
deriving DecidableEq, Repr

def splitInput (i : Input) : List Entry × Ending :=
  if i.size = 0 then ([], .complete)
  else
    match readKey i with
    | .error e => ([], .badKey e)
    | .ok (key, r) =>
      match readBody maxDepth key r.1 with
      | .error e => ([], .badValue key e)
      | .ok (body, r') =>
        let rest := splitInput r'.1
        (⟨key, body, i.bytes.take (i.size - r'.1.size)⟩ :: rest.1, rest.2)
termination_by i.size
decreasing_by exact r.size_lt r'

/-- The complete entries in front, each value with a full allowance of nesting, and the ending. -/
def split (bytes : List UInt8) : List Entry × Ending :=
  splitInput (.ofBytes bytes)

theorem readDelimited_length_le {i : Input} {p : List UInt8} {r : Shorter i}
    (h : readDelimited i = .ok (p, r)) : p.length ≤ i.size := by
  unfold readDelimited at h
  split at h
  · cases h
  · rename_i n r' _
    split at h
    · cases h
      have := r'.2
      rw [List.length_take]
      omega
    · cases h

theorem readBody_delimited_length_le {depth : Nat} {key : Key} {i : Input} {p : List UInt8}
    {r : Shorter i} (h : readBody depth key i = .ok (.delimited p, r)) : p.length ≤ i.size := by
  cases depth with
  | zero => simp [readBody, Step.fail] at h
  | succ depth =>
    cases shape : key.wireType with
    | lengthDelimited =>
      simp only [readBody, shape, Step.map] at h
      split at h
      · cases h
      · rename_i hd
        cases h
        exact readDelimited_length_le hd
    | endGroup => simp [readBody, shape, Step.fail] at h
    | varint | sixtyFourBit | startGroup | thirtyTwoBit =>
      simp only [readBody, shape, Step.map, readGroup] at h
      split at h <;> cases h

theorem delimited_length_lt_of_mem_splitInput {i : Input} {e : Entry} {p : List UInt8}
    (mem : e ∈ (splitInput i).1) (body : e.body = .delimited p) : p.length < i.size := by
  induction h : i.size using Nat.strongRecOn generalizing i with
  | ind n ih =>
    subst h
    unfold splitInput at mem
    split at mem
    · simp at mem
    split at mem
    · simp at mem
    rename_i key r _
    split at mem
    · simp at mem
    rename_i hb
    rcases List.mem_cons.1 mem with rfl | mem
    · simp only at body
      subst body
      have := readBody_delimited_length_le hb
      have := r.2
      omega
    · rename_i r' _
      have step := ih r'.1.size (r.size_lt r') mem rfl
      exact Nat.lt_trans step (r.size_lt r')

theorem delimited_length_lt_of_mem_split {bytes : List UInt8} {e : Entry} {p : List UInt8}
    (mem : e ∈ (split bytes).1) (body : e.body = .delimited p) : p.length < bytes.length :=
  delimited_length_lt_of_mem_splitInput mem body

end CompilerPlugin.Wire

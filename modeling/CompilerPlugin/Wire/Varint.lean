import CompilerPlugin.Wire.Input

/-!
Numbers in groups of seven bits, the lowest first; all but the last byte have their high bit set.
A reader takes up to ten bytes, and of the tenth only its lowest bit, so that what it reads fits in
64 bits. Written numbers are as short as they can be; longer forms are read all the same.
-/

namespace CompilerPlugin.Wire

namespace Varint

def encode (n : Nat) : List UInt8 :=
  if n < 128 then [UInt8.ofNat n] else UInt8.ofNat (n % 128 + 128) :: encode (n / 128)
termination_by n
decreasing_by omega

/-- At most `limit` bytes; the last of them may hold a single bit. -/
def stepWithin : (limit : Nat) → Step Nat
  | 0 => Step.fail .varint
  | limit + 1 => fun i =>
    match Step.byte i with
    | .error _ => .error { fault := .varint }
    | .ok (b, r) =>
      if b.toNat < 128 then
        if limit = 0 ∧ 1 < b.toNat then .error { fault := .varint } else .ok (b.toNat, r)
      else
        match stepWithin limit r.1 with
        | .error e => .error e
        | .ok (high, r') => .ok (b.toNat - 128 + 128 * high, ⟨r'.1, r.size_lt r'⟩)

end Varint

def readVarint : Step UInt64 :=
  (Varint.stepWithin 10).map UInt64.ofNat

def readDelimited : Step (List UInt8) := fun i =>
  match readVarint i with
  | .error e => .error e
  | .ok (n, r) =>
    if n.toNat ≤ r.1.size then
      .ok (r.1.bytes.take n.toNat, ⟨r.1.drop n.toNat, Nat.lt_of_le_of_lt (Nat.sub_le _ _) r.2⟩)
    else .error { fault := .underflow }

/-- Repeats a step over as many bytes as the number before them says. Each step may look at all of
the input: it is only afterwards, when the end was missed, that the message is refused. -/
def delimited {σ : Type} (step : σ → Step σ) (s : σ) : Step σ := fun i =>
  match readVarint i with
  | .error e => .error e
  | .ok (n, r) =>
    if n.toNat ≤ r.1.size then
      let stop := r.1.size - n.toNat
      match Step.untilLeft step stop r.1.size s r.1 (Nat.le_refl _) with
      | .error e => .error e
      | .ok (s', r') =>
        if r'.1.size = stop then .ok (s', ⟨r'.1, Nat.lt_of_le_of_lt r'.2 r.2⟩)
        else .error { fault := .overrun }
    else .error { fault := .underflow }

def encodeDelimited (bytes : List UInt8) : List UInt8 :=
  Varint.encode bytes.length ++ bytes

namespace Varint

theorem encode_length_pos (n : Nat) : 0 < (encode n).length := by
  unfold encode
  split <;> simp

end Varint

end CompilerPlugin.Wire

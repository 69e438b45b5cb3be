import CompilerPlugin.Wire.Fault

/-!
Bytes to be read, and the steps that read them. Every step uses up at least one byte, and the rest
it hands on carries the proof, so a loop over steps ends by the size of what is left.
-/

namespace CompilerPlugin.Wire

structure Input where
  bytes : List UInt8
  size : Nat
  size_eq : bytes.length = size

namespace Input

def ofBytes (bytes : List UInt8) : Input :=
  ⟨bytes, bytes.length, rfl⟩

@[simp] theorem bytes_ofBytes (bytes : List UInt8) : (ofBytes bytes).bytes = bytes := rfl

@[simp] theorem size_ofBytes (bytes : List UInt8) : (ofBytes bytes).size = bytes.length := rfl

theorem ext {i j : Input} (h : i.bytes = j.bytes) : i = j := by
  obtain ⟨bs, n, hn⟩ := i
  obtain ⟨cs, m, hm⟩ := j
  obtain rfl : bs = cs := h
  subst hn hm
  rfl

@[simp] theorem ofBytes_bytes (i : Input) : ofBytes i.bytes = i :=
  ext rfl

def drop (i : Input) (n : Nat) : Input :=
  ⟨i.bytes.drop n, i.size - n, by rw [List.length_drop, i.size_eq]⟩

@[simp] theorem bytes_drop (i : Input) (n : Nat) : (i.drop n).bytes = i.bytes.drop n := rfl

@[simp] theorem size_drop (i : Input) (n : Nat) : (i.drop n).size = i.size - n := rfl

end Input

abbrev Shorter (i : Input) := { r : Input // r.size < i.size }

theorem Shorter.size_lt {i : Input} (r : Shorter i) (r' : Shorter r.1) : r'.1.size < i.size :=
  Nat.lt_trans r'.2 r.2

abbrev Step (α : Type) := (i : Input) → Except ReadError (α × Shorter i)

namespace Step

variable {α β σ : Type}

def fail (f : Fault) : Step α := fun _ => .error { fault := f }

def map (f : α → β) (s : Step α) : Step β := fun i =>
  match s i with
  | .error e => .error e
  | .ok (a, r) => .ok (f a, r)

def refine (s : Step α) (f : α → Except Fault β) : Step β := fun i =>
  match s i with
  | .error e => .error e
  | .ok (a, r) =>
    match f a with
    | .error fault => .error { fault }
    | .ok b => .ok (b, r)

def andThen (s : Step α) (f : α → Step β) : Step β := fun i =>
  match s i with
  | .error e => .error e
  | .ok (a, r) =>
    match f a r.1 with
    | .error e => .error e
    | .ok (b, r') => .ok (b, ⟨r'.1, r.size_lt r'⟩)

def inField (field : String) (s : Step α) : Step α := fun i =>
  match s i with
  | .error e => .error (e.inField field)
  | .ok (a, r) => .ok (a, r)

def byte : Step UInt8 := fun i =>
  match h : i.bytes with
  | [] => .error { fault := .underflow }
  | b :: _ => .ok (b, ⟨i.drop 1, by
      have := i.size_eq
      rw [h, List.length_cons] at this
      simp only [Input.size_drop]
      omega⟩)

def take (n : Nat) (positive : 0 < n) : Step (List UInt8) := fun i =>
  if h : n ≤ i.size then
    .ok (i.bytes.take n, ⟨i.drop n, by simp only [Input.size_drop]; omega⟩)
  else .error { fault := .underflow }

/-- Repeats a step until at most `stop` bytes are left. The bound only travels along: it says that
the rest is no longer than the input the loop began with. -/
def untilLeft (step : σ → Step σ) (stop bound : Nat) (s : σ) (i : Input) (le : i.size ≤ bound) :
    Except ReadError (σ × { r : Input // r.size ≤ bound }) :=
  if i.size ≤ stop then .ok (s, ⟨i, le⟩)
  else
    match step s i with
    | .error e => .error e
    | .ok (s', r) => untilLeft step stop bound s' r.1 (Nat.le_trans (Nat.le_of_lt r.2) le)
termination_by i.size
decreasing_by exact r.2

end Step

def readAll {σ : Type} (step : σ → Step σ) (s : σ) (bytes : List UInt8) : Except ReadError σ :=
  match Step.untilLeft step 0 bytes.length s (.ofBytes bytes) (Nat.le_refl _) with
  | .error e => .error e
  | .ok (s', _) => .ok s'

end CompilerPlugin.Wire

namespace CompilerPlugin

structure Features where
  proto3Optional : Bool := false
  supportsEditions : Bool := false
deriving DecidableEq, Repr

structure UnknownFeatures where
  bits : UInt64
deriving DecidableEq, Repr

def UnknownFeatures.message (u : UnknownFeatures) : String :=
  "unknown CodeGeneratorResponse.Features: " ++ String.ofList (Nat.toDigits 2 u.bits.toNat)

namespace Features

def none : Features := ⟨false, false⟩

def bits (f : Features) : UInt64 :=
  (if f.proto3Optional then 1 else 0) + (if f.supportsEditions then 2 else 0)

def ofBits (mask : UInt64) : Except UnknownFeatures Features :=
  if mask = 0 then .ok none
  else if mask = 1 then .ok ⟨true, false⟩
  else if mask = 2 then .ok ⟨false, true⟩
  else if mask = 3 then .ok ⟨true, true⟩
  else .error ⟨mask⟩

def union (f g : Features) : Features :=
  ⟨f.proto3Optional || g.proto3Optional, f.supportsEditions || g.supportsEditions⟩

def names (f : Features) : List String :=
  (if f.proto3Optional then ["PROTO3_OPTIONAL"] else []) ++
    (if f.supportsEditions then ["SUPPORTS_EDITIONS"] else [])

theorem ofBits_bits (f : Features) : ofBits f.bits = .ok f := by
  obtain ⟨a, b⟩ := f
  cases a <;> cases b <;> rfl

theorem bits_of_ofBits {mask : UInt64} {f : Features} (h : ofBits mask = .ok f) : f.bits = mask := by
  unfold ofBits at h
  split at h
  · subst mask; cases h; rfl
  split at h
  · subst mask; cases h; rfl
  split at h
  · subst mask; cases h; rfl
  split at h
  · subst mask; cases h; rfl
  · cases h

theorem ofBits_of_lt {mask : UInt64} (unknown : 3 < mask) : ofBits mask = .error ⟨mask⟩ := by
  rw [ofBits, if_neg, if_neg, if_neg, if_neg] <;> rintro rfl <;> exact absurd unknown (by decide)

theorem exists_ofBits {mask : UInt64} (known : mask ≤ 3) : ∃ f, ofBits mask = .ok f := by
  have named : mask = 0 ∨ mask = 1 ∨ mask = 2 ∨ mask = 3 := by grind
  rcases named with rfl | rfl | rfl | rfl <;> exact ⟨_, rfl⟩

theorem bits_and_two (f : Features) : f.bits &&& 2 = 0 ↔ f.supportsEditions = false := by
  obtain ⟨a, b⟩ := f
  cases a <;> cases b <;> decide

theorem bits_union (f g : Features) : (f.union g).bits = f.bits ||| g.bits := by
  obtain ⟨a, b⟩ := f
  obtain ⟨c, d⟩ := g
  cases a <;> cases b <;> cases c <;> cases d <;> rfl

end Features

inductive Edition where
  | unknown | legacy | proto2 | proto3 | edition2023 | edition2024 | max
deriving DecidableEq, Repr

namespace Edition

def all : List Edition :=
  [unknown, legacy, proto2, proto3, edition2023, edition2024, max]

def number : Edition → Int
  | unknown => 0
  | legacy => 900
  | proto2 => 998
  | proto3 => 999
  | edition2023 => 1000
  | edition2024 => 1001
  | max => 2147483647

def name : Edition → String
  | unknown => "Unknown"
  | legacy => "Legacy"
  | proto2 => "Proto2"
  | proto3 => "Proto3"
  | edition2023 => "Edition2023"
  | edition2024 => "Edition2024"
  | max => "Max"

def ofNumber? (n : Int) : Option Edition :=
  all.find? (·.number = n)

def before (e f : Edition) : Bool :=
  e.number < f.number

end Edition

end CompilerPlugin

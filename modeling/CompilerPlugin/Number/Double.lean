import CompilerPlugin.Number.Decimal

/-!
Doubles in exact arithmetic: the double nearest to a decimal, and the shortest decimal that is
nearer to a double than to any other.
-/

namespace CompilerPlugin.Number

structure Double where
  negative : Bool
  magnitude : Option (Nat × Int)
deriving DecidableEq, Repr

def overPower (num den : Nat) (exponent : Int) : Nat × Nat :=
  if 0 ≤ exponent then (num, den <<< exponent.toNat) else (num <<< (-exponent).toNat, den)

def roundHalfEven (num den : Nat) : Nat :=
  let whole := num / den
  let rest := 2 * (num % den)
  if rest < den ∨ (rest = den ∧ whole % 2 = 0) then whole else whole + 1

namespace Double

def mantissaBits : Nat := 53

def mantissaBound : Nat := 1 <<< mantissaBits

def minExponent : Int := -1074

def maxExponent : Int := 971

def exponentOf (num den : Nat) : Int :=
  let guess := max ((Nat.log2 num : Int) - Nat.log2 den - mantissaBits) minExponent
  let scaled := overPower num den guess
  if mantissaBound ≤ scaled.1 / scaled.2 then guess + 1 else guess

def nearest (num den : Nat) : Option (Nat × Int) :=
  let exponent := exponentOf num den
  let scaled := overPower num den exponent
  let mantissa := roundHalfEven scaled.1 scaled.2
  let carried :=
    if mantissa = mantissaBound then (mantissaBound / 2, exponent + 1)
    else (mantissa, exponent)
  if maxExponent < carried.2 then none else some carried

/-- The double nearest to a decimal. Decimals far outside the range are not worked out. -/
def ofDecimal (d : Decimal) : Double :=
  let leading := d.exponent + (Nat.toDigits 10 d.digits).length
  if d.digits = 0 ∨ leading < -330 then ⟨d.negative, some (0, 0)⟩
  else if 310 < leading then ⟨d.negative, none⟩
  else if 0 ≤ d.exponent then ⟨d.negative, nearest (d.digits * Nat.pow 10 d.exponent.toNat) 1⟩
  else ⟨d.negative, nearest d.digits (Nat.pow 10 (-d.exponent).toNat)⟩

/-- The point of the grid of multiples of `10 ^ place` that lies nearest to a magnitude among those
which are read back as it; halfway between two, the larger. Everything is counted in quarters of the
last binary place; an even mantissa owns the bounds of its interval. -/
def onGrid? (mantissa : Nat) (exponent place : Int) : Option Nat :=
  let quarter := exponent - 2
  let unit := Nat.pow 10 (-place).toNat <<< quarter.toNat
  let step := Nat.pow 10 place.toNat <<< (-quarter).toNat
  let below := if mantissa = mantissaBound / 2 ∧ minExponent < exponent then 1 else 2
  let value := 4 * mantissa * unit
  let low := (4 * mantissa - below) * unit
  let high := (4 * mantissa + 2) * unit
  let inside (point : Nat) : Bool :=
    if mantissa % 2 = 0 then low ≤ point * step && point * step ≤ high
    else low < point * step && point * step < high
  let under := value / step
  let near := if 2 * (value - under * step) < step then under else under + 1
  let far := if near = under then under + 1 else under
  if inside near then some near else if inside far then some far else none

/-- The places to look at, from the coarsest grid that can hold a double to one finer than the least
of them. -/
def places : List Int :=
  (List.range 660).map fun (n : Nat) => 310 - (n : Int)

/-- The fewest digits that are read back, and of those the nearest: the coarsest grid with a point
to offer. -/
def shortest (d : Double) : Option Decimal :=
  match d.magnitude with
  | none => none
  | some (0, _) => some ⟨d.negative, 0, 0⟩
  | some (mantissa, exponent) =>
    places.findSome? fun place =>
      (onGrid? mantissa exponent place).map fun digits => ⟨d.negative, digits, place⟩

def text (d : Double) : String :=
  match d.shortest with
  | some decimal => decimal.text
  | none => if d.negative then "-inf" else "inf"

end Double

end CompilerPlugin.Number

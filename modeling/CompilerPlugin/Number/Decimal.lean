namespace CompilerPlugin.Number

structure Decimal where
  negative : Bool
  digits : Nat
  exponent : Int
deriving DecidableEq, Repr

def digitsValue (cs : List Char) : Nat :=
  cs.foldl (fun n c => n * 10 + (c.toNat - 48)) 0

def nat? (cs : List Char) : Option Nat :=
  if cs.isEmpty || !cs.all Char.isDigit then none else some (digitsValue cs)

def sign : List Char → Bool × List Char
  | '+' :: cs => (false, cs)
  | '-' :: cs => (true, cs)
  | cs => (false, cs)

def int? (cs : List Char) : Option Int :=
  (nat? (sign cs).2).map fun n => if (sign cs).1 then -(n : Int) else (n : Int)

def exponent? : List Char → Option Int
  | [] => some 0
  | c :: cs => if c = 'e' || c = 'E' then int? cs else none

def fraction (cs : List Char) : List Char × List Char :=
  match cs with
  | '.' :: rest => (rest.takeWhile Char.isDigit, rest.dropWhile Char.isDigit)
  | rest => ([], rest)

namespace Decimal

def ofChars? (cs : List Char) : Option Decimal :=
  let negative := (sign cs).1
  let body := (sign cs).2
  let whole := body.takeWhile Char.isDigit
  let parts := fraction (body.dropWhile Char.isDigit)
  if whole.isEmpty && parts.1.isEmpty then none
  else
    (exponent? parts.2).map fun exponent =>
      ⟨negative, digitsValue (whole ++ parts.1), exponent - parts.1.length⟩

def magnitudeText (digits : Nat) (exponent : Int) : List Char :=
  let ds := Nat.toDigits 10 digits
  if 0 ≤ exponent then ds ++ List.replicate exponent.toNat '0'
  else
    let places := (-exponent).toNat
    let padded := List.replicate (places + 1 - ds.length) '0' ++ ds
    padded.take (padded.length - places) ++ '.' :: padded.drop (padded.length - places)

def text (d : Decimal) : String :=
  String.ofList ((if d.negative then ['-'] else []) ++ magnitudeText d.digits d.exponent)

end Decimal

end CompilerPlugin.Number

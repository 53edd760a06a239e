import StagedJoin.Binary64

/-!
The shortest decimal text that reads back as a given binary number. The digits
are found on decimal grids, coarsest first: on each grid only the two neighbours
of the number are tried, and the first grid with a neighbour that rounds to the
number wins. Where positional notation ends, the sign of an exponent and which of
two equally near neighbours is taken are the choices of a `DecimalStyle`.
-/
namespace StagedJoin

/-- Which of two equally near decimals is taken. -/
inductive HalfWay where
  | up
  | even
  deriving DecidableEq, Repr

structure DecimalStyle where
  /-- Least and greatest exponent of the leading digit that is written positionally. -/
  least : Int
  greatest : Int
  exponentPlus : Bool
  halfWay : HalfWay

/-- `digits * 10 ^ exponent`. -/
structure Decimal where
  digits : Nat
  exponent : Int
  deriving DecidableEq, Repr

namespace Decimal

/-- The decimals that round to `significand * 2 ^ exponent`, in quarters of its
last place: bounds `low` and `high`, which belong to the range when the
significand is even. -/
structure Rounding where
  low : Nat
  value : Nat
  high : Nat
  exponent : Int
  closed : Bool

def Rounding.of (significand : Nat) (exponent : Int) : Rounding where
  low := 4 * significand - (if significand = Binary64.hiddenBit ∧ -1074 < exponent then 1 else 2)
  value := 4 * significand
  high := 4 * significand + 2
  exponent := exponent - 2
  closed := significand % 2 = 0

/-- Grid point `c * 10 ^ k` and bound `n * 2 ^ q` over a common denominator. -/
def gridPoint (c : Nat) (k q : Int) : Nat := (c * powerOfTen k.toNat) <<< (-q).toNat

def gridBound (n : Nat) (k q : Int) : Nat := (n * powerOfTen (-k).toNat) <<< q.toNat

def Rounding.holds (r : Rounding) (c : Nat) (k : Int) : Bool :=
  let point := gridPoint c k r.exponent
  let low := gridBound r.low k r.exponent
  let high := gridBound r.high k r.exponent
  if r.closed then low ≤ point ∧ point ≤ high else low < point ∧ point < high

/-- The neighbour of the value on the grid of `10 ^ k` that rounds to it, the
nearer one if both do. -/
def Rounding.onGrid (r : Rounding) (halfWay : HalfWay) (k : Int) : Option Nat :=
  let value := gridBound r.value k r.exponent
  let below := value / gridPoint 1 k r.exponent
  let above := below + 1
  match r.holds below k, r.holds above k with
  | false, false => none
  | true, false => some below
  | false, true => some above
  | true, true =>
    let down := value - gridPoint below k r.exponent
    let up := gridPoint above k r.exponent - value
    if down < up then some below
    else if up < down then some above
    else match halfWay with
      | .up => some above
      | .even => some (if below % 2 = 0 then below else above)

def Rounding.search (r : Rounding) (halfWay : HalfWay) : Nat → Int → Decimal
  | 0, k => ⟨0, k⟩
  | fuel + 1, k =>
    match r.onGrid halfWay k with
    | some digits => ⟨digits, k⟩
    | none => r.search halfWay fuel (k - 1)

/-- The grid that the search starts from is no finer than the number itself. -/
def startExponent (significand : Nat) (exponent : Int) : Int :=
  ((significand.log2 : Int) + exponent + 1) * 30103 / 100000 + 1

/-- The shortest decimal that rounds to a positive number. -/
def shortest (halfWay : HalfWay) (significand : Nat) (exponent : Int) : Decimal :=
  (Rounding.of significand exponent).search halfWay 24 (startExponent significand exponent)

end Decimal

namespace DecimalStyle

def zeros (n : Nat) : List Char := List.replicate n '0'

/-- Digits with the point behind the digit of weight one, and at least one digit
on either side of it. -/
def positional (digits : List Char) (leading : Int) : List Char :=
  if leading < 0 then ['0', '.'] ++ zeros (-leading - 1).toNat ++ digits
  else
    let whole := leading.toNat + 1
    if digits.length ≤ whole then digits ++ zeros (whole - digits.length) ++ ['.', '0']
    else digits.take whole ++ ['.'] ++ digits.drop whole

def scientific (style : DecimalStyle) (digits : List Char) (leading : Int) : List Char :=
  let mantissa := match digits with
    | [] => []
    | [d] => [d]
    | d :: rest => d :: '.' :: rest
  let sign := if leading < 0 then ['-'] else if style.exponentPlus then ['+'] else []
  mantissa ++ ['e'] ++ sign ++ Nat.toDigits 10 leading.natAbs

def finiteText (style : DecimalStyle) (significand : Nat) (exponent : Int) : List Char :=
  if significand = 0 then ['0', '.', '0']
  else
    let decimal := Decimal.shortest style.halfWay significand exponent
    let digits := Nat.toDigits 10 decimal.digits
    let leading := decimal.exponent + (digits.length - 1 : Nat)
    if style.least ≤ leading ∧ leading ≤ style.greatest then positional digits leading
    else style.scientific digits leading

/-- Text of a number; a number that is not finite is named. -/
def text (style : DecimalStyle) (x : Binary64) : String :=
  let sign := if x.isNegative then "-" else ""
  match x.magnitude with
  | .nan => "NaN"
  | .infinite => sign ++ "inf"
  | .finite significand exponent =>
    sign ++ String.ofList (style.finiteText significand exponent)

end DecimalStyle

end StagedJoin

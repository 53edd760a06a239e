import StagedJoin.Json

/-!
The number that a JSON number token denotes. An integer stays one if it fits in
64 bits; any other token is scaled by a power of ten from its leading digits, as
many as fit in 64 bits. The two roundings of that scaling are part of the format.
-/
namespace StagedJoin

/-- The digits of a number token. -/
structure NumberToken where
  negative : Bool
  whole : List Nat
  fraction : Option (List Nat) := none
  /-- Whether the exponent is negative, and its digits. -/
  exponent : Option (Bool × List Nat) := none
  deriving DecidableEq, Repr

namespace NumberToken

/-- Significands have 64 bits. -/
def maxSignificand : Nat := 0xffffffffffffffff

/-- Appends digits to a significand until the next one does not fit; with it the
digits that are left. -/
def accumulate (significand : Nat) : List Nat → Nat × List Nat
  | [] => (significand, [])
  | d :: rest =>
    if maxSignificand < significand * 10 + d then (significand, d :: rest)
    else accumulate (significand * 10 + d) rest

/-- Product with, or quotient by, the number nearest to a power of ten. -/
def scaleOnce (x : Binary64) (exponent : Int) : Binary64 :=
  match x.magnitude, (Binary64.nearest false (powerOfTen exponent.natAbs) 1).magnitude with
  | .finite m q, .finite pm pq =>
    let a := Binary64.ratio m q
    let p := Binary64.ratio pm pq
    if 0 ≤ exponent then Binary64.nearest false (a.1 * p.1) (a.2 * p.2)
    else Binary64.nearest false (a.1 * p.2) (a.2 * p.1)
  | _, _ => x

def isZero (x : Binary64) : Bool := x.magnitudeBits = 0

def isInfinite (x : Binary64) : Bool := x.magnitude = .infinite

/-- Scales by a power of ten, at most 308 decimal places at a time; `none` when the
result is too great. -/
def scale : Nat → Binary64 → Int → Option Binary64
  | 0, x, _ => some x
  | steps + 1, x, exponent =>
    if exponent.natAbs ≤ 308 then
      let scaled := scaleOnce x exponent
      if isInfinite scaled then none else some scaled
    else if isZero x then some x
    else if 0 ≤ exponent then none
    else scale steps (scaleOnce x (-308)) (exponent + 308)

def withSign (negative : Bool) (x : Binary64) : Binary64 :=
  Binary64.ofMagnitudeBits negative x.magnitudeBits

def ofScaled (negative : Bool) (significand : Nat) (exponent : Int) : Option JsonNumber :=
  (scale 8 (Binary64.nearest false significand 1) exponent).map fun x =>
    .float (withSign negative x)

def natOfDigits (digits : List Nat) : Nat := digits.foldl (fun n d => n * 10 + d) 0

/-- Exponents are at most this large. -/
def maxExponent : Nat := 0x7fffffff

def ofExponent (negative : Bool) (significand : Nat) (shift : Int) :
    Option (Bool × List Nat) → Option JsonNumber
  | none => ofScaled negative significand shift
  | some (below, digits) =>
    let e := natOfDigits digits
    if maxExponent < e then
      if significand ≠ 0 ∧ !below then none
      else some (.float (Binary64.ofMagnitudeBits negative 0))
    else ofScaled negative significand (if below then shift - e else shift + e)

/-- The magnitude of the least integer of 64 bits. -/
def leastMagnitude : Nat := 0x8000000000000000

/-- An integer of 64 bits; the negative zero and larger integers are floats. -/
def ofWhole (negative : Bool) (significand : Nat) : JsonNumber :=
  if negative then
    if 0 < significand ∧ significand ≤ leastMagnitude then .integer (-(significand : Int))
    else .float (Binary64.nearest true significand 1)
  else .integer significand

/-- The number denoted by a token; `none` when it is out of range. -/
def value (t : NumberToken) : Option JsonNumber :=
  let (significand, dropped) := accumulate 0 t.whole
  match t.fraction with
  | some digits =>
    let (longer, ignored) := accumulate significand digits
    let places : Nat := digits.length - ignored.length
    ofExponent t.negative longer ((dropped.length : Int) - places) t.exponent
  | none =>
    match t.exponent, dropped with
    | none, [] => some (ofWhole t.negative significand)
    | e, dropped => ofExponent t.negative significand dropped.length e

end NumberToken

end StagedJoin

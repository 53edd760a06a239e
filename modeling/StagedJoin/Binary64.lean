/-!
Binary floating point numbers of 64 bits, held by their bits so that equality is
decidable. A finite number is `significand * 2 ^ exponent`, and a ratio of
natural numbers rounds to the nearest such number, a half going to the even
significand.
-/
namespace StagedJoin

def powerOfTen (n : Nat) : Nat := Nat.pow 10 n

structure Binary64 where
  bits : UInt64
  deriving DecidableEq, Repr, Inhabited

namespace Binary64

/-- What the bits stand for, the sign apart. -/
inductive Magnitude where
  | nan
  | infinite
  | finite (significand : Nat) (exponent : Int)
  deriving DecidableEq, Repr

/-- The bit of the sign. -/
def signBit : Nat := 0x8000000000000000

/-- The leading bit of a normal significand, which is not stored. -/
def hiddenBit : Nat := 0x10000000000000

def isNegative (x : Binary64) : Bool := signBit ≤ x.bits.toNat

def magnitudeBits (x : Binary64) : Nat := x.bits.toNat % signBit

def magnitude (x : Binary64) : Magnitude :=
  let field : Nat := x.magnitudeBits / hiddenBit
  let fraction : Nat := x.magnitudeBits % hiddenBit
  if field = 2047 then if fraction = 0 then .infinite else .nan
  else if field = 0 then .finite fraction (-1074)
  else .finite (hiddenBit + fraction) ((field : Int) - 1075)

/-- `significand * 2 ^ exponent` as a numerator and a denominator. -/
def ratio (significand : Nat) (exponent : Int) : Nat × Nat :=
  (significand <<< exponent.toNat, 1 <<< (-exponent).toNat)

/-- Nearest natural number to a ratio; a half goes to the even neighbour. -/
def roundToEven (num den : Nat) : Nat :=
  let q := num / den
  let r := num % den
  if den < 2 * r ∨ (2 * r = den ∧ q % 2 = 1) then q + 1 else q

/-- The exponent at which `num / den` has 53 significant bits, and no less than
the exponent of the subnormal numbers. -/
def exponentOf (num den : Nat) : Int :=
  let guess : Int := (num.log2 : Int) - (den.log2 : Int) - 53
  let scaled := ratio den guess
  let exponent := if 2 * hiddenBit ≤ num * scaled.2 / scaled.1 then guess + 1 else guess
  max exponent (-1074)

/-- Magnitude bits of the number nearest to `num / den`; infinity when every
finite number is too small. -/
def nearestBits (num den : Nat) : Nat :=
  if num = 0 then 0
  else
    let exponent := exponentOf num den
    let scaled := ratio den exponent
    let significand := roundToEven (num * scaled.2) scaled.1
    let bits :=
      if significand < hiddenBit then significand
      else (exponent + 1075).toNat * hiddenBit + (significand - hiddenBit)
    min bits (2047 * hiddenBit)

def ofMagnitudeBits (negative : Bool) (bits : Nat) : Binary64 :=
  ⟨UInt64.ofNat (if negative then signBit + bits else bits)⟩

def nearest (negative : Bool) (num den : Nat) : Binary64 :=
  ofMagnitudeBits negative (nearestBits num den)

def ofInt (n : Int) : Binary64 := nearest (n < 0) n.natAbs 1

end Binary64

end StagedJoin

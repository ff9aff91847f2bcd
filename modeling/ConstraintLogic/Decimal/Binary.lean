/-!
# Doubles as exact binary fractions

A finite double is a whole number of units of its last binary place. `Binary.ofFloat` reads the
sign, that number and the place off the bits.
-/

namespace ConstraintLogic.Decimal

/-- What a double stands for. A finite one is `± mantissa · 2 ^ exponent`. -/
inductive Binary where
  | nan
  | infinite (negative : Bool)
  | finite (negative : Bool) (mantissa : Nat) (exponent : Int)
deriving DecidableEq, Repr

namespace Binary

/-- The mantissa of the doubles that are powers of two, subnormal ones apart. The bits of a double
hold what its mantissa has beyond this. -/
def leastNormal : Nat := Nat.pow 2 52

/-- The exponent that subnormal doubles and the least normal ones have in common. -/
def leastExponent : Int := -1074

def ofFloat (x : Float) : Binary :=
  let bits : Nat := x.toBits.toNat
  let negative : Bool := bits / Nat.pow 2 63 == 1
  let biased : Nat := bits / leastNormal % Nat.pow 2 11
  let fraction : Nat := bits % leastNormal
  if biased = 2047 then
    if fraction = 0 then .infinite negative else .nan
  else if biased = 0 then .finite negative fraction leastExponent
  else .finite negative (leastNormal + fraction) (biased - 1075)

example : ofFloat 1.5 = .finite false (3 * 2 ^ 51) (-52) := by decide +kernel
example : ofFloat (-0.0) = .finite true 0 (-1074) := by decide +kernel
example : ofFloat (1.0 / 0.0) = .infinite false := by decide +kernel
example : ofFloat (0.0 / 0.0) = .nan := by decide +kernel

def isWhole : Binary → Bool
  | .finite _ mantissa exponent => 0 ≤ exponent || mantissa % Nat.pow 2 (-exponent).toNat == 0
  | _ => false

def whole? : Binary → Option Int
  | .finite negative mantissa exponent =>
    let size : Nat :=
      if 0 ≤ exponent then mantissa * Nat.pow 2 exponent.toNat
      else mantissa / Nat.pow 2 (-exponent).toNat
    if (Binary.finite negative mantissa exponent).isWhole then
      some (if negative then -(size : Int) else size)
    else none
  | _ => none

example : (ofFloat 6).whole? = some 6 := by decide +kernel
example : (ofFloat (-1e22)).whole? = some (-10000000000000000000000) := by decide +kernel
example : (ofFloat 0.5).whole? = none := by decide +kernel

end Binary

end ConstraintLogic.Decimal

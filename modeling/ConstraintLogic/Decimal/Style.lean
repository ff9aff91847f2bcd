import ConstraintLogic.Decimal.Shortest
/-!
# Number text

How a double is written: the digits are those of the shortest decimal that reads back, and a
`Style` decides where the point, an exponent and the special values go.
-/

namespace ConstraintLogic.Decimal

/-- The decisions of a number format that the digits leave open. -/
structure Style where
  /-- The point positions that are written without an exponent. -/
  positional : Int → Bool
  /-- What follows a whole number that is written without an exponent. -/
  wholeEnd : String
  tie : Tie
  infinity : String
  nan : String

namespace Style

/-- Digits, not all of them zero, with the point after the first `point` of them. -/
private def placePoint (style : Style) (digits : List Char) (point : Int) : List Char :=
  if style.positional point then
    if point ≤ 0 then '0' :: '.' :: List.replicate (-point).toNat '0' ++ digits
    else if digits.length ≤ point.toNat then
      digits ++ List.replicate (point.toNat - digits.length) '0' ++ style.wholeEnd.toList
    else digits.take point.toNat ++ '.' :: digits.drop point.toNat
  else
    let fraction := if digits.length ≤ 1 then [] else '.' :: digits.drop 1
    digits.take 1 ++ fraction ++ 'e' :: (toString (point - 1)).toList

private def magnitude (style : Style) (d : Scientific) : List Char :=
  let all : List Char := Nat.toDigits 10 d.coefficient
  let digits : List Char := (all.reverse.dropWhile (· == '0')).reverse
  style.placePoint digits (all.length + d.exponent)

def render (style : Style) (x : Float) : String :=
  let signed (negative : Bool) (text : List Char) : String :=
    String.ofList (if negative then '-' :: text else text)
  match Binary.ofFloat x with
  | .nan => style.nan
  | .infinite negative => signed negative style.infinity.toList
  | .finite negative 0 _ => signed negative ('0' :: style.wholeEnd.toList)
  | .finite negative mantissa exponent =>
    signed negative (style.magnitude (shortest mantissa exponent style.tie))

end Style

/-- Plain numbers are never written with an exponent, and whole ones without a point. -/
def plain : Style where
  positional _ := true
  wholeEnd := ""
  tie := .upward
  infinity := "inf"
  nan := "NaN"

example : plain.render 1e21 = "1000000000000000000000" := by decide +kernel
example : plain.render (-0.0) = "-0" := by decide +kernel
example : plain.render 0.1 = "0.1" := by decide +kernel
example : plain.render (0.1 + 0.2) = "0.30000000000000004" := by decide +kernel
example : plain.render 1e23 = "100000000000000000000000" := by decide +kernel

end ConstraintLogic.Decimal

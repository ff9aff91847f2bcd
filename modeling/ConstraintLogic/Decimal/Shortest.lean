import ConstraintLogic.Decimal.Binary
/-!
# The shortest decimal that reads back

Among the decimals that round to a given double, the shortest are those on the coarsest decimal
grid that has any. On that grid the one nearest to the double is taken. All comparisons are exact:
both sides are scaled to whole numbers.
-/

namespace ConstraintLogic.Decimal

/-- Which of two equally near neighbours is taken. -/
inductive Tie where
  | upward
  | even
deriving DecidableEq, Repr

/-- The decimal `coefficient · 10 ^ exponent`. -/
structure Scientific where
  coefficient : Nat
  exponent : Int
deriving DecidableEq, Repr

/--
A positive double and the ends of the interval of reals that round to it, together with the
spacing of a decimal grid, all multiplied by one number that makes them whole.
-/
structure Window where
  low : Nat
  value : Nat
  high : Nat
  spacing : Nat
  /-- The ends of the interval belong to it. -/
  closed : Bool

namespace Window

/--
The window of `mantissa · 2 ^ exponent` on the grid of the multiples of `10 ^ grid`. The interval
ends half way to the next double on either side; below a power of two that one is half as far away.
-/
def ofBinary (mantissa : Nat) (exponent grid : Int) : Window :=
  let below := if mantissa = Binary.leastNormal ∧ exponent ≠ Binary.leastExponent then 1 else 2
  let scale := Nat.pow 2 (exponent - 2).toNat * Nat.pow 10 (-grid).toNat
  { low := (4 * mantissa - below) * scale
    value := 4 * mantissa * scale
    high := (4 * mantissa + 2) * scale
    spacing := Nat.pow 2 (2 - exponent).toNat * Nat.pow 10 grid.toNat
    closed := mantissa % 2 == 0 }

/-- The grid point with this index rounds to the double. -/
def contains (w : Window) (index : Nat) : Bool :=
  let point := index * w.spacing
  if w.closed then w.low ≤ point && point ≤ w.high else w.low < point && point < w.high

/-- The index of the nearest grid point that rounds to the double, if one of its neighbours does. -/
def nearest? (w : Window) (tie : Tie) : Option Nat :=
  let index := w.value / w.spacing
  match w.contains index, w.contains (index + 1) with
  | false, false => none
  | true, false => some index
  | false, true => some (index + 1)
  | true, true =>
    match compare (2 * (w.value - index * w.spacing)) w.spacing with
    | .lt => some index
    | .gt => some (index + 1)
    | .eq => some (if tie = .even ∧ index % 2 = 0 then index else index + 1)

theorem contains_of_nearest? {w : Window} {tie : Tie} {index : Nat}
    (h : w.nearest? tie = some index) : w.contains index := by
  unfold nearest? at h
  grind

end Window

/-- Places after the point that reach the first digit of every positive double. -/
def mostPlaces : Nat := 400

/-- The number of digits before the point of `mantissa · 2 ^ exponent`; negative by the number of
zeros that follow the point of a small fraction. -/
def pointPosition (mantissa : Nat) (exponent : Int) : Int :=
  let scaled := mantissa * Nat.pow 2 exponent.toNat * Nat.pow 10 mostPlaces
  (Nat.toDigits 10 (scaled / Nat.pow 2 (-exponent).toNat)).length - mostPlaces

/-- The digits that decide between any two doubles. -/
def mostDigits : Nat := 17

/-- The shortest decimal that rounds to the positive double `mantissa · 2 ^ exponent`. -/
def shortest (mantissa : Nat) (exponent : Int) (tie : Tie) : Scientific :=
  let top := pointPosition mantissa exponent
  let onGrid (digits : Nat) : Option Scientific :=
    let grid := top - digits
    (Window.ofBinary mantissa exponent grid).nearest? tie |>.map (⟨·, grid⟩)
  let finest : Scientific :=
    let grid := top - mostDigits
    let w := Window.ofBinary mantissa exponent grid
    ⟨w.value / w.spacing, grid⟩
  ((List.range' 1 mostDigits).findSome? onGrid).getD finest

end ConstraintLogic.Decimal

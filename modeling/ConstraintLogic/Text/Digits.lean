/-!
# Digits

Numbers written in digits of a base up to sixteen, and the digits of a number.
-/

namespace ConstraintLogic.Text

/-- The digit that a character writes. -/
def digit? (base : Nat) (c : Char) : Option Nat :=
  let n :=
    if '0' ≤ c && c ≤ '9' then some (c.toNat - '0'.toNat)
    else if 'a' ≤ c && c ≤ 'f' then some (c.toNat - 'a'.toNat + 10)
    else if 'A' ≤ c && c ≤ 'F' then some (c.toNat - 'A'.toNat + 10)
    else none
  n.filter (· < base)

theorem lt_of_digit? {base n : Nat} {c : Char} (h : digit? base c = some n) : n < base := by
  simpa using (Option.filter_eq_some_iff.1 h).2

def natural? (base : Nat) (cs : List Char) : Option Nat :=
  if cs.isEmpty then none
  else cs.foldlM (fun n c => (digit? base c).map (base * n + ·)) 0

/-- A number in hexadecimal, with zeros in front up to a width. -/
def hexUpper (width n : Nat) : List Char :=
  let digits := (Nat.toDigits 16 n).map Char.toUpper
  List.replicate (width - digits.length) '0' ++ digits

example : natural? 10 ['1', '2', '0'] = some 120 := by decide +kernel
example : natural? 16 ['f', 'F'] = some 255 := by decide +kernel
example : natural? 2 ['1', '2'] = none := by decide +kernel
example : hexUpper 4 0xAB = ['0', '0', 'A', 'B'] := by decide +kernel

end ConstraintLogic.Text

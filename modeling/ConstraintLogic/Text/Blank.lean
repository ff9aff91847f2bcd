/-!
# Blank characters

The characters that count as blank are those of the Unicode property `White_Space`.
-/

namespace ConstraintLogic.Text

/-- The code points of the property `White_Space`, as inclusive ranges in order. -/
def blankRanges : List (Nat × Nat) :=
  [(0x9, 0xD), (0x20, 0x20), (0x85, 0x85), (0xA0, 0xA0), (0x1680, 0x1680), (0x2000, 0x200A),
   (0x2028, 0x2029), (0x202F, 0x202F), (0x205F, 0x205F), (0x3000, 0x3000)]

/-- The character has the property `White_Space`. -/
def isBlank (c : Char) : Bool :=
  blankRanges.any fun (low, high) => low ≤ c.toNat && c.toNat ≤ high

theorem isBlank_of_isWhitespace {c : Char} (h : c.isWhitespace) : isBlank c := by
  simp only [Char.isWhitespace, Bool.or_eq_true, decide_eq_true_eq] at h
  rcases h with ((rfl | rfl) | rfl) | rfl <;> decide

def dropBlanks (cs : List Char) : List Char :=
  cs.filter fun c => !isBlank c

@[simp] theorem mem_dropBlanks {c : Char} {cs : List Char} :
    c ∈ dropBlanks cs ↔ c ∈ cs ∧ isBlank c = false := by
  simp [dropBlanks]

theorem dropBlanks_idem (cs : List Char) : dropBlanks (dropBlanks cs) = dropBlanks cs := by
  simp [dropBlanks]

def trimEnd (cs : List Char) : List Char :=
  (cs.reverse.dropWhile isBlank).reverse

def trim (cs : List Char) : List Char :=
  trimEnd (cs.dropWhile isBlank)

end ConstraintLogic.Text

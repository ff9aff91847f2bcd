import ConstraintLogic.Formula.Cnf
/-!
# Reading formulas

Blanks mean nothing. Clauses are joined by `&&` and stand in parentheses; literals are joined by
`||`. Between the outer parentheses of a clause further ones are passed over.
-/

namespace ConstraintLogic.Cnf

/-- What stands between the parentheses at the two ends of a clause. -/
def clauseBody? : List Char → Option (List Char)
  | '(' :: rest => if rest.getLast? = some ')' then some rest.dropLast else none
  | _ => none

def isParenthesis (c : Char) : Bool :=
  c == '(' || c == ')'

def parseLiteral (clause : List Char) (cs : List Char) : Except Fault Literal :=
  match Literal.ofChars? cs with
  | some l => .ok l
  | none => .error (.format (.literal (String.ofList cs) (String.ofList clause)))

def parseClause (clause : List Char) : Except Fault (List Literal) :=
  match clauseBody? clause with
  | none => .error (.format (.clauseBare (String.ofList clause)))
  | some body =>
    (Text.splitAtDouble '|' (body.filter fun c => !isParenthesis c)).mapM (parseLiteral clause)

def ofClauses (source : List Char) (clauses : List (List Literal)) : Cnf where
  source := String.ofList source
  letters := (clauses.flatten.map Literal.letter).eraseDups
  clauses := clauses

def parse (text : String) : Except Fault Cnf :=
  let compact := Text.dropBlanks text.toList
  ofClauses compact <$> (Text.splitAtDouble '&' compact).mapM parseClause

theorem source_of_parse {text : String} {f : Cnf} (h : parse text = .ok f) :
    f.source = String.ofList (Text.dropBlanks text.toList) := by
  simp only [parse] at h
  cases hc : (Text.splitAtDouble '&' (Text.dropBlanks text.toList)).mapM parseClause with
  | error e => rw [hc] at h; nomatch h
  | ok clauses => rw [hc] at h; cases h; rfl

/-- Reading the text of a formula gives the formula back. -/
theorem parse_source {text : String} {f : Cnf} (h : parse text = .ok f) :
    parse f.source = .ok f := by
  rw [source_of_parse h]
  simp only [parse, String.toList_ofList, Text.dropBlanks_idem]
  exact h

end ConstraintLogic.Cnf

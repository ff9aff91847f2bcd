import ConstraintLogic.Command.Summary
import ConstraintLogic.Description.Text
import ConstraintLogic.Graph.Integrity
/-!
# The command line

Three commands: check a description, compile a formula, and play moves in a description. Each
writes lines and ends well or not; what was written before it stopped stays written.
-/

namespace ConstraintLogic

inductive Command where
  | check (path : String)
  | compile (formula : String) (json : Bool)
  | play (path : String) (moves : List String)

namespace Command

/-- A command that was stopped gives no reason: that goes elsewhere. -/
structure Stopped where

/-- Writes lines and may stop. -/
abbrev Run := ExceptT Stopped (StateM (List String))

/-- What a command wrote and whether it ended well. -/
structure Outcome where
  lines : List String
  succeeded : Bool

def Outcome.text (o : Outcome) : String :=
  String.join (o.lines.map (· ++ "\n"))

def write (lines : List String) : Run Unit :=
  modify fun written => written ++ lines

def stop {α : Type} : Run α :=
  throw {}

/-- Goes on with a result or stops. -/
def require {α : Type} : Except Fault α → Run α
  | .ok a => pure a
  | .error _ => stop

/-- The lines about entries that were left out. -/
def reportLines (r : Description.Report) : List String :=
  if r.isClean then []
  else s!"Skipped {r.issues.length} entries:" :: r.issues.map fun i => "  " ++ i.text

def load (contents : String → Option String) (path : String) : Run Graph := do
  write [s!"Loading graph: {path}"]
  match contents path with
  | none => stop
  | some text =>
    match Description.load text with
    | .error _ => stop
    | .ok (report, g) =>
      write (reportLines report)
      return g

def summarize (g : Graph) : Run Unit :=
  write (Summary.of g.validate.2 g.validate.1).lines

def runCheck (contents : String → Option String) (path : String) : Run Unit := do
  let g ← load contents path
  require g.checkIntegrity
  summarize g

def runCompile (formula : String) (json : Bool) : Run Unit := do
  let g ← require (Circuit.compile formula)
  if json then write [(Summary.of g.validate.2 g.validate.1).json.text]
  else
    write [s!"Compiled: {formula}"]
    summarize g

def playMove (g : Graph) (move : String) : Run Graph := do
  match (Edit.tryReverse (Ident.ofDotted move)).run g with
  | .ok accepted next =>
    write [s!"  {move}: " ++ (if accepted then "accepted" else "rejected")]
    return next
  | .error _ _ => stop

/-- The latches are settled before the first move. -/
def runPlay (contents : String → Option String) (path : String) (moves : List String) :
    Run Unit := do
  let g ← load contents path
  let g ← moves.foldlM playMove g.validate.2
  summarize g

def run (contents : String → Option String) (c : Command) : Outcome :=
  let action : Run Unit :=
    match c with
    | check path => runCheck contents path
    | compile formula json => runCompile formula json
    | play path moves => runPlay contents path moves
  let (result, lines) := (ExceptT.run action).run []
  { lines := lines, succeeded := result.toBool }

/-- The moves that options give, each as `--flip=EDGE` or `--flip EDGE`. -/
def moves? : List String → Option (List String)
  | [] => some []
  | "--flip" :: move :: rest => (moves? rest).map (move :: ·)
  | option :: rest =>
    match option.toList with
    | '-' :: '-' :: 'f' :: 'l' :: 'i' :: 'p' :: '=' :: move =>
      (moves? rest).map (String.ofList move :: ·)
    | _ => none

def ofWords? : List String → Option Command
  | ["check", path] => some (check path)
  | ["compile", "--json", "--", formula] | ["compile", "--json", formula] =>
    some (compile formula true)
  | ["compile", "--", formula] | ["compile", formula] => some (compile formula false)
  | "play" :: path :: options => (moves? options).map (play path)
  | _ => none

def path? : Command → Option String
  | check path | play path _ => some path
  | compile .. => none

end Command

end ConstraintLogic

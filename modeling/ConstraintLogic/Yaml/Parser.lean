import ConstraintLogic.Yaml.Token.Lexer
import ConstraintLogic.Yaml.Resolve
/-!
# Reading YAML
-/

namespace ConstraintLogic.Yaml

def Node.parse? (text : String) : Option Node := do
  Node.ofDraft? (← Draft.ofTokens? (← tokens? text))

def Value.parse? (text : String) : Option Value := do
  Value.ofNode? (← Node.parse? text)

end ConstraintLogic.Yaml

import ConstraintLogic.Graph.Drawing
import ConstraintLogic.Graph.Play
import ConstraintLogic.History
import ConstraintLogic.Main
import ConstraintLogic.Proofs.Flow
import ConstraintLogic.Proofs.Circuit.Board
import ConstraintLogic.Proofs.Pass
import ConstraintLogic.Proofs.Circuit.Steady
import ConstraintLogic.Proofs.Edit
import ConstraintLogic.Proofs.Placement
import ConstraintLogic.Proofs.Circuit.Layout
import ConstraintLogic.Proofs.Circuit.Shown
import ConstraintLogic.Proofs.Circuit.Satisfied
import ConstraintLogic.Proofs.Circuit.Simulation
import ConstraintLogic.Proofs.Circuit.Sound
import ConstraintLogic.Proofs.Circuit.Stage
import ConstraintLogic.Proofs.Circuit.Complete
import ConstraintLogic.Proofs.Circuit.Winning
import ConstraintLogic.Proofs.Circuit.Settled
import ConstraintLogic.Proofs.Circuit.Certificate
import ConstraintLogic.Proofs.Circuit.Memory
import ConstraintLogic.Proofs.Circuit.Retreat
import ConstraintLogic.Proofs.Consistency
import ConstraintLogic.Proofs.Removal
import ConstraintLogic.Proofs.Reachable
import ConstraintLogic.Proofs.Acceptance
import ConstraintLogic.Proofs.Locality
import ConstraintLogic.Proofs.Circuit.Exchange
import ConstraintLogic.Proofs.Circuit.Inside
import ConstraintLogic.Proofs.Visits
import ConstraintLogic.Proofs.Intact
import ConstraintLogic.Proofs.Record
import ConstraintLogic.Proofs.Circuit.Addition
import ConstraintLogic.Proofs.Circuit.Fresh
import ConstraintLogic.Proofs.Formula.Bindings
import ConstraintLogic.Proofs.Gain
import ConstraintLogic.Proofs.AllOrNothing
import ConstraintLogic.Proofs.Description.Address
import ConstraintLogic.Proofs.Description.Accepted
import ConstraintLogic.Proofs.Description.Loading
import ConstraintLogic.Proofs.Description.Account
import ConstraintLogic.Proofs.Description.Skipped
import ConstraintLogic.Proofs.Formula.Rendered
import ConstraintLogic.Proofs.Conservation
import ConstraintLogic.Proofs.Settling
import ConstraintLogic.Proofs.Appearance.Calls
import ConstraintLogic.Proofs.Dotted
import ConstraintLogic.Proofs.Cascade
import ConstraintLogic.Proofs.Description.Replacing
import ConstraintLogic.Proofs.Description.EdgeGrammar
import ConstraintLogic.Proofs.Description.EdgePass

import BrakeCheck.Diagram.Meaning
import BrakeCheck.Linear.Evaluation
import BrakeCheck.Main
import BrakeCheck.OrderedMap.Lemmas
import BrakeCheck.Proofs.Growth
import BrakeCheck.Proofs.Store
import BrakeCheck.Proofs.Choice
import BrakeCheck.Proofs.Retrace
import BrakeCheck.Proofs.Canonical
import BrakeCheck.Proofs.Path
import BrakeCheck.Proofs.Variables
import BrakeCheck.Proofs.Requests
import BrakeCheck.Proofs.Invariant
import BrakeCheck.Proofs.Lockstep
import BrakeCheck.Proofs.Coefficients
import BrakeCheck.Proofs.Elimination
import BrakeCheck.Proofs.Feasibility
import BrakeCheck.Proofs.Atoms
import BrakeCheck.Proofs.Cases
import BrakeCheck.Proofs.Encoding
import BrakeCheck.Proofs.Reach
import BrakeCheck.Proofs.Extent
import BrakeCheck.Proofs.Confined
import BrakeCheck.Proofs.Outline
import BrakeCheck.Proofs.Search
import BrakeCheck.Proofs.Solver
import BrakeCheck.Proofs.Room
import BrakeCheck.Proofs.Control
import BrakeCheck.Proofs.Soundness
import BrakeCheck.Proofs.TableSize
import BrakeCheck.Proofs.PathCount
import BrakeCheck.Proofs.Connectives
import BrakeCheck.Proofs.Divisions
import BrakeCheck.Proofs.Faultless
import BrakeCheck.Proofs.Incremental
import BrakeCheck.Proofs.Cover
import BrakeCheck.Proofs.Partition
import BrakeCheck.Proofs.Counterparts
import BrakeCheck.Proofs.Budget
import BrakeCheck.Proofs.HalfSpace
import BrakeCheck.Proofs.Interning
import BrakeCheck.Proofs.Stability
import BrakeCheck.Proofs.Repetition
import BrakeCheck.Proofs.Preference
import BrakeCheck.Proofs.Sorting
import BrakeCheck.Proofs.Restatement
import BrakeCheck.Proofs.FirstMatch
import BrakeCheck.Proofs.Command
import BrakeCheck.Proofs.Splitting
import BrakeCheck.Proofs.Numerals
import BrakeCheck.Proofs.RoundTrip
import BrakeCheck.Proofs.Cubes
import BrakeCheck.Proofs.Descendants
import BrakeCheck.Proofs.Projection
import BrakeCheck.Proofs.SignedFractions
import BrakeCheck.Proofs.TextMeaning
import BrakeCheck.Proofs.Unambiguous
import BrakeCheck.Proofs.Shells
import BrakeCheck.HashCons.Chained
import BrakeCheck.Proofs.Sharing
import BrakeCheck.Proofs.Chains
import BrakeCheck.Proofs.Slots
import BrakeCheck.Proofs.Constants

import InfixArith.Main
import InfixArith.Reduction
import InfixArith.Tree.Path
import InfixArith.Proofs.Grouping
import InfixArith.Proofs.Operands
import InfixArith.Proofs.TwoStacks
import InfixArith.Proofs.Walks
import InfixArith.Proofs.Places
import InfixArith.Proofs.Replacement
import InfixArith.Proofs.Spine
import InfixArith.Proofs.Reading
import InfixArith.Proofs.Offsets
import InfixArith.Proofs.Lookup
import InfixArith.Proofs.Parsing
import InfixArith.Proofs.Joining
import InfixArith.Proofs.Modes
import InfixArith.Proofs.Rendering
import InfixArith.Proofs.Unspaced
import InfixArith.Proofs.Pending
import InfixArith.Proofs.Notices
import InfixArith.Proofs.Rounds
import InfixArith.Proofs.Shape
import InfixArith.Proofs.Dialogue
import InfixArith.Proofs.Enumeration
import InfixArith.Proofs.StackHeight

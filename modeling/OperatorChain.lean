import OperatorChain.Graph.Edit
import OperatorChain.Main
import OperatorChain.Workbench
import OperatorChain.Proofs.Contraction
import OperatorChain.Proofs.Chain
import OperatorChain.Proofs.Represents
import OperatorChain.Proofs.Reading
import OperatorChain.Proofs.AnyOrder
import OperatorChain.Proofs.Agenda
import OperatorChain.Proofs.Evaluation
import OperatorChain.Proofs.Printing
import OperatorChain.Proofs.Renumbering
import OperatorChain.Proofs.Residual
import OperatorChain.Proofs.Agreement
import OperatorChain.Proofs.Numerals
import OperatorChain.Proofs.Offences
import OperatorChain.Proofs.Spelling
import OperatorChain.Proofs.Compound
import OperatorChain.Proofs.FrontEnds
import OperatorChain.Proofs.Completion
import OperatorChain.Proofs.Reencoding
import OperatorChain.Proofs.Arguments
import OperatorChain.Proofs.Invocations
import OperatorChain.Proofs.ReportLines
import OperatorChain.Proofs.Presentation
import OperatorChain.Proofs.Interleaving
import OperatorChain.Proofs.LostOutput
import OperatorChain.Proofs.Course
import OperatorChain.Proofs.Divisors
import OperatorChain.Proofs.Commutation
import OperatorChain.Proofs.Growth
import OperatorChain.Proofs.Explanation
import OperatorChain.Proofs.PrintedLines
import OperatorChain.Proofs.LineKinds
import OperatorChain.Proofs.Messages
import OperatorChain.Proofs.Equations
import OperatorChain.Proofs.Tokens
import OperatorChain.Proofs.Literals

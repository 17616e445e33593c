import PDA.Main
import PDA.Automaton.Order
import PDA.CommandLine.Directory
import PDA.Machine.Run
import PDA.Proofs.CommandLine.Verdicts
import PDA.Proofs.Expression.Language
import PDA.Proofs.Format.ArrowLine
import PDA.Proofs.Format.Bounded
import PDA.Proofs.Format.Concatenation
import PDA.Proofs.Format.Cycle
import PDA.Proofs.Format.Epsilon
import PDA.Proofs.Format.Faults
import PDA.Proofs.Format.Image
import PDA.Proofs.Format.Notices
import PDA.Proofs.Format.Place
import PDA.Proofs.Format.RoundTrip
import PDA.Proofs.Format.Suggestion
import PDA.Proofs.Guarded.Safety
import PDA.Proofs.Machine.Certificate
import PDA.Proofs.Machine.Consistency
import PDA.Proofs.Machine.Continuation
import PDA.Proofs.Machine.Deletion
import PDA.Proofs.Machine.Extension
import PDA.Proofs.Machine.Floor
import PDA.Proofs.Machine.Interleaving
import PDA.Proofs.Machine.Issues
import PDA.Proofs.Machine.Renaming
import PDA.Proofs.Machine.Rendering
import PDA.Proofs.Machine.RuleOrder
import PDA.Proofs.Machine.Same
import PDA.Proofs.Machine.Stack
import PDA.Proofs.Machine.Transition
import PDA.Proofs.Sampling.Input

import TypeFlow.Config.Read
import TypeFlow.Proofs.Completion
import TypeFlow.Proofs.Operations
import TypeFlow.Proofs.Interning
import TypeFlow.Proofs.Strictness
import TypeFlow.Proofs.CallEffects
import TypeFlow.Proofs.StateMerges
import TypeFlow.Proofs.ComparisonCalls
import TypeFlow.Proofs.SwappedEquality
import TypeFlow.Proofs.Truth
import TypeFlow.Proofs.IntegerOrder
import TypeFlow.Proofs.MeetRemainders
import TypeFlow.Proofs.IntegerFolding
import TypeFlow.Proofs.ContainerAdditions
import TypeFlow.Proofs.SharedDeclarations
import TypeFlow.Proofs.RecursiveTypedefs
import TypeFlow.Proofs.Verdicts
import TypeFlow.Proofs.Lineage
import TypeFlow.Proofs.GraphLinks
import TypeFlow.Proofs.NegatedConditions
import TypeFlow.Proofs.EqualityBound

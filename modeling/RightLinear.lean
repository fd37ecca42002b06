import RightLinear.Dfa.Draft
import RightLinear.Dfa.Reachable
import RightLinear.Document.Printer
import RightLinear.Grammar.Derivation
import RightLinear.Main
import RightLinear.Nfa.Path
import RightLinear.Session
import RightLinear.Proofs.Discovery
import RightLinear.Proofs.SilentClosure
import RightLinear.Proofs.LiveSets
import RightLinear.Proofs.DfaRuns
import RightLinear.Proofs.NumberedStates
import RightLinear.Proofs.SubsetConstruction
import RightLinear.Proofs.GrammarAutomaton
import RightLinear.Proofs.PairAutomaton
import RightLinear.Proofs.Languages
import RightLinear.Proofs.Outcomes
import RightLinear.Proofs.Lockstep
import RightLinear.Proofs.OperandOrder
import RightLinear.Proofs.Duality
import RightLinear.Proofs.LeastWords
import RightLinear.Proofs.CanonicalNumbering
import RightLinear.Proofs.Renumbering
import RightLinear.Proofs.RuleOrder
import RightLinear.Proofs.StateNames
import RightLinear.Proofs.CanonicalText
import RightLinear.Proofs.DocumentReading
import RightLinear.Proofs.DocumentRoundTrip
import RightLinear.Proofs.JoinedDocuments
import RightLinear.Proofs.BuiltByHand
import RightLinear.Proofs.Sessions
import RightLinear.Proofs.PowersetAutomaton
import RightLinear.Proofs.AccessiblePairs
import RightLinear.Proofs.StateByState
import RightLinear.Proofs.Failures
import RightLinear.Proofs.ParsedCases
import RightLinear.Proofs.Reports
import RightLinear.Proofs.ProcessedDocuments
import RightLinear.Proofs.EmptinessSearch
import RightLinear.Proofs.Complements
import RightLinear.Proofs.Walks
import RightLinear.Proofs.EmptyLanguages
import RightLinear.Proofs.GrammarStates
import RightLinear.Proofs.RuleLines
import RightLinear.Proofs.HeadedLines
import RightLinear.Proofs.SectionOrder
import RightLinear.Proofs.DocumentOutline
import RightLinear.Proofs.RuleByRule
import RightLinear.Proofs.ClosureTurns
import RightLinear.Proofs.LineLayout
import RightLinear.StateSet.Bits
import RightLinear.StateSet.Calls
import RightLinear.Proofs.SetHistories

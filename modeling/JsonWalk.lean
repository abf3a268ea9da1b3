import JsonWalk.Input.Schedule
import JsonWalk.Main
import JsonWalk.Proofs.Feeding
import JsonWalk.Proofs.Documents
import JsonWalk.Script
import JsonWalk.TreeWalk
import JsonWalk.Value.Equality
import JsonWalk.Proofs.Passage
import JsonWalk.Proofs.TreePassage
import JsonWalk.Proofs.Rebuilding
import JsonWalk.Proofs.SilentWalk
import JsonWalk.Proofs.FrontEnds
import JsonWalk.Proofs.Grammar
import JsonWalk.Proofs.StringTexts
import JsonWalk.Proofs.Lexing
import JsonWalk.Proofs.TextAcceptance
import JsonWalk.Proofs.Buffering
import JsonWalk.Proofs.Collecting
import JsonWalk.Proofs.TextQueries
import JsonWalk.Proofs.Nodes
import JsonWalk.Proofs.Selecting
import JsonWalk.Proofs.Indifference
import JsonWalk.Proofs.Runs
import JsonWalk.Proofs.Tracing
import JsonWalk.Proofs.Detaching
import JsonWalk.Proofs.PatternTexts
import JsonWalk.Proofs.Covering
import JsonWalk.Proofs.Accounting
import JsonWalk.Proofs.TokenOrder
import JsonWalk.Proofs.Disorder
import JsonWalk.Proofs.Readers
import JsonWalk.Proofs.PatternPrinting
import JsonWalk.Proofs.PathTexts
import JsonWalk.Proofs.PrintedTexts
import JsonWalk.Proofs.DepthCuts
import JsonWalk.Proofs.DepthLimits
import JsonWalk.Proofs.PlainTexts
import JsonWalk.Proofs.CommandRuns
import JsonWalk.Proofs.AbortedWalks
import JsonWalk.Proofs.WildcardRuns
import JsonWalk.Proofs.PathIdentity
import JsonWalk.Proofs.Prospects
import JsonWalk.Proofs.PathLines
import JsonWalk.Proofs.PatternFaults
import JsonWalk.Proofs.TextFaults
import JsonWalk.Proofs.Completions
import JsonWalk.Proofs.PathReading
import JsonWalk.Proofs.PatternShape
import JsonWalk.Proofs.Spellings
import JsonWalk.Proofs.Nesting
import JsonWalk.Proofs.OpenNodes
import JsonWalk.Proofs.StackOrder
import JsonWalk.Proofs.LexemeSpans
import JsonWalk.Proofs.Requests
import JsonWalk.Proofs.FloatReading

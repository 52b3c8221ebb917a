import StackTrace.Tree.Counts
import StackTrace.Tree.Replies
import StackTrace.Tree.Pack
import StackTrace.Tree.Operations
import StackTrace.Tree.Chain
import StackTrace.Tree.Empty
import StackTrace.Tree.HandedOut
import StackTrace.Tree.Stacks
import StackTrace.Cleanup.Shape
import StackTrace.Cleanup.Coherent
import StackTrace.Cleanup.Paths
import StackTrace.Cleanup.Settled
import StackTrace.Cleanup.Termination
import StackTrace.Text.RoundTrip
import StackTrace.Symbols.Copy
import StackTrace.Symbols.FunctionName
import StackTrace.Symbols.Agreement
import StackTrace.Symbols.Replace
import StackTrace.Symbols.Rewriting
import StackTrace.Symbols.InBounds
import StackTrace.Symbols.StringAliases
import StackTrace.Symbols.Nesting
import StackTrace.Symbols.Search
import StackTrace.Symbols.TypeName
import StackTrace.Symbols.Missing
import StackTrace.Text.Fields
import StackTrace.Text.Indentation
import StackTrace.Text.Total
import StackTrace.Text.Frames
import StackTrace.Threads.Registry
import StackTrace.Remote.Answers
import StackTrace.Remote.Matching
import StackTrace.Signals.Dispositions
import StackTrace.Signals.Attribution
import StackTrace.Signals.Handlers
import StackTrace.Signals.Deadlock
import StackTrace.Signals.ExitCode
import StackTrace.AbortError
import StackTrace.Symbols.Accesses
import StackTrace.Symbols.CleanupSteps
import StackTrace.Base.Brackets
import StackTrace.Symbols.FindMatching
import StackTrace.Symbols.Partition
import StackTrace.Symbols.Command
import StackTrace.Symbols.Rows
import StackTrace.Text.Depth
import StackTrace.Text.Drawing
import StackTrace.Threads.ThreadId
import StackTrace.Symbols.NmSymbols
import StackTrace.Symbols.SymbolCache
import StackTrace.Threads.ActiveThreads
import StackTrace.Threads.Handles
import StackTrace.Signals.ErrorHandler
import StackTrace.Signals.Aborts
import StackTrace.Remote.Lifecycle
import StackTrace.Tree.AllStacks
import StackTrace.Remote.GlobalStacks
import StackTrace.Remote.Completion
import StackTrace.StaticVectorRuns
import StackTrace.Text.FramePrint
import StackTrace.Signals.MpiErrors
import StackTrace.Cleanup.AllStacks
import StackTrace.ErrorReport
import StackTrace.Environment

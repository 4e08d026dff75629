import Cherubsh.State.IndexedArrayRefinement
import Cherubsh.Common.HistoryAppend
import Cherubsh.Exec.RedirectRestore
import Cherubsh.Exec.Connection
import Cherubsh.Expander.Arith.ShortCircuit
import Cherubsh.Parser.HereDocOrder
import Cherubsh.Common.HistoryRoundTrip
import Cherubsh.Common.AliasChain
import Cherubsh.Common.JobStates
import Cherubsh.Builtins.OptParser
import Cherubsh.Builtins.PrintfNumbers
import Cherubsh.Builtins.PrintfTermination
import Cherubsh.State.NamerefChains
import Cherubsh.Builtins.DirectoryFailures
import Cherubsh.Builtins.TestOperands
import Cherubsh.Exec.ErrexitScripts
import Cherubsh.Builtins.ReadRule
import Cherubsh.Builtins.GetoptsRestart
import Cherubsh.Exec.NoTrace
import Cherubsh.Exec.PipelineStages
import Cherubsh.Exec.Plumbing
import Cherubsh.Expander.ParenWords
import Cherubsh.Expander.ParenBodies
import Cherubsh.Expander.SubstringLaw
import Cherubsh.Expander.ArrayKeys
import Cherubsh.Expander.QuotedPattern
import Cherubsh.Expander.CommandSubst
import Cherubsh.Expander.WordParts
import Cherubsh.Expander.CompoundElement
import Cherubsh.Exec.CaseClauses
import Cherubsh.Expander.JoinedLists
import Cherubsh.Exec.ForLoops
import Cherubsh.Expander.Arith.Radix
import Cherubsh.Expander.BraceTrees
import Cherubsh.Expander.PatternCuts
import Cherubsh.Builtins.ReadInput
import Cherubsh.Builtins.Mapfile
import Cherubsh.Expander.PatternCase

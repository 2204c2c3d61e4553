import SEDiff.Foundation.Store
import SEDiff.Foundation.StepFunction
import SEDiff.Foundation.Python
import SEDiff.Foundation.Dict
import SEDiff.Juxta.Range
import SEDiff.Juxta.RangeSet
import SEDiff.Juxta.RangeSetVector
import SEDiff.Juxta.Insert
import SEDiff.Juxta.Decompose
import SEDiff.Juxta.AddWith
import SEDiff.Juxta.Meeting
import SEDiff.Juxta.Passing
import SEDiff.Juxta.Carrying
import SEDiff.Juxta.Stranding
import SEDiff.Juxta.Addition
import SEDiff.Juxta.Maximum
import SEDiff.Juxta.Runs
import SEDiff.Juxta.Distance
import SEDiff.Foundation.Slots
import SEDiff.Afl.Queue
import SEDiff.Afl.Hybrid
import SEDiff.Afl.RefCount
import SEDiff.Afl.Cull
import SEDiff.Afl.Runs
import SEDiff.Afl.Lockstep
import SEDiff.Foundation.Text
import SEDiff.Juxta.Path
import SEDiff.Juxta.Parser
import SEDiff.Juxta.Sections
import SEDiff.Foundation.Deal
import SEDiff.Juxta.Chunks
import SEDiff.Juxta.Ast
import SEDiff.Juxta.Variables
import SEDiff.Juxta.Substitute
import SEDiff.Juxta.DataFlow
import SEDiff.Juxta.Pieces
import SEDiff.Juxta.Differences
import SEDiff.Juxta.DiffObjects
import SEDiff.Juxta.VectorDistance
import SEDiff.Juxta.Gains
import SEDiff.Juxta.Average
import SEDiff.Afl.Favored
import SEDiff.Afl.ScoreChanged
import SEDiff.Afl.Counters
import SEDiff.Afl.Novelty
import SEDiff.Afl.Saving
import SEDiff.Foundation.Steps
import SEDiff.Foundation.Nesting
import SEDiff.Juxta.Lock
import SEDiff.Juxta.LockStacks
import SEDiff.Juxta.LockRegions
import SEDiff.Juxta.LockNesting
import SEDiff.Afl.NewMetric
import SEDiff.Afl.Instrumentation
import SEDiff.Afl.SharedMaps
import SEDiff.Afl.Persistent
import SEDiff.Afl.MaxHybrid
import SEDiff.Afl.Bookkeeping
import SEDiff.Foundation.Cut
import SEDiff.Juxta.Locations
import SEDiff.Juxta.Lookups
import SEDiff.Juxta.Statements
import SEDiff.Juxta.Calls
import SEDiff.Juxta.RoundTrip
import SEDiff.Afl.Trim
import SEDiff.Foundation.Objects
import SEDiff.Juxta.PathBin
import SEDiff.Juxta.Pickles
import SEDiff.Foundation.Schedule
import SEDiff.Foundation.Merge
import SEDiff.Juxta.GraphOrder
import SEDiff.Juxta.SymbolicValues
import SEDiff.Foundation.Double
import SEDiff.Juxta.MissingConditions
import SEDiff.Foundation.Numerals
import SEDiff.Juxta.RangeTexts
import SEDiff.Juxta.SolverText
import SEDiff.Foundation.Words
import SEDiff.Juxta.ArgNorm
import SEDiff.Juxta.Renaming
import SEDiff.Juxta.NormalForms
import SEDiff.Juxta.ReturnKeys
import SEDiff.Foundation.Recursion
import SEDiff.Juxta.Expansion
import SEDiff.Juxta.Matched
import SEDiff.Juxta.RangeBuild
import SEDiff.Juxta.Mixture
import SEDiff.Juxta.RoundedEnds
import SEDiff.Juxta.SymbolTable
import SEDiff.Juxta.VectorOver
import SEDiff.Juxta.Deviations
import SEDiff.Juxta.Masking
import SEDiff.CallSites.FindAllFiles
import SEDiff.Juxta.Merging
import SEDiff.Foundation.Hexadecimal
import SEDiff.Juxta.RangeConditions
import SEDiff.Juxta.ExactConditions
import SEDiff.Foundation.Glob
import SEDiff.Juxta.StoredNames
import SEDiff.Foundation.Escapes
import SEDiff.Foundation.Replacing
import SEDiff.Juxta.StringConstants
import SEDiff.Juxta.ConstantTokens
import SEDiff.Juxta.DisturbedConstants
import SEDiff.Foundation.Simpler
import SEDiff.Afl.Minimize
import SEDiff.Afl.Sync
import SEDiff.Foundation.Chance
import SEDiff.Foundation.Memory
import SEDiff.Afl.Havoc
import SEDiff.Afl.Splice
import SEDiff.Afl.AutoExtras
import SEDiff.Afl.Dictionary
import SEDiff.Afl.Deterministic
import SEDiff.Afl.SingleBytes
import SEDiff.Afl.DetExtras
import SEDiff.Afl.DictionaryFile

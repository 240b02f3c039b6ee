import Cmicot.Lib.Loop
import Cmicot.Lib.Reference
import Cmicot.Lib.Greedy
import Cmicot.Lib.Attained
import Cmicot.Lib.Empirical
import Cmicot.Lib.Text
import Cmicot.Lib.Gaps
import Cmicot.Bin
import Cmicot.BinFeatureSet
import Cmicot.BinIndex
import Cmicot.Entropy
import Cmicot.FrequencyCounter
import Cmicot.EntropyCalculator
import Cmicot.CmiCalculator
import Cmicot.Search.Steps
import Cmicot.Search.Rounds
import Cmicot.Search.Exact
import Cmicot.Search.Recall
import Cmicot.Search.Values
import Cmicot.Pool
import Cmicot.ExactValues
import Cmicot.FeatureScore
import Cmicot.BinScore
import Cmicot.Phases
import Cmicot.ScoreLaws
import Cmicot.CachingBinScorer
import Cmicot.Selection
import Cmicot.Exhaustive
import Cmicot.Invariance
import Cmicot.CachedRounds
import Cmicot.Agreement
import Cmicot.Scorers
import Cmicot.Search.Settled
import Cmicot.PerfectBin
import Cmicot.PlainSelection
import Cmicot.Lib.Cuts
import Cmicot.Lib.Splitting
import Cmicot.Lib.Worklist
import Cmicot.Lib.RowMinima
import Cmicot.Lib.WeakCuts
import Cmicot.Grid.Borders
import Cmicot.Grid.Label
import Cmicot.Grid.Levels
import Cmicot.Grid.Modes
import Cmicot.Grid.BestSplit
import Cmicot.Grid.Rlm2
import Cmicot.Grid.Optimum
import Cmicot.Grid.AnyPenalty
import Cmicot.Grid.ModeLayers
import Cmicot.Grid.ModeOptimum
import Cmicot.Grid.Penalties
import Cmicot.Grid.MedianInBin
import Cmicot.Grid.Binarizers
import Cmicot.Grid.Guaranteed
import Cmicot.Grid.Recoding
import Cmicot.Io
import Cmicot.ReadPool
import Cmicot.Binarize
import Cmicot.Regroup
import Cmicot.BinaryPool
import Cmicot.StepLimit
import Cmicot.Scheduling
import Cmicot.RoundTrip
import Cmicot.ReadErrors
import Cmicot.Main
import Cmicot.SameRuns
import Cmicot.TwoCommands

import AflPlusPlus.SplitComparesSpec
import AflPlusPlus.SplitFloatComparesRefinement
import AflPlusPlus.FavoredCover
import AflPlusPlus.SaveIfInterestingCrashes
import AflPlusPlus.TestcaseCacheInvariants
import AflPlusPlus.DeterministicStagesDedup
import AflPlusPlus.UniqueTraceFeed
import AflPlusPlus.SplitSwitchesSpec
import AflPlusPlus.CompareTransformSpec
import AflPlusPlus.FastResumeScheduling
import AflPlusPlus.SyncFuzzersRuns
import AflPlusPlus.ForkserverHandshakeSpec
import AflPlusPlus.ForkserverRunsSpec
import AflPlusPlus.EdgeGuardsSpec
import AflPlusPlus.CmplogSpec
import AflPlusPlus.PersistentRecordSpec
import AflPlusPlus.SpanLists
import AflPlusPlus.FridaRangesSpec
import AflPlusPlus.DictionaryFilesSpec
import AflPlusPlus.AutoExtrasSpec
import AflPlusPlus.VariableEntriesRuns
import AflPlusPlus.EntrySelection
import AflPlusPlus.TminOneMinimal
import AflPlusPlus.SplitComparesComplete
import AflPlusPlus.CompareTransformSigns
import AflPlusPlus.TrimCaseFiles
import AflPlusPlus.WinnerMinimality
import AflPlusPlus.DuplicateRemoval
import AflPlusPlus.TestcaseCacheEviction
import AflPlusPlus.DryRunLoop
import AflPlusPlus.ExtrasOver
import AflPlusPlus.ExtrasInsert
import AflPlusPlus.AliasSelectionSpec
import AflPlusPlus.CalculateScore
import AflPlusPlus.QueueWeightsSpec
import AflPlusPlus.MutationRuns
import AflPlusPlus.TestcaseCacheSlots
import AflPlusPlus.RtnHookOperands
import AflPlusPlus.ColorizationSpec
import AflPlusPlus.CmpExtendEncodingSpec
import AflPlusPlus.ScaleCandidates
import AflPlusPlus.AsciiNumbers
import AflPlusPlus.SwappedOperands
import AflPlusPlus.RtnTransform
import AflPlusPlus.TaintWalk
import AflPlusPlus.SkipInference
import AflPlusPlus.FuzzNearby
import AflPlusPlus.DedupExtras
import AflPlusPlus.DictionaryTokens
import AflPlusPlus.BuiltinTokens
import AflPlusPlus.TextInputsSpec
import AflPlusPlus.NumberMutation
import AflPlusPlus.MapGrowthSpec
import AflPlusPlus.NextPow2
import AflPlusPlus.LocateInPcs
import AflPlusPlus.DeterministicStagesAccepts
import AflPlusPlus.BitmapCounts
import AflPlusPlus.Hashmap
import AflPlusPlus.ExtractAndSetEnvSpec
import AflPlusPlus.SuggestedEnvsSpec
import AflPlusPlus.ProblematicFiles
import AflPlusPlus.PreallocListsRuns
import AflPlusPlus.CminSelection
import AflPlusPlus.Sha1Spec
import AflPlusPlus.RandomNumbers
import AflPlusPlus.LevenshteinColumns

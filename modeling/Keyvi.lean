import Keyvi.Library.Varlen
import Keyvi.Library.NewestWins
import Keyvi.Library.Run
import Keyvi.Util.Key
import Keyvi.Dictionary.ValueStoreMerge
import Keyvi.Dictionary.DictionaryMerger
import Keyvi.Dictionary.DictionaryMergerQueue
import Keyvi.Dictionary.DictionaryMergerDeletes
import Keyvi.Dictionary.DictionaryMergerSpec
import Keyvi.Index.Segment
import Keyvi.Index.SegmentHistory
import Keyvi.Index.SegmentSteps
import Keyvi.Index.MergePolicy
import Keyvi.Index.IndexWriterWorker
import Keyvi.Index.WriterSteps
import Keyvi.Index.SegmentList
import Keyvi.Index.WriterInvariant
import Keyvi.Index.WriterOperations
import Keyvi.Index.WriterMerges
import Keyvi.Index.WriterSchedule
import Keyvi.Index.WriterHistory
import Keyvi.Index.WriterLookup
import Keyvi.Index.WriterRecovery
import Keyvi.Index.WriterJobs
import Keyvi.Library.Preorder
import Keyvi.Library.SortedQueue
import Keyvi.Library.StableSort
import Keyvi.Fsa.Automata
import Keyvi.Fsa.MemoryMapManager
import Keyvi.Fsa.SparseArrayPersistence
import Keyvi.Fsa.PersistenceRefinement
import Keyvi.Fsa.StateTraverser
import Keyvi.Fsa.Traversal
import Keyvi.Fsa.EntryIterator
import Keyvi.Fsa.DictionaryTraversal
import Keyvi.Fsa.ComparableStateTraverser
import Keyvi.Fsa.ZipStateTraverser
import Keyvi.Fsa.ZipSimulation
import Keyvi.Fsa.ZipRefinement
import Keyvi.Fsa.ZipDictionaries
import Keyvi.Fsa.WeightedTraversal
import Keyvi.Fsa.WeightedTrees
import Keyvi.Fsa.WeightedZip
import Keyvi.Fsa.WeightedRefinement
import Keyvi.Fsa.WeightedDictionaries
import Keyvi.Fsa.NearTraversal
import Keyvi.Matching.Match
import Keyvi.Matching.NearMatching
import Keyvi.Matching.NearMatches
import Keyvi.Matching.CompletionMatching
import Keyvi.Matching.CompletionRuns
import Keyvi.Matching.CompletionDictionaries
import Keyvi.Compression.PredictiveCompression
import Keyvi.Transform.FsaTransform
import Keyvi.Dictionary.DictionaryIndexCompiler
import Keyvi.Dictionary.DictionaryCompiler
import Keyvi.Fsa.StringValueStore
import Keyvi.Index.IndexReaderWorker
import Keyvi.Dictionary.SecondaryKeyDictionary
import Keyvi.Dictionary.AppendMerge
import Keyvi.Library.StringAlignment
import Keyvi.Stringdistance.NeedlemanWunsch
import Keyvi.Util.VintFunctions
import Keyvi.Fsa.MemoryMap
import Keyvi.Fsa.JsonValueStore
import Keyvi.Fsa.BitVector
import Keyvi.Fsa.PositionTracker
import Keyvi.Matching.TopCompletion
import Keyvi.Fsa.MinimizationHash
import Keyvi.Fsa.LruGenerationCache
import Keyvi.Fsa.SparseArrayBuilder
import Keyvi.Fsa.PersistState
import Keyvi.Fsa.BitVectorSearch
import Keyvi.Fsa.MemoryLimitConfiguration
import Keyvi.Fsa.OutgoingTransitions
import Keyvi.Matching.LookupText
import Keyvi.Matching.MultiwordHeads
import Keyvi.Fsa.BoundedWeightedStateTraverser
import Keyvi.Completion.PrefixCompletion
import Keyvi.Library.Utf8
import Keyvi.Matching.CodePointStateTraverser
import Keyvi.Stringdistance.LevenshteinCompletion
import Keyvi.Matching.BagOfWords
import Keyvi.Matching.FuzzyMultiwordCompletionMatching
import Keyvi.Matching.FuzzyCompletions
import Keyvi.Library.SortedPrefixes
import Keyvi.Fsa.Generator
import Keyvi.Fsa.GeneratorDictionary
import Keyvi.Matching.FuzzyMatching
import Keyvi.Matching.FuzzyDictionaries
import Keyvi.Dictionary.CompiledDictionary
import Keyvi.Index.IndexLookupUtil
import Keyvi.Fsa.TransitionCodec
import Keyvi.Fsa.WriteState

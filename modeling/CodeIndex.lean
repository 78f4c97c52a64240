import CodeIndex.Main
import CodeIndex.Proofs.Indexer.Batches
import CodeIndex.Proofs.Indexer.Transparency
import CodeIndex.Proofs.Store.Mirror
import CodeIndex.Store.Overwrite
import CodeIndex.Watch.Debouncer
import CodeIndex.Proofs.Indexer.Resume
import CodeIndex.Proofs.Store.Rows
import CodeIndex.Proofs.Indexer.Freshness
import CodeIndex.Proofs.Watch.Debouncer
import CodeIndex.Proofs.Watch.Eviction
import CodeIndex.Proofs.Store.Tally
import CodeIndex.Proofs.Indexer.Trace
import CodeIndex.Proofs.Indexer.Counts
import CodeIndex.Proofs.Store.Damage
import CodeIndex.Proofs.Store.Order
import CodeIndex.Proofs.Indexer.Search
import CodeIndex.Proofs.Indexer.Shared
import CodeIndex.Proofs.Store.Related
import CodeIndex.Proofs.Store.Summary
import CodeIndex.Proofs.RuleSet.Positions
import CodeIndex.Proofs.Structure.RoundTrip
import CodeIndex.Proofs.RuleSet.ClassBody
import CodeIndex.Proofs.RuleSet.ClassForest
import CodeIndex.Proofs.RuleSet.ClassLines
import CodeIndex.Proofs.Watch.Burst
import CodeIndex.Proofs.Structure.PrintedParameter
import CodeIndex.Proofs.RuleSet.LastLineFeed
import CodeIndex.Proofs.Regex.Tried
import CodeIndex.Proofs.Text.TypeList
import CodeIndex.Proofs.RuleSet.TriedHeaders
import CodeIndex.Proofs.RuleSet.ListedTypes
import CodeIndex.Proofs.RuleSet.BaseClauses
import CodeIndex.Proofs.Regex.Walk
import CodeIndex.Proofs.RuleSet.FieldRules
import CodeIndex.Proofs.RuleSet.Signatures
import CodeIndex.Proofs.Regex.Ways
import CodeIndex.Proofs.RuleSet.ExportHeads
import CodeIndex.Proofs.RuleSet.ExportRules
import CodeIndex.Proofs.RuleSet.ExportReads
import CodeIndex.Proofs.RuleSet.Exports
import CodeIndex.Proofs.Text.Complexity
import CodeIndex.Proofs.Regex.Loop
import CodeIndex.Proofs.RuleSet.FreeFunctions
import CodeIndex.Proofs.RuleSet.HeaderScans
import CodeIndex.Proofs.RuleSet.ImportLines
import CodeIndex.Proofs.Vector.Ranking
import CodeIndex.Proofs.Store.Found
import CodeIndex.Proofs.Tree.Walk
import CodeIndex.Proofs.Vector.Codec
import CodeIndex.Proofs.Insight.PatternSummary
import CodeIndex.Proofs.Insight.DetectedPatterns
import CodeIndex.Proofs.Text.Nesting

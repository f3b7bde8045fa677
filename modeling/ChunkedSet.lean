import ChunkedSet.IntSet.Compare
import ChunkedSet.IntSet.Statistics
import ChunkedSet.IntSet.Text
import ChunkedSet.IntSet.Trim
import ChunkedSet.IntSet.Valid
import ChunkedSet.RankedSet
import ChunkedSet.Cursor.Basic
import ChunkedSet.Codec.Document
import ChunkedSet.Codec.HeldSet
import ChunkedSet.Many.Aggregate
import ChunkedSet.Proofs.Bounds
import ChunkedSet.Proofs.Word
import ChunkedSet.Proofs.Words
import ChunkedSet.Proofs.Extremes
import ChunkedSet.Proofs.WordsScan
import ChunkedSet.Proofs.Denotes
import ChunkedSet.Proofs.SortedArray
import ChunkedSet.Proofs.Merge
import ChunkedSet.Proofs.Gallop
import ChunkedSet.Proofs.Block
import ChunkedSet.Proofs.RunList
import ChunkedSet.Proofs.RunConvert
import ChunkedSet.Proofs.RunAlgebra
import ChunkedSet.Proofs.Chunk
import ChunkedSet.Proofs.ChunkAlgebra
import ChunkedSet.Proofs.Segment
import ChunkedSet.Proofs.SetDenotes
import ChunkedSet.Proofs.Combine
import ChunkedSet.Proofs.ChunkUpdate
import ChunkedSet.Proofs.SetPoints
import ChunkedSet.Proofs.SetRanges
import ChunkedSet.Proofs.RangeChanges
import ChunkedSet.Proofs.SetTrim
import ChunkedSet.Proofs.Among
import ChunkedSet.Proofs.LazyUnion
import ChunkedSet.Proofs.Many
import ChunkedSet.Proofs.ManySets
import ChunkedSet.Proofs.Bytes
import ChunkedSet.Proofs.Image
import ChunkedSet.Proofs.Source
import ChunkedSet.Proofs.ReadChunk
import ChunkedSet.Proofs.Decode
import ChunkedSet.Proofs.Encode
import ChunkedSet.Proofs.Layout
import ChunkedSet.Proofs.Canonical
import ChunkedSet.Proofs.Conversions
import ChunkedSet.Proofs.History
import ChunkedSet.Proofs.ChunkCursor
import ChunkedSet.Proofs.RunCursor
import ChunkedSet.Proofs.EntryCursor
import ChunkedSet.Cursor.Queue
import ChunkedSet.Proofs.CursorQueue
import ChunkedSet.Proofs.Rank
import ChunkedSet.Proofs.IntersectionSize
import ChunkedSet.Proofs.SetSizes
import ChunkedSet.Proofs.OrNot
import ChunkedSet.Proofs.Spellings
import ChunkedSet.Proofs.TwoReadings
import ChunkedSet.Proofs.SliceReading
import ChunkedSet.Proofs.UncheckedReading
import ChunkedSet.Proofs.CutInput
import ChunkedSet.Proofs.WrittenBack
import ChunkedSet.Proofs.KnownSize
import ChunkedSet.RankedSession
import ChunkedSet.Proofs.RankedSet
import ChunkedSet.Proofs.PointChanges
import ChunkedSet.Proofs.CursorBatches
import ChunkedSet.Proofs.CheckedRunCursor
import ChunkedSet.Proofs.CheckedBatches
import ChunkedSet.Proofs.RunSteps
import ChunkedSet.Proofs.ManyFailures
import ChunkedSet.Proofs.RunFree
import ChunkedSet.Proofs.PlainHistory
import ChunkedSet.Proofs.ChunkCompare
import ChunkedSet.Proofs.BlockChanges
import ChunkedSet.Proofs.SetCompare
import ChunkedSet.Proofs.OptimizedSize
import ChunkedSet.Proofs.Selection
import ChunkedSet.Proofs.ChunkNeighbours
import ChunkedSet.Proofs.Neighbours
import ChunkedSet.Proofs.RangeQueries
import ChunkedSet.Proofs.TrimmedValues
import ChunkedSet.Proofs.RunOperations
import ChunkedSet.Proofs.Shift
import ChunkedSet.Proofs.Statistics
import ChunkedSet.Proofs.BalancedReading

import WormholeFilters.RingTable
import WormholeFilters.RingDisplacement
import WormholeFilters.RingPlacement
import WormholeFilters.RingRuns
import WormholeFilters.Lanes
import WormholeFilters.Tags
import WormholeFilters.InsertLoop
import WormholeFilters.PmFilter
import WormholeFilters.PmRefinement
import WormholeFilters.PmFailure
import WormholeFilters.LoopTrace
import WormholeFilters.DurableImages
import WormholeFilters.PmCrash
import WormholeFilters.PmDurability
import WormholeFilters.Hash64
import WormholeFilters.LevelDbFilter
import WormholeFilters.Sizing
import WormholeFilters.Completeness
import WormholeFilters.LevelDbAnswers
import WormholeFilters.Agreement
import WormholeFilters.ProbeStop
import WormholeFilters.WordMixing
import WormholeFilters.HashBytes
import WormholeFilters.FilterBounds
import WormholeFilters.AlignedRanges
import WormholeFilters.AlignedData
import WormholeFilters.DirectIo
import WormholeFilters.OwnershipLedger
import WormholeFilters.ReadBuffers
import WormholeFilters.FilterBlock
import WormholeFilters.Varint
import WormholeFilters.Coding
import WormholeFilters.Comparators
import WormholeFilters.InternalKeys
import WormholeFilters.Cursors
import WormholeFilters.Iterators
import WormholeFilters.BlockBuilder
import WormholeFilters.BlockIter
import WormholeFilters.BlockSimulation
import WormholeFilters.TwoLevelIter
import WormholeFilters.SortedEntries
import WormholeFilters.MergingIter
import WormholeFilters.Snapshots
import WormholeFilters.DbIter
import WormholeFilters.ShiftRegister
import WormholeFilters.Crc32c
import WormholeFilters.TableFormat
import WormholeFilters.TableBuilder
import WormholeFilters.Table
import WormholeFilters.Multiversion
import WormholeFilters.Version
import WormholeFilters.CompactionWork
import WormholeFilters.KeyClasses
import WormholeFilters.Spans
import WormholeFilters.OverlappingInputs
import WormholeFilters.CompactionInputs
import WormholeFilters.OrderedSets
import WormholeFilters.VersionEdit
import WormholeFilters.VersionBuilder
import WormholeFilters.VersionChange
import WormholeFilters.CompactionResult
import WormholeFilters.MemTableOutput
import WormholeFilters.MemTable
import WormholeFilters.Db
import WormholeFilters.DbRefinement
import WormholeFilters.DbScan
import WormholeFilters.TableReads
import WormholeFilters.InternalIterators

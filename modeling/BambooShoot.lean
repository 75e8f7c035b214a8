import BambooShoot.Lib.Radix
import BambooShoot.Lib.Effect
import BambooShoot.Lib.Ordered
import BambooShoot.Lib.Cursor
import BambooShoot.Lib.RandomAccess
import BambooShoot.Lib.Runs
import BambooShoot.Lib.Crc
import BambooShoot.Lib.CrcDistance
import BambooShoot.Lib.Parts
import BambooShoot.Lib.BackReference
import BambooShoot.Lib.Regex
import BambooShoot.Pbss.Stream
import BambooShoot.Pbss.CharRange
import BambooShoot.Pbss.StdStream
import BambooShoot.Pbss.Types
import BambooShoot.Pbss.VarUint
import BambooShoot.Pbss.Decode
import BambooShoot.Pbss.Format
import BambooShoot.Pbss.Size
import BambooShoot.Pbss.Serialize
import BambooShoot.Pbss.Parse
import BambooShoot.Pbss.Progress
import BambooShoot.Pbss.Evolution
import BambooShoot.Pbss.RoundTrip
import BambooShoot.Pbss.Compatibility
import BambooShoot.Pbss.Entries
import BambooShoot.Pbss.FixedArray
import BambooShoot.Pbss.Optimistic
import BambooShoot.Pbss.Truncation
import BambooShoot.Pbss.Bulk
import BambooShoot.Pbss.Relational
import BambooShoot.Pbss.Unchecked
import BambooShoot.Pbss.EarlyEof
import BambooShoot.Pbss.TwoStreams
import BambooShoot.Pbss.Lengths
import BambooShoot.Pbss.Forward
import BambooShoot.Pbsf.Crc32
import BambooShoot.Pbsf.Compression
import BambooShoot.Pbsf.Minilzo
import BambooShoot.Pbsf.MinilzoRoundTrip
import BambooShoot.Pbsf.DataBlock
import BambooShoot.Pbsf.BufferSafety
import BambooShoot.Pbsf.Realm
import BambooShoot.Pbsf.ReadIterator
import BambooShoot.Pbsf.ParseAll
import BambooShoot.Pbsf.SequentialFile
import BambooShoot.Pbsf.IndexedFile
import BambooShoot.Pbsf.FileStream
import BambooShoot.Pbsf.IndexedSessions
import BambooShoot.Pbsf.HandleLifecycle
import BambooShoot.Pbsf.FailedInsert
import BambooShoot.Pbsf.LazyReads
import BambooShoot.Pbsf.ReaderRuns
import BambooShoot.Pbsf.SequentialView
import BambooShoot.Pbsf.Checksum
import BambooShoot.Pbsf.ChecksumDistance
import BambooShoot.Pbsf.DeclaredSize
import BambooShoot.Pbsf.HardwareChecksum
import BambooShoot.Pbsu.Iterator
import BambooShoot.Pbsu.MappingCalls
import BambooShoot.Pbsu.MultiplexWriter
import BambooShoot.Pbsu.ZipView
import BambooShoot.Pbsu.Pipeline
import BambooShoot.Pbsu.HeldReferences
import BambooShoot.Pbsu.Reduce
import BambooShoot.Pbsu.RandomPipeline
import BambooShoot.Pbsu.FailStop
import BambooShoot.Pbsu.ReadRange
import BambooShoot.Pbsu.AnalysisJob
import BambooShoot.Pbsu.DamagedInput
import BambooShoot.Pbsu.JobRuns
import BambooShoot.Pbsu.Optional
import BambooShoot.Pbsu.Writers
import BambooShoot.Pbsic.MakeType
import BambooShoot.Pbsic.ParseInput
import BambooShoot.Pbsic.Layout
import BambooShoot.Pbsic.Generate
import BambooShoot.Pbsic.Interface

import ParquetFileFs.Lib.Segments
import ParquetFileFs.Lib.SortedMap
import ParquetFileFs.Lib.Cumulative
import ParquetFileFs.Lib.Program
import ParquetFileFs.Lib.Interleaving
import ParquetFileFs.Lib.Costs
import ParquetFileFs.Lib.FileSystem
import ParquetFileFs.Lib.Footprint
import ParquetFileFs.Lib.Grouping
import ParquetFileFs.Lib.Glob
import ParquetFileFs.Lib.ForwardReader
import ParquetFileFs.Lib.FileTree
import ParquetFileFs.Lib.Percent
import ParquetFileFs.Lib.Mirror
import ParquetFileFs.Adapter
import ParquetFileFs.Native
import ParquetFileFs.Objects
import ParquetFileFs.Client
import ParquetFileFs.ChunkReader
import ParquetFileFs.Streaming
import ParquetFileFs.Parquet
import ParquetFileFs.Index.Normalize
import ParquetFileFs.Index.Columns
import ParquetFileFs.Index.Basic
import ParquetFileFs.Index.Merge
import ParquetFileFs.Index.Dirs
import ParquetFileFs.Index.Ls
import ParquetFileFs.Archive.Decode
import ParquetFileFs.Archive.Cache
import ParquetFileFs.Archive.Caching
import ParquetFileFs.Archive.Queries
import ParquetFileFs.Archive.Written
import ParquetFileFs.Archive.Tables
import ParquetFileFs.Archive.Metadata
import ParquetFileFs.Archive.Recency
import ParquetFileFs.Archive.Safety
import ParquetFileFs.Archive.Union
import ParquetFileFs.Archive.Shown
import ParquetFileFs.Archive.Bucket
import ParquetFileFs.Archive.Policies
import ParquetFileFs.Py.Fs
import ParquetFileFs.Py.Names
import ParquetFileFs.Py.Spellings
import ParquetFileFs.Py.Clashes
import ParquetFileFs.Py.Walk
import ParquetFileFs.Py.Threads
import ParquetFileFs.Py.GlobFallback
import ParquetFileFs.Pack.Paths
import ParquetFileFs.Pack.Containment
import ParquetFileFs.Pack.GlobRoot
import ParquetFileFs.Pack.Writer
import ParquetFileFs.Pack.Files
import ParquetFileFs.Pack.Archives
import ParquetFileFs.Pack.Rows
import ParquetFileFs.Pack.Protocol
import ParquetFileFs.Pack.Answers
import ParquetFileFs.Pack.Atomic
import ParquetFileFs.Pack.Calls
import ParquetFileFs.Pack.Partition
import ParquetFileFs.Pack.SevenZ
import ParquetFileFs.Pack.Frame
import ParquetFileFs.Pack.RoundTrip
import ParquetFileFs.Pack.Permuted
import ParquetFileFs.Pack.PathColumn
import ParquetFileFs.Pack.ZipSizes
import ParquetFileFs.Pack.Duplicates
import ParquetFileFs.Pack.Columns
import ParquetFileFs.Pack.Kinds
import ParquetFileFs.Py.Mounted
import ParquetFileFs.Py.Alike
import ParquetFileFs.Py.Sharded
import ParquetFileFs.Py.Adapters
import ParquetFileFs.Py.Nested
import ParquetFileFs.Pack.PlainTar
import ParquetFileFs.Pack.Detection
import ParquetFileFs.Pack.Compressed
import ParquetFileFs.Pack.Shorthand
import ParquetFileFs.Pack.Concurrent
import ParquetFileFs.Pack.Isolated
import ParquetFileFs.Pack.Parts
import ParquetFileFs.Pack.Retry
import ParquetFileFs.Pack.Commands

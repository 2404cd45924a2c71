import LiteOSFS.FileSystem.Create
import LiteOSFS.FileSystem.Read
import LiteOSFS.FileSystem.Remove
import LiteOSFS.FileSystem.Relocate
import LiteOSFS.Library.Exclusive
import LiteOSFS.Library.Reach
import LiteOSFS.Storage.Ownership
import LiteOSFS.Properties.SystemArea
import LiteOSFS.Properties.Isolation
import LiteOSFS.FileSystem.RelocateEffect
import LiteOSFS.Properties.DescriptorTable
import LiteOSFS.Properties.BlockAllocator
import LiteOSFS.Properties.Seek
import LiteOSFS.Properties.Storing
import LiteOSFS.Properties.Reading
import LiteOSFS.FileSystem.AppendOnly
import LiteOSFS.Properties.Accounting
import LiteOSFS.Properties.BlockLeak
import LiteOSFS.Properties.Atomicity
import LiteOSFS.Properties.Reclaim
import LiteOSFS.FileSystem.Tidy
import LiteOSFS.Properties.PathWalks
import LiteOSFS.Properties.LinkRemove
import LiteOSFS.Properties.Opening
import LiteOSFS.Properties.LinkFrame
import LiteOSFS.Properties.Moving
import LiteOSFS.Properties.ShortWrite
import LiteOSFS.Properties.StoreCalls
import LiteOSFS.Properties.RoundTrip
import LiteOSFS.Properties.ZeroWrite
import LiteOSFS.Properties.SourceBytes
import LiteOSFS.Properties.PathIntake
import LiteOSFS.Properties.DynRefinement
import LiteOSFS.Properties.DirectoryListing
import LiteOSFS.Properties.BlockMap
import LiteOSFS.FileSystem.NameRefine
import LiteOSFS.Properties.InodeUse
import LiteOSFS.Properties.EntryNames
import LiteOSFS.Properties.CursorSteps
import LiteOSFS.Properties.PathGrammar
import LiteOSFS.Properties.BitmapSet
import LiteOSFS.Properties.TableLayers
import LiteOSFS.Properties.CapacityExact
import LiteOSFS.Properties.SortedInsert
import LiteOSFS.Properties.CreateExact
import LiteOSFS.Properties.MoveExact
import LiteOSFS.Properties.DescriptorUse
import LiteOSFS.Properties.IndexSafety
import LiteOSFS.Properties.CreationPaths
import LiteOSFS.Properties.DataTraffic
import LiteOSFS.Properties.LatestWrite
import LiteOSFS.Properties.DirectoryTree
import LiteOSFS.Properties.SeveralFiles
import LiteOSFS.Properties.DynLedger
import LiteOSFS.Properties.Scratch
import LiteOSFS.Properties.Drained

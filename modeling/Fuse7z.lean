import Fuse7z.Lib.Heap
import Fuse7z.Lib.OrdMap
import Fuse7z.Lib.Walk
import Fuse7z.Lib.PathMap
import Fuse7z.Lib.Run
import Fuse7z.Lib.Window
import Fuse7z.Lib.File
import Fuse7z.Lib.Word
import Fuse7z.Lib.LastOf
import Fuse7z.Lib.Traverse
import Fuse7z.Lib.Ledger
import Fuse7z.Lib.Simulation
import Fuse7z.Lib.Words
import Fuse7z.Lib.RefCount
import Fuse7z.Lib.Explore
import Fuse7z.Lib.Fold
import Fuse7z.Lib.WordBytes
import Fuse7z.Bytes
import Fuse7z.OutStream
import Fuse7z.OutFile
import Fuse7z.InStream
import Fuse7z.InFile
import Fuse7z.Extension
import Fuse7z.Node
import Fuse7z.TreeInv
import Fuse7z.Lib7zip
import Fuse7z.Callbacks
import Fuse7z.Index
import Fuse7z.RoundTrip
import Fuse7z.Shape
import Fuse7z.Fullname
import Fuse7z.Pouet
import Fuse7z.Steps
import Fuse7z.Lookup
import Fuse7z.Listing
import Fuse7z.Readdir
import Fuse7z.Placement
import Fuse7z.Directories
import Fuse7z.Extraction
import Fuse7z.Reading
import Fuse7z.Handles
import Fuse7z.Times
import Fuse7z.Leftover
import Fuse7z.Stability
import Fuse7z.Teardown
import Fuse7z.Volume
import Fuse7z.Refinement
import Fuse7z.Consistency
import Fuse7z.HelperFuncs
import Fuse7z.ArchiveItem
import Fuse7z.ArchiveImpl
import Fuse7z.DllHandler
import Fuse7z.Library
import Fuse7z.Opening
import Fuse7z.Initlib
import Fuse7z.CodecsInfo
import Fuse7z.ExtractCallback
import Fuse7z.Safety
import Fuse7z.Crawl
import Fuse7z.CommandLine
import Fuse7z.Program
import Fuse7z.OpenCallback
import Fuse7z.Bstr
import Fuse7z.Variant

import RendangOS.Driver.Disk
import RendangOS.Driver.DiskCalls
import RendangOS.Driver.Keyboard
import RendangOS.Driver.Terminal
import RendangOS.Ext2.Alloc
import RendangOS.Ext2.AllocSpec
import RendangOS.Ext2.CallSpec
import RendangOS.Ext2.CallTrace
import RendangOS.Ext2.Chain
import RendangOS.Ext2.Content
import RendangOS.Ext2.Counters
import RendangOS.Ext2.Crash
import RendangOS.Ext2.Create
import RendangOS.Ext2.DirMap
import RendangOS.Ext2.DirSize
import RendangOS.Ext2.DirSpec
import RendangOS.Ext2.Directory
import RendangOS.Ext2.DotsFirst
import RendangOS.Ext2.EntryKind
import RendangOS.Ext2.Failure
import RendangOS.Ext2.FileContent
import RendangOS.Ext2.Frame
import RendangOS.Ext2.InodeBounds
import RendangOS.Ext2.Invariant
import RendangOS.Ext2.Isolation
import RendangOS.Ext2.Layout
import RendangOS.Ext2.Operations
import RendangOS.Ext2.Ownership
import RendangOS.Ext2.Persistence
import RendangOS.Ext2.ReadBack
import RendangOS.Ext2.Reboot
import RendangOS.Ext2.Remount
import RendangOS.Ext2.Removal
import RendangOS.Ext2.Replace
import RendangOS.Ext2.ScanSafety
import RendangOS.Ext2.ScanTiled
import RendangOS.Ext2.ScanTrace
import RendangOS.Ext2.State
import RendangOS.Ext2.Store
import RendangOS.Ext2.StoreRefinement
import RendangOS.Ext2.Trace
import RendangOS.Ext2.Tree
import RendangOS.Ext2.Undo
import RendangOS.Ext2.Volume
import RendangOS.Kernel.Boot
import RendangOS.Kernel.Inserter
import RendangOS.Lib.Assoc
import RendangOS.Lib.Bitmap
import RendangOS.Lib.Image
import RendangOS.Lib.Interference
import RendangOS.Lib.Journal
import RendangOS.Lib.Ledger
import RendangOS.Lib.Lines
import RendangOS.Lib.LookAside
import RendangOS.Lib.NodeStore
import RendangOS.Lib.PageWindow
import RendangOS.Lib.RecordChain
import RendangOS.Lib.RecordScan
import RendangOS.Lib.Ring
import RendangOS.Lib.Simulation
import RendangOS.Lib.TreeSearch
import RendangOS.Memory.AllocateCheck
import RendangOS.Memory.Paging
import RendangOS.Memory.Translation
import RendangOS.Shell.ChangeDir
import RendangOS.Shell.Commands
import RendangOS.Shell.Copy
import RendangOS.Shell.DirBuffer
import RendangOS.Shell.Echo
import RendangOS.Shell.Files
import RendangOS.Shell.Find
import RendangOS.Shell.Grep
import RendangOS.Shell.Listing
import RendangOS.Shell.Main
import RendangOS.Shell.Move
import RendangOS.Shell.Parse
import RendangOS.Shell.Pipeline
import RendangOS.Shell.Session
import RendangOS.Shell.Text
import RendangOS.Shell.Typing
import RendangOS.Shell.WorkingDir

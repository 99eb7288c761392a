import Np2ptp.Lib.Runs
import Np2ptp.Lib.Replies
import Np2ptp.Lib.FileTree
import Np2ptp.Lib.LineLog
import Np2ptp.Lib.LineReader
import Np2ptp.Lib.Text
import Np2ptp.Lib.Utf16
import Np2ptp.Lib.Utf8
import Np2ptp.Lib.HashTree
import Np2ptp.Lib.Bincode
import Np2ptp.Lib.Framing
import Np2ptp.Lib.Blocks
import Np2ptp.Lib.Slices
import Np2ptp.Lib.Staged
import Np2ptp.Lib.SortBy
import Np2ptp.Lib.TopK
import Np2ptp.Core.Hash
import Np2ptp.Core.MerkleBinding
import Np2ptp.Core.Path
import Np2ptp.Core.PathLaws
import Np2ptp.Core.Manifest
import Np2ptp.Core.ManifestLaws
import Np2ptp.Core.BuiltManifest
import Np2ptp.Core.Reconstruct
import Np2ptp.Core.Validate
import Np2ptp.Core.Split
import Np2ptp.Core.RoundTrip
import Np2ptp.Core.Nptp
import Np2ptp.Store.Layout
import Np2ptp.Store.Handle
import Np2ptp.Store.Export
import Np2ptp.Store.ExportLaws
import Np2ptp.Store.ExportProgress
import Np2ptp.Store.OutputDir
import Np2ptp.Store.HandleLaws
import Np2ptp.Store.Ingest
import Np2ptp.Store.IngestLaws
import Np2ptp.Store.Packing
import Np2ptp.Store.Sound
import Np2ptp.Store.History
import Np2ptp.Store.Lookup
import Np2ptp.Store.Readable
import Np2ptp.Store.Crash
import Np2ptp.Store.Machine
import Np2ptp.Store.MachineLaws
import Np2ptp.Store.Outline
import Np2ptp.Store.Exclusion
import Np2ptp.Store.PackIndex
import Np2ptp.Store.OpenRace
import Np2ptp.Store.Whole
import Np2ptp.Store.WriteOnce
import Np2ptp.Store.Visibility
import Np2ptp.Store.RefLog
import Np2ptp.Store.IngestExport
import Np2ptp.Store.ReadBack
import Np2ptp.Store.DiskIngest
import Np2ptp.Store.Restore
import Np2ptp.Store.FaultyPut
import Np2ptp.Store.FailedAppend
import Np2ptp.Rep.Receipt
import Np2ptp.Rep.Ledger
import Np2ptp.Rep.Accounting
import Np2ptp.Fec.RaptorQ
import Np2ptp.Fec.Schedule
import Np2ptp.Net.Protocol
import Np2ptp.Net.Download
import Np2ptp.Net.DownloadLaws
import Np2ptp.Net.Acknowledge
import Np2ptp.Net.Binding
import Np2ptp.Net.Honest
import Np2ptp.Net.Progress
import Np2ptp.Net.Requests
import Np2ptp.Net.EventLoop
import Np2ptp.Net.Choke
import Np2ptp.Net.SymbolCache
import Np2ptp.Net.LedgerFile
import Np2ptp.Net.Epochs
import Np2ptp.Net.Books
import Np2ptp.Net.Reseeding
import Np2ptp.Net.Seeding
import Np2ptp.Net.StateFiles
import Np2ptp.Net.Swarm
import Np2ptp.Net.Calls
import Np2ptp.Net.Junk
import Np2ptp.Net.Vouching
import Np2ptp.Net.ReceiptBag
import Np2ptp.Net.FecDownload
import Np2ptp.Net.FecBound
import Np2ptp.Net.FecLaws
import Np2ptp.Net.FecExport
import Np2ptp.Bridge.Torrent
import Np2ptp.Bridge.PieceReads
import Np2ptp.Bridge.Bencode
import Np2ptp.Bridge.BencodeLaws
import Np2ptp.Bridge.InfoSlice
import Np2ptp.Bridge.Convert
import Np2ptp.Bridge.Resolve
import Np2ptp.Bridge.ResolveOrConvert
import Np2ptp.Node.Lines
import Np2ptp.Node.Daemon
import Np2ptp.Node.Status
import Np2ptp.Node.FetchProgress
import Np2ptp.Node.Tasks
import Np2ptp.Node.Output
import Np2ptp.Node.Refused
import Np2ptp.Node.Tree
import Np2ptp.Node.Registry
import Np2ptp.Node.Stdio
import Np2ptp.Node.Directory
import Np2ptp.Node.Client
import Np2ptp.Node.PackGet
import Np2ptp.Lib.EntryMap
import Np2ptp.Tracker.Store
import Np2ptp.Tracker.Client
import Np2ptp.Node.Serve
import Np2ptp.Bridge.Published

import Ferrosync.Lib.ByteStream
import Ferrosync.Lib.Loop
import Ferrosync.Lib.Interaction
import Ferrosync.Lib.Utf8
import Ferrosync.Types
import Ferrosync.Protocol.Varint
import Ferrosync.Protocol.Varlong
import Ferrosync.Protocol.WireFormat
import Ferrosync.Delta.Checksum
import Ferrosync.Delta.Sum
import Ferrosync.Delta.Ops
import Ferrosync.Delta.Token
import Ferrosync.Delta.CompressedToken
import Ferrosync.Delta.Matcher
import Ferrosync.Engine.Receiver
import Ferrosync.Engine.DeltaTransfer
import Ferrosync.Delta.Streaming
import Ferrosync.Engine.StreamingSend
import Ferrosync.Fs.AtomicWriter
import Ferrosync.Fs.BufWriter
import Ferrosync.Engine.ReceiveFile
import Ferrosync.Lib.UnixPath
import Ferrosync.Codec.Entry
import Ferrosync.Engine.ReceiverEngine
import Ferrosync.Engine.EntryOps
import Ferrosync.Engine.Pipeline
import Ferrosync.Engine.ReceiverRuns
import Ferrosync.Engine.ReceiveFlows
import Ferrosync.Lib.UnixTree
import Ferrosync.Engine.SymlinkContainment
import Ferrosync.Lib.Base64
import Ferrosync.Server.Auth
import Ferrosync.Server.Listener
import Ferrosync.Transport.Daemon
import Ferrosync.Engine.Pairing
import Ferrosync.Lib.Session
import Ferrosync.Engine.Sender
import Ferrosync.Engine.RemoveSource
import Ferrosync.Engine.EndOfSession
import Ferrosync.Engine.AppendTransfer
import Ferrosync.Engine.InPlaceReceive
import Ferrosync.Delta.CompressedWriter
import Ferrosync.Delta.CompressedFraming
import Ferrosync.Engine.ServerOptions
import Ferrosync.Engine.OptionRoundTrip
import Ferrosync.Engine.FileLayout
import Ferrosync.Filter.Pattern
import Ferrosync.Filter.Rule
import Ferrosync.Engine.FilterList
import Ferrosync.Codec.Attributes
import Ferrosync.Codec.BatchRoundTrip
import Ferrosync.Codec.OwnerNames
import Ferrosync.Codec.DirectoryTree
import Ferrosync.Codec.IncrementalAttributes
import Ferrosync.Delta.BlockReuse
import Ferrosync.Engine.ReceiverAgreement
import Ferrosync.Engine.StreamingAgreement
import Ferrosync.Lib.PosixShell
import Ferrosync.Transport.SshCommand
import Ferrosync.Codec.EndOfList
import Ferrosync.Protocol.NdxStream
import Ferrosync.Delta.Signatures
import Ferrosync.Delta.CompressedRuns
import Ferrosync.Delta.CompressedSafety
import Ferrosync.Engine.ResponseHeaders
import Ferrosync.Fs.Sparse
import Ferrosync.Engine.BatchHeader
import Ferrosync.Engine.SafeLinks
import Ferrosync.Engine.PruneDirs
import Ferrosync.Engine.Fuzzy
import Ferrosync.Engine.Delete
import Ferrosync.Protocol.Multiplex
import Ferrosync.Filter.Matching
import Ferrosync.Engine.AclTransfer
import Ferrosync.Engine.DeferredLinks
import Ferrosync.Server.AddressRange
import Ferrosync.Server.Config
import Ferrosync.Engine.DeleteAccounting

import Lev.Run
import Lev.Slab
import Lev.SlabOwnership
import Lev.CInt
import Lev.MemSlice
import Lev.Buffer
import Lev.BufferInvariant
import Lev.BufferSteps
import Lev.BufferIsolation
import Lev.BufferBounds
import Lev.BufferSplice
import Lev.Endian
import Lev.Double
import Lev.BufferAccess
import Lev.LuaValue
import Lev.MPackFormat
import Lev.MPackDecode
import Lev.MPackReads
import Lev.MPackAccepts
import Lev.MPackHead
import Lev.MPackSafety
import Lev.MPackSound
import Lev.SlabSafety
import Lev.MPackEncode
import Lev.BufferCounts
import Lev.BufferStores
import Lev.BufferConcat
import Lev.ReadBuffer
import Lev.BufferContents
import Lev.MPackEncoding
import Lev.MPackInteger
import Lev.MPackPlain
import Lev.MPackRoundTrip
import Lev.Unpacker
import Lev.UnpackerSteps
import Lev.UnpackerTrees
import Lev.UnpackerAgrees
import Lev.UnpackerStream
import Lev.UnpackerChunks
import Lev.Pool
import Lev.Handle
import Lev.Tcp
import Lev.TcpWrite
import Lev.LuaStack
import Lev.Dispatch
import Lev.LuaTable
import Lev.Callbox
import Lev.CallboxRuns
import Lev.Pipe
import Lev.Timer
import Lev.Udp
import Lev.LuaText
import Lev.Ipc
import Lev.Mailbox
import Lev.MailboxOrder
import Lev.MailboxConnects
import Lev.MailboxDelivers
import Lev.ReadLoop
import Lev.Packets
import Lev.Framing
import Lev.Room
import Lev.Master
import Lev.MasterRoom
import Lev.BindPool
import Lev.MailboxBroadcast
import Lev.Broadcast
import Lev.ReadFile
import Lev.ReadFileSeparate
import Lev.ReadFileDelivers
import Lev.Web
import Lev.HttpChunked
import Lev.HttpHead
import Lev.Response
import Lev.ResponseRuns
import Lev.ResponseBody
import Lev.Strbuf
import Lev.StrbufMemory
import Lev.JsonEncode
import Lev.JsonPieces
import Lev.JsonOverrun
import Lev.JsonDecode
import Lev.Ends
import Lev.JsonScratch
import Lev.JsonModule
import Lev.JsonStores
import Lev.JsonBlocks
import Lev.JsonGrammar
import Lev.JsonLexer
import Lev.JsonReader
import Lev.JsonFollows
import Lev.JsonAccepts
import Lev.BufferCodec
import Lev.MPackGraph
import Lev.SliceString
import Lev.LocalArray
import Lev.Spawn
import Lev.SockAddr
import Lev.LuaPattern
import Lev.BufferKeeps
import Lev.PendingWrites
import Lev.Dns
import Lev.Querystring
import Lev.LuaLongString
import Lev.Render
import Lev.SlabResident
import Lev.TimeCache
import Lev.Aliases
import Lev.BufferRefines
import Lev.BufferFamilies
import Lev.BufferText
import Lev.JsonMeaning
import Lev.JsonDecodes
import Lev.JsonEncoded
import Lev.JsonRoundTrip

import Wfrest.Lib.OrdMap
import Wfrest.Lib.Trie
import Wfrest.Route.Router
import Wfrest.Route.Table
import Wfrest.Route.Lookup
import Wfrest.Route.Match
import Wfrest.Route.Dispatch
import Wfrest.Route.BluePrint
import Wfrest.Route.Mount
import Wfrest.Aop.Aspect
import Wfrest.Aop.Veto
import Wfrest.Route.Precedence
import Wfrest.Route.Complete
import Wfrest.Lib.Run
import Wfrest.Lib.Fifo
import Wfrest.Base.ContentType
import Wfrest.Compare.Service
import Wfrest.Compare.Results
import Wfrest.Form.MultiPartParser
import Wfrest.Base.StrUtil
import Wfrest.Form.ParserRun
import Wfrest.Form.MultiPart
import Wfrest.Form.Exact
import Wfrest.Base.PathUtil
import Wfrest.Form.Encoder
import Wfrest.Form.RoundTrip
import Wfrest.Lib.LexPath
import Wfrest.Base.CodeUtil
import Wfrest.Base.UriUtil
import Wfrest.Server.HttpServer
import Wfrest.Route.MatchPath
import Wfrest.Route.Context
import Wfrest.Route.Order
import Wfrest.Route.TrailingSlash
import Wfrest.Route.Leftover
import Wfrest.Route.Selected
import Wfrest.Server.Transparent
import Wfrest.Route.Frame
import Wfrest.Compare.DirAttr
import Wfrest.Compare.Internal
import Wfrest.Compare.FileContent
import Wfrest.Compare.LineHash
import Wfrest.Compare.LocalReader
import Wfrest.Compare.Report
import Wfrest.Compare.Lossless
import Wfrest.Compare.Chan
import Wfrest.Compare.Handover
import Wfrest.Server.StaticFiles
import Wfrest.Form.Urlencode
import Wfrest.Server.Compress
import Wfrest.Aop.Pairing
import Wfrest.Compare.Accepted
import Wfrest.Compare.Batches
import Wfrest.Compare.Executor
import Wfrest.Compare.Polls
import Wfrest.Compare.Cwd
import Wfrest.Compare.ReaderThreads
import Wfrest.Form.Disposition
import Wfrest.Form.BoundaryParam
import Wfrest.Server.Cookie
import Wfrest.Server.FileRange
import Wfrest.Compare.FileDigest
import Wfrest.Compare.FilesInTurn
import Wfrest.Compare.LineEndings
import Wfrest.Compare.BoundedQueue
import Wfrest.Compare.Polling
import Wfrest.Compare.ParentDir
import Wfrest.Compare.TaskSchema
import Wfrest.Compare.AttrDiff
import Wfrest.Form.QuoteStrip
import Wfrest.Route.ParamName
import Wfrest.Form.ParserBounds
import Wfrest.Server.MySql
import Wfrest.Base.UrlDecode
import Wfrest.Route.PrintRoutes
import Wfrest.Base.Base64
import Wfrest.Server.KeepAlive
import Wfrest.Compare.DiffRow
import Wfrest.Compare.QueueSize
import Wfrest.Server.Splitting
import Wfrest.CJson.Strtod
import Wfrest.CJson.Literals
import Wfrest.CJson.Parser
import Wfrest.CJson.Grammar
import Wfrest.Lib.Nearest
import Wfrest.CJson.Printf
import Wfrest.CJson.Printer
import Wfrest.CJson.Posted
import Wfrest.Form.Streaming
import Wfrest.Compare.ThreadResults
import Wfrest.Compare.Stranded
import Wfrest.Compare.AtRest
import Wfrest.Server.Gzip
import Wfrest.Compare.WriteDown
import Wfrest.Compare.GenDiff
import Wfrest.Compare.WriterAtRest

import Socnet.Lib.Run
import Socnet.Http.HttpRequest
import Socnet.Net.Buffer
import Socnet.Http.RequestHead
import Socnet.Http.KeyValue
import Socnet.Http.Connection
import Socnet.Http.ParserSafety
import Socnet.Http.StartLine
import Socnet.Http.BodyFraming
import Socnet.Lib.Heap
import Socnet.Net.TimeStamp
import Socnet.Net.TimerHeap
import Socnet.Net.TimerSift
import Socnet.Net.TimerOps
import Socnet.Net.TimerQueue
import Socnet.Net.TcpServer
import Socnet.Net.IdleConnections
import Socnet.Net.TaskQueue
import Socnet.Http.HttpServer
import Socnet.Http.MountContainment
import Socnet.Net.TimerRace
import Socnet.Http.SessionExpiry
import Socnet.Http.SessionIsolation
import Socnet.Http.ResponseFraming
import Socnet.Http.HttpResponse
import Socnet.Http.MultiPartRoundTrip
import Socnet.Libjson.JsonLexer
import Socnet.Libjson.JsonFormatter
import Socnet.Libjson.JsonParser
import Socnet.Libjson.ParserSoundness
import Socnet.Libjson.ParserCompleteness
import Socnet.Libjson.Layout
import Socnet.Libjson.RoundTrip
import Socnet.Libjson.RawStrings
import Socnet.Libjson.RawText
import Socnet.Http.BodyJson
import Socnet.Lib.Framing
import Socnet.Modules.FastCgi
import Socnet.Modules.PhpFastCgi
import Socnet.Modules.StdinStream
import Socnet.Libjson.Truncation
import Socnet.Libjson.Lexemes
import Socnet.Libjson.FileInput
import Socnet.Http.DigestFields
import Socnet.Http.MultiPartFiles
import Socnet.Http.MultiPartSegmentation
import Socnet.Http.RequestLine
import Socnet.Http.DigestVerification
import Socnet.Http.MountOrder
import Socnet.Http.HttpService
import Socnet.Http.Routing
import Socnet.Lib.Feed
import Socnet.Modules.StdoutStream
import Socnet.Http.HttpHeader
import Socnet.Http.HeaderAgreement
import Socnet.Http.BackendStatus
import Socnet.Http.HeaderNormalForm
import Socnet.Http.HeaderStore
import Socnet.Http.KeyValueRoundTrip
import Socnet.Http.PhpParams
import Socnet.Http.RequestSession
import Socnet.Net.TimerAdjust
import Socnet.Net.TimerArming
import Socnet.Net.WriteErrors
import Socnet.Http.MimeTypes
import Socnet.Utility.GzipCompress
import Socnet.Lib.Transition
import Socnet.Net.ThreadPool
import Socnet.Net.EPoller
import Socnet.Http.ResponseStream
import Socnet.Modules.Responder
import Socnet.Http.PhpRequest
import Socnet.Utility.Base64
import Socnet.Utility.FileUtil
import Socnet.Http.BasicLogin
import Socnet.Http.HttpCookie
import Socnet.Http.SessionCookies
import Socnet.Libjson.FormattedFile
import Socnet.Utility.AppConfig
import Socnet.Net.Rearming
import Socnet.Http.ServerLoop
import Socnet.Http.PhpExchange
import Socnet.Http.Serving

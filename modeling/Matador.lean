import Matador.Http.Outcomes
import Matador.Http.RequestBody
import Matador.Http.RequestReuse
import Matador.Http.ResponsePieces
import Matador.Http.ResponseReuse
import Matador.Http.ResponseText
import Matador.Http.RouteParams
import Matador.Http.StaticFiles
import Matador.Http.TemplateText
import Matador.Json.Order
import Matador.Json.Serialized
import Matador.Net.LeaderFollower
import Matador.Net.StreamHandler
import Matador.Object.CascadeRollback
import Matador.Object.FreshKeys
import Matador.Object.HasOneRuns
import Matador.Object.InsertFailure
import Matador.Object.InsertModels
import Matador.Object.KeyLookup
import Matador.Object.NestedTransaction
import Matador.Object.NodeRemoval
import Matador.Orm.FlushRetry
import Matador.Orm.LoadRows
import Matador.Orm.UpdateKeys
import Matador.Sql.ConnectionInfo
import Matador.Sql.LimitedRows
import Matador.Sql.Literals
import Matador.Sql.MssqlCompiler
import Matador.Sql.Placeholders
import Matador.Utils.Base64Bits
import Matador.Utils.Calendar
import Matador.Utils.Hmac
import Matador.Utils.Html
import Matador.Utils.IdentifierOrder
import Matador.Utils.Stream
import Matador.Utils.ThreadPool

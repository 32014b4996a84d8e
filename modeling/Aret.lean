import Aret.Lib.ByteOrder
import Aret.Lib.Decimal
import Aret.Lib.Rounding
import Aret.Lib.OrdMap
import Aret.Lib.Sscanf
import Aret.Lib.Openings
import Aret.Lib.ReadModifyWrite
import Aret.Lib.Regions
import Aret.Tera.Table
import Aret.Engine.ReEngine
import Aret.Indexer.Ec
import Aret.Indexer.TagRow
import Aret.Indexer.RunLog
import Aret.Indexer.IndexIntegrity
import Aret.Indexer.ScanRange
import Aret.Engine.ViewTally
import Aret.Engine.ViewWorkers
import Aret.Engine.FailedRead
import Aret.Indexer.Reindex
import Aret.Indexer.SecondRun
import Aret.Engine.RandomCursor
import Aret.Engine.CursorEnd
import Aret.Engine.TagLookup
import Aret.Engine.TagQuota
import Aret.Engine.RecommendLists
import Aret.Engine.RecommendQuota
import Aret.Engine.RecommendFill
import Aret.Engine.DisplayedTag
import Aret.Http.AretModule
import Aret.Http.ResponseBody
import Aret.Http.QueryParse
import Aret.Http.BufferBounds
import Aret.Http.RecommendedLink
import Aret.Http.LocConf
import Aret.Http.Locations
import Aret.Http.LocationLookup
import Aret.Http.LocationTables
import Aret.Http.ComplexUri
import Aret.Http.UriSegments
import Aret.Http.RequestLine
import Aret.Http.PlainUri
import Aret.Http.RequestUri
import Aret.Http.LineText
import Aret.Http.HeaderArrival
import Aret.Http.ViewRequest
import Aret.Conf.ReadToken
import Aret.Conf.Refill
import Aret.Conf.Parse
import Aret.Conf.Commands
import Aret.Conf.Written
import Aret.Core.Palloc
import Aret.Site.Processes
import Aret.Site.Alone
import Aret.Site.SharedTables
import Aret.Site.Requests

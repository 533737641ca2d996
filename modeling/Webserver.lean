import Webserver.ConfigLayout
import Webserver.ConfigPrinter
import Webserver.ConfigQuotes
import Webserver.CrudAliases
import Webserver.CrudAnswers
import Webserver.CrudConcurrency
import Webserver.CrudContainment
import Webserver.CrudFailures
import Webserver.CrudIsolation
import Webserver.CrudOwnership
import Webserver.CrudReads
import Webserver.CrudRefinement
import Webserver.CrudResponses
import Webserver.CrudRestart
import Webserver.CrudWrites
import Webserver.ProcessAvailability
import Webserver.ProcessPublication
import Webserver.ProcessResponses
import Webserver.Server
import Webserver.ServingNames
import Webserver.ServingReads
import Webserver.ServingStatus
import Webserver.ServingUnmatched
import Webserver.SessionEnds
import Webserver.SessionTraffic
import Webserver.StartUp
import Webserver.StaticGuard
import Webserver.WebsocketCompletion
import Webserver.WebsocketInfoHandler
import Webserver.WebsocketOrder
import Webserver.WebsocketTeardown
import Webserver.WebsocketWrites

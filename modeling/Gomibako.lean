import Gomibako.Beast.ContentLength
import Gomibako.Beast.FieldsIndex
import Gomibako.Beast.FlatStorage
import Gomibako.Beast.RoundTrip
import Gomibako.Http.RouteCaptures
import Gomibako.Http.RouteRegex
import Gomibako.Http.RouteTemplate
import Gomibako.Http.RouterHistory
import Gomibako.Http.ServerReads
import Gomibako.Http.ServerResponse
import Gomibako.Http.TypedHeaders
import Gomibako.Main.Clients
import Gomibako.Main.Endpoints
import Gomibako.Main.Finalise
import Gomibako.Main.Headers
import Gomibako.Main.Routes

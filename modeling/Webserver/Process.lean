import Webserver.CrudOwnership
import Webserver.CrudTargets
import Webserver.Dispatch
import Webserver.Library.Projections
import Webserver.PlainHandlers
import Webserver.StaticReads
import Webserver.WebsocketInfoHandler

/-!
# The process

`RouteRequest` with all its handlers over what they share: the disk, and for every CRUD location
the map of its factory. Requests are answered one after the other. An exception that escapes
from a handler ends the process; a handler that never returns costs its thread alone.
-/

set_option autoImplicit false

namespace Webserver

universe u

/-- A request that has been read, with the faults its system calls meet and the channels that
there are. -/
structure Arrival (ι : Type u) where
  request : ParsedRequest
  faults : Faults
  channels : ChannelMap ι

namespace RequestDispatcher
variable (H : Host) (toText : ParsedRequest → Str) {ι : Type u}

/-- `CreateHandler` and `HandleRequest` for the location that is matched. -/
def Match.handle (m : Match) (a : Arrival ι) (w : World Str) (res : Response) :
    Except Abort Response × World Str :=
  match m.factory with
  | .staticHandler config =>
    (.ok (StaticHandler.handleRequest H a.faults w.disk
      (FileHandlerFactory.getCompleteFilePath config m.path) a.request.toRequest res).2, w)
  | .crudHandler config =>
    let o := CrudHandler.handleRequest H (Disk.manager H a.faults)
      (FileHandlerFactory.getCompleteFilePath config m.path) a.request.toRequest
      (w.store m.location) res
    (o.status.map fun _ => o.res, w.setStore m.location o.store)
  | .echoHandler => (.ok (EchoHandler.handleRequest toText a.request res).2, w)
  | .healthHandler => (.ok (HealthHandler.handleRequest a.request res).2, w)
  | .sleepHandler => (.ok (SleepHandler.handleRequest a.request res).2, w)
  | .notFoundHandler => (.ok (NotFoundHandler.handleRequest a.request res).2, w)
  | .websocketInfoHandler => (.ok (WebsocketInfoHandler.handleRequest a.channels res).2, w)

/-- `RouteRequest` with its handlers. -/
def answerRequest (T : HandlerFactories) (a : Arrival ι) (w : World Str) (res : Response) :
    Except Abort Response × World Str :=
  if a.request.method ∉ [Verb.get, Verb.put, Verb.post, Verb.delete] then (.ok (badRequest res), w)
  else if a.request.version ≠ 11 then (.ok (badRequest res), w)
  else
    match route T a.request.target with
    | some m => m.handle H toText a w res
    | none => (.ok (errorPage a.request.version .badRequest "400 Bad Request".toList res), w)

end RequestDispatcher

/-- Whether the process goes on. -/
def Abort.spares : Abort → Bool
  | .diverges => true
  | _ => false

/-- What the handlers share, and whether the process still runs. -/
structure Process where
  world : World Str
  up : Bool

namespace Process
variable (H : Host) (toText : ParsedRequest → Str) (T : HandlerFactories) {ι : Type u}

def boot (t : Tree) : Process := ⟨World.initial t, true⟩

/-- A session answers with a response object of its own. -/
def respond (s : Process) (a : Arrival ι) : Except Abort Response × World Str :=
  RequestDispatcher.answerRequest H toText T a s.world .fresh

def survives : Except Abort Response → Bool
  | .ok _ => true
  | .error a => a.spares

/-- One request; a process that has ended takes none. -/
def step (s : Process) (a : Arrival ι) : Option Process :=
  if s.up then
    some ⟨(s.respond H toText T a).2, survives (s.respond H toText T a).1⟩
  else none

/-- The status and the body that are sent. -/
def answer (s : Process) (a : Arrival ι) : Answer :=
  (s.respond H toText T a).1.map fun res => (res.result, res.body)

end Process

/-! Two locations with one root: `location /api CrudHandler { root /crud; }` and
`location /pub StaticHandler { root /crud; }`. -/

namespace Demo

def shared : HandlerFactories where
  find path :=
    if path = "/api".toList then some (.crudHandler crudConfig)
    else if path = "/pub".toList then some (.staticHandler crudConfig)
    else if path = ['/'] then some .notFoundHandler
    else none
  top := rfl

def arrival (method : Verb) (target body : Str) : Arrival Unit :=
  ⟨⟨⟨method, 11, body⟩, target, []⟩, Faults.none, ∅⟩

end Demo

end Webserver

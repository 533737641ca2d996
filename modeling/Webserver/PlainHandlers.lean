import Webserver.RequestDispatcher

/-!
# The handlers without a state

EchoHandler, HealthHandler, SleepHandler and NotFoundHandler set a status, the version, the
server and the content type, and write one text. The ten seconds of the SleepHandler are no
part of what it leaves.
-/

set_option autoImplicit false

namespace Webserver

/-- What the four have in common; `prepare_payload` reads the body alone, so it does not matter
which of them set the content type before it. -/
def plainResponse (status : StatusCode) (text : Str) (req : ParsedRequest) (res : Response) :
    StatusCode × Response :=
  let res := { res with result := status, version := req.version, server := some "webserver".toList }
  (status, { (res.write text).preparePayload with contentType := some "text/plain".toList })

/-- `toText` is how Beast writes a request to a stream. -/
def EchoHandler.handleRequest (toText : ParsedRequest → Str) (req : ParsedRequest)
    (res : Response) : StatusCode × Response :=
  plainResponse .ok (toText req) req res

def HealthHandler.handleRequest (req : ParsedRequest) (res : Response) : StatusCode × Response :=
  plainResponse .ok "OK".toList req res

def SleepHandler.handleRequest (req : ParsedRequest) (res : Response) : StatusCode × Response :=
  plainResponse .ok [] req res

def NotFoundHandler.handleRequest (req : ParsedRequest) (res : Response) : StatusCode × Response :=
  plainResponse .notFound "404 Not Found".toList req res

end Webserver

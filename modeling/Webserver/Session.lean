import Webserver.Library.Traces
import Webserver.RequestDispatcher

/-!
# Session

One session: the wait of its timer, its read and its writes complete in any order, and `Timeout`,
which is not wrapped in the strand, runs beside `HandleRead` statement by statement. A session
stays allocated while its thread is in `io_service_.run()`.
-/

set_option autoImplicit false

namespace Webserver

/-- What `async_read` fails with: an `http::error` or another code. -/
inductive ReadError where
  | badTarget
  | badMethod
  | badField
  | badValue
  | badLineEnding
  | badVersion
  | other (code : ℕ)
deriving DecidableEq

/-- `parse_errors`. -/
def parseErrors : List ReadError :=
  [.badTarget, .badMethod, .badField, .badValue, .badLineEnding, .badVersion]

inductive ReadResult where
  | request (req : ParsedRequest)
  | error (error : ReadError)

/-- The statements of the callbacks that touch what callbacks share. -/
inductive Statement where
  /-- `req_dispatcher.BadRequest(res)`. -/
  | badRequest
  /-- `timeout_check = true`. -/
  | setTimeoutCheck
  /-- `http::async_write(socket_, res, ...)`. -/
  | asyncWrite
  /-- `socket_.close()`. -/
  | close
  /-- `_timer.cancel()`. -/
  | cancel
  /-- The socket is moved to a new `WebsocketHandler`. -/
  | runWebsocketHandler (req : ParsedRequest)
  /-- `req_dispatcher.RouteRequest(*req, res, ...)`. -/
  | routeRequest (req : ParsedRequest)
  /-- `res.set(field::date, ...)`. -/
  | setDate
  | internalServerError

namespace Statement

def writes : Statement → Bool
  | asyncWrite => true
  | _ => false

/-- `res` is written to. -/
def modifies : Statement → Bool
  | badRequest | routeRequest _ | setDate | internalServerError => true
  | _ => false

def handsOver : Statement → Bool
  | runWebsocketHandler _ => true
  | _ => false

end Statement

/-- The two callbacks with more than one statement. -/
inductive Callback where
  | timeout
  | handleRead
deriving DecidableEq

/-- The wait of `_timer`. -/
inductive TimerWait where
  | pending
  /-- It has expired, and `Timeout` is queued. -/
  | expired
  /-- It was cancelled, and `Timeout` is queued with `operation_aborted`. -/
  | aborted
  /-- `Timeout` was called for the expired wait. -/
  | timedOut
  /-- `Timeout` was called for the cancelled wait. -/
  | returned
deriving DecidableEq

/-- `cancel` has no effect on a wait that has expired. -/
def TimerWait.cancel : TimerWait → TimerWait
  | pending => aborted
  | wait => wait

inductive SessionRead where
  | pending
  /-- `HandleRead` is queued in the strand. -/
  | completed (result : ReadResult)
  /-- `HandleRead` returned at `timeout_check`. -/
  | dropped
  /-- `HandleRead` has passed `timeout_check`. -/
  | handled (result : ReadResult)

inductive Socket where
  | accepted
  | closed
  | moved
deriving DecidableEq

/-- The socket that was moved from is not open. -/
def Socket.close : Socket → Socket
  | accepted => closed
  | socket => socket

/-- What the sessions of a server share and does not change. -/
structure SessionConfig where
  factories : HandlerFactories
  /-- `websocket::is_upgrade`. -/
  isUpgrade : ParsedRequest → Bool

/-- What a statement meets: what the handler that it calls makes of a response, and the time. The
call of a handler that never returns is no event. -/
structure Surroundings where
  handleRequest : HandlerFactory → Str → ParsedRequest → Response → Response
  date : Str

structure Session where
  timer : TimerWait
  read : SessionRead
  timeoutCheck : Bool
  res : Response
  /-- The field `Date` of `res`. -/
  date : Option Str
  socket : Socket
  /-- The writes that are outstanding. -/
  writing : ℕ
  /-- The writes that have completed and whose `HandleWrite` is queued. -/
  written : ℕ
  /-- What is left to run of a callback. -/
  rest : Callback → List Statement

inductive ConnectionEvent where
  | expire
  | readComplete (result : ReadResult)
  | writeComplete
  | timeout
  | handleRead
  | handleWrite
  /-- A callback runs its next statement. -/
  | run (callback : Callback) (surroundings : Surroundings)

namespace Session

/-- A session after `Start`: the wait and the read are pending. -/
def started : Session :=
  ⟨.pending, .pending, false, Response.fresh, none, .accepted, 0, 0, fun _ => []⟩

/-- `Timeout`, after the check of its error. -/
def timeoutBody : List Statement := [.badRequest, .setTimeoutCheck, .asyncWrite, .close]

def prepareResponse (S : SessionConfig) : ReadResult → List Statement
  | .request req =>
    if S.isUpgrade req then [.cancel, .runWebsocketHandler req]
    else [.cancel, .routeRequest req, .setDate]
  | .error error => if error ∈ parseErrors then [.badRequest] else [.internalServerError]

/-- `HandleRead`, after the check of `timeout_check`. -/
def handleReadBody (S : SessionConfig) (result : ReadResult) : List Statement :=
  prepareResponse S result ++ [.asyncWrite]

def internalServerError (res : Response) : Response :=
  RequestDispatcher.errorPage 11 .internalServerError "500 Internal Server Error".toList res

def exec (S : SessionConfig) (w : Surroundings) (s : Session) : Statement → Session
  | .badRequest => { s with res := RequestDispatcher.badRequest s.res }
  | .setTimeoutCheck => { s with timeoutCheck := true }
  | .asyncWrite => { s with writing := s.writing + 1 }
  | .close => { s with socket := s.socket.close }
  | .cancel => { s with timer := s.timer.cancel }
  | .runWebsocketHandler _ => { s with socket := .moved }
  | .routeRequest req =>
    { s with res := RequestDispatcher.routeRequest S.factories w.handleRequest req s.res }
  | .setDate => { s with date := some w.date }
  | .internalServerError => { s with res := internalServerError s.res }

def setRest (s : Session) (callback : Callback) (statements : List Statement) : Session :=
  { s with rest := Function.update s.rest callback statements }

/-- A step; `none` where the event cannot happen. `HandleRead` and `HandleWrite` are wrapped in
the strand and do not overlap. -/
def step (S : SessionConfig) (s : Session) : ConnectionEvent → Option Session
  | .expire =>
    match s.timer with
    | .pending => some { s with timer := .expired }
    | _ => none
  | .readComplete result =>
    match s.read with
    | .pending => some { s with read := .completed result }
    | _ => none
  | .writeComplete =>
    if 0 < s.writing then
      some { s with writing := s.writing - 1, written := s.written + 1 }
    else none
  | .timeout =>
    match s.timer with
    | .expired => some ({ s with timer := .timedOut }.setRest .timeout timeoutBody)
    | .aborted => some { s with timer := .returned }
    | _ => none
  | .handleRead =>
    match s.read with
    | .completed result =>
      if s.timeoutCheck then some { s with read := .dropped }
      else
        some ({ s with read := .handled result }.setRest .handleRead (handleReadBody S result))
    | _ => none
  | .handleWrite =>
    if 0 < s.written ∧ (s.rest .handleRead).isEmpty then
      some { s with written := s.written - 1, socket := s.socket.close }
    else none
  | .run callback w =>
    match s.rest callback with
    | [] => none
    | statement :: statements => some (exec S w (s.setRest callback statements) statement)

/-- The state after a run, if every event of it can happen. -/
def after (S : SessionConfig) (s : Session) (es : List ConnectionEvent) : Option Session :=
  Traces.after (step S) s es

/-- The statement that an event runs. -/
def statement (s : Session) : ConnectionEvent → Option (Callback × Statement)
  | .run callback _ => (s.rest callback).head?.map fun statement => (callback, statement)
  | _ => none

/-- The statements of a run, in the order in which they are run. -/
def executed (S : SessionConfig) (es : List ConnectionEvent) : List (Callback × Statement) :=
  Traces.log (step S) statement started es

variable {S : SessionConfig}

@[simp] theorem setRest_timer (s : Session) (c : Callback) (l : List Statement) :
    (s.setRest c l).timer = s.timer := rfl

@[simp] theorem setRest_read (s : Session) (c : Callback) (l : List Statement) :
    (s.setRest c l).read = s.read := rfl

@[simp] theorem setRest_self (s : Session) (c : Callback) (l : List Statement) :
    (s.setRest c l).rest c = l := by
  unfold setRest
  exact Function.update_self ..

theorem setRest_of_ne (s : Session) {c d : Callback} (h : d ≠ c) (l : List Statement) :
    (s.setRest c l).rest d = s.rest d := by
  unfold setRest
  exact Function.update_of_ne h ..

@[simp] theorem exec_rest (w : Surroundings) (s : Session) (x : Statement) :
    (exec S w s x).rest = s.rest := by
  cases x <;> rfl

@[simp] theorem exec_read (w : Surroundings) (s : Session) (x : Statement) :
    (exec S w s x).read = s.read := by
  cases x <;> rfl

/-- The response and its date are left alone by the statements that do not modify it. -/
theorem exec_res (w : Surroundings) (s : Session) {x : Statement} (h : x.modifies = false) :
    (exec S w s x).res = s.res ∧ (exec S w s x).date = s.date := by
  cases x <;> first | exact ⟨rfl, rfl⟩ | exact absurd h (by simp [Statement.modifies])

theorem exec_timedOut (w : Surroundings) (s : Session) (x : Statement) :
    (exec S w s x).timer = .timedOut ↔ s.timer = .timedOut := by
  cases x <;> try exact Iff.rfl
  show s.timer.cancel = .timedOut ↔ s.timer = .timedOut
  cases s.timer <;> simp [TimerWait.cancel]

/-- Everything a step can do. -/
inductive Took (S : SessionConfig) (s : Session) : ConnectionEvent → Session → Prop
  | expired (ht : s.timer = .pending) : Took S s .expire { s with timer := .expired }
  | readCompleted (result : ReadResult) (hr : s.read = .pending) :
      Took S s (.readComplete result) { s with read := .completed result }
  | writeCompleted (hw : 0 < s.writing) :
      Took S s .writeComplete { s with writing := s.writing - 1, written := s.written + 1 }
  | timedOut (ht : s.timer = .expired) :
      Took S s .timeout ({ s with timer := .timedOut }.setRest .timeout timeoutBody)
  | aborted (ht : s.timer = .aborted) : Took S s .timeout { s with timer := .returned }
  | dropped {result : ReadResult} (hr : s.read = .completed result)
      (hc : s.timeoutCheck = true) : Took S s .handleRead { s with read := .dropped }
  | handled {result : ReadResult} (hr : s.read = .completed result)
      (hc : s.timeoutCheck = false) :
      Took S s .handleRead
        ({ s with read := .handled result }.setRest .handleRead (handleReadBody S result))
  | closed (hw : 0 < s.written) (hrest : s.rest .handleRead = []) :
      Took S s .handleWrite { s with written := s.written - 1, socket := s.socket.close }
  | ran {c : Callback} (w : Surroundings) {x : Statement} {xs : List Statement}
      (hrest : s.rest c = x :: xs) : Took S s (.run c w) (exec S w (s.setRest c xs) x)

/-- The inversion of a step. -/
theorem took_of_step {s s' : Session} {e : ConnectionEvent} (hstep : step S s e = some s') :
    Took S s e s' := by
  cases e with
  | expire =>
    simp only [step] at hstep
    split at hstep
    · rename_i ht
      exact Option.some.inj hstep ▸ .expired ht
    · exact absurd hstep (by simp)
  | readComplete result =>
    simp only [step] at hstep
    split at hstep
    · rename_i hr
      exact Option.some.inj hstep ▸ .readCompleted result hr
    · exact absurd hstep (by simp)
  | writeComplete =>
    simp only [step] at hstep
    split at hstep
    · rename_i hw
      exact Option.some.inj hstep ▸ .writeCompleted hw
    · exact absurd hstep (by simp)
  | timeout =>
    simp only [step] at hstep
    split at hstep
    · rename_i ht
      exact Option.some.inj hstep ▸ .timedOut ht
    · rename_i ht
      exact Option.some.inj hstep ▸ .aborted ht
    · exact absurd hstep (by simp)
  | handleRead =>
    simp only [step] at hstep
    split at hstep
    · rename_i result hr
      split at hstep
      · rename_i hc
        exact Option.some.inj hstep ▸ .dropped hr hc
      · rename_i hc
        exact Option.some.inj hstep ▸ .handled hr (by simpa using hc)
    · exact absurd hstep (by simp)
  | handleWrite =>
    simp only [step] at hstep
    split at hstep
    · rename_i hw
      exact Option.some.inj hstep ▸ .closed hw.1 (List.isEmpty_iff.mp hw.2)
    · exact absurd hstep (by simp)
  | run c w =>
    simp only [step] at hstep
    split at hstep
    · exact absurd hstep (by simp)
    · rename_i x xs hrest
      exact Option.some.inj hstep ▸ .ran w hrest

end Session

end Webserver

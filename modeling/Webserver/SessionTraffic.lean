import Webserver.CrudResponses
import Webserver.ProcessEffects
import Webserver.SessionAnswers

/-!
# The sessions of a server

Any number of sessions over one process, whose events come in any order. The statement that calls
`RouteRequest` is one step: the process answers in the state in which it is called, and no other
handler runs meanwhile. A handler that throws ends the process; one that never returns keeps the
strand of its session.
-/

set_option autoImplicit false

namespace Webserver

open RequestDispatcher

universe u

/-- What a statement meets when it runs. -/
structure Moment (ι : Type u) where
  faults : Faults
  channels : ChannelMap ι
  date : Str

/-- An event of a session, without what the handlers make of it. -/
inductive TrafficEvent (ι : Type u) where
  | expire
  | readComplete (result : ReadResult)
  | writeComplete
  | timeout
  | handleRead
  | handleWrite
  | run (callback : Callback) (moment : Moment ι)

/-- The event as the session takes it, if a handler that it calls leaves the response `res`. -/
def TrafficEvent.leaving {ι : Type u} (res : Response) : TrafficEvent ι → ConnectionEvent
  | .expire => .expire
  | .readComplete result => .readComplete result
  | .writeComplete => .writeComplete
  | .timeout => .timeout
  | .handleRead => .handleRead
  | .handleWrite => .handleWrite
  | .run callback moment => .run callback ⟨fun _ _ _ _ => res, moment.date⟩

structure Traffic where
  process : Process
  sessions : ℕ → Session
  /-- The handler that a session has called never returns. -/
  hung : ℕ → Bool

namespace Traffic
variable (H : Host) (toText : ParsedRequest → Str) (S : SessionConfig) {ι : Type u}

def boot (t : Tree) : Traffic := ⟨.boot t, fun _ => .started, fun _ => false⟩

def set (s : Traffic) (i : ℕ) (x : Session) : Traffic :=
  { s with sessions := Function.update s.sessions i x }

@[simp] theorem set_self (s : Traffic) (i : ℕ) (x : Session) : (s.set i x).sessions i = x := by
  unfold set
  exact Function.update_self ..

theorem set_of_ne (s : Traffic) {i j : ℕ} (h : i ≠ j) (x : Session) :
    (s.set j x).sessions i = s.sessions i := by
  unfold set
  exact Function.update_of_ne h ..

/-- The request with which an event of session `i` calls `RouteRequest`. -/
def calls (s : Traffic) (i : ℕ) : TrafficEvent ι → Option (Arrival ι)
  | .run callback moment =>
    match (s.sessions i).rest callback with
    | .routeRequest req :: _ => some ⟨req, moment.faults, moment.channels⟩
    | _ => none
  | _ => none

/-- `RouteRequest` with the response object of session `i`. -/
def routed (s : Traffic) (i : ℕ) (a : Arrival ι) : Except Abort Response × World Str :=
  answerRequest H toText S.factories a s.process.world (s.sessions i).res

/-- One event of one session; a process that has ended takes none. -/
def step (s : Traffic) : ℕ × TrafficEvent ι → Option Traffic
  | (i, e) =>
    if s.process.up then
      match s.calls i e with
      | none => (Session.step S (s.sessions i) (e.leaving (s.sessions i).res)).map (s.set i)
      | some a =>
        if s.hung i then none
        else
          let o := s.routed H toText S i a
          match o.1 with
          | .ok res =>
            (Session.step S (s.sessions i) (e.leaving res)).map fun x =>
              { s.set i x with process := ⟨o.2, true⟩ }
          | .error x =>
            some { s with process := ⟨o.2, x.spares⟩, hung := Function.update s.hung i true }
    else none

def after (s : Traffic) (es : List (ℕ × TrafficEvent ι)) : Option Traffic :=
  Traces.after (step H toText S) s es

/-- What session `i` takes of an event: nothing where its handler does not return. -/
def own (i : ℕ) (s : Traffic) : ℕ × TrafficEvent ι → Option ConnectionEvent
  | (j, e) =>
    if j = i then
      match s.calls i e with
      | none => some (e.leaving (s.sessions i).res)
      | some a =>
        match (s.routed H toText S i a).1 with
        | .ok res => some (e.leaving res)
        | .error _ => none
    else none

/-- The events of session `i` in a run. -/
def eventsOf (t : Tree) (i : ℕ) (es : List (ℕ × TrafficEvent ι)) : List ConnectionEvent :=
  Traces.log (step H toText S) (own H toText S i) (boot t) es

/-- The requests of a run, in the order in which their handlers are called. -/
def arrivals (t : Tree) (es : List (ℕ × TrafficEvent ι)) : List (Arrival ι) :=
  Traces.log (step H toText S) (fun s e => s.calls e.1 e.2) (boot t) es

variable {H toText S} {s s' : Traffic} {i : ℕ} {e : TrafficEvent ι} {a : Arrival ι}

/-- Everything a step can do. -/
inductive Took (H : Host) (toText : ParsedRequest → Str) (S : SessionConfig) (s : Traffic) :
    ℕ × TrafficEvent ι → Traffic → Prop
  | passed {i : ℕ} {e : TrafficEvent ι} {x : Session} (hup : s.process.up = true)
      (hcalls : s.calls i e = none)
      (hstep : Session.step S (s.sessions i) (e.leaving (s.sessions i).res) = some x) :
      Took H toText S s (i, e) (s.set i x)
  | answered {i : ℕ} {e : TrafficEvent ι} {a : Arrival ι} {res : Response} {x : Session}
      (hup : s.process.up = true) (hcalls : s.calls i e = some a)
      (hrouted : (s.routed H toText S i a).1 = .ok res)
      (hstep : Session.step S (s.sessions i) (e.leaving res) = some x) :
      Took H toText S s (i, e) { s.set i x with process := ⟨(s.routed H toText S i a).2, true⟩ }
  | failed {i : ℕ} {e : TrafficEvent ι} {a : Arrival ι} {x : Abort}
      (hup : s.process.up = true) (hcalls : s.calls i e = some a)
      (hrouted : (s.routed H toText S i a).1 = .error x) :
      Took H toText S s (i, e)
        { s with process := ⟨(s.routed H toText S i a).2, x.spares⟩,
                 hung := Function.update s.hung i true }

/-- The inversion of a step. -/
theorem took_of_step {e : ℕ × TrafficEvent ι} (h : step H toText S s e = some s') :
    Took H toText S s e s' := by
  obtain ⟨i, e⟩ := e
  rw [step] at h
  split at h
  · rename_i hup
    cases hcalls : s.calls i e with
    | none =>
      rw [hcalls] at h
      obtain ⟨x, hx, rfl⟩ := Option.map_eq_some_iff.mp h
      exact .passed hup hcalls hx
    | some a =>
      rw [hcalls] at h
      dsimp only at h
      split at h
      · exact absurd h (by simp)
      · split at h
        · rename_i res hrouted
          obtain ⟨x, hx, rfl⟩ := Option.map_eq_some_iff.mp h
          exact .answered hup hcalls hrouted hx
        · rename_i x hrouted
          exact Option.some.inj h ▸ .failed hup hcalls hrouted
  · exact absurd h (by simp)

/-! ### The sessions and the process in a run -/

section Runs
variable {t : Tree} {es : List (ℕ × TrafficEvent ι)}

/-- The session of an event takes its own part of it, and the others nothing. -/
theorem Took.session {e : ℕ × TrafficEvent ι} (h : Took H toText S s e s') (i : ℕ) :
    Session.after S (s.sessions i) (own H toText S i s e).toList = some (s'.sessions i) := by
  have hself {j : ℕ} {event : ConnectionEvent} {x : Session}
      (hx : Session.step S (s.sessions j) event = some x) :
      Session.after S (s.sessions j) [event] = some ((s.set j x).sessions j) := by
    rw [Session.after, Traces.after_cons, hx, set_self]
    rfl
  cases h with
  | @passed j e x hup hcalls hstep =>
    rw [own]
    by_cases hj : j = i
    · subst hj
      rw [if_pos rfl, hcalls]
      exact hself hstep
    · rw [if_neg hj, set_of_ne s (Ne.symm hj)]
      rfl
  | @answered j e a res x hup hcalls hrouted hstep =>
    rw [own]
    by_cases hj : j = i
    · subst hj
      rw [if_pos rfl, hcalls]
      dsimp only
      rw [hrouted]
      exact hself hstep
    · rw [if_neg hj]
      exact congrArg some (set_of_ne s (Ne.symm hj) x).symm
  | @failed j e a x hup hcalls hrouted =>
    rw [own]
    by_cases hj : j = i
    · subst hj
      rw [if_pos rfl, hcalls]
      dsimp only
      rw [hrouted]
      rfl
    · rw [if_neg hj]
      rfl

/-- Every session runs as it does alone, with handlers that answer as the process does. -/
theorem session_of_run (hrun : after H toText S (boot t) es = some s) (i : ℕ) :
    Session.after S Session.started (eventsOf H toText S t i es) = some (s.sessions i) := by
  refine Traces.after_invariant
    (I := fun es s => Session.after S Session.started (eventsOf H toText S t i es) =
      some (s.sessions i)) rfl ?_ hrun
  intro es s e s' hes ih hstep
  rw [eventsOf, Traces.log_snoc hes, Session.after, Traces.after_append]
  exact Option.bind_eq_some_iff.mpr ⟨_, ih, (took_of_step hstep).session i⟩

/-- What a request leaves behind does not depend on the response object. -/
theorem answerRequest_uniform (H : Host) (toText : ParsedRequest → Str) (T : HandlerFactories)
    (a : Arrival ι) (w : World Str) : ∃ w' goesOn, ∀ res,
      (answerRequest H toText T a w res).2 = w' ∧
        Process.survives (answerRequest H toText T a w res).1 = goesOn := by
  cases hm : matched T a with
  | none => exact ⟨w, true, fun res => by rw [answerRequest_of_not_matched hm]; exact ⟨rfl, rfl⟩⟩
  | some m =>
    by_cases hcrud : ∃ config, m.factory = .crudHandler config
    · obtain ⟨config, hcrud⟩ := hcrud
      obtain ⟨status, store, hsame⟩ := CrudHandler.handleRequest_uniform H a.faults
        (FileHandlerFactory.getCompleteFilePath config m.path) a.request.toRequest
        (w.store m.location)
      refine ⟨w.setStore m.location store, Process.survives (status.map fun _ => .fresh),
        fun res => ?_⟩
      obtain ⟨hstatus, hstore⟩ := hsame res
      rw [answerRequest_of_matched hm, Match.handle, hcrud]
      dsimp only
      rw [hstatus, hstore]
      cases status <;> exact ⟨rfl, rfl⟩
    · refine ⟨w, true, fun res => ?_⟩
      have hfactory : ∀ config, m.factory ≠ .crudHandler config :=
        fun config h => hcrud ⟨config, h⟩
      rw [answerRequest_of_matched hm]
      refine ⟨handle_world hfactory, ?_⟩
      unfold Match.handle
      split <;> first | rfl | exact absurd (by assumption) (hfactory _)

/-- The process runs as it does when the requests come one after the other. -/
theorem process_of_run (hrun : after H toText S (boot t) es = some s) :
    Traces.after (Process.step H toText S.factories) (Process.boot t) (arrivals H toText S t es) =
      some s.process := by
  refine Traces.after_invariant
    (I := fun es s => Traces.after (Process.step H toText S.factories) (Process.boot t)
      (arrivals H toText S t es) = some s.process) rfl ?_ hrun
  intro es s e s' hes ih hstep
  have hnext {j : ℕ} {e : TrafficEvent ι} {a : Arrival ι} (hcalls : s.calls j e = some a)
      (hup : s.process.up = true) :
      Traces.after (Process.step H toText S.factories) s.process (s.calls j e).toList =
        some ⟨(s.routed H toText S j a).2, Process.survives (s.routed H toText S j a).1⟩ := by
    obtain ⟨w', goesOn, hsame⟩ :=
      answerRequest_uniform H toText S.factories a s.process.world
    rw [hcalls, Option.toList_some, Traces.after_cons, Process.step, if_pos hup, Process.respond,
      routed, (hsame _).1, (hsame _).2, (hsame _).1, (hsame _).2]
    rfl
  rw [arrivals, Traces.log_snoc hes, Traces.after_append]
  refine Option.bind_eq_some_iff.mpr ⟨_, ih, ?_⟩
  cases took_of_step hstep with
  | passed hup hcalls _ =>
    dsimp only
    rw [hcalls]
    rfl
  | answered hup hcalls hrouted _ =>
    have hafter := hnext hcalls hup
    rwa [hrouted] at hafter
  | failed hup hcalls hrouted =>
    have hafter := hnext hcalls hup
    rwa [hrouted] at hafter

/-- The statements that session `i` runs in an event of the server. -/
theorem performed_eventsOf (hrun : after H toText S (boot t) es = some s) (i : ℕ) :
    Session.performed S (eventsOf H toText S t i es) =
      Traces.log (step H toText S)
        (fun s e => (own H toText S i s e).bind (Session.performing (s.sessions i))) (boot t) es := by
  refine Traces.after_invariant
    (I := fun es _ => Session.performed S (eventsOf H toText S t i es) =
      Traces.log (step H toText S)
        (fun s e => (own H toText S i s e).bind (Session.performing (s.sessions i))) (boot t) es)
    rfl ?_ hrun
  intro es s e s' hes ih _
  have hsession := session_of_run hes i
  rw [Traces.log_snoc hes, ← ih, eventsOf, Traces.log_snoc hes, ← eventsOf, Session.performed,
    Traces.log_append hsession, ← Session.performed]
  congr 1
  cases own H toText S i s e with
  | none => rfl
  | some event =>
    rw [Option.toList_some, Traces.log]
    cases Session.step S (s.sessions i) event <;> exact List.append_nil _

theorem rest_of_performing {x : Session} {c : Callback} {moment : Moment ι} {res : Response}
    {req : ParsedRequest} {w : Surroundings}
    (h : Session.performing x (TrafficEvent.leaving res (.run c moment)) =
      some (.routeRequest req, w)) :
    (∃ xs, x.rest c = .routeRequest req :: xs) ∧ w.handleRequest = fun _ _ _ _ => res := by
  obtain ⟨y, hhead, heq⟩ := Option.map_eq_some_iff.mp h
  obtain ⟨rfl, rfl⟩ := Prod.mk.inj heq
  exact ⟨List.head?_eq_some_iff.mp hhead, rfl⟩

/-- The call of a handler by session `i`, and what it left in the response. -/
theorem exists_call (hrun : after H toText S (boot t) es = some s) {i : ℕ} {req : ParsedRequest}
    {w : Surroundings}
    (hw : (.routeRequest req, w) ∈ Session.performed S (eventsOf H toText S t i es)) :
    ∃ es₁ e es₂ s₁ a res c xs, es = es₁ ++ (i, e) :: es₂ ∧
      after H toText S (boot t) es₁ = some s₁ ∧ s₁.calls i e = some a ∧ a.request = req ∧
      (s₁.sessions i).rest c = .routeRequest req :: xs ∧
      (s₁.routed H toText S i a).1 = .ok res ∧ w.handleRequest = fun _ _ _ _ => res := by
  rw [performed_eventsOf hrun] at hw
  obtain ⟨es₁, ⟨j, e⟩, es₂, s₁, s₂, rfl, hes₁, hstep, hown⟩ := Traces.exists_of_mem_log hrun hw
  obtain ⟨event, hevent, hperforming⟩ := Option.bind_eq_some_iff.mp hown
  rw [own] at hevent
  split at hevent
  · rename_i hj
    subst hj
    cases e with
    | run c moment =>
      cases hcalls : s₁.calls j (.run c moment) with
      | none =>
        rw [hcalls] at hevent
        obtain rfl := Option.some.inj hevent
        obtain ⟨⟨xs, hrest⟩, _⟩ := rest_of_performing hperforming
        rw [calls, hrest] at hcalls
        exact absurd hcalls (by simp)
      | some a =>
        rw [hcalls] at hevent
        dsimp only at hevent
        split at hevent
        · rename_i res hrouted
          obtain rfl := Option.some.inj hevent
          obtain ⟨⟨xs, hrest⟩, hhandler⟩ := rest_of_performing hperforming
          refine ⟨es₁, _, es₂, s₁, a, res, c, xs, rfl, hes₁, hcalls, ?_, hrest, hrouted, hhandler⟩
          rw [calls, hrest] at hcalls
          exact congrArg Arrival.request (Option.some.inj hcalls).symm
        · exact absurd hevent (by simp)
    | _ =>
      obtain rfl := Option.some.inj hevent
      exact absurd hperforming (by simp [TrafficEvent.leaving, Session.performing])
  · exact absurd hevent (by simp)

/-- `RouteRequest` of the session where the handler leaves what the process answers. -/
theorem routeRequest_of_routed {a : Arrival ι} {res res' : Response} {w : World Str}
    (h : (answerRequest H toText S.factories a w res).1 = .ok res') :
    routeRequest S.factories (fun _ _ _ _ => res') a.request res = res' := by
  unfold answerRequest at h
  unfold routeRequest
  by_cases hmethod : a.request.method ∉ [Verb.get, Verb.put, Verb.post, Verb.delete]
  · rw [if_pos hmethod] at h ⊢
    exact Except.ok.inj h
  · rw [if_neg hmethod] at h ⊢
    by_cases hversion : a.request.version ≠ 11
    · rw [if_pos hversion] at h ⊢
      exact Except.ok.inj h
    · rw [if_neg hversion] at h ⊢
      cases hroute : route S.factories a.request.target with
      | none =>
        rw [hroute] at h
        exact Except.ok.inj h
      | some m => rfl

end Runs

/-- The answers of a server. A session whose callbacks do not both get past their checks sends one
response: the error page of the timeout or of the read, or for a request the answer of the process
in the state in which its handler is called, to which the requests of all sessions lead that were
handled before. -/
theorem sent_of_run (H : Host) (toText : ParsedRequest → Str) (S : SessionConfig) (t : Tree)
    (es : List (ℕ × TrafficEvent ι)) (s : Traffic) (hrun : after H toText S (boot t) es = some s)
    (i : ℕ) (hadmitted : Session.Admitted S (eventsOf H toText S t i es))
    (hrest : ∀ c, (s.sessions i).rest c = []) :
    Session.Sent S (eventsOf H toText S t i es) (s.sessions i) ∧
      ∀ req, (s.sessions i).read = .handled (.request req) →
        ∃ es₁ e es₂ p a, es = es₁ ++ (i, e) :: es₂ ∧ a.request = req ∧
          Traces.after (Process.step H toText S.factories) (Process.boot t)
            (arrivals H toText S t es₁) = some p ∧
          arrivals H toText S t (es₁ ++ [(i, e)]) = arrivals H toText S t es₁ ++ [a] ∧
          (p.respond H toText S.factories a).1 = .ok (s.sessions i).res := by
  have hsession := session_of_run hrun i
  have hsent := Session.sent_of_answered hsession
    ((Session.answered_iff_admitted hsession).mpr hadmitted) hrest
  refine ⟨hsent, fun req hr => ?_⟩
  obtain ⟨w, _, hw, _, hres, _⟩ := hsent.request req hr
  obtain ⟨es₁, e, es₂, s₁, a, res, c, xs, rfl, hes₁, hcalls, rfl, hcalling, hrouted, hhandler⟩ :=
    exists_call hrun hw
  have hfresh : (s₁.sessions i).res = .fresh := by
    have hsession₁ := session_of_run hes₁ i
    refine Session.fresh_of_calling hsession₁ ?_ hcalling
    rw [Session.answered_iff_admitted hsession₁]
    rw [eventsOf, Traces.log_append hes₁] at hadmitted
    exact hadmitted.of_append
  rw [routed, hfresh] at hrouted
  refine ⟨es₁, e, es₂, s₁.process, a, rfl, rfl, process_of_run hes₁, ?_, ?_⟩
  · rw [arrivals, Traces.log_snoc hes₁]
    dsimp only
    rw [hcalls]
    rfl
  · rw [Process.respond, hrouted, hres, hhandler, routeRequest_of_routed hrouted]

namespace Demo

def config : SessionConfig := ⟨Webserver.Demo.shared, fun _ => false⟩

def moment : Moment Unit := ⟨Faults.none, ∅, "Thu, 01 Jan 1970 00:00:00 GMT".toList⟩

/-- Session 0 creates an object; session 1 has been read before, and asks for the object. -/
def meeting : List (ℕ × TrafficEvent Unit) :=
  [(1, .readComplete (.request ⟨⟨.get, 11, []⟩, "/api/x/1".toList, []⟩)), (1, .handleRead),
    (0, .readComplete (.request ⟨⟨.post, 11, "a".toList⟩, "/api/x".toList, []⟩)), (0, .handleRead),
    (1, .run .handleRead moment), (0, .run .handleRead moment), (0, .run .handleRead moment),
    (1, .run .handleRead moment), (1, .run .handleRead moment), (1, .run .handleRead moment),
    (1, .writeComplete), (1, .timeout), (1, .handleWrite)]

/-- The second session has answered a request and cancelled its timer. -/
def replied (x : Session) : Bool :=
  x.timer = .returned && (x.rest .timeout).isEmpty && (x.rest .handleRead).isEmpty &&
    match x.read with
    | .handled (.request _) => true
    | _ => false

theorem exists_meeting : ∃ s, after Webserver.Demo.host ParsedRequest.target config
      (boot Webserver.Demo.disk) meeting = some s ∧
    replied (s.sessions 1) = true ∧ (s.sessions 1).res.body = "a".toList := by
  have hmeeting : ((after Webserver.Demo.host ParsedRequest.target config
      (boot Webserver.Demo.disk) meeting).map fun s =>
        (replied (s.sessions 1), (s.sessions 1).res.body)) = some (true, "a".toList) := by
    decide +kernel
  obtain ⟨s, hs, heq⟩ := Option.map_eq_some_iff.mp hmeeting
  exact ⟨s, hs, (Prod.mk.inj heq).1, (Prod.mk.inj heq).2⟩

theorem answered_of_replied {x : Session} (h : replied x = true) : Session.Answered config x := by
  simp only [replied, Bool.and_eq_true, decide_eq_true_eq] at h
  refine ⟨fun ht => absurd (ht.symm.trans h.1.1.1) (by decide), fun result _ => ?_⟩
  cases result <;> rfl

theorem rest_of_replied {x : Session} (h : replied x = true) (c : Callback) : x.rest c = [] := by
  simp only [replied, Bool.and_eq_true, List.isEmpty_iff] at h
  cases c
  · exact h.1.1.2
  · exact h.1.2

theorem exists_request_of_replied {x : Session} (h : replied x = true) :
    ∃ req, x.read = .handled (.request req) := by
  simp only [replied, Bool.and_eq_true] at h
  cases hread : x.read with
  | handled result =>
    cases result with
    | request req => exact ⟨req, rfl⟩
    | error error => simp [hread] at h
  | _ => simp [hread] at h

end Demo

theorem sent_of_run_meeting : ∃ s, after Webserver.Demo.host ParsedRequest.target Demo.config
      (boot Webserver.Demo.disk) Demo.meeting = some s ∧
    Session.Sent Demo.config (eventsOf Webserver.Demo.host ParsedRequest.target Demo.config
      Webserver.Demo.disk 1 Demo.meeting) (s.sessions 1) ∧
    ∃ (p : Process) (a : Arrival Unit), (s.sessions 1).res.body = "a".toList ∧
      (p.respond Webserver.Demo.host ParsedRequest.target Webserver.Demo.shared a).1 =
        .ok (s.sessions 1).res := by
  obtain ⟨s, hs, hreplied, hbody⟩ := Demo.exists_meeting
  have hsession := session_of_run hs 1
  obtain ⟨hsent, hcall⟩ := sent_of_run Webserver.Demo.host ParsedRequest.target Demo.config
    Webserver.Demo.disk Demo.meeting s hs 1
    ((Session.answered_iff_admitted hsession).mp (Demo.answered_of_replied hreplied))
    (Demo.rest_of_replied hreplied)
  obtain ⟨req, hread⟩ := Demo.exists_request_of_replied hreplied
  obtain ⟨_, _, _, p, a, _, _, _, _, hrespond⟩ := hcall req hread
  exact ⟨s, hs, hsent, p, a, hbody, hrespond⟩

end Traffic

end Webserver

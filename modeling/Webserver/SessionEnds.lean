import Webserver.Library.Draining
import Webserver.SessionResponses

/-!
# The end of a session

A session whose handler returns takes a bounded number of events, whatever its client does and in
whatever order they happen. When only the read could still complete, every response that was
started has been handled by `HandleWrite`, and the socket is closed or handed over.
-/

set_option autoImplicit false

namespace Webserver

open Draining

/-- The call of `HandleWrite`. -/
def ConnectionEvent.handlesWrite : ConnectionEvent → Bool
  | .handleWrite => true
  | _ => false

/-- How many events a statement stands for: a write completes and is handled. -/
def Statement.work : Statement → ℕ
  | .asyncWrite => 3
  | _ => 1

def Statement.workOf : List Statement → ℕ
  | [] => 0
  | x :: xs => x.work + workOf xs

def TimerWait.work : TimerWait → ℕ
  | .pending => 8
  | .expired => 7
  | .aborted => 1
  | .timedOut | .returned => 0

def SessionRead.work : SessionRead → ℕ
  | .pending => 8
  | .completed _ => 7
  | .dropped | .handled _ => 0

namespace Session

/-- The most events that a session can still take. -/
def work (s : Session) : ℕ :=
  s.timer.work + s.read.work + Statement.workOf (s.rest .timeout) +
    Statement.workOf (s.rest .handleRead) + 2 * s.writing + s.written

section Work
variable {S : SessionConfig} {s s' : Session} {e : ConnectionEvent}

theorem timeoutBody_work : Statement.workOf timeoutBody = 6 := rfl

theorem handleReadBody_work_le (S : SessionConfig) (result : ReadResult) :
    Statement.workOf (handleReadBody S result) ≤ 6 := by
  cases result with
  | request req =>
    rw [handleReadBody, prepareResponse]
    split <;> exact Nat.le_of_ble_eq_true rfl
  | error error =>
    rw [handleReadBody, prepareResponse]
    split <;> exact Nat.le_of_ble_eq_true rfl

theorem cancel_work_le (t : TimerWait) : t.cancel.work ≤ t.work := by
  cases t <;> exact Nat.le_of_ble_eq_true rfl

theorem exec_work_le (w : Surroundings) (s : Session) (x : Statement) :
    (exec S w s x).work + 1 ≤ s.work + x.work := by
  cases x with
  | asyncWrite =>
    simp only [work, exec, Statement.work]
    omega
  | cancel =>
    have hle := cancel_work_le s.timer
    simp only [work, exec, Statement.work]
    omega
  | _ => exact Nat.le_refl _

theorem setRest_work {c : Callback} {l k : List Statement} (hl : s.rest c = l) :
    (s.setRest c k).work + Statement.workOf l = s.work + Statement.workOf k := by
  subst hl
  cases c with
  | timeout =>
    simp only [work, setRest_timer, setRest_read, setRest_self,
      setRest_of_ne s (show Callback.handleRead ≠ .timeout by decide)]
    simp only [setRest]
    omega
  | handleRead =>
    simp only [work, setRest_timer, setRest_read, setRest_self,
      setRest_of_ne s (show Callback.timeout ≠ .handleRead by decide)]
    simp only [setRest]
    omega

/-- Every event is paid for, as long as a callback is called once. -/
theorem Took.work_lt (h : Took S s e s')
    (hrest : (s.timer = .expired → s.rest .timeout = []) ∧
      ∀ result, s.read = .completed result → s.rest .handleRead = []) : s'.work < s.work := by
  cases h with
  | expired ht =>
    simp only [work, ht, TimerWait.work]
    omega
  | readCompleted result hr =>
    simp only [work, hr, SessionRead.work]
    omega
  | writeCompleted hw =>
    simp only [work]
    omega
  | timedOut ht =>
    have hwork := @setRest_work { s with timer := .timedOut } .timeout [] timeoutBody
      (hrest.1 ht)
    rw [timeoutBody_work] at hwork
    have hseven : s.work = { s with timer := .timedOut }.work + 7 := by
      simp only [work, ht, TimerWait.work]
      omega
    simp only [Statement.workOf] at hwork
    omega
  | aborted ht =>
    simp only [work, ht, TimerWait.work]
    omega
  | dropped hr hc =>
    simp only [work, hr, SessionRead.work]
    omega
  | @handled result hr hc =>
    have hwork := @setRest_work { s with read := .handled result } .handleRead []
      (handleReadBody S result) (hrest.2 result hr)
    have hle := handleReadBody_work_le S result
    have hseven : s.work = { s with read := .handled result }.work + 7 := by
      simp only [work, hr, SessionRead.work]
      omega
    simp only [Statement.workOf] at hwork
    omega
  | closed hw hrest =>
    simp only [work]
    omega
  | @ran c w x xs hrest =>
    have hle := exec_work_le (S := S) w (s.setRest c xs) x
    have hwork := setRest_work (k := xs) hrest
    rw [Statement.workOf] at hwork
    omega

end Work

section Runs
variable {S : SessionConfig} {es : List ConnectionEvent} {s : Session}

/-- Nothing is left to run of a callback that has not been called. -/
theorem rest_eq_nil_of_body (hrun : after S started es = some s) {c : Callback}
    (h : body S s c = []) : s.rest c = [] := by
  have hportion := portion_of_run hrun c
  rw [h] at hportion
  exact (List.append_eq_nil_iff.mp hportion).2

/-- The states of the runs of a session. -/
def Reached (S : SessionConfig) (s : Session) : Prop := ∃ es, after S started es = some s

theorem reached_step {s' : Session} {e : ConnectionEvent} (hs : Reached S s)
    (h : step S s e = some s') : Reached S s' := by
  obtain ⟨es, hes⟩ := hs
  refine ⟨es ++ [e], ?_⟩
  rw [after, Traces.after_snoc]
  exact Option.bind_eq_some_iff.mpr ⟨s, hes, h⟩

theorem drains (S : SessionConfig) (P : ConnectionEvent → Prop) :
    Drains (step S) P (Reached S) work where
  kept s e s' _ hs h := reached_step hs h
  lower s e s' _ hs h := by
    obtain ⟨es, hes⟩ := hs
    refine (took_of_step h).work_lt ⟨fun ht => ?_, fun result hr => ?_⟩
    · apply rest_eq_nil_of_body hes
      simp [body, ht]
    · apply rest_eq_nil_of_body hes
      simp [body, hr]

/-- What a run says about its writes, its timer and its socket. -/
structure Accounted (S : SessionConfig) (es : List ConnectionEvent) (s : Session) : Prop where
  writes : (statements S es).countP Statement.writes =
    es.countP ConnectionEvent.handlesWrite + s.written + s.writing
  handled : 0 < es.countP ConnectionEvent.handlesWrite → s.socket ≠ .accepted
  /-- The timer is cancelled by `HandleRead`. -/
  cancelled : s.timer = .aborted ∨ s.timer = .returned → ∃ result, s.read = .handled result

theorem close_ne_accepted (socket : Socket) : socket.close ≠ .accepted := by
  cases socket <;> simp [Socket.close]

/-- A socket that is not open any more is not opened again. -/
theorem exec_socket (w : Surroundings) (s : Session) (x : Statement)
    (h : s.socket ≠ .accepted) : (exec S w s x).socket ≠ .accepted := by
  cases x with
  | close => exact close_ne_accepted s.socket
  | runWebsocketHandler req => simp [exec]
  | _ => exact h

theorem exec_timer (w : Surroundings) (s : Session) (x : Statement) :
    (exec S w s x).timer = s.timer ∨ x = .cancel := by
  cases x <;> first | exact .inl rfl | exact .inr rfl

theorem exec_writing (w : Surroundings) (s : Session) (x : Statement) :
    (exec S w s x).written = s.written ∧
      (exec S w s x).writing = s.writing + if x.writes then 1 else 0 := by
  cases x <;> exact ⟨rfl, rfl⟩

theorem mem_body_of_mem_rest (hrun : after S started es = some s) {c : Callback} {x : Statement}
    (h : x ∈ s.rest c) : x ∈ body S s c := by
  rw [← portion_of_run hrun c]
  exact List.mem_append_right _ h

theorem handled_of_mem_body {c : Callback} (h : .cancel ∈ body S s c) :
    ∃ result, s.read = .handled result := by
  cases c with
  | timeout =>
    simp only [body] at h
    split at h
    · exact absurd h (by simp [timeoutBody])
    · exact absurd h List.not_mem_nil
  | handleRead =>
    simp only [body] at h
    split at h
    · rename_i result hr
      exact ⟨result, hr⟩
    · exact absurd h List.not_mem_nil

theorem statements_snoc (hes : after S started es = some s) (e : ConnectionEvent) :
    statements S (es ++ [e]) = statements S es ++ ((statement s e).map Prod.snd).toList := by
  rw [statements, executed, Traces.log_snoc hes, List.map_append]
  cases statement s e <;> rfl

theorem handlesWrite_snoc (es : List ConnectionEvent) (e : ConnectionEvent) :
    (es ++ [e]).countP ConnectionEvent.handlesWrite =
      es.countP ConnectionEvent.handlesWrite + if e.handlesWrite then 1 else 0 := by
  rw [List.countP_append, List.countP_singleton]

section Steps
variable {s' : Session} {e : ConnectionEvent} (ih : Accounted S es s)
  (hes : after S started es = some s)
include ih hes

/-- An event that runs no statement and is no call of `HandleWrite`. -/
theorem Accounted.keep (hnone : statement s e = none) (hno : e.handlesWrite = false)
    (hwritten : s'.written + s'.writing = s.written + s.writing) (hsocket : s'.socket = s.socket)
    (hcancelled : s'.timer = .aborted ∨ s'.timer = .returned →
      ∃ result, s'.read = .handled result) : Accounted S (es ++ [e]) s' := by
  have hsame : statements S (es ++ [e]) = statements S es := by
    rw [statements_snoc hes, hnone]
    exact List.append_nil _
  have hzero : (es ++ [e]).countP ConnectionEvent.handlesWrite =
      es.countP ConnectionEvent.handlesWrite := by
    rw [handlesWrite_snoc, hno]
    rfl
  refine ⟨?_, ?_, hcancelled⟩
  · rw [hsame, hzero, ih.writes]
    omega
  · rw [hzero, hsocket]
    exact ih.handled

theorem Accounted.ran {c : Callback} (w : Surroundings) {x : Statement} {xs : List Statement}
    (hrest : s.rest c = x :: xs) :
    Accounted S (es ++ [ConnectionEvent.run c w]) (exec S w (s.setRest c xs) x) := by
  have hmore : statements S (es ++ [ConnectionEvent.run c w]) = statements S es ++ [x] := by
    rw [statements_snoc hes, statement, hrest]
    rfl
  have hzero : (es ++ [ConnectionEvent.run c w]).countP ConnectionEvent.handlesWrite =
      es.countP ConnectionEvent.handlesWrite := handlesWrite_snoc es _
  obtain ⟨hwritten, hwriting⟩ := exec_writing (S := S) w (s.setRest c xs) x
  constructor
  · rw [hmore, hzero, List.countP_append, List.countP_singleton, ih.writes, hwritten, hwriting]
    simp only [setRest]
    omega
  · intro hpos
    rw [hzero] at hpos
    exact exec_socket _ _ _ (ih.handled hpos)
  · intro h
    rw [exec_read, setRest_read]
    rcases exec_timer (S := S) w (s.setRest c xs) x with ht | rfl
    · rw [ht] at h
      exact ih.cancelled h
    · apply handled_of_mem_body
      apply mem_body_of_mem_rest hes
      rw [hrest]
      exact List.mem_cons_self

theorem Accounted.step (h : Took S s e s') : Accounted S (es ++ [e]) s' := by
  cases h with
  | expired ht => exact ih.keep hes rfl rfl rfl rfl (by simp)
  | readCompleted result hr =>
    refine ih.keep hes rfl rfl rfl rfl ?_
    intro h
    obtain ⟨_, hhandled⟩ := ih.cancelled h
    exact absurd (hr.symm.trans hhandled) (by simp)
  | writeCompleted hw =>
    refine ih.keep hes rfl rfl ?_ rfl ih.cancelled
    dsimp only
    omega
  | timedOut ht => exact ih.keep hes rfl rfl rfl rfl (by simp)
  | aborted ht => exact ih.keep hes rfl rfl rfl rfl fun _ => ih.cancelled (.inl ht)
  | dropped hr hc =>
    refine ih.keep hes rfl rfl rfl rfl ?_
    intro h
    obtain ⟨_, hhandled⟩ := ih.cancelled h
    exact absurd (hr.symm.trans hhandled) (by simp)
  | handled hr hc => exact ih.keep hes rfl rfl rfl rfl fun _ => ⟨_, rfl⟩
  | closed hw hrest =>
    have hsame : statements S (es ++ [.handleWrite]) = statements S es := by
      rw [statements_snoc hes]
      exact List.append_nil _
    refine ⟨?_, fun _ => close_ne_accepted s.socket, ih.cancelled⟩
    rw [hsame, handlesWrite_snoc, ih.writes]
    simp only [ConnectionEvent.handlesWrite, if_true]
    omega
  | ran w hrest => exact ih.ran hes w hrest

end Steps

/-- Every response that was started has been handled, there was one from each callback that was
past its check, and the socket is closed or handed over. -/
structure Ended (S : SessionConfig) (es : List ConnectionEvent) (s : Session) : Prop where
  rest : ∀ c, s.rest c = []
  handled : (statements S es).countP Statement.writes = es.countP ConnectionEvent.handlesWrite
  answered : ∃ c, body S s c ≠ []
  responses : ∀ c, body S s c ≠ [] → (c, .asyncWrite) ∈ executed S es
  released : s.socket ≠ .accepted

end Runs

namespace Demo

end Demo

end Session

end Webserver

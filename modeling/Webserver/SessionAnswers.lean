import Webserver.SessionResponses

/-!
# What a session sends

The response of a session is made by the statements that it has run. In the runs with a single
response it is the answer to the request, or the error page of the callback.
-/

set_option autoImplicit false

namespace Webserver

namespace Session

/-- The statement that an event runs, with its surroundings. -/
def performing (s : Session) : ConnectionEvent → Option (Statement × Surroundings)
  | .run callback w => (s.rest callback).head?.map fun statement => (statement, w)
  | _ => none

def performed (S : SessionConfig) (es : List ConnectionEvent) : List (Statement × Surroundings) :=
  Traces.log (step S) performing started es

/-- What a statement makes of the response and its date. -/
def compose (S : SessionConfig) (r : Response × Option Str) :
    Statement × Surroundings → Response × Option Str
  | (.badRequest, _) => (RequestDispatcher.badRequest r.1, r.2)
  | (.routeRequest req, w) => (RequestDispatcher.routeRequest S.factories w.handleRequest req r.1, r.2)
  | (.setDate, w) => (r.1, some w.date)
  | (.internalServerError, _) => (internalServerError r.1, r.2)
  | _ => r

section Runs
variable {S : SessionConfig} {es : List ConnectionEvent} {s : Session}

theorem performed_snoc (hes : after S started es = some s) (e : ConnectionEvent) :
    performed S (es ++ [e]) = performed S es ++ (performing s e).toList :=
  Traces.log_snoc hes e

theorem performed_map (hrun : after S started es = some s) :
    (performed S es).map Prod.fst = statements S es := by
  refine Traces.after_invariant (I := fun es _ => (performed S es).map Prod.fst = statements S es)
    ?_ ?_ hrun
  · rfl
  intro es s e s' hes ih _
  rw [performed_snoc hes, List.map_append, ih, statements, statements, executed, executed,
    Traces.log_snoc hes, List.map_append]
  congr 1
  cases e with
  | run c w =>
    rw [performing, statement]
    cases (s.rest c).head? <;> rfl
  | _ => rfl

theorem exec_composes (w : Surroundings) (s : Session) (x : Statement) :
    ((exec S w s x).res, (exec S w s x).date) = compose S (s.res, s.date) (x, w) := by
  cases x <;> rfl

/-- The response is what the statements have made of a fresh one. -/
theorem res_of_performed (hrun : after S started es = some s) :
    (s.res, s.date) = (performed S es).foldl (compose S) (Response.fresh, none) := by
  refine Traces.after_invariant
    (I := fun es s => (s.res, s.date) = (performed S es).foldl (compose S) (Response.fresh, none))
    ?_ ?_ hrun
  · rfl
  intro es s e s' hes ih hstep
  rw [performed_snoc hes, List.foldl_append, ← ih]
  cases took_of_step hstep with
  | @ran c w x xs hrest =>
    rw [performing, hrest]
    exact exec_composes w (s.setRest c xs) x
  | _ => rfl

/-- The one body that was run, where one response was written. -/
theorem statements_of_answered (hrun : after S started es = some s) (h : Answered S s)
    (hrest : ∀ c, s.rest c = []) {c : Callback} (hc : body S s c ≠ []) :
    statements S es = body S s c := by
  have hportion (d : Callback) : portion d (executed S es) = body S s d := by
    have hrun := portion_of_run hrun d
    rwa [hrest d, List.append_nil] at hrun
  have hother {d : Callback} (hdc : d ≠ c) (hd : body S s d = []) :
      statements S es = body S s c := by
    rw [statements, ← portion_eq_of_nil hdc ((hportion d).trans hd)]
    exact hportion c
  cases c with
  | timeout =>
    apply hother (d := .handleRead) (by decide)
    simp only [body] at hc ⊢
    split
    · rename_i result hr
      by_cases ht : s.timer = .timedOut
      · exact absurd hr (h.single ht result)
      · exact absurd (if_neg ht) hc
    · rfl
  | handleRead =>
    apply hother (d := .timeout) (by decide)
    simp only [body] at hc ⊢
    split at hc
    · rename_i result hr
      exact if_neg fun ht => h.single ht result hr
    · exact absurd rfl hc

end Runs

/-- What the single response of a session is. -/
structure Sent (S : SessionConfig) (es : List ConnectionEvent) (s : Session) : Prop where
  single : OneResponse (statements S es)
  timeout : s.timer = .timedOut → s.res = RequestDispatcher.badRequest .fresh ∧ s.date = none
  error : ∀ error, s.read = .handled (.error error) → s.date = none ∧
    s.res = if error ∈ parseErrors then RequestDispatcher.badRequest .fresh
      else internalServerError .fresh
  /-- The answer in the surroundings in which `RouteRequest` was called. -/
  request : ∀ req, s.read = .handled (.request req) → ∃ w w',
    (.routeRequest req, w) ∈ performed S es ∧ (.setDate, w') ∈ performed S es ∧
      s.res = RequestDispatcher.routeRequest S.factories w.handleRequest req .fresh ∧
      s.date = some w'.date

variable {S : SessionConfig} {es : List ConnectionEvent} {s : Session}

/-- The surroundings of the first statement, and what is run behind it. -/
theorem exists_surroundings {l : List (Statement × Surroundings)} {x : Statement}
    {xs : List Statement} (h : l.map Prod.fst = x :: xs) :
    ∃ w l', l = (x, w) :: l' ∧ l'.map Prod.fst = xs := by
  obtain ⟨⟨y, w⟩, l', rfl, rfl, hl'⟩ := List.map_eq_cons_iff.mp h
  exact ⟨w, l', rfl, hl'⟩

theorem sent_of_answered (hrun : after S started es = some s) (h : Answered S s)
    (hrest : ∀ c, s.rest c = []) : Sent S es s := by
  have hres := res_of_performed hrun
  have hbody {c : Callback} {l : List Statement} (hl : body S s c = l) (hne : l ≠ []) :
      (performed S es).map Prod.fst = l := by
    rw [performed_map hrun, statements_of_answered hrun h hrest (hl ▸ hne), hl]
  refine ⟨oneResponse_of_answered hrun h, fun ht => ?_, fun error hr => ?_, fun req hr => ?_⟩
  · have hlist := hbody (c := .timeout) (if_pos ht) (by simp [timeoutBody])
    obtain ⟨w₁, l₁, heq, h₁⟩ := exists_surroundings hlist
    obtain ⟨w₂, l₂, rfl, h₂⟩ := exists_surroundings h₁
    obtain ⟨w₃, l₃, rfl, h₃⟩ := exists_surroundings h₂
    obtain ⟨w₄, l₄, rfl, h₄⟩ := exists_surroundings h₃
    obtain rfl := List.map_eq_nil_iff.mp h₄
    rw [heq] at hres
    exact Prod.mk.inj hres
  · have hlist : (performed S es).map Prod.fst = handleReadBody S (.error error) :=
      hbody (c := .handleRead) (by simp only [body, hr]) (by simp [handleReadBody])
    rw [handleReadBody, prepareResponse] at hlist
    split at hlist
    · rename_i hparse
      obtain ⟨w₁, l₁, heq, h₁⟩ := exists_surroundings hlist
      obtain ⟨w₂, l₂, rfl, h₂⟩ := exists_surroundings h₁
      obtain rfl := List.map_eq_nil_iff.mp h₂
      rw [heq] at hres
      rw [if_pos hparse]
      exact (Prod.mk.inj hres).symm
    · rename_i hparse
      obtain ⟨w₁, l₁, heq, h₁⟩ := exists_surroundings hlist
      obtain ⟨w₂, l₂, rfl, h₂⟩ := exists_surroundings h₁
      obtain rfl := List.map_eq_nil_iff.mp h₂
      rw [heq] at hres
      rw [if_neg hparse]
      exact (Prod.mk.inj hres).symm
  · have hplain : S.isUpgrade req = false := h.plain _ hr
    have hlist : (performed S es).map Prod.fst = handleReadBody S (.request req) :=
      hbody (c := .handleRead) (by simp only [body, hr]) (by simp [handleReadBody])
    rw [handleReadBody, prepareResponse, if_neg (by simp [hplain])] at hlist
    obtain ⟨w₁, l₁, heq, h₁⟩ := exists_surroundings hlist
    obtain ⟨w₂, l₂, rfl, h₂⟩ := exists_surroundings h₁
    obtain ⟨w₃, l₃, rfl, h₃⟩ := exists_surroundings h₂
    obtain ⟨w₄, l₄, rfl, h₄⟩ := exists_surroundings h₃
    obtain rfl := List.map_eq_nil_iff.mp h₄
    rw [heq] at hres ⊢
    obtain ⟨hres, hdate⟩ := Prod.mk.inj hres
    exact ⟨w₂, w₃, by simp, by simp, hres, hdate⟩

/-- In front of the call of `RouteRequest` the timer has been cancelled. -/
theorem eq_cancel_of_append {result : ReadResult} {l xs : List Statement} {req : ParsedRequest}
    (h : l ++ .routeRequest req :: xs = handleReadBody S result) : l = [.cancel] := by
  rw [handleReadBody] at h
  cases result with
  | request req' =>
    rw [prepareResponse] at h
    split at h
    · rcases l with _ | ⟨x, _ | ⟨y, _ | ⟨z, l⟩⟩⟩ <;> simp at h
    · rcases l with _ | ⟨x, _ | ⟨y, _ | ⟨z, _ | ⟨u, l⟩⟩⟩⟩ <;> simp at h
      rw [h.1]
  | error error =>
    rw [prepareResponse] at h
    split at h <;> rcases l with _ | ⟨x, _ | ⟨y, l⟩⟩ <;> simp at h

/-- When the handler is called no statement has written to the response yet. -/
theorem fresh_of_calling (hrun : after S started es = some s) (h : Answered S s) {c : Callback}
    {req : ParsedRequest} {xs : List Statement} (hrest : s.rest c = .routeRequest req :: xs) :
    s.res = .fresh := by
  have hportion := portion_of_run hrun c
  rw [hrest] at hportion
  have hmem : Statement.routeRequest req ∈ body S s c := by
    rw [← hportion]
    exact List.mem_append_right _ List.mem_cons_self
  cases c with
  | timeout =>
    simp only [body] at hmem
    split at hmem
    · exact absurd hmem (by simp [timeoutBody])
    · exact absurd hmem List.not_mem_nil
  | handleRead =>
    simp only [body] at hmem hportion
    split at hmem
    · rename_i result hr
      simp only [hr] at hportion
      have hidle : portion .timeout (executed S es) = [] := by
        have htimeout := portion_of_run hrun .timeout
        rw [body, if_neg fun ht => h.single ht result hr] at htimeout
        exact (List.append_eq_nil_iff.mp htimeout).1
      have hlist : (performed S es).map Prod.fst = [.cancel] := by
        rw [performed_map hrun, statements, ← portion_eq_of_nil (d := .handleRead) (by decide) hidle]
        exact eq_cancel_of_append hportion
      obtain ⟨w, l, heq, hl⟩ := exists_surroundings hlist
      obtain rfl := List.map_eq_nil_iff.mp hl
      have hres := res_of_performed hrun
      rw [heq] at hres
      exact (Prod.mk.inj hres).1
    · exact absurd hmem List.not_mem_nil

end Session

end Webserver

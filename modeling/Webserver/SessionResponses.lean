import Mathlib.Data.List.Pairwise
import Webserver.Session

/-!
# One response for a session

`Timeout` and `HandleRead` write a response each once they are past their first check. The session
is answered once in the runs where only one of the two gets there, and not with a request for
an upgrade.
-/

set_option autoImplicit false

namespace Webserver

def ReadResult.upgrades (S : SessionConfig) : ReadResult → Bool
  | .request req => S.isUpgrade req
  | .error _ => false

namespace Session

/-- At most one write is started, nothing modifies the response after it, and none is started
after the socket has been handed over. -/
structure OneResponse (l : List Statement) : Prop where
  once : l.Pairwise fun a b => a.writes → ¬ b.writes
  unmodified : l.Pairwise fun a b => a.writes → ¬ b.modifies
  kept : l.Pairwise fun a b => a.handsOver → ¬ b.writes

theorem OneResponse.sublist {l k : List Statement} (h : OneResponse l) (hk : k.Sublist l) :
    OneResponse k :=
  ⟨h.once.sublist hk, h.unmodified.sublist hk, h.kept.sublist hk⟩

/-- `Timeout` for an expired wait comes before `HandleRead` passes `timeout_check`; `HandleRead`
passes it only before `Timeout` is called, and without an upgrade. -/
def Admits (S : SessionConfig) (s : Session) : ConnectionEvent → Prop
  | .timeout => s.timer = .expired → ∀ result, s.read ≠ .handled result
  | .handleRead => ∀ result, s.read = .completed result → s.timeoutCheck = false →
      s.timer ≠ .timedOut ∧ result.upgrades S = false
  | _ => True

def Admitted (S : SessionConfig) (es : List ConnectionEvent) : Prop :=
  Traces.Along (step S) (Admits S) started es

def statements (S : SessionConfig) (es : List ConnectionEvent) : List Statement :=
  (executed S es).map Prod.snd

section Runs
variable {S : SessionConfig}

/-- One callback at most is past its check, and no upgrade. -/
structure Answered (S : SessionConfig) (s : Session) : Prop where
  single : s.timer = .timedOut → ∀ result, s.read ≠ .handled result
  plain : ∀ result, s.read = .handled result → result.upgrades S = false

theorem answered_of_unhandled {s : Session} (h : ∀ result, s.read ≠ .handled result) :
    Answered S s where
  single _ := h
  plain result hr := absurd hr (h result)

theorem answered_congr {s s' : Session} (ht : s'.timer = .timedOut ↔ s.timer = .timedOut)
    (hr : ∀ result, s'.read = .handled result ↔ s.read = .handled result) :
    Answered S s' ↔ Answered S s := by
  constructor
  · intro h
    exact ⟨fun ht' result hr' => h.single (ht.mpr ht') result ((hr result).mpr hr'),
      fun result hr' => h.plain result ((hr result).mpr hr')⟩
  · intro h
    exact ⟨fun ht' result hr' => h.single (ht.mp ht') result ((hr result).mp hr'),
      fun result hr' => h.plain result ((hr result).mp hr')⟩

/-- A step keeps this up if and only if it is admitted. -/
theorem Took.answered_iff {s s' : Session} {e : ConnectionEvent} (h : Took S s e s') :
    Answered S s' ↔ Answered S s ∧ Admits S s e := by
  have hkeep (ht : s'.timer = .timedOut ↔ s.timer = .timedOut)
      (hr : ∀ result, s'.read = .handled result ↔ s.read = .handled result)
      (hadmits : Admits S s e) : Answered S s' ↔ Answered S s ∧ Admits S s e := by
    rw [answered_congr ht hr]
    exact (and_iff_left hadmits).symm
  cases h with
  | expired ht => exact hkeep (by simp [ht]) (fun _ => Iff.rfl) trivial
  | readCompleted result hr => exact hkeep Iff.rfl (by simp [hr]) trivial
  | writeCompleted hw => exact hkeep Iff.rfl (fun _ => Iff.rfl) trivial
  | timedOut ht =>
    constructor
    · intro h
      exact ⟨⟨fun _ => h.single rfl, h.plain⟩, fun _ => h.single rfl⟩
    · rintro ⟨h, hadmits⟩
      exact ⟨fun _ => hadmits ht, h.plain⟩
  | aborted ht =>
    apply hkeep (by simp [ht]) (fun _ => Iff.rfl)
    intro hexpired
    exact absurd (ht.symm.trans hexpired) (by simp)
  | dropped hr hc =>
    apply hkeep Iff.rfl (by simp [hr])
    intro result _ hcheck
    exact absurd (hc.symm.trans hcheck) (by simp)
  | @handled result hr hc =>
    constructor
    · intro h
      refine ⟨answered_of_unhandled (by simp [hr]), ?_⟩
      intro r hr' _
      obtain rfl := SessionRead.completed.inj (hr.symm.trans hr')
      exact ⟨fun ht => h.single ht result rfl, h.plain result rfl⟩
    · rintro ⟨_, hadmits⟩
      obtain ⟨ht, hupgrade⟩ := hadmits result hr hc
      refine ⟨fun ht' => absurd ht' ht, ?_⟩
      intro r hr'
      obtain rfl := SessionRead.handled.inj hr'
      exact hupgrade
  | closed hw hrest => exact hkeep Iff.rfl (fun _ => Iff.rfl) trivial
  | ran w hrest => exact hkeep (exec_timedOut ..) (by simp) trivial

theorem answered_iff_admitted {es : List ConnectionEvent} {s : Session}
    (hrun : after S started es = some s) : Answered S s ↔ Admitted S es := by
  refine Traces.after_invariant (I := fun es s => Answered S s ↔ Admitted S es) ?_ ?_ hrun
  · exact iff_of_true (answered_of_unhandled (by simp [started])) trivial
  · intro es s e s' hes ih hstep
    rw [(took_of_step hstep).answered_iff, ih, Admitted, Admitted, Traces.along_snoc hes]

/-- What a callback runs in all, as far as it has been called. -/
def body (S : SessionConfig) (s : Session) : Callback → List Statement
  | .timeout => if s.timer = .timedOut then timeoutBody else []
  | .handleRead =>
    match s.read with
    | .handled result => handleReadBody S result
    | _ => []

def portion (c : Callback) (log : List (Callback × Statement)) : List Statement :=
  (log.filter fun x => x.1 = c).map Prod.snd

@[simp] theorem portion_nil (c : Callback) : portion c [] = [] := rfl

theorem portion_append (c : Callback) (l k : List (Callback × Statement)) :
    portion c (l ++ k) = portion c l ++ portion c k := by
  rw [portion, List.filter_append, List.map_append]
  rfl

theorem portion_sublist (c : Callback) (l : List (Callback × Statement)) :
    (portion c l).Sublist (l.map Prod.snd) := List.filter_sublist.map _

theorem mem_of_mem_portion {c : Callback} {l : List (Callback × Statement)} {x : Statement}
    (h : x ∈ portion c l) : (c, x) ∈ l := by
  obtain ⟨⟨d, y⟩, hy, rfl⟩ := List.mem_map.mp h
  obtain ⟨hmem, hd⟩ := List.mem_filter.mp hy
  obtain rfl : d = c := by simpa using hd
  exact hmem

/-- Where one callback has run nothing the log is the portion of the other. -/
theorem portion_eq_of_nil {c d : Callback} (hcd : c ≠ d) {l : List (Callback × Statement)}
    (h : portion c l = []) : portion d l = l.map Prod.snd := by
  rw [portion, List.filter_eq_self.mpr]
  intro x hx
  rw [decide_eq_true_eq]
  by_contra hd
  have hc : x.1 = c := by
    cases hx1 : x.1 <;> cases c <;> cases d <;> simp_all
  have hmem : x.2 ∈ portion c l :=
    List.mem_map.mpr ⟨x, List.mem_filter.mpr ⟨hx, by simpa using hc⟩, rfl⟩
  rw [h] at hmem
  exact List.not_mem_nil hmem

/-- What has run of a callback and what is left make up its body. -/
theorem portion_of_run {es : List ConnectionEvent} {s : Session}
    (hrun : after S started es = some s) (c : Callback) :
    portion c (executed S es) ++ s.rest c = body S s c := by
  refine Traces.after_invariant
    (I := fun es s => ∀ c, portion c (executed S es) ++ s.rest c = body S s c) ?_ ?_ hrun c
  · intro c
    cases c <;> rfl
  · intro es s e s' hes ih hstep c
    rw [executed, Traces.log_snoc hes, ← executed, portion_append]
    have hkeep (hnone : statement s e = none) (hrest : s'.rest c = s.rest c)
        (hbody : body S s' c = body S s c) :
        portion c (executed S es) ++ portion c (statement s e).toList ++ s'.rest c =
          body S s' c := by
      rw [hnone, hrest, hbody, Option.toList_none, portion_nil, List.append_nil, ih c]
    cases took_of_step hstep with
    | expired ht => exact hkeep rfl rfl (by cases c <;> simp [body, ht])
    | readCompleted result hr => exact hkeep rfl rfl (by cases c <;> simp [body, hr])
    | writeCompleted hw => exact hkeep rfl rfl rfl
    | timedOut ht =>
      cases c with
      | timeout =>
        have hnil := ih .timeout
        rw [body, if_neg (by simp [ht]), List.append_eq_nil_iff] at hnil
        simp [hnil.1, statement, body]
      | handleRead => exact hkeep rfl (setRest_of_ne _ (by decide) _) rfl
    | aborted ht => exact hkeep rfl rfl (by cases c <;> simp [body, ht])
    | dropped hr hc => exact hkeep rfl rfl (by cases c <;> simp [body, hr])
    | handled hr hc =>
      cases c with
      | handleRead =>
        have hnil := ih .handleRead
        simp only [body, hr, List.append_eq_nil_iff] at hnil
        simp [hnil.1, statement, body]
      | timeout => exact hkeep rfl (setRest_of_ne _ (by decide) _) rfl
    | closed hw hrest => exact hkeep rfl rfl rfl
    | @ran d w x xs hrest =>
      have hbody : body S (exec S w (s.setRest d xs) x) c = body S s c := by
        cases c with
        | timeout => simp only [body, exec_timedOut, setRest_timer]
        | handleRead => simp only [body, exec_read, setRest_read]
      rw [hbody, ← ih c, exec_rest, List.append_assoc]
      congr 1
      by_cases hcd : c = d
      · subst hcd
        simp [statement, hrest, portion]
      · rw [setRest_of_ne _ hcd]
        simp [statement, hrest, portion, Ne.symm hcd]

theorem oneResponse_timeoutBody : OneResponse timeoutBody := by
  constructor <;> simp [timeoutBody, Statement.writes, Statement.modifies, Statement.handsOver]

theorem oneResponse_handleReadBody {result : ReadResult} (h : result.upgrades S = false) :
    OneResponse (handleReadBody S result) := by
  cases result with
  | request req =>
    rw [ReadResult.upgrades] at h
    constructor <;>
      simp [handleReadBody, prepareResponse, h, Statement.writes, Statement.modifies,
        Statement.handsOver]
  | error error =>
    rw [handleReadBody, prepareResponse]
    split <;> constructor <;> simp [Statement.writes, Statement.modifies, Statement.handsOver]

theorem asyncWrite_mem_body {s : Session} {c : Callback} (h : body S s c ≠ []) :
    Statement.asyncWrite ∈ body S s c := by
  cases c with
  | timeout =>
    simp only [body] at h ⊢
    split
    · simp [timeoutBody]
    · rename_i ht
      exact absurd (if_neg ht) h
  | handleRead =>
    simp only [body] at h ⊢
    split
    · exact List.mem_append_right _ (List.mem_singleton_self _)
    · rename_i hr
      simp_all

/-- Where a single body is run, and not for an upgrade, one response is written. -/
theorem oneResponse_of_answered {es : List ConnectionEvent} {s : Session}
    (hrun : after S started es = some s) (h : Answered S s) : OneResponse (statements S es) := by
  have hprefix (c : Callback) : portion c (executed S es) <+: body S s c :=
    ⟨s.rest c, portion_of_run hrun c⟩
  by_cases ht : s.timer = .timedOut
  · have hnil : body S s .handleRead = [] := by
      simp only [body]
      split
      · rename_i result hr
        exact absurd hr (h.single ht result)
      · rfl
    have hread := hprefix .handleRead
    rw [hnil, List.prefix_nil] at hread
    rw [statements, ← portion_eq_of_nil (d := .timeout) (by decide) hread]
    apply oneResponse_timeoutBody.sublist
    have htimeout := hprefix .timeout
    rw [body, if_pos ht] at htimeout
    exact htimeout.sublist
  · have htimeout := hprefix .timeout
    rw [body, if_neg ht, List.prefix_nil] at htimeout
    rw [statements, ← portion_eq_of_nil (d := .handleRead) (by decide) htimeout]
    have hread := hprefix .handleRead
    simp only [body] at hread
    split at hread
    · rename_i result hr
      exact (oneResponse_handleReadBody (h.plain result hr)).sublist hread.sublist
    · rw [List.prefix_nil] at hread
      rw [hread]
      exact ⟨List.Pairwise.nil, List.Pairwise.nil, List.Pairwise.nil⟩

/-- Two bodies that have been run write two responses, and the one of an upgrade writes after
the socket is gone. -/
theorem answered_of_oneResponse {es : List ConnectionEvent} {s : Session}
    (hrun : after S started es = some s) (hidle : ∀ c, s.rest c = [])
    (h : OneResponse (statements S es)) : Answered S s := by
  have hportion (c : Callback) : portion c (executed S es) = body S s c := by
    have hrest := portion_of_run hrun c
    rwa [hidle c, List.append_nil] at hrest
  have hwrites (c : Callback) (hc : body S s c ≠ []) : (c, .asyncWrite) ∈ executed S es := by
    apply mem_of_mem_portion
    rw [hportion c]
    exact asyncWrite_mem_body hc
  constructor
  · intro ht result hr
    have htimeout := hwrites .timeout (by simp [body, ht, timeoutBody])
    have hread := hwrites .handleRead (by simp [body, hr, handleReadBody])
    have honce := List.pairwise_map.mp h.once
    have : Std.Symm fun a b : Callback × Statement => a.2.writes → ¬ b.2.writes :=
      ⟨fun a b hab hb ha => hab ha hb⟩
    exact honce.forall htimeout hread (by simp) rfl rfl
  · intro result hr
    cases result with
    | error error => rfl
    | request req =>
      by_contra hupgrade
      have hbody : body S s .handleRead =
          [.cancel, .runWebsocketHandler req, .asyncWrite] := by
        simp only [ReadResult.upgrades, Bool.not_eq_false] at hupgrade
        simp [body, hr, handleReadBody, prepareResponse, hupgrade]
      have hsub := portion_sublist .handleRead (executed S es)
      rw [hportion, hbody] at hsub
      have hkept := h.kept.sublist hsub
      simp [Statement.handsOver, Statement.writes] at hkept

/-- Once the only write has been started the response stays as it was handed to it. -/
theorem res_eq_of_oneResponse {es fs : List ConnectionEvent} {s s' : Session}
    (hes : after S started es = some s) (hfs : after S s fs = some s')
    (h : OneResponse (statements S (es ++ fs))) (hw : ∃ x ∈ statements S es, x.writes) :
    s'.res = s.res ∧ s'.date = s.date := by
  induction fs using List.reverseRecOn generalizing s' with
  | nil =>
    obtain rfl := Option.some.inj hfs
    exact ⟨rfl, rfl⟩
  | append_singleton fs e ih =>
    rw [after, Traces.after_snoc] at hfs
    obtain ⟨s₁, hs₁, hstep⟩ := Option.bind_eq_some_iff.mp hfs
    have hrun : Traces.after (step S) started (es ++ fs) = some s₁ := by
      rw [Traces.after_append]
      exact Option.bind_eq_some_iff.mpr ⟨s, hes, hs₁⟩
    rw [← List.append_assoc, statements, executed, Traces.log_snoc hrun, List.map_append] at h
    have hbefore := ih hs₁ (h.sublist (List.sublist_append_left ..))
    cases took_of_step hstep with
    | @ran c w x xs hrest =>
      obtain ⟨y, hy, hywrites⟩ := hw
      have hmem : y ∈ (Traces.log (step S) statement started (es ++ fs)).map Prod.snd := by
        rw [Traces.log_append hes, List.map_append]
        exact List.mem_append_left _ hy
      have hx := (List.pairwise_append.mp h.unmodified).2.2 y hmem x
        (by simp [statement, hrest]) hywrites
      obtain ⟨hres, hdate⟩ := exec_res (S := S) w (s₁.setRest c xs) (by simpa using hx)
      exact ⟨hres.trans hbefore.1, hdate.trans hbefore.2⟩
    | _ => exact hbefore

end Runs

/-- In a run of admitted steps one response is written; and a run at whose end no callback is
underway has written one only if its steps were admitted. -/
theorem oneResponse_of_admitted (S : SessionConfig) (es : List ConnectionEvent) (s : Session)
    (hrun : after S started es = some s) :
    (Admitted S es → OneResponse (statements S es)) ∧
      ((∀ c, s.rest c = []) → OneResponse (statements S es) → Admitted S es) := by
  constructor
  · intro hadmitted
    exact oneResponse_of_answered hrun ((answered_iff_admitted hrun).mpr hadmitted)
  · intro hidle h
    exact (answered_iff_admitted hrun).mp (answered_of_oneResponse hrun hidle h)

namespace Demo

def onlyNotFound : HandlerFactories where
  find path := if path = ['/'] then some .notFoundHandler else none
  top := rfl

/-- A request is an upgrade if it has both fields of one. -/
def config : SessionConfig where
  factories := onlyNotFound
  isUpgrade req :=
    req.version = 11 && req.method = .get &&
      req.fields.contains ("Connection".toList, "Upgrade".toList) &&
      req.fields.contains ("Upgrade".toList, "websocket".toList)

def surroundings : Surroundings where
  handleRequest _ _ _ res := res
  date := "Thu, 01 Jan 1970 00:00:00 GMT".toList

/-- `Timeout` is called while `HandleRead` is queued. -/
def late : List ConnectionEvent :=
  [.expire, .readComplete (.error .badMethod), .timeout, .run .timeout surroundings,
    .run .timeout surroundings, .handleRead, .run .timeout surroundings,
    .run .timeout surroundings, .writeComplete, .handleWrite]

/-- A malformed request is answered, and one second later the timer expires. -/
def malformed : List ConnectionEvent :=
  [.readComplete (.error .badMethod), .handleRead, .run .handleRead surroundings,
    .run .handleRead surroundings, .writeComplete, .handleWrite, .expire, .timeout,
    .run .timeout surroundings, .run .timeout surroundings, .run .timeout surroundings,
    .run .timeout surroundings]

end Demo

theorem oneResponse_of_admitted_late : OneResponse (statements Demo.config Demo.late) :=
  have hrun : ∃ s, after Demo.config started Demo.late = some s ∧ Answered Demo.config s :=
    ⟨_, rfl, fun _ _ h => SessionRead.noConfusion h, fun _ h => SessionRead.noConfusion h⟩
  hrun.elim fun s h => (oneResponse_of_admitted Demo.config Demo.late s h.1).1
    ((answered_iff_admitted h.1).mp h.2)

/-- The malformed request is answered two times. -/
theorem not_oneResponse_malformed :
    ¬ ∀ (S : SessionConfig) (es : List ConnectionEvent) (s : Session),
      after S started es = some s → OneResponse (statements S es) := by
  intro h
  have honce := (h Demo.config Demo.malformed _ rfl).once
  revert honce
  decide

end Session

end Webserver

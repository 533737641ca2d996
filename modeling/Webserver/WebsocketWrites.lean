import Webserver.WebsocketBroadcast

/-!
# One write at a time

`OnBroadcast` and `OnWrite` of one handler in any order. The writes that have been started and
have not completed are counted here one by one; that there is never more than one of them is what
the length of the queue is checked for.
-/

set_option autoImplicit false

namespace Webserver

universe u v

/-- `OnBroadcast` on the strand, or the completion of an `async_write`. -/
inductive WriteEvent (ι : Type u) (μ : Type v) where
  | onBroadcast (message : ι × μ)
  | onWrite (ok : Bool)

/-- A handler, and how many of its writes have completed. -/
structure Writer (ι : Type u) (μ : Type v) where
  handler : WebsocketHandler ι μ
  completed : Nat

namespace Writer
variable {ι : Type u} {μ : Type v}

/-- The writes that have been started and have not completed. -/
def outstanding (s : Writer ι μ) : List (ι × μ) := s.handler.written.drop s.completed

def started (channel : Str) : Writer ι μ := ⟨.run channel, 0⟩

/-- Only a write that is outstanding completes. -/
def step (s : Writer ι μ) : WriteEvent ι μ → Option (Writer ι μ)
  | .onBroadcast message => some ⟨s.handler.onBroadcast message, s.completed⟩
  | .onWrite ok =>
    if s.outstanding.isEmpty then none else some ⟨s.handler.onWrite ok, s.completed + 1⟩

def after (channel : Str) (es : List (WriteEvent ι μ)) : Option (Writer ι μ) :=
  Traces.after step (started channel) es

/-- The messages that `OnBroadcast` was called with. -/
def broadcasts (es : List (WriteEvent ι μ)) : List (ι × μ) :=
  es.filterMap fun
    | .onBroadcast message => some message
    | .onWrite _ => none

/-- Without a failed write: the front of the queue is being written, what is behind it waits, and
everything else has been written. -/
structure Working (es : List (WriteEvent ι μ)) (s : Writer ι μ) : Prop where
  front : s.outstanding = s.handler.queue.head?.toList
  kept : broadcasts es = s.handler.written ++ s.handler.queue.tail
  writing : s.handler.writing = !s.outstanding.isEmpty
  counted : s.completed ≤ s.handler.written.length

/-- Behind a failed write: nothing is being written, and the message that failed blocks the
queue. -/
structure Stopped (s : Writer ι μ) : Prop where
  idle : s.outstanding = []
  blocked : s.handler.queue ≠ []
  writing : s.handler.writing = false

variable {es fs : List (WriteEvent ι μ)} {s s' : Writer ι μ} {e : WriteEvent ι μ}

theorem broadcasts_append (es fs : List (WriteEvent ι μ)) :
    broadcasts (es ++ fs) = broadcasts es ++ broadcasts fs :=
  List.filterMap_append

theorem working_started (channel : Str) : Working [] (started channel : Writer ι μ) where
  front := rfl
  kept := rfl
  writing := rfl
  counted := le_rfl

/-- The broadcast of a message: behind others it waits, and alone it is written. -/
theorem onBroadcast_cases (h : WebsocketHandler ι μ) (message : ι × μ) :
    (h.queue ≠ [] ∧ h.onBroadcast message = { h with queue := h.queue ++ [message] }) ∨
    (h.queue = [] ∧ h.onBroadcast message =
      { h with queue := [message], writing := true, written := h.written ++ [message] }) := by
  unfold WebsocketHandler.onBroadcast
  cases hq : h.queue with
  | nil =>
    right
    exact ⟨rfl, by simp [WebsocketHandler.writeFront]⟩
  | cons m rest =>
    left
    exact ⟨List.cons_ne_nil m rest, by simp⟩

theorem onWrite_cases (h : WebsocketHandler ι μ) (ok : Bool) :
    (ok = false ∧ h.onWrite ok = { h with writing := false }) ∨
    (ok = true ∧ h.queue.tail = [] ∧ h.onWrite ok = { h with queue := [], writing := false }) ∨
    ∃ m rest, ok = true ∧ h.queue.tail = m :: rest ∧ h.onWrite ok =
      { h with queue := m :: rest, writing := true, written := h.written ++ [m] } := by
  unfold WebsocketHandler.onWrite
  cases ok with
  | false => exact Or.inl ⟨rfl, by simp⟩
  | true =>
    right
    cases hq : h.queue.tail with
    | nil => exact Or.inl ⟨rfl, rfl, by simp [hq]⟩
    | cons m rest => exact Or.inr ⟨m, rest, rfl, rfl, by simp [hq, WebsocketHandler.writeFront]⟩

theorem step_onWrite {ok : Bool} (hstep : s.step (.onWrite ok) = some s') :
    s.outstanding ≠ [] ∧ s' = ⟨s.handler.onWrite ok, s.completed + 1⟩ := by
  rw [step] at hstep
  split at hstep
  · exact absurd hstep (by simp)
  · rename_i hout
    exact ⟨by simpa using hout, (Option.some.inj hstep).symm⟩

theorem Working.onBroadcast (h : Working es s) (message : ι × μ) :
    Working (es ++ [.onBroadcast message]) ⟨s.handler.onBroadcast message, s.completed⟩ := by
  have hfront := h.front
  have hkept := h.kept
  have hcounted := h.counted
  have hwriting := h.writing
  have hmessages : broadcasts (es ++ [.onBroadcast message]) = broadcasts es ++ [message] :=
    broadcasts_append es _
  rcases onBroadcast_cases s.handler message with ⟨hq, he⟩ | ⟨hq, he⟩
  · obtain ⟨m, rest, hq'⟩ := List.exists_cons_of_ne_nil hq
    rw [he]
    constructor
    · rw [hq'] at hfront ⊢
      exact hfront
    · rw [hmessages, hkept, hq']
      simp
    · exact hwriting
    · exact hcounted
  · rw [hq, List.head?_nil, Option.toList_none, outstanding, List.drop_eq_nil_iff] at hfront
    have hlen : s.completed = s.handler.written.length := by omega
    have hdrop : (s.handler.written ++ [message]).drop s.completed = [message] := by
      rw [hlen, List.drop_left]
    rw [he]
    constructor
    · exact hdrop
    · rw [hmessages, hkept, hq]
      simp
    · rw [outstanding, hdrop]
      rfl
    · simp only [List.length_append]
      omega

/-- A completion without an error: the written message leaves the queue, and the next one is
written. -/
theorem Working.onWrite (h : Working es s) (hout : s.outstanding ≠ []) :
    Working (es ++ [.onWrite true]) ⟨s.handler.onWrite true, s.completed + 1⟩ := by
  have hfront := h.front
  have hkept := h.kept
  have hmessages : broadcasts (es ++ [.onWrite true]) = broadcasts es := by
    rw [broadcasts_append]
    exact List.append_nil _
  cases hq : s.handler.queue with
  | nil =>
    rw [hq] at hfront
    exact absurd hfront hout
  | cons m waiting =>
    have hone : s.outstanding = [m] := by rw [hfront, hq]; rfl
    have hlen : s.handler.written.length = s.completed + 1 := by
      have h1 := congrArg List.length hone
      rw [outstanding, List.length_drop, List.length_singleton] at h1
      omega
    rw [hq, List.tail_cons] at hkept
    rcases onWrite_cases s.handler true with ⟨hok, _⟩ | ⟨_, hwaiting, he⟩ | ⟨m', rest, _, hwaiting, he⟩
    · exact absurd hok (by simp)
    · rw [hq, List.tail_cons] at hwaiting
      have hnone : s.handler.written.drop (s.completed + 1) = [] := by
        apply List.drop_eq_nil_iff.mpr
        omega
      rw [he]
      constructor
      · exact hnone
      · rw [hmessages, hkept, hwaiting]
        rfl
      · rw [outstanding, hnone]
        rfl
      · exact hlen.ge
    · rw [hq, List.tail_cons] at hwaiting
      have hnext : (s.handler.written ++ [m']).drop (s.completed + 1) = [m'] := by
        rw [← hlen, List.drop_left]
      rw [he]
      constructor
      · exact hnext
      · rw [hmessages, hkept, hwaiting]
        simp
      · rw [outstanding, hnext]
        rfl
      · simp only [List.length_append]
        omega

theorem Working.step (h : Working es s) (hstep : s.step e = some s') :
    (e ≠ .onWrite false ∧ Working (es ++ [e]) s') ∨
      (e = .onWrite false ∧ Stopped s' ∧ s'.handler.written = s.handler.written) := by
  cases e with
  | onBroadcast message =>
    obtain rfl := Option.some.inj hstep
    exact Or.inl ⟨by simp, h.onBroadcast message⟩
  | onWrite ok =>
    obtain ⟨hout, rfl⟩ := step_onWrite hstep
    cases ok with
    | true => exact Or.inl ⟨by simp, h.onWrite hout⟩
    | false =>
      have hfront := h.front
      cases hq : s.handler.queue with
      | nil =>
        rw [hq] at hfront
        exact absurd hfront hout
      | cons m waiting =>
        refine Or.inr ⟨rfl, ?_, rfl⟩
        rw [hq] at hfront
        have h1 := congrArg List.length hfront
        rw [outstanding, List.length_drop] at h1
        constructor
        · apply List.drop_eq_nil_iff.mpr
          simp at h1
          show s.handler.written.length ≤ s.completed + 1
          omega
        · show s.handler.queue ≠ []
          rw [hq]
          exact List.cons_ne_nil m waiting
        · rfl

theorem Stopped.step (h : Stopped s) (hstep : s.step e = some s') :
    Stopped s' ∧ s'.handler.written = s.handler.written := by
  cases e with
  | onBroadcast message =>
    obtain rfl := Option.some.inj hstep
    have hidle := h.idle
    rcases onBroadcast_cases s.handler message with ⟨hq, he⟩ | ⟨hq, _⟩
    · rw [he]
      exact ⟨⟨hidle, by simp, h.writing⟩, rfl⟩
    · exact absurd hq h.blocked
  | onWrite ok =>
    obtain ⟨hout, _⟩ := step_onWrite hstep
    exact absurd h.idle hout

/-- A run works until its first failed write, and stands still behind it. -/
theorem working_or_stopped {channel : Str} (h : after channel es = some s) :
    (.onWrite false ∉ es ∧ Working es s) ∨ (.onWrite false ∈ es ∧ Stopped s) := by
  refine @Traces.after_invariant _ _ step
    (fun es s => (.onWrite false ∉ es ∧ Working es s) ∨ (.onWrite false ∈ es ∧ Stopped s))
    (started channel) (Or.inl ⟨by simp, working_started channel⟩) ?_ es s h
  intro es s e s' _ hI hstep
  simp only [List.mem_append, List.mem_singleton, not_or]
  rcases hI with ⟨hok, hworking⟩ | ⟨hfailed, hstopped⟩
  · rcases hworking.step hstep with ⟨he, hworking'⟩ | ⟨he, hstopped, _⟩
    · exact Or.inl ⟨⟨hok, fun h => he h.symm⟩, hworking'⟩
    · exact Or.inr ⟨Or.inr he.symm, hstopped⟩
  · exact Or.inr ⟨Or.inl hfailed, (hstopped.step hstep).1⟩

theorem Stopped.written (h : Stopped s) (hrun : Traces.after Writer.step s es = some s') :
    s'.handler.written = s.handler.written := by
  have hboth : Stopped s' ∧ s'.handler.written = s.handler.written := by
    refine @Traces.after_invariant _ _ Writer.step
      (fun _ s' => Stopped s' ∧ s'.handler.written = s.handler.written) s ⟨h, rfl⟩ ?_ es s' hrun
    intro _ t e t' _ ht hstep
    obtain ⟨hstopped, hwritten⟩ := ht.1.step hstep
    exact ⟨hstopped, hwritten.trans ht.2⟩
  exact hboth.2

theorem outstanding_length_le_one {channel : Str} (h : after channel es = some s) :
    s.outstanding.length ≤ 1 := by
  rcases working_or_stopped h with ⟨_, hworking⟩ | ⟨_, hstopped⟩
  · rw [hworking.front]
    cases s.handler.queue with
    | nil => exact Nat.zero_le 1
    | cons m rest => exact le_rfl
  · rw [hstopped.idle]
    exact Nat.zero_le 1

/-- A write that fails is the last one that was started. -/
theorem written_of_failed {channel : Str} (h : after channel (es ++ .onWrite false :: fs) = some s) :
    ∃ s₁, after channel es = some s₁ ∧ s.handler.written = s₁.handler.written := by
  rw [after, Traces.after_append] at h
  obtain ⟨s₁, hs₁, hrest⟩ := Option.bind_eq_some_iff.mp h
  rw [Traces.after_cons] at hrest
  obtain ⟨s₂, hfail, hrest⟩ := Option.bind_eq_some_iff.mp hrest
  refine ⟨s₁, hs₁, ?_⟩
  rcases working_or_stopped hs₁ with ⟨_, hworking⟩ | ⟨_, hstopped⟩
  · rcases hworking.step hfail with ⟨he, _⟩ | ⟨_, hstopped, hwritten⟩
    · exact absurd rfl he
    · exact (hstopped.written hrest).trans hwritten
  · obtain ⟨hstopped, hwritten⟩ := hstopped.step hfail
    exact (hstopped.written hrest).trans hwritten

/-- At most one write is outstanding. Before the first failed write it is the one of the front of
the queue, and the messages are written in the order of their broadcasts; behind it nothing is
written. -/
theorem writes_disciplined (channel : Str) (es : List (WriteEvent ι μ)) (s : Writer ι μ)
    (h : after channel es = some s) :
    s.outstanding.length ≤ 1 ∧
      (.onWrite false ∉ es → s.outstanding = s.handler.queue.head?.toList ∧
        broadcasts es = s.handler.written ++ s.handler.queue.tail) ∧
      ∀ fs gs, es = fs ++ .onWrite false :: gs →
        ∃ s₁, after channel fs = some s₁ ∧ s.handler.written = s₁.handler.written := by
  refine ⟨outstanding_length_le_one h, ?_, ?_⟩
  · intro hok
    rcases working_or_stopped h with ⟨_, hworking⟩ | ⟨hfailed, _⟩
    · exact ⟨hworking.front, hworking.kept⟩
    · exact absurd hfailed hok
  · rintro fs gs rfl
    exact written_of_failed h

end Writer

namespace Demo

/-- Three messages; the second write fails. -/
def failing : List (WriteEvent ℕ Bool) :=
  [.onBroadcast (0, true), .onBroadcast (1, false), .onWrite true, .onWrite false,
    .onBroadcast (2, true)]

end Demo

namespace Writer

theorem writes_disciplined_failing :
    ∃ s, after "/pad".toList Demo.failing = some s ∧ s.outstanding.length ≤ 1 ∧
      ∃ s₁, after "/pad".toList (Demo.failing.take 3) = some s₁ ∧
        s.handler.written = s₁.handler.written := by
  have h := writes_disciplined "/pad".toList Demo.failing _ rfl
  exact ⟨_, rfl, h.1, h.2.2 (Demo.failing.take 3) [.onBroadcast (2, true)] rfl⟩

variable {ι : Type u} {μ : Type v}

/-- The parts of a handler that `OnBroadcast` and `OnWrite` work on. -/
structure SameWrites (h g : WebsocketHandler ι μ) : Prop where
  queue : h.queue = g.queue
  writing : h.writing = g.writing
  written : h.written = g.written

variable {h g : WebsocketHandler ι μ}

theorem SameWrites.onBroadcast (hsame : SameWrites h g) (message : ι × μ) :
    SameWrites (h.onBroadcast message) (g.onBroadcast message) := by
  cases h
  cases g
  obtain ⟨rfl, rfl, rfl⟩ := hsame
  unfold WebsocketHandler.onBroadcast
  dsimp only
  split <;> exact ⟨rfl, rfl, rfl⟩

theorem SameWrites.onWrite (hsame : SameWrites h g) (ok : Bool) :
    SameWrites (h.onWrite ok) (g.onWrite ok) := by
  cases h
  cases g
  obtain ⟨rfl, rfl, rfl⟩ := hsame
  unfold WebsocketHandler.onWrite
  dsimp only
  split
  · split <;> exact ⟨rfl, rfl, rfl⟩
  · exact ⟨rfl, rfl, rfl⟩

/-- The handler has come about by some run of broadcasts and completions. -/
def Follows (g : WebsocketHandler ι μ) : Prop :=
  ∃ es s, after g.channel es = some s ∧ SameWrites s.handler g

theorem follows_run (channel : Str) : Follows (.run channel : WebsocketHandler ι μ) :=
  ⟨[], started channel, rfl, rfl, rfl, rfl⟩

theorem Follows.of_same (hg : Follows g) (hchannel : h.channel = g.channel)
    (hsame : SameWrites g h) : Follows h := by
  obtain ⟨es, s, hrun, hs⟩ := hg
  exact ⟨es, s, hchannel ▸ hrun, hs.queue.trans hsame.queue, hs.writing.trans hsame.writing,
    hs.written.trans hsame.written⟩

theorem Follows.onBroadcast (hg : Follows g) (message : ι × μ) : Follows (g.onBroadcast message) := by
  obtain ⟨es, s, hrun, hs⟩ := hg
  refine ⟨es ++ [.onBroadcast message], ⟨s.handler.onBroadcast message, s.completed⟩, ?_,
    hs.onBroadcast message⟩
  rw [g.onBroadcast_channel, after, Traces.after_snoc]
  rw [after] at hrun
  rw [hrun]
  rfl

/-- A handler that is writing has a write outstanding. -/
theorem Follows.onWrite (hg : Follows g) (hwriting : g.writing = true) (ok : Bool) :
    Follows (g.onWrite ok) := by
  obtain ⟨es, s, hrun, hs⟩ := hg
  have hout : s.outstanding ≠ [] := by
    have hw := hs.writing.trans hwriting
    rcases working_or_stopped hrun with ⟨_, hworking⟩ | ⟨_, hstopped⟩
    · rw [hworking.writing] at hw
      simpa using hw
    · exact absurd (hstopped.writing.symm.trans hw) (by simp)
  refine ⟨es ++ [.onWrite ok], ⟨s.handler.onWrite ok, s.completed + 1⟩, ?_, hs.onWrite ok⟩
  rw [g.onWrite_channel, after, Traces.after_snoc]
  rw [after] at hrun
  rw [hrun]
  simp [step, hout]

end Writer

namespace Sessions
variable {ι : Type u} {μ : Type v} [DecidableEq ι] {s s' : Sessions ι μ} {e : SessionEvent ι μ}

/-- Every handler that is there writes as it would on its own. -/
def Following (s : Sessions ι μ) : Prop := ∀ r g, s.handlers r = some g → Writer.Follows g

theorem Following.set {i : ι} {h : WebsocketHandler ι μ} (hs : s.Following) (hh : Writer.Follows h) :
    (s.set i h).Following := by
  intro r g hr
  rw [handlers_set] at hr
  split at hr
  · exact Option.some.inj hr ▸ hh
  · exact hs r g hr

theorem Following.setGoto {i : ι} {h : WebsocketHandler ι μ} (hs : s.Following)
    (hi : s.handlers i = some h) (p : HandlerPhase ι μ) : (s.set i (h.goto p)).Following :=
  hs.set ((hs i h hi).of_same rfl ⟨rfl, rfl, rfl⟩)

theorem Took.following (h : Took s e s') (hs : s.Following) : s'.Following := by
  cases h with
  | run channel hi => exact hs.set (Writer.follows_run channel)
  | accepted hi hp => exact hs.setGoto hi _
  | refused hi hp => exact hs.setGoto hi _
  | inserted hi hp => exact hs.setGoto hi _
  | readError hi hp => exact hs.setGoto hi _
  | received hi hp m hc => exact hs.setGoto hi _
  | broadcastThrew hi hp m hc => exact hs
  | snapshot hi hp hc hnodup htargets => exact hs.setGoto hi _
  | @posted i j h g hi m targets hp hj hlock =>
    have hgoto := hs.setGoto hi (.posting m targets)
    exact hgoto.set ((hgoto j g hj).of_same rfl ⟨rfl, rfl, rfl⟩)
  | skipped hi hp hj => exact hs.setGoto hi _
  | broadcastDone hi hp => exact hs.setGoto hi _
  | @onBroadcast i g hi m rest hstrand hlock =>
    have hrest : Writer.Follows { g with strand := rest } :=
      (hs i g hi).of_same rfl ⟨rfl, rfl, rfl⟩
    exact hs.set (hrest.onBroadcast m)
  | @onWrite i g hi ok hw hlock => exact hs.set ((hs i g hi).onWrite hw ok)
  | removed hi hp hc => exact hs.setGoto hi _
  | removeThrew hi hp hc => exact hs
  | erased hi hp => exact hs.setGoto hi _

/-- In every run of the sessions each handler is in a state of `Writer`, so its writes are
disciplined. -/
theorem following_of_run {es : List (SessionEvent ι μ)} (h : initial.after es = some s) :
    s.Following := by
  refine @run_invariant _ _ _ (fun _ s => s.Following) initial s ?_ ?_ es h
  · intro r g hr
    exact absurd hr (by simp [initial])
  · intro es s e s' _ hs htook
    exact htook.following hs

end Sessions

end Webserver

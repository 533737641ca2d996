import Webserver.GlobalWebsocketState
import Webserver.Library.Traces

/-!
# WebsocketHandler

The sessions of one `GlobalWebsocketState` as a machine. A session is created by an upgrade
request and moves from callback to callback; a callback runs without interruption except where
it enters a mutex or posts to a strand. `OnWrite` is not bound to the strand, and is taken not to
overlap with `OnBroadcast` all the same. Messages carry their sender along.
-/

set_option autoImplicit false

namespace Webserver

universe u v

inductive HandlerPhase (ι : Type u) (μ : Type v) where
  /-- `async_accept` is pending. -/
  | accepting
  /-- `OnConnect`, between the two parts of `Add`. -/
  | adding
  /-- `async_read` is pending. -/
  | reading
  /-- `OnRecieve`, in `Broadcast`, before the snapshot of the channel. -/
  | broadcasting (message : μ)
  /-- The loop of `Broadcast`, with the weak pointers it has not tried yet. -/
  | posting (message : μ) (targets : List ι)
  /-- A callback has returned without another operation. -/
  | released
  /-- The destructor, between the two parts of `Remove`. -/
  | removing
  | destroyed

structure WebsocketHandler (ι : Type u) (μ : Type v) where
  channel : Str
  phase : HandlerPhase ι μ
  /-- The calls of `OnBroadcast` posted to the strand. -/
  strand : List (ι × μ)
  /-- `queue_`. -/
  queue : List (ι × μ)
  /-- `async_write` is outstanding. -/
  writing : Bool
  /-- What has been handed to `async_write`. -/
  written : List (ι × μ)

namespace WebsocketHandler
variable {ι : Type u} {μ : Type v}

/-- The handler after `Run`. -/
def run (channel : Str) : WebsocketHandler ι μ := ⟨channel, .accepting, [], [], false, []⟩

def goto (h : WebsocketHandler ι μ) (p : HandlerPhase ι μ) : WebsocketHandler ι μ := { h with phase := p }

@[simp] theorem goto_channel (h : WebsocketHandler ι μ) (p : HandlerPhase ι μ) :
    (h.goto p).channel = h.channel := rfl

@[simp] theorem goto_phase (h : WebsocketHandler ι μ) (p : HandlerPhase ι μ) : (h.goto p).phase = p := rfl

/-- `weak_ptr::lock` succeeds until the destructor has begun. -/
def lockable (h : WebsocketHandler ι μ) : Bool :=
  match h.phase with
  | .removing => false
  | .destroyed => false
  | _ => true

/-- `Broadcast` of the handler: the message is posted to its strand. -/
def post (h : WebsocketHandler ι μ) (message : ι × μ) : WebsocketHandler ι μ :=
  { h with strand := h.strand ++ [message] }

@[simp] theorem post_channel (h : WebsocketHandler ι μ) (message : ι × μ) :
    (h.post message).channel = h.channel := rfl

/-- `async_write` of the message at the front of the queue. -/
def writeFront (h : WebsocketHandler ι μ) : WebsocketHandler ι μ :=
  { h with writing := true, written := h.written ++ h.queue.take 1 }

@[simp] theorem writeFront_channel (h : WebsocketHandler ι μ) : h.writeFront.channel = h.channel :=
  rfl

def onBroadcast (h : WebsocketHandler ι μ) (message : ι × μ) : WebsocketHandler ι μ :=
  let h := { h with queue := h.queue ++ [message] }
  if h.queue.length > 1 then h else h.writeFront

@[simp] theorem onBroadcast_channel (h : WebsocketHandler ι μ) (message : ι × μ) :
    (h.onBroadcast message).channel = h.channel := by
  unfold onBroadcast
  dsimp only
  split <;> rfl

/-- After a failed write the queue is left as it is. -/
def onWrite (h : WebsocketHandler ι μ) (ok : Bool) : WebsocketHandler ι μ :=
  let h := { h with writing := false }
  if ok then
    let h := { h with queue := h.queue.tail }
    if h.queue.isEmpty then h else h.writeFront
  else h

@[simp] theorem onWrite_channel (h : WebsocketHandler ι μ) (ok : Bool) :
    (h.onWrite ok).channel = h.channel := by
  unfold onWrite
  dsimp only
  split
  · split <;> rfl
  · rfl

end WebsocketHandler

/-- An exception of `map_.at`, in the destructor or in `OnRecieve`. -/
inductive Thrown (ι : Type u) where
  | remove (session : ι)
  | broadcast (session : ι)

structure Sessions (ι : Type u) (μ : Type v) where
  map : ChannelMap ι
  handlers : ι → Option (WebsocketHandler ι μ)
  thrown : Option (Thrown ι)

/-- A step. The order in which a set is iterated, and what completes with an error, is up to
the run. -/
inductive SessionEvent (ι : Type u) (μ : Type v) where
  | run (i : ι) (channel : Str)
  | handshake (i : ι) (ok : Bool)
  | insert (i : ι)
  | receive (i : ι) (message : Option μ)
  | snapshot (i : ι) (targets : List ι)
  | post (i : ι)
  | onBroadcast (i : ι)
  | onWrite (i : ι) (ok : Bool)
  | destroy (i : ι)
  | erase (i : ι)

namespace Sessions
variable {ι : Type u} {μ : Type v} [DecidableEq ι]

def initial : Sessions ι μ := ⟨∅, fun _ => none, none⟩

def set (s : Sessions ι μ) (i : ι) (h : WebsocketHandler ι μ) : Sessions ι μ :=
  { s with handlers := Function.update s.handlers i (some h) }

def setMap (s : Sessions ι μ) (map : ChannelMap ι) : Sessions ι μ := { s with map }

def channel (s : Sessions ι μ) (i : ι) : Option Str := (s.handlers i).map (·.channel)

@[simp] theorem set_map (s : Sessions ι μ) (i : ι) (h : WebsocketHandler ι μ) :
    (s.set i h).map = s.map := rfl

@[simp] theorem set_thrown (s : Sessions ι μ) (i : ι) (h : WebsocketHandler ι μ) :
    (s.set i h).thrown = s.thrown := rfl

omit [DecidableEq ι] in
@[simp] theorem setMap_map (s : Sessions ι μ) (map : ChannelMap ι) : (s.setMap map).map = map :=
  rfl

omit [DecidableEq ι] in
@[simp] theorem setMap_thrown (s : Sessions ι μ) (map : ChannelMap ι) :
    (s.setMap map).thrown = s.thrown := rfl

omit [DecidableEq ι] in
@[simp] theorem setMap_channel (s : Sessions ι μ) (map : ChannelMap ι) (i : ι) :
    (s.setMap map).channel i = s.channel i := rfl

theorem set_channel (s : Sessions ι μ) (i j : ι) (h : WebsocketHandler ι μ) :
    (s.set i h).channel j = if j = i then some h.channel else s.channel j := by
  unfold channel set
  by_cases hj : j = i
  · subst hj
    simp
  · simp [hj]

/-- What an event does to a session that is there; `none` where the event cannot happen. -/
def act (s : Sessions ι μ) (i : ι) (h : WebsocketHandler ι μ) :
    SessionEvent ι μ → Option (Sessions ι μ)
  | .run _ _ => none
  | .handshake _ ok =>
    match h.phase with
    | .accepting =>
      if ok then some ((s.set i (h.goto .adding)).setMap (s.map.addChannel h.channel))
      else some (s.set i (h.goto .released))
    | _ => none
  | .insert _ =>
    match h.phase with
    | .adding =>
      some ((s.set i (h.goto .reading)).setMap (s.map.insertSession h.channel i))
    | _ => none
  | .receive _ message =>
    match h.phase, message with
    | .reading, none => some (s.set i (h.goto .released))
    | .reading, some m =>
      if h.channel ∈ s.map then some (s.set i (h.goto (.broadcasting m)))
      else some { s with thrown := some (.broadcast i) }
    | _, _ => none
  | .snapshot _ targets =>
    match h.phase, AList.lookup h.channel s.map with
    | .broadcasting m, some sessions =>
      if targets.Nodup ∧ targets.toFinset = sessions then
        some (s.set i (h.goto (.posting m targets)))
      else none
    | _, _ => none
  | .post _ =>
    match h.phase with
    | .posting _ [] => some (s.set i (h.goto .reading))
    | .posting m (j :: targets) =>
      let s' := s.set i (h.goto (.posting m targets))
      match s'.handlers j with
      | none => some s'
      | some g => if g.lockable then some (s'.set j (g.post (i, m))) else some s'
    | _ => none
  | .onBroadcast _ =>
    match h.strand with
    | [] => none
    | m :: rest =>
      if h.lockable then some (s.set i ({ h with strand := rest }.onBroadcast m)) else none
  | .onWrite _ ok => if h.writing && h.lockable then some (s.set i (h.onWrite ok)) else none
  | .destroy _ =>
    -- the operation that owns the session has completed or is dropped
    match h.phase with
    | .accepting | .reading | .released =>
      if h.channel ∈ s.map then some (s.set i (h.goto .removing))
      else some { s with thrown := some (.remove i) }
    | _ => none
  | .erase _ =>
    match h.phase with
    | .removing =>
      some ((s.set i (h.goto .destroyed)).setMap (s.map.eraseSession h.channel i))
    | _ => none

end Sessions

namespace SessionEvent
variable {ι : Type u} {μ : Type v}

/-- The session an event happens to. -/
def session : SessionEvent ι μ → ι
  | .run i _ | .handshake i _ | .insert i | .receive i _ | .snapshot i _ | .post i
  | .onBroadcast i | .onWrite i _ | .destroy i | .erase i => i

end SessionEvent

namespace Sessions
variable {ι : Type u} {μ : Type v} [DecidableEq ι]

/-- An exception ends the program. -/
def step (s : Sessions ι μ) (e : SessionEvent ι μ) : Option (Sessions ι μ) :=
  if s.thrown.isSome then none
  else
    match s.handlers e.session, e with
    | some h, e => s.act e.session h e
    | none, .run i channel => some (s.set i (.run channel))
    | none, _ => none

/-- Everything a step can do. -/
inductive Took (s : Sessions ι μ) : SessionEvent ι μ → Sessions ι μ → Prop
  | run {i : ι} (channel : Str) (hi : s.handlers i = none) :
      Took s (.run i channel) (s.set i (.run channel))
  | accepted {i : ι} {h : WebsocketHandler ι μ} (hi : s.handlers i = some h)
      (hp : h.phase = .accepting) :
      Took s (.handshake i true)
        ((s.set i (h.goto .adding)).setMap (s.map.addChannel h.channel))
  | refused {i : ι} {h : WebsocketHandler ι μ} (hi : s.handlers i = some h)
      (hp : h.phase = .accepting) : Took s (.handshake i false) (s.set i (h.goto .released))
  | inserted {i : ι} {h : WebsocketHandler ι μ} (hi : s.handlers i = some h)
      (hp : h.phase = .adding) :
      Took s (.insert i)
        ((s.set i (h.goto .reading)).setMap (s.map.insertSession h.channel i))
  | readError {i : ι} {h : WebsocketHandler ι μ} (hi : s.handlers i = some h)
      (hp : h.phase = .reading) : Took s (.receive i none) (s.set i (h.goto .released))
  | received {i : ι} {h : WebsocketHandler ι μ} (hi : s.handlers i = some h)
      (hp : h.phase = .reading) (m : μ) (hc : h.channel ∈ s.map) :
      Took s (.receive i (some m)) (s.set i (h.goto (.broadcasting m)))
  | broadcastThrew {i : ι} {h : WebsocketHandler ι μ} (hi : s.handlers i = some h)
      (hp : h.phase = .reading) (m : μ) (hc : h.channel ∉ s.map) :
      Took s (.receive i (some m)) { s with thrown := some (.broadcast i) }
  | snapshot {i : ι} {h : WebsocketHandler ι μ} (hi : s.handlers i = some h) {m : μ}
      (hp : h.phase = .broadcasting m) {sessions : Finset ι}
      (hc : AList.lookup h.channel s.map = some sessions) {targets : List ι}
      (hnodup : targets.Nodup) (htargets : targets.toFinset = sessions) :
      Took s (.snapshot i targets) (s.set i (h.goto (.posting m targets)))
  | posted {i j : ι} {h g : WebsocketHandler ι μ} (hi : s.handlers i = some h) {m : μ}
      {targets : List ι} (hp : h.phase = .posting m (j :: targets))
      (hj : (s.set i (h.goto (.posting m targets))).handlers j = some g)
      (hlock : g.lockable = true) :
      Took s (.post i) ((s.set i (h.goto (.posting m targets))).set j (g.post (i, m)))
  | skipped {i j : ι} {h : WebsocketHandler ι μ} (hi : s.handlers i = some h) {m : μ}
      {targets : List ι} (hp : h.phase = .posting m (j :: targets))
      (hj : ∀ g, (s.set i (h.goto (.posting m targets))).handlers j = some g →
        g.lockable = false) :
      Took s (.post i) (s.set i (h.goto (.posting m targets)))
  | broadcastDone {i : ι} {h : WebsocketHandler ι μ} (hi : s.handlers i = some h) {m : μ}
      (hp : h.phase = .posting m []) : Took s (.post i) (s.set i (h.goto .reading))
  | onBroadcast {i : ι} {h : WebsocketHandler ι μ} (hi : s.handlers i = some h) {m : ι × μ}
      {rest : List (ι × μ)} (hs : h.strand = m :: rest) (hlock : h.lockable = true) :
      Took s (.onBroadcast i) (s.set i ({ h with strand := rest }.onBroadcast m))
  | onWrite {i : ι} {h : WebsocketHandler ι μ} (hi : s.handlers i = some h) (ok : Bool)
      (hw : h.writing = true) (hlock : h.lockable = true) :
      Took s (.onWrite i ok) (s.set i (h.onWrite ok))
  | removed {i : ι} {h : WebsocketHandler ι μ} (hi : s.handlers i = some h)
      (hp : h.phase = .accepting ∨ h.phase = .reading ∨ h.phase = .released)
      (hc : h.channel ∈ s.map) : Took s (.destroy i) (s.set i (h.goto .removing))
  | removeThrew {i : ι} {h : WebsocketHandler ι μ} (hi : s.handlers i = some h)
      (hp : h.phase = .accepting ∨ h.phase = .reading ∨ h.phase = .released)
      (hc : h.channel ∉ s.map) : Took s (.destroy i) { s with thrown := some (.remove i) }
  | erased {i : ι} {h : WebsocketHandler ι μ} (hi : s.handlers i = some h)
      (hp : h.phase = .removing) :
      Took s (.erase i)
        ((s.set i (h.goto .destroyed)).setMap (s.map.eraseSession h.channel i))

theorem took_of_act {s s' : Sessions ι μ} {e : SessionEvent ι μ} {h : WebsocketHandler ι μ}
    (hi : s.handlers e.session = some h) (hact : s.act e.session h e = some s') : Took s e s' := by
  cases e with
  | run i channel => exact absurd hact (by simp [act])
  | handshake i ok =>
    simp only [act] at hact
    split at hact
    · rename_i hp
      cases ok with
      | true => exact Option.some.inj hact ▸ .accepted hi hp
      | false => exact Option.some.inj hact ▸ .refused hi hp
    · exact absurd hact (by simp)
  | insert i =>
    simp only [act] at hact
    split at hact
    · rename_i hp
      exact Option.some.inj hact ▸ .inserted hi hp
    · exact absurd hact (by simp)
  | receive i message =>
    simp only [act] at hact
    split at hact
    · rename_i hp
      exact Option.some.inj hact ▸ .readError hi hp
    · rename_i m hp
      split at hact
      · rename_i hc
        exact Option.some.inj hact ▸ .received hi hp m hc
      · rename_i hc
        exact Option.some.inj hact ▸ .broadcastThrew hi hp m hc
    · exact absurd hact (by simp)
  | snapshot i targets =>
    simp only [act] at hact
    split at hact
    · rename_i m sessions hp hc
      split at hact
      · rename_i htargets
        exact Option.some.inj hact ▸ .snapshot hi hp hc htargets.1 htargets.2
      · exact absurd hact (by simp)
    · exact absurd hact (by simp)
  | post i =>
    simp only [act] at hact
    split at hact
    · rename_i hp
      exact Option.some.inj hact ▸ .broadcastDone hi hp
    · rename_i m j targets hp
      split at hact
      · rename_i hj
        exact Option.some.inj hact ▸ .skipped hi hp fun g hg => absurd (hj.symm.trans hg) (by simp)
      · rename_i g hj
        split at hact
        · rename_i hlock
          exact Option.some.inj hact ▸ .posted hi hp hj hlock
        · rename_i hlock
          refine Option.some.inj hact ▸ .skipped hi hp fun g' hg => ?_
          rw [Option.some.inj (hg.symm.trans hj)]
          simpa using hlock
    · exact absurd hact (by simp)
  | onBroadcast i =>
    simp only [act] at hact
    split at hact
    · exact absurd hact (by simp)
    · rename_i m rest hs
      split at hact
      · rename_i hlock
        exact Option.some.inj hact ▸ .onBroadcast hi hs hlock
      · exact absurd hact (by simp)
  | onWrite i ok =>
    simp only [act] at hact
    split at hact
    · rename_i hw
      rw [Bool.and_eq_true] at hw
      exact Option.some.inj hact ▸ .onWrite hi ok hw.1 hw.2
    · exact absurd hact (by simp)
  | destroy i =>
    have hdestroy (hp : h.phase = .accepting ∨ h.phase = .reading ∨ h.phase = .released)
        (hact : (if h.channel ∈ s.map then some (s.set i (h.goto .removing))
          else some { s with thrown := some (.remove i) }) = some s') :
        Took s (.destroy i) s' := by
      split at hact
      · rename_i hc
        exact Option.some.inj hact ▸ .removed hi hp hc
      · rename_i hc
        exact Option.some.inj hact ▸ .removeThrew hi hp hc
    simp only [act] at hact
    split at hact
    · rename_i hp
      exact hdestroy (Or.inl hp) hact
    · rename_i hp
      exact hdestroy (Or.inr (Or.inl hp)) hact
    · rename_i hp
      exact hdestroy (Or.inr (Or.inr hp)) hact
    · exact absurd hact (by simp)
  | erase i =>
    simp only [act] at hact
    split at hact
    · rename_i hp
      exact Option.some.inj hact ▸ .erased hi hp
    · exact absurd hact (by simp)

/-- The inversion of a step. -/
theorem took_of_step {s s' : Sessions ι μ} {e : SessionEvent ι μ} (hstep : s.step e = some s') :
    s.thrown = none ∧ Took s e s' := by
  unfold step at hstep
  split at hstep
  · exact absurd hstep (by simp)
  · rename_i hthrown
    refine ⟨by simpa using hthrown, ?_⟩
    split at hstep
    · rename_i e h hi
      exact took_of_act hi hstep
    · rename_i i channel hi
      exact Option.some.inj hstep ▸ .run channel hi
    · exact absurd hstep (by simp)

/-- The state after a run, if every event of it can happen. -/
def after (s : Sessions ι μ) (es : List (SessionEvent ι μ)) : Option (Sessions ι μ) :=
  es.foldlM step s

theorem after_snoc (s : Sessions ι μ) (es : List (SessionEvent ι μ)) (e : SessionEvent ι μ) :
    s.after (es ++ [e]) = (s.after es).bind fun s' => s'.step e :=
  Traces.after_snoc step s es e

/-- The invariant rule for the runs of the sessions. -/
theorem run_invariant {I : List (SessionEvent ι μ) → Sessions ι μ → Prop}
    {s₀ s : Sessions ι μ} (hinit : I [] s₀)
    (hstep : ∀ es s e s', s₀.after es = some s → I es s → Took s e s' → I (es ++ [e]) s')
    {es : List (SessionEvent ι μ)} (h : s₀.after es = some s) : I es s :=
  Traces.after_invariant hinit
    (fun es s e s' hes hI he => hstep es s e s' hes hI (took_of_step he).2) h

end Sessions

end Webserver

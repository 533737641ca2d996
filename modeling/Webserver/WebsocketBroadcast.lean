import Webserver.Library.Traces
import Webserver.WebsocketTeardown

/-!
# Broadcasts of a run

The loop of `Broadcast` gives every weak pointer of its snapshot one turn, and a turn in which
the pointer can be locked is a post to the strand of the session. What a session has written,
queued and been posted is what the turns of the run have posted to it, in order.
-/

set_option autoImplicit false

namespace Webserver

universe u v

/-- The turn of a weak pointer in the loop of `Broadcast`. -/
structure Turn (ι : Type u) (μ : Type v) where
  sender : ι
  receiver : ι
  message : μ
  locked : Bool

namespace WebsocketHandler
variable {ι : Type u} {μ : Type v} {h : WebsocketHandler ι μ}

/-- The messages handed to `async_write`, those behind the one that is being written, and those
on the strand. -/
def mailbox (h : WebsocketHandler ι μ) : List (ι × μ) := h.written ++ h.queue.tail ++ h.strand

/-- Nothing is written from an empty queue. -/
def Flowing (h : WebsocketHandler ι μ) : Prop := h.queue = [] → h.writing = false

@[simp] theorem onBroadcast_phase (h : WebsocketHandler ι μ) (m : ι × μ) :
    (h.onBroadcast m).phase = h.phase := by
  unfold onBroadcast
  dsimp only
  split <;> rfl

@[simp] theorem onWrite_phase (h : WebsocketHandler ι μ) (ok : Bool) :
    (h.onWrite ok).phase = h.phase := by
  unfold onWrite
  dsimp only
  split
  · split <;> rfl
  · rfl

theorem flowing_run (channel : Str) : (run channel : WebsocketHandler ι μ).Flowing := fun _ => rfl

theorem flowing_goto (p : HandlerPhase ι μ) : (h.goto p).Flowing ↔ h.Flowing := Iff.rfl

theorem mailbox_post (m : ι × μ) : (h.post m).mailbox = h.mailbox ++ [m] :=
  (List.append_assoc ..).symm

theorem flowing_post (m : ι × μ) : (h.post m).Flowing ↔ h.Flowing := Iff.rfl

/-- `OnBroadcast` moves the first message of the strand on. -/
theorem onBroadcast_flows {m : ι × μ} {rest : List (ι × μ)} (hs : h.strand = m :: rest) :
    ({ h with strand := rest }.onBroadcast m).mailbox = h.mailbox ∧
      ({ h with strand := rest }.onBroadcast m).Flowing := by
  cases hq : h.queue with
  | nil => simp [onBroadcast, writeFront, mailbox, Flowing, hq, hs]
  | cons front queue => simp [onBroadcast, mailbox, Flowing, hq, hs]

/-- `OnWrite` takes a message that has been written out of the queue. -/
theorem onWrite_flows (hflow : h.Flowing) (hw : h.writing = true) (ok : Bool) :
    (h.onWrite ok).mailbox = h.mailbox ∧ (h.onWrite ok).Flowing := by
  cases ok with
  | false => exact ⟨rfl, fun _ => rfl⟩
  | true =>
    cases hq : h.queue with
    | nil => exact absurd ((hflow hq).symm.trans hw) Bool.false_ne_true
    | cons front queue =>
      cases queue with
      | nil => simp [onWrite, mailbox, Flowing, hq]
      | cons next queue => simp [onWrite, writeFront, mailbox, Flowing, hq]

end WebsocketHandler

namespace Sessions
variable {ι : Type u} {μ : Type v} [DecidableEq ι] {s s' : Sessions ι μ} {e : SessionEvent ι μ}

def phase (s : Sessions ι μ) (i : ι) : Option (HandlerPhase ι μ) := (s.handlers i).map (·.phase)

/-- How an event of a session moves it from phase to phase. -/
inductive Moves (i : ι) : SessionEvent ι μ → Option (HandlerPhase ι μ) → HandlerPhase ι μ → Prop
  | run (channel : Str) : Moves i (.run i channel) none .accepting
  | accepted : Moves i (.handshake i true) (some .accepting) .adding
  | refused : Moves i (.handshake i false) (some .accepting) .released
  | inserted : Moves i (.insert i) (some .adding) .reading
  | readError : Moves i (.receive i none) (some .reading) .released
  | received (m : μ) : Moves i (.receive i (some m)) (some .reading) (.broadcasting m)
  | snapshot (m : μ) (targets : List ι) :
      Moves i (.snapshot i targets) (some (.broadcasting m)) (.posting m targets)
  | turn (m : μ) (j : ι) (targets : List ι) :
      Moves i (.post i) (some (.posting m (j :: targets))) (.posting m targets)
  | broadcastDone (m : μ) : Moves i (.post i) (some (.posting m [])) .reading
  | removed {p : HandlerPhase ι μ} (hp : p = .accepting ∨ p = .reading ∨ p = .released) :
      Moves i (.destroy i) (some p) .removing
  | erased : Moves i (.erase i) (some .removing) .destroyed

/-- The event leaves the session in its phase. -/
def Stays (i : ι) (e : SessionEvent ι μ) : Prop :=
  e.session ≠ i ∨ e = .onBroadcast i ∨ (∃ ok, e = .onWrite i ok) ∨ (∃ m, e = .receive i (some m)) ∨
    e = .destroy i

/-- `weak_ptr::lock` of a pointer to the session succeeds. -/
def lockable (s : Sessions ι μ) (i : ι) : Bool :=
  match s.handlers i with
  | none => false
  | some h => h.lockable

def turn (s : Sessions ι μ) : SessionEvent ι μ → Option (Turn ι μ)
  | .post i =>
    match s.phase i with
    | some (.posting m (j :: _)) => some ⟨i, j, m, s.lockable j⟩
    | _ => none
  | _ => none

def turns (s : Sessions ι μ) (es : List (SessionEvent ι μ)) : List (Turn ι μ) :=
  Traces.log step turn s es

/-- What is posted to a session in the turns. -/
def postsTo (r : ι) (ts : List (Turn ι μ)) : List (ι × μ) :=
  (ts.filter fun t => t.receiver = r ∧ t.locked = true).map fun t => (t.sender, t.message)

def fromSender (i : ι) (messages : List (ι × μ)) : List (ι × μ) := messages.filter fun m => m.1 = i

theorem postsTo_append (r : ι) (ts us : List (Turn ι μ)) :
    postsTo r (ts ++ us) = postsTo r ts ++ postsTo r us := by
  rw [postsTo, List.filter_append, List.map_append]
  rfl

theorem fromSender_postsTo (i r : ι) (ts : List (Turn ι μ)) :
    fromSender i (postsTo r ts) =
      (((ts.filter fun t => t.sender = i).filter fun t => t.receiver = r).filter (·.locked)).map
        fun t => (t.sender, t.message) := by
  rw [fromSender, postsTo, List.filter_map, List.filter_filter, List.filter_filter,
    List.filter_filter]
  congr 1
  apply List.filter_congr
  intro t _
  by_cases hsender : t.sender = i <;> by_cases hreceiver : t.receiver = r <;>
    cases hlocked : t.locked <;> simp [hsender, hreceiver]

def mailbox (s : Sessions ι μ) (r : ι) : List (ι × μ) :=
  match s.handlers r with
  | none => []
  | some h => h.mailbox

def Flowing (s : Sessions ι μ) (r : ι) : Prop := ∀ h, s.handlers r = some h → h.Flowing

theorem handlers_set (s : Sessions ι μ) (i r : ι) (h : WebsocketHandler ι μ) :
    (s.set i h).handlers r = if r = i then some h else s.handlers r := by
  by_cases hr : r = i
  · subst hr
    simp [set]
  · simp [set, hr]

theorem phase_set (s : Sessions ι μ) (i r : ι) (h : WebsocketHandler ι μ) :
    (s.set i h).phase r = if r = i then some h.phase else s.phase r := by
  rw [phase, handlers_set]
  split <;> rfl

omit [DecidableEq ι] in
theorem phase_eq {i : ι} {h : WebsocketHandler ι μ} (hi : s.handlers i = some h) :
    s.phase i = some h.phase := by
  rw [phase, hi]
  rfl

omit [DecidableEq ι] in
@[simp] theorem setMap_phase (s : Sessions ι μ) (map : ChannelMap ι) (i : ι) :
    (s.setMap map).phase i = s.phase i := rfl

/-- All that a step does to the phase of a session. -/
theorem Took.phase_cases (h : Took s e s') (i : ι) :
    (∃ p, s'.phase i = some p ∧ Moves i e (s.phase i) p) ∨ (s'.phase i = s.phase i ∧ Stays i e) := by
  -- a session other than the one of the event keeps its handler
  have hmoved {k : ι} {g : WebsocketHandler ι μ} (hk : e.session = k)
      (hmoves : Moves k e (s.phase k) g.phase) :
      (∃ p, (s.set k g).phase i = some p ∧ Moves i e (s.phase i) p) ∨
        ((s.set k g).phase i = s.phase i ∧ Stays i e) := by
    rw [phase_set]
    by_cases hi : i = k
    · subst hi
      exact Or.inl ⟨g.phase, if_pos rfl, hmoves⟩
    · exact Or.inr ⟨if_neg hi, Or.inl fun h => hi (h.symm.trans hk)⟩
  have hstays {k : ι} {g g' : WebsocketHandler ι μ} (hk : s.handlers k = some g)
      (hphase : g'.phase = g.phase) (he : Stays k e) (hsession : e.session = k) :
      (s.set k g').phase i = s.phase i ∧ Stays i e := by
    rw [phase_set]
    by_cases hi : i = k
    · subst hi
      exact ⟨by rw [if_pos rfl, hphase, phase_eq hk], he⟩
    · exact ⟨if_neg hi, Or.inl fun h => hi (h.symm.trans hsession)⟩
  cases h with
  | run channel hi =>
    refine hmoved rfl ?_
    rw [phase, hi]
    exact .run channel
  | accepted hi hp => exact hmoved rfl (phase_eq hi ▸ hp ▸ .accepted)
  | refused hi hp => exact hmoved rfl (phase_eq hi ▸ hp ▸ .refused)
  | inserted hi hp => exact hmoved rfl (phase_eq hi ▸ hp ▸ .inserted)
  | readError hi hp => exact hmoved rfl (phase_eq hi ▸ hp ▸ .readError)
  | received hi hp m hc => exact hmoved rfl (phase_eq hi ▸ hp ▸ .received m)
  | broadcastThrew hi hp m hc =>
    rename_i k _
    refine Or.inr ⟨rfl, ?_⟩
    by_cases hk : k = i
    · exact Or.inr (Or.inr (Or.inr (Or.inl ⟨m, hk ▸ rfl⟩)))
    · exact Or.inl hk
  | snapshot hi hp hc hnodup htargets => exact hmoved rfl (phase_eq hi ▸ hp ▸ .snapshot _ _)
  | @posted k j h g hi m targets hp hj hlock =>
    have hpost : ((s.set k (h.goto (.posting m targets))).set j (g.post (k, m))).phase i =
        (s.set k (h.goto (.posting m targets))).phase i := by
      rw [phase_set]
      split
      · rename_i hij
        rw [hij, phase_eq hj]
        rfl
      · rfl
    rw [hpost]
    exact hmoved rfl (phase_eq hi ▸ hp ▸ .turn m j targets)
  | skipped hi hp hj => exact hmoved rfl (phase_eq hi ▸ hp ▸ .turn _ _ _)
  | broadcastDone hi hp => exact hmoved rfl (phase_eq hi ▸ hp ▸ .broadcastDone _)
  | onBroadcast hi hs hlock =>
    exact Or.inr (hstays hi (by simp) (Or.inr (Or.inl rfl)) rfl)
  | onWrite hi ok hw hlock =>
    exact Or.inr (hstays hi (by simp) (Or.inr (Or.inr (Or.inl ⟨ok, rfl⟩))) rfl)
  | removed hi hp hc => exact hmoved rfl (phase_eq hi ▸ .removed hp)
  | removeThrew hi hp hc =>
    rename_i k _
    refine Or.inr ⟨rfl, ?_⟩
    by_cases hk : k = i
    · exact Or.inr (Or.inr (Or.inr (Or.inr (hk ▸ rfl))))
    · exact Or.inl hk
  | erased hi hp => exact hmoved rfl (phase_eq hi ▸ hp ▸ .erased)

omit [DecidableEq ι] in
theorem lockable_eq {i : ι} {h : WebsocketHandler ι μ} (hi : s.handlers i = some h) :
    s.lockable i = h.lockable := by
  rw [lockable, hi]

/-- A handler is replaced by one with the same messages, or with one message more. -/
theorem set_flows {i r : ι} {h g : WebsocketHandler ι μ} {more : List (ι × μ)}
    (hi : s.handlers i = some h) (hflow : s.Flowing r)
    (hg : r = i → h.Flowing → g.mailbox = h.mailbox ++ more ∧ g.Flowing)
    (hother : r ≠ i → more = []) :
    (s.set i g).mailbox r = s.mailbox r ++ more ∧ (s.set i g).Flowing r := by
  by_cases hr : r = i
  · subst hr
    obtain ⟨hmailbox, hflow'⟩ := hg rfl (hflow h hi)
    constructor
    · rw [mailbox, handlers_set, if_pos rfl, mailbox, hi]
      exact hmailbox
    · intro h' hh'
      rw [handlers_set, if_pos rfl] at hh'
      exact Option.some.inj hh' ▸ hflow'
  · constructor
    · rw [mailbox, handlers_set, if_neg hr, hother hr, List.append_nil]
      rfl
    · intro h' hh'
      rw [handlers_set, if_neg hr] at hh'
      exact hflow h' hh'

theorem goto_flows {i r : ι} {h : WebsocketHandler ι μ} (hi : s.handlers i = some h)
    (hflow : s.Flowing r) (p : HandlerPhase ι μ) :
    (s.set i (h.goto p)).mailbox r = s.mailbox r ∧ (s.set i (h.goto p)).Flowing r := by
  have hsame : (h.goto p).mailbox = h.mailbox ++ [] := (List.append_nil _).symm
  have hset := set_flows hi hflow (fun _ hh => ⟨hsame, (WebsocketHandler.flowing_goto p).mpr hh⟩)
    fun _ => rfl
  rw [List.append_nil] at hset
  exact hset

/-- The sender can be locked while it posts. -/
theorem turn_posting {i j : ι} {h : WebsocketHandler ι μ} {m : μ} {targets : List ι}
    (hi : s.handlers i = some h) (hp : h.phase = .posting m (j :: targets)) :
    s.turn (.post i) =
      some ⟨i, j, m, (s.set i (h.goto (.posting m targets))).lockable j⟩ := by
  have hsame : (s.set i (h.goto (.posting m targets))).lockable j = s.lockable j := by
    rw [lockable, handlers_set]
    by_cases hj : j = i
    · subst hj
      rw [if_pos rfl, lockable_eq hi, WebsocketHandler.lockable, hp]
      rfl
    · rw [if_neg hj]
      rfl
  rw [turn, phase_eq hi, hp, hsame]

theorem Took.turn_cases (h : Took s e s') :
    s.turn e = none ∨ ∃ i m j targets, e = .post i ∧ s.phase i = some (.posting m (j :: targets)) ∧
      s.turn e = some ⟨i, j, m, s.lockable j⟩ := by
  cases h with
  | posted hi hp hj hlock =>
    refine Or.inr ⟨_, _, _, _, rfl, (phase_eq hi).trans (congrArg some hp), ?_⟩
    rw [turn, phase_eq hi, hp]
  | skipped hi hp hj =>
    refine Or.inr ⟨_, _, _, _, rfl, (phase_eq hi).trans (congrArg some hp), ?_⟩
    rw [turn, phase_eq hi, hp]
  | broadcastDone hi hp =>
    left
    rw [turn, phase_eq hi, hp]
  | _ => exact Or.inl rfl

/-- A step moves messages on, and a turn adds one. -/
theorem Took.flows {r : ι} (h : Took s e s') (hflow : s.Flowing r) :
    s'.mailbox r = s.mailbox r ++ postsTo r (s.turn e).toList ∧ s'.Flowing r := by
  have hkept {i : ι} {g : WebsocketHandler ι μ} (hi : s.handlers i = some g)
      (p : HandlerPhase ι μ) (hturn : s.turn e = none) :
      (s.set i (g.goto p)).mailbox r = s.mailbox r ++ postsTo r (s.turn e).toList ∧
        (s.set i (g.goto p)).Flowing r := by
    rw [hturn]
    exact (List.append_nil _).symm ▸ goto_flows hi hflow p
  have hmoved {i : ι} {g g' : WebsocketHandler ι μ} (hi : s.handlers i = some g)
      (hg : r = i → g.Flowing → g'.mailbox = g.mailbox ∧ g'.Flowing) (hturn : s.turn e = none) :
      (s.set i g').mailbox r = s.mailbox r ++ postsTo r (s.turn e).toList ∧
        (s.set i g').Flowing r := by
    rw [hturn]
    exact set_flows hi hflow
      (fun hr hh => ⟨(hg hr hh).1.trans (List.append_nil _).symm, (hg hr hh).2⟩) fun _ => rfl
  cases h with
  | @run i channel hi =>
    by_cases hr : r = i
    · subst hr
      constructor
      · rw [mailbox, handlers_set, if_pos rfl, mailbox, hi]
        rfl
      · intro h hh
        rw [handlers_set, if_pos rfl] at hh
        exact Option.some.inj hh ▸ WebsocketHandler.flowing_run channel
    · constructor
      · rw [mailbox, handlers_set, if_neg hr]
        exact (List.append_nil _).symm
      · intro h hh
        rw [handlers_set, if_neg hr] at hh
        exact hflow h hh
  | accepted hi hp => exact hkept hi _ rfl
  | refused hi hp => exact hkept hi _ rfl
  | inserted hi hp => exact hkept hi _ rfl
  | readError hi hp => exact hkept hi _ rfl
  | received hi hp m hc => exact hkept hi _ rfl
  | broadcastThrew hi hp m hc => exact ⟨(List.append_nil _).symm, hflow⟩
  | snapshot hi hp hc hnodup htargets => exact hkept hi _ rfl
  | @posted i j h g hi m targets hp hj hlock =>
    obtain ⟨hmailbox, hflow'⟩ := goto_flows hi hflow (.posting m targets)
    rw [← hmailbox, turn_posting hi hp, lockable_eq hj, hlock]
    refine set_flows hj hflow' (fun hr hh => ⟨?_, (WebsocketHandler.flowing_post _).mpr hh⟩)
      fun hr => ?_
    · simp [postsTo, hr, WebsocketHandler.mailbox_post]
    · simp [postsTo, Ne.symm hr]
  | @skipped i j h hi m targets hp hj =>
    have hlocked : (s.set i (h.goto (.posting m targets))).lockable j = false := by
      rw [lockable]
      split
      · rfl
      · rename_i g hg
        exact hj g hg
    have hnone : postsTo r [(⟨i, j, m, false⟩ : Turn ι μ)] = [] := by simp [postsTo]
    rw [turn_posting hi hp, hlocked, Option.toList_some, hnone, List.append_nil]
    exact goto_flows hi hflow _
  | broadcastDone hi hp =>
    refine hkept hi _ ?_
    rw [turn, phase_eq hi, hp]
  | onBroadcast hi hs hlock =>
    exact hmoved hi (fun _ _ => WebsocketHandler.onBroadcast_flows hs) rfl
  | onWrite hi ok hw hlock =>
    exact hmoved hi (fun _ hh => WebsocketHandler.onWrite_flows hh hw ok) rfl
  | removed hi hp hc => exact hkept hi _ rfl
  | removeThrew hi hp hc => exact ⟨(List.append_nil _).symm, hflow⟩
  | erased hi hp => exact hkept hi _ rfl

theorem turns_snoc {es : List (SessionEvent ι μ)} (h : s.after es = some s') (e : SessionEvent ι μ) :
    s.turns (es ++ [e]) = s.turns es ++ (s'.turn e).toList :=
  Traces.log_snoc h e

/-- Everything that has been posted to a session is in its mailbox. -/
theorem mailbox_of_run {es : List (SessionEvent ι μ)} (h : initial.after es = some s) (r : ι) :
    s.mailbox r = postsTo r (initial.turns es) := by
  refine (run_invariant (I := fun es s => s.mailbox r = postsTo r (initial.turns es) ∧ s.Flowing r)
    ⟨rfl, fun h hh => absurd hh (by simp [initial])⟩ ?_ h).1
  intro es s e s' hes hI htook
  obtain ⟨hmailbox, hflow⟩ := htook.flows hI.2
  rw [turns_snoc hes, postsTo_append, ← hI.1]
  exact ⟨hmailbox, hflow⟩

/-- What a part of a run adds to the mailbox of a session. -/
theorem mailbox_append {es fs : List (SessionEvent ι μ)} (h : initial.after es = some s)
    (h' : s.after fs = some s') (r : ι) :
    s'.mailbox r = s.mailbox r ++ postsTo r (s.turns fs) := by
  have hrun : initial.after (es ++ fs) = some s' := by
    refine (Traces.after_append step initial es fs).trans ?_
    rw [show Traces.after step initial es = some s from h]
    exact h'
  have hturns : initial.turns (es ++ fs) = initial.turns es ++ s.turns fs :=
    Traces.log_append h fs
  rw [mailbox_of_run hrun, hturns, postsTo_append, mailbox_of_run h]

end Sessions

end Webserver

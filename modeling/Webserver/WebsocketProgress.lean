import Mathlib.Algebra.BigOperators.Group.Finset.Piecewise
import Webserver.Library.Draining
import Webserver.WebsocketDelivery

/-!
# Websocket sessions come to rest

What is pending in the sessions is worked off, in whatever order: the second parts of `Add` and
`Remove`, the loops of `Broadcast`, the calls on the strands and the writes, as long as they do
not fail. When nothing of this can happen any more, nothing is pending.
-/

set_option autoImplicit false

namespace Webserver

open Draining

universe u v

section Work
variable {ι : Type u} {μ : Type v}

/-- The events that answer to something pending. -/
def SessionEvent.Progress : SessionEvent ι μ → Prop
  | .insert _ | .snapshot _ _ | .post _ | .onBroadcast _ | .onWrite _ true | .erase _ => True
  | _ => False

/-- How much there is to do in a phase, among `n` sessions. -/
def HandlerPhase.work (n : ℕ) : HandlerPhase ι μ → ℕ
  | .adding | .removing => 1
  | .broadcasting _ => 3 * n + 2
  | .posting _ targets => 3 * targets.length + 1
  | _ => 0

namespace WebsocketHandler
variable {n : ℕ} {h : WebsocketHandler ι μ} {m : ι × μ}

def work (n : ℕ) (h : WebsocketHandler ι μ) : ℕ :=
  h.phase.work n + 2 * h.strand.length + h.queue.length

theorem work_goto {p : HandlerPhase ι μ} (hlt : p.work n < h.phase.work n) :
    (h.goto p).work n < h.work n :=
  Nat.add_lt_add_right (Nat.add_lt_add_right hlt _) _

theorem work_goto_posting {message : μ} {j : ι} {targets : List ι}
    (hp : h.phase = .posting message (j :: targets)) :
    (h.goto (.posting message targets)).work n + 3 = h.work n := by
  rw [work, work, hp]
  dsimp only [goto, HandlerPhase.work, List.length_cons]
  omega

theorem work_post : (h.post m).work n = h.work n + 2 := by
  rw [work, work, post, List.length_append, List.length_singleton]
  dsimp only
  omega

theorem work_onBroadcast {rest : List (ι × μ)} (hs : h.strand = m :: rest) :
    ({ h with strand := rest }.onBroadcast m).work n < h.work n := by
  have hqueue : ({ h with strand := rest }.onBroadcast m).queue = h.queue ++ [m] := by
    unfold onBroadcast
    dsimp only
    split <;> rfl
  have hstrand : ({ h with strand := rest }.onBroadcast m).strand = rest := by
    unfold onBroadcast
    dsimp only
    split <;> rfl
  rw [work, work, onBroadcast_phase, hqueue, hstrand, hs]
  simp only [List.length_append, List.length_cons, List.length_nil]
  omega

theorem work_onWrite (hqueue : h.queue ≠ []) : (h.onWrite true).work n < h.work n := by
  have hrest : (h.onWrite true).queue = h.queue.tail ∧ (h.onWrite true).strand = h.strand := by
    unfold onWrite
    dsimp only
    rw [if_pos rfl]
    split <;> exact ⟨rfl, rfl⟩
  have hpos := List.length_pos_of_ne_nil hqueue
  rw [work, work, onWrite_phase, hrest.1, hrest.2, List.length_tail]
  omega

end WebsocketHandler

namespace Sessions
variable [DecidableEq ι] {s s' : Sessions ι μ} {e : SessionEvent ι μ} {A : Finset ι}

def workOf (n : ℕ) : Option (WebsocketHandler ι μ) → ℕ
  | none => 0
  | some h => h.work n

/-- What is to be done by the sessions of `A`. -/
def work (A : Finset ι) (s : Sessions ι μ) : ℕ := ∑ i ∈ A, workOf A.card (s.handlers i)

theorem work_set {i : ι} (hi : i ∈ A) (s : Sessions ι μ) (g : WebsocketHandler ι μ) :
    (s.set i g).work A + workOf A.card (s.handlers i) = s.work A + g.work A.card := by
  have hupdate (j : ι) : workOf A.card ((s.set i g).handlers j) =
      Function.update (fun j => workOf A.card (s.handlers j)) i (g.work A.card) j := by
    rw [handlers_set, Function.update_apply]
    split <;> rfl
  have hsplit := Finset.add_sum_erase A (fun j => workOf A.card (s.handlers j)) hi
  rw [work, Finset.sum_congr rfl fun j _ => hupdate j, Finset.sum_update_of_mem hi,
    Finset.sdiff_singleton_eq_erase, work]
  omega

/-- Every session is one of `A`. -/
def Among (A : Finset ι) (s : Sessions ι μ) : Prop := ∀ i, s.handlers i ≠ none → i ∈ A

theorem among_set {i : ι} {g h : WebsocketHandler ι μ} (hA : s.Among A)
    (hi : s.handlers i = some h) : (s.set i g).Among A := by
  intro j hj
  rw [handlers_set] at hj
  by_cases hji : j = i
  · rw [hji]
    exact hA i (by rw [hi]; simp)
  · rw [if_neg hji] at hj
    exact hA j hj

/-- One session works on. -/
theorem work_lt {i : ι} {g h : WebsocketHandler ι μ} (hA : s.Among A)
    (hi : s.handlers i = some h) (hlt : g.work A.card < h.work A.card) :
    (s.set i g).work A < s.work A := by
  have hset := work_set (hA i (by rw [hi]; simp)) s g
  rw [hi] at hset
  dsimp only [workOf] at hset
  omega

/-- A state that a run leads to, without an exception. -/
structure Working (A : Finset ι) (s : Sessions ι μ) : Prop where
  among : s.Among A
  unthrown : s.thrown = none
  reached : ∃ es, initial.after es = some s

theorem flowing_of_run {es : List (SessionEvent ι μ)} (h : initial.after es = some s) (r : ι) :
    s.Flowing r := by
  refine run_invariant (I := fun _ s => s.Flowing r) ?_ (fun _ _ _ _ _ hI htook => (htook.flows hI).2) h
  intro g hg
  exact absurd hg (by simp [initial])

/-- A snapshot holds no more sessions than there are. -/
theorem Working.snapshot_length {h : WebsocketHandler ι μ} (hs : Working A s) {sessions : Finset ι}
    (hc : AList.lookup h.channel s.map = some sessions) {targets : List ι}
    (hnodup : targets.Nodup) (htargets : targets.toFinset = sessions) :
    targets.length ≤ A.card := by
  obtain ⟨es, hes⟩ := hs.reached
  rw [← List.toFinset_card_of_nodup hnodup]
  apply Finset.card_le_card
  intro j hj
  have hmember : s.map.Member h.channel j := ⟨sessions, hc, htargets ▸ hj⟩
  have hchannel := ((enrolled_of_run hes).members h.channel j).mp hmember |>.1
  apply hs.among j
  intro hnone
  rw [channel, hnone] at hchannel
  exact absurd hchannel (by simp)

theorem Took.work_lt (h : Took s e s') (he : e.Progress) (hs : Working A s) :
    s'.Among A ∧ s'.thrown = none ∧ s'.work A < s.work A := by
  obtain ⟨es, hes⟩ := hs.reached
  have hone {i : ι} {g h : WebsocketHandler ι μ} (hi : s.handlers i = some h)
      (hlt : g.work A.card < h.work A.card) :
      (s.set i g).Among A ∧ (s.set i g).thrown = none ∧ (s.set i g).work A < s.work A :=
    ⟨among_set hs.among hi, hs.unthrown, Sessions.work_lt hs.among hi hlt⟩
  have hgoto {i : ι} {h : WebsocketHandler ι μ} (hi : s.handlers i = some h)
      {p : HandlerPhase ι μ} (hlt : p.work A.card < h.phase.work A.card) :
      (s.set i (h.goto p)).Among A ∧ (s.set i (h.goto p)).thrown = none ∧
        (s.set i (h.goto p)).work A < s.work A :=
    hone hi (WebsocketHandler.work_goto hlt)
  cases h with
  | run | accepted | refused | readError | received | broadcastThrew | removed | removeThrew =>
    exact False.elim he
  | inserted hi hp => exact hgoto hi (by rw [hp]; exact Nat.one_pos)
  | erased hi hp => exact hgoto hi (by rw [hp]; exact Nat.one_pos)
  | snapshot hi hp hc hnodup htargets =>
    have hlen := hs.snapshot_length hc hnodup htargets
    refine hgoto hi ?_
    rw [hp]
    dsimp only [HandlerPhase.work]
    omega
  | @posted i j h g hi m targets hp hj hlock =>
    -- the turn costs the sender three and gives the receiver two
    have hfirst := work_set (hs.among i (by rw [hi]; simp)) s (h.goto (.posting m targets))
    have hamong : (s.set i (h.goto (.posting m targets))).Among A := among_set hs.among hi
    have hsecond := work_set (hamong j (by rw [hj]; simp)) (s.set i (h.goto (.posting m targets)))
      (g.post (i, m))
    have hsender := WebsocketHandler.work_goto_posting (n := A.card) hp
    have hreceiver := WebsocketHandler.work_post (n := A.card) (h := g) (m := (i, m))
    rw [hi, workOf] at hfirst
    rw [hj, workOf] at hsecond
    refine ⟨among_set hamong hj, hs.unthrown, ?_⟩
    omega
  | skipped hi hp hj =>
    refine hgoto hi ?_
    rw [hp]
    dsimp only [HandlerPhase.work, List.length_cons]
    omega
  | broadcastDone hi hp => exact hgoto hi (by rw [hp]; exact Nat.one_pos)
  | onBroadcast hi hstrand hlock => exact hone hi (WebsocketHandler.work_onBroadcast hstrand)
  | @onWrite i h hi ok hw hlock =>
    cases ok with
    | false => exact False.elim he
    | true =>
      have hflow : s.Flowing i := flowing_of_run hes i
      refine hone hi (WebsocketHandler.work_onWrite fun hq => ?_)
      rw [hflow h hi hq] at hw
      exact absurd hw (by simp)

theorem drains (A : Finset ι) :
    Drains (step : Sessions ι μ → _) SessionEvent.Progress (Working A) (work A) where
  kept s e s' he hs hstep := by
    obtain ⟨hamong, hthrown, _⟩ := (took_of_step hstep).2.work_lt he hs
    obtain ⟨es, hes⟩ := hs.reached
    refine ⟨hamong, hthrown, es ++ [e], ?_⟩
    rw [after_snoc, hes]
    exact hstep
  lower s e s' he hs hstep := ((took_of_step hstep).2.work_lt he hs).2.2

/-! ### States at rest -/

/-- Nothing is pending: a session waits for its client, or for its destructor, or is gone. -/
def HandlerPhase.Waits : HandlerPhase ι μ → Prop
  | .accepting | .reading | .released | .destroyed => True
  | _ => False

structure Settled (s : Sessions ι μ) : Prop where
  waits : ∀ i h, s.handlers i = some h → HandlerPhase.Waits h.phase
  idle : ∀ i h, s.handlers i = some h → h.lockable = true → h.strand = [] ∧ h.writing = false

theorem step_of_handler {h : WebsocketHandler ι μ} (hthrown : s.thrown = none)
    (hi : s.handlers e.session = some h) : s.step e = s.act e.session h e := by
  simp [step, hthrown, hi]

/-- While a session broadcasts its channel is in the map. -/
theorem mem_map_of_broadcasting {es : List (SessionEvent ι μ)} (hrun : initial.after es = some s)
    {i : ι} {h : WebsocketHandler ι μ} {m : μ} (hi : s.handlers i = some h)
    (hp : h.phase = .broadcasting m) : h.channel ∈ s.map := by
  refine run_invariant (I := fun _ s => ∀ c, s.phase i = some (.broadcasting m) →
    s.channel i = some c → c ∈ s.map) ?_ ?_ hrun h.channel ((phase_eq hi).trans (congrArg some hp))
    (channel_eq hi)
  · intro c hphase
    exact absurd hphase (by simp [phase, initial])
  · intro es s e s' hes hI htook c hphase hchannel
    rw [htook.mem_map_iff]
    left
    rcases htook.phase_cases i with ⟨p, hp', hmoves⟩ | ⟨hsame, _⟩
    · rw [hphase] at hp'
      obtain rfl := Option.some.inj hp'
      generalize s.phase i = q at hmoves
      cases hmoves with
      | received =>
        cases htook with
        | received hi' _ _ hc =>
          rw [goto_channel_same hi', channel_eq hi'] at hchannel
          exact Option.some.inj hchannel ▸ hc
        | broadcastThrew hi' hreading =>
          exact absurd ((phase_eq hi').symm.trans hphase) (by simp [hreading])
    · rw [hsame] at hphase
      rcases (htook.channel_iff i c).mp hchannel with hchannel | rfl
      · exact hI c hphase hchannel
      · have hnone := htook.run_fresh
        cases hhandler : s.handlers i with
        | none => exact absurd hphase (by simp [phase, hhandler])
        | some h => exact absurd hnone (by simp [channel, hhandler])

theorem settled_of_quiet {es : List (SessionEvent ι μ)} (hrun : initial.after es = some s)
    (hthrown : s.thrown = none) (hquiet : Quiet step SessionEvent.Progress s) : Settled s := by
  have hno {e : SessionEvent ι μ} (he : e.Progress) {h : WebsocketHandler ι μ}
      (hi : s.handlers e.session = some h) : s.act e.session h e = none :=
    (step_of_handler hthrown hi).symm.trans (hquiet e he)
  constructor
  · intro i h hi
    cases hp : h.phase with
    | accepting | reading | released | destroyed => exact trivial
    | adding =>
      have hnone := hno (e := .insert i) trivial hi
      simp only [act, hp] at hnone
      exact absurd hnone (by simp)
    | broadcasting m =>
      obtain ⟨sessions, hsessions⟩ := Option.isSome_iff_exists.mp
        (AList.lookup_isSome.mpr (mem_map_of_broadcasting hrun hi hp))
      have hnone := hno (e := .snapshot i sessions.toList) trivial hi
      simp only [act, hp, hsessions, Finset.nodup_toList, Finset.toList_toFinset, and_self,
        if_true] at hnone
      exact absurd hnone (by simp)
    | posting m targets =>
      have hnone := hno (e := .post i) trivial hi
      cases targets with
      | nil =>
        simp only [act, hp] at hnone
        exact absurd hnone (by simp)
      | cons j targets =>
        simp only [act, hp] at hnone
        split at hnone
        · exact absurd hnone (by simp)
        · split at hnone <;> exact absurd hnone (by simp)
    | removing =>
      have hnone := hno (e := .erase i) trivial hi
      simp only [act, hp] at hnone
      exact absurd hnone (by simp)
  · intro i h hi hlock
    constructor
    · cases hstrand : h.strand with
      | nil => rfl
      | cons m rest =>
        have hnone := hno (e := .onBroadcast i) trivial hi
        simp only [act, hstrand, hlock, if_true] at hnone
        exact absurd hnone (by simp)
    · by_contra hwriting
      have hnone := hno (e := .onWrite i true) trivial hi
      simp only [act, Bool.not_eq_false _ ▸ hwriting, hlock, Bool.and_self, if_true] at hnone
      exact absurd hnone (by simp)

end Sessions

end Work

end Webserver

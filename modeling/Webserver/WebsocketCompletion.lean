import Webserver.WebsocketProgress

/-!
# What a session is owed

A message that is received while a session is in the channel is addressed to the session by the
snapshot that follows. When the sessions have come to rest it has been written, unless the
session is torn down or one of its writes has failed.
-/

set_option autoImplicit false

namespace Webserver

open Draining

universe u v

namespace Sessions
variable {ι : Type u} {μ : Type v} [DecidableEq ι] {s s' : Sessions ι μ} {e : SessionEvent ι μ}

/-- `r` is in the channel of `i`. -/
def hears (s : Sessions ι μ) (r i : ι) : Bool :=
  (s.channel i).any fun c => (AList.lookup c s.map).any fun sessions => r ∈ sessions

/-- The message of a client while `r` is in the channel. -/
def owing (r : ι) (s : Sessions ι μ) : SessionEvent ι μ → Option (ι × μ)
  | .receive i (some m) => if s.hears r i then some (i, m) else none
  | _ => none

def owed (r : ι) (s : Sessions ι μ) (es : List (SessionEvent ι μ)) : List (ι × μ) :=
  Traces.log step (owing r) s es

/-- What is received and not taken a snapshot for, if `r` will be in the snapshot. -/
def due (r i : ι) (s : Sessions ι μ) : List (ι × μ) :=
  if s.hears r i then unread i (s.phase i) else []

theorem hears_iff {r i : ι} :
    s.hears r i = true ↔ ∃ c, s.channel i = some c ∧ s.map.Member c r := by
  simp only [hears, Option.any_eq_true, ChannelMap.Member, decide_eq_true_eq]

theorem owed_snoc {es : List (SessionEvent ι μ)} (h : s.after es = some s') (r : ι)
    (e : SessionEvent ι μ) : owed r s (es ++ [e]) = owed r s es ++ (owing r s' e).toList :=
  Traces.log_snoc h e

/-- A session goes on hearing another until it is erased. -/
theorem Took.hears (h : Took s e s') {r i : ι} (he : e ≠ .erase r) (hears : s.hears r i = true) :
    s'.hears r i = true := by
  obtain ⟨c, hchannel, hmember⟩ := hears_iff.mp hears
  refine hears_iff.mpr ⟨c, (h.channel_iff i c).mpr (Or.inl hchannel), ?_⟩
  exact (h.member_iff c r).mpr (Or.inl ⟨hmember, fun hr => he hr.1⟩)

theorem fromSender_owing_other {r i : ι} (he : e.session ≠ i) :
    fromSender i (owing r s e).toList = [] := by
  cases e with
  | receive k message =>
    cases message with
    | none => rfl
    | some m =>
      rw [owing]
      split
      · simp only [Option.toList_some, fromSender, List.filter_cons, List.filter_nil]
        rw [if_neg (by simpa [SessionEvent.session] using he)]
      · rfl
  | _ => rfl

/-- A snapshot contains every session that hears its sender. -/
theorem Took.mem_targets {r i : ι} {targets : List ι} (h : Took s (.snapshot i targets) s')
    (hears : s.hears r i = true) : r ∈ targets := by
  obtain ⟨c, hchannel, sessions, hlookup, hr⟩ := hears_iff.mp hears
  cases h with
  | snapshot hi _ hc _ htargets =>
    rw [channel_eq hi] at hchannel
    obtain rfl := Option.some.inj hchannel
    obtain rfl := Option.some.inj (hc.symm.trans hlookup)
    exact List.mem_toFinset.mp (htargets ▸ hr)

/-- Where `Broadcast` throws at its lookup nobody hears the sender. -/
theorem Took.not_hears {r i : ι} {m : μ} (h : Took s (.receive i (some m)) s')
    (hsame : s'.phase i = s.phase i) : s.hears r i = false := by
  by_contra hears
  obtain ⟨c, hchannel, sessions, hlookup, _⟩ := hears_iff.mp (Bool.not_eq_false _ ▸ hears)
  have hmem : c ∈ s.map := AList.lookup_isSome.mp (by rw [hlookup]; rfl)
  cases h with
  | received hi hp m hc =>
    rw [phase_set, if_pos rfl, phase_eq hi, hp] at hsame
    exact absurd hsame (by simp)
  | broadcastThrew hi hp m hc =>
    rw [channel_eq hi] at hchannel
    exact hc (Option.some.inj hchannel ▸ hmem)

section Owes
variable {r i : ι} {A B : List (ι × μ)} (he : e ≠ .erase r) (howed : A.Sublist (B ++ due r i s))
include he howed

/-- Nothing is received from the client and no snapshot is taken. -/
theorem Took.owes_quiet (h : Took s e s') (howing : fromSender i (owing r s e).toList = [])
    (haddressing : fromSender i (addressing r s e).toList = [])
    (hunread : unread i (s'.phase i) = unread i (s.phase i)) :
    (A ++ fromSender i (owing r s e).toList).Sublist
      ((B ++ fromSender i (addressing r s e).toList) ++ due r i s') := by
  rw [howing, haddressing, List.append_nil, List.append_nil]
  refine howed.trans (List.Sublist.append (List.Sublist.refl B) ?_)
  rw [due, due]
  by_cases hears : s.hears r i = true
  · rw [if_pos hears, if_pos (h.hears he hears), hunread]
  · rw [if_neg hears]
    exact List.nil_sublist _

/-- A step of the sender itself. -/
theorem Took.owes_moves {p : HandlerPhase ι μ} (h : Took s e s') (hp : s'.phase i = some p)
    (hmoves : Moves i e (s.phase i) p) :
    (A ++ fromSender i (owing r s e).toList).Sublist
      ((B ++ fromSender i (addressing r s e).toList) ++ due r i s') := by
  generalize hq : s.phase i = q at hmoves
  cases hmoves with
  | run | accepted | refused | inserted | readError | erased | turn | broadcastDone =>
    exact h.owes_quiet he howed rfl (by simp [addressing, fromSender]) (by rw [hp, hq]; rfl)
  | removed hp' =>
    refine h.owes_quiet he howed rfl rfl ?_
    rw [hp, hq]
    rcases hp' with rfl | rfl | rfl <;> rfl
  | received m =>
    have hnone : due r i s = [] := by
      rw [due, hq]
      exact ite_self []
    have haddressing : fromSender i (addressing r s (.receive i (some m))).toList = [] := rfl
    rw [hnone, List.append_nil] at howed
    rw [haddressing, List.append_nil, owing]
    by_cases hears : s.hears r i = true
    · rw [if_pos hears, due, if_pos (h.hears he hears), hp, Option.toList_some, fromSender_self]
      exact howed.append (List.Sublist.refl _)
    · rw [if_neg hears]
      exact (List.append_nil A).symm ▸ howed.trans (List.sublist_append_left B _)
  | snapshot m targets =>
    have howing : fromSender i (owing r s (.snapshot i targets)).toList = [] := rfl
    rw [howing, List.append_nil, List.append_assoc]
    refine howed.trans (List.Sublist.append (List.Sublist.refl B) ?_)
    apply List.Sublist.trans _ (List.sublist_append_left _ _)
    rw [due]
    by_cases hears : s.hears r i = true
    · rw [if_pos hears, hq, addressing, hq]
      dsimp only
      rw [if_pos (h.mem_targets hears), Option.toList_some, fromSender_self]
      exact List.Sublist.refl _
    · rw [if_neg hears]
      exact List.nil_sublist _

/-- What is owed is addressed, or due to be. -/
theorem Took.owes (h : Took s e s') :
    (A ++ fromSender i (owing r s e).toList).Sublist
      ((B ++ fromSender i (addressing r s e).toList) ++ due r i s') := by
  rcases h.phase_cases i with ⟨p, hp, hmoves⟩ | ⟨hsame, hstays⟩
  · exact h.owes_moves he howed hp hmoves
  · by_cases hsession : e.session = i
    · rcases hstays with hne | rfl | ⟨ok, rfl⟩ | ⟨m, rfl⟩ | rfl
      · exact absurd hsession hne
      · exact h.owes_quiet he howed rfl rfl (by rw [hsame])
      · exact h.owes_quiet he howed rfl rfl (by rw [hsame])
      · refine h.owes_quiet he howed ?_ rfl (by rw [hsame])
        rw [owing, h.not_hears hsame]
        rfl
      · exact h.owes_quiet he howed rfl rfl (by rw [hsame])
    · exact h.owes_quiet he howed (fromSender_owing_other hsession)
        (fromSender_other h hsession r).2.1 (by rw [hsame])

end Owes

end Sessions

section Runs
variable {ι : Type u} {μ : Type v} [DecidableEq ι] {es : List (SessionEvent ι μ)}
  {s : Sessions ι μ}

theorem owed_sublist (h : Sessions.initial.after es = some s) {r : ι} (hstays : .destroy r ∉ es)
    (i : ι) :
    (Sessions.fromSender i (Sessions.owed r .initial es)).Sublist
      (Sessions.fromSender i (Sessions.addressed r .initial es) ++ Sessions.due r i s) := by
  refine Sessions.run_invariant (I := fun es s => .destroy r ∉ es →
    (Sessions.fromSender i (Sessions.owed r .initial es)).Sublist
      (Sessions.fromSender i (Sessions.addressed r .initial es) ++ Sessions.due r i s)) ?_ ?_ h hstays
  · exact fun _ => List.nil_sublist _
  · intro es s e s' hes hI htook hstays
    rw [List.mem_append, not_or] at hstays
    rw [Sessions.owed_snoc hes, Sessions.addressed_snoc hes, Sessions.fromSender_append,
      Sessions.fromSender_append]
    refine htook.owes ?_ (hI hstays.1)
    rintro rfl
    -- only a session on its way out is erased
    rcases htook.phase_cases r with ⟨p, _, hmoves⟩ | ⟨_, hstay⟩
    · generalize hq : s.phase r = q at hmoves
      cases hmoves
      exact hstays.1 ((underway_of_run hes).leaving r _ hq (Or.inl rfl))
    · rcases hstay with hne | he | ⟨_, he⟩ | ⟨_, he⟩ | he
      · exact hne rfl
      all_goals exact absurd he (by simp)

/-- Without a failed write the front of a queue is being written. -/
def Busy (h : WebsocketHandler ι μ) : Prop := h.queue ≠ [] → h.writing = true

omit [DecidableEq ι] in
theorem busy_onBroadcast {h : WebsocketHandler ι μ} (hbusy : Busy h) (m : ι × μ)
    (rest : List (ι × μ)) : Busy ({ h with strand := rest }.onBroadcast m) := by
  intro _
  unfold WebsocketHandler.onBroadcast
  dsimp only
  split
  · rename_i hlen
    apply hbusy
    rintro hnil
    rw [hnil] at hlen
    exact absurd hlen (by simp)
  · rfl

omit [DecidableEq ι] in
theorem busy_onWrite (h : WebsocketHandler ι μ) : Busy (h.onWrite true) := by
  intro hqueue
  unfold WebsocketHandler.onWrite at hqueue ⊢
  dsimp only at hqueue ⊢
  rw [if_pos rfl] at hqueue ⊢
  split
  · rename_i hempty
    rw [if_pos hempty] at hqueue
    exact absurd (List.isEmpty_iff.mp hempty) hqueue
  · rfl

theorem busy_of_run (h : Sessions.initial.after es = some s) {r : ι}
    (hfails : .onWrite r false ∉ es) (g : WebsocketHandler ι μ) (hg : s.handlers r = some g) :
    Busy g := by
  refine Sessions.run_invariant (I := fun es s => .onWrite r false ∉ es →
    ∀ g, s.handlers r = some g → Busy g) ?_ ?_ h hfails g hg
  · intro _ g hg
    exact absurd hg (by simp [Sessions.initial])
  · intro es s e s' hes hI htook hfails
    rw [List.mem_append, not_or] at hfails
    have hbefore := hI hfails.1
    have hset {i : ι} {h g : WebsocketHandler ι μ} {s : Sessions ι μ}
        (hs : ∀ g, s.handlers r = some g → Busy g) (hi : s.handlers i = some h)
        (hbusy : r = i → Busy h → Busy g) : ∀ g', (s.set i g).handlers r = some g' → Busy g' := by
      intro g' hg'
      rw [Sessions.handlers_set] at hg'
      split at hg'
      · rename_i hr
        exact Option.some.inj hg' ▸ hbusy hr (hs h (hr ▸ hi))
      · exact hs g' hg'
    cases htook with
    | run channel hi =>
      intro g hg
      rw [Sessions.handlers_set] at hg
      split at hg
      · obtain rfl := Option.some.inj hg
        exact fun hqueue => absurd rfl hqueue
      · exact hbefore g hg
    | accepted hi | refused hi | inserted hi | readError hi | received hi | snapshot hi
    | skipped hi | broadcastDone hi | removed hi | erased hi =>
      exact hset hbefore hi fun _ hbusy => hbusy
    | broadcastThrew | removeThrew => exact hbefore
    | posted hi hp hj hlock =>
      exact hset (hset hbefore hi fun _ hbusy => hbusy) hj fun _ hbusy => hbusy
    | onBroadcast hi hs hlock => exact hset hbefore hi fun _ hbusy => busy_onBroadcast hbusy _ _
    | @onWrite i g hi ok hw hlock =>
      refine hset hbefore hi fun hr _ => ?_
      cases ok with
      | true => exact busy_onWrite g
      | false =>
        rw [hr] at hfails
        exact absurd List.mem_cons_self hfails.2

/-- What a session has written when it is at rest. -/
structure Completed (es : List (SessionEvent ι μ)) (r : ι) (h : WebsocketHandler ι μ) : Prop where
  /-- Everything that has been posted. -/
  posts : h.written = Sessions.postsTo r (Sessions.initial.turns es)
  /-- From each sender everything that a snapshot has addressed to the session. -/
  addressed : ∀ i, Sessions.fromSender i h.written =
    Sessions.fromSender i (Sessions.addressed r .initial es)
  /-- And so every message that a client has sent while the session was in the channel. -/
  owed : ∀ i, (Sessions.fromSender i (Sessions.owed r .initial es)).Sublist
    (Sessions.fromSender i h.written)

theorem completed_of_settled (hrun : Sessions.initial.after es = some s)
    (hsettled : s.Settled) {r : ι} {h : WebsocketHandler ι μ} (hr : s.handlers r = some h)
    (hstays : .destroy r ∉ es) (hfails : .onWrite r false ∉ es) : Completed es r h := by
  have hunderway := underway_of_run hrun
  have hlock : h.lockable = true := by
    rw [← Sessions.lockable_eq hr]
    apply Sessions.lockable_of_phase
    · rw [Sessions.phase_eq hr]
      simp
    · intro p hp
      exact ⟨fun h => hstays (hunderway.leaving r p hp (Or.inl h)),
        fun h => hstays (hunderway.leaving r p hp (Or.inr h))⟩
  obtain ⟨hstrand, hwriting⟩ := hsettled.idle r h hr hlock
  have hqueue : h.queue = [] := by
    by_contra hne
    have hbusy := busy_of_run hrun hfails h hr hne
    rw [hwriting] at hbusy
    exact absurd hbusy (by simp)
  have hwaits (i : ι) : Sessions.unread i (s.phase i) = [] ∧
      Sessions.awaiting r i (s.phase i) = [] := by
    cases hi : s.handlers i with
    | none =>
      rw [Sessions.phase, hi]
      exact ⟨rfl, rfl⟩
    | some g =>
      have hg := hsettled.waits i g hi
      rw [Sessions.phase_eq hi]
      cases hp : g.phase with
      | broadcasting | posting =>
        rw [hp] at hg
        exact False.elim hg
      | _ => exact ⟨rfl, rfl⟩
  have hposts : h.written = Sessions.postsTo r (Sessions.initial.turns es) := by
    rw [← Sessions.mailbox_of_run hrun r, Sessions.mailbox, hr]
    simp [WebsocketHandler.mailbox, hqueue, hstrand]
  have haddressed (i : ι) : Sessions.fromSender i h.written =
      Sessions.fromSender i (Sessions.addressed r .initial es) := by
    have hturns := (sends_of_run hrun r i).2
    rw [(hwaits i).2, List.append_nil] at hturns
    rw [hposts, postsTo_of_locked (turns_locked hrun hstays), hturns]
  refine ⟨hposts, haddressed, fun i => ?_⟩
  have howed := owed_sublist hrun hstays i
  rw [Sessions.due, (hwaits i).1, ite_self, List.append_nil] at howed
  rw [haddressed]
  exact howed

/-- From any state of a run the pending work comes to an end, however it is scheduled, and at its
end every session that stays and whose writes do not fail has written what it is owed. -/
theorem comes_to_rest (es : List (SessionEvent ι μ)) (s : Sessions ι μ)
    (hrun : Sessions.initial.after es = some s) (hthrown : s.thrown = none) :
    (∃ n, ∀ fs s', (∀ e ∈ fs, e.Progress) → s.after fs = some s' → fs.length ≤ n) ∧
      (∃ fs s', (∀ e ∈ fs, e.Progress) ∧ s.after fs = some s' ∧
        Quiet Sessions.step SessionEvent.Progress s') ∧
      ∀ fs s', (∀ e ∈ fs, e.Progress) → s.after fs = some s' →
        Quiet Sessions.step SessionEvent.Progress s' → s'.Settled ∧
          ∀ r h, s'.handlers r = some h → .destroy r ∉ es → .onWrite r false ∉ es →
            Completed (es ++ fs) r h := by
  let A : Finset ι := (es.map SessionEvent.session).toFinset
  have hworking : Sessions.Working A s := by
    refine ⟨fun i hi => ?_, hthrown, es, hrun⟩
    obtain ⟨h, hi⟩ := Option.ne_none_iff_exists'.mp hi
    have hmem := ((recorded_of_run hrun).channels i h.channel).mp (Sessions.channel_eq hi)
    exact List.mem_toFinset.mpr (List.mem_map.mpr ⟨_, hmem, rfl⟩)
  refine ⟨⟨s.work A, fun fs s' hfs hrest => ?_⟩, (Sessions.drains A).exists_quiet hworking, ?_⟩
  · have hlen := (Sessions.drains A).length_le hworking hfs hrest
    omega
  · intro fs s' hfs hrest hquiet
    have hall : Sessions.initial.after (es ++ fs) = some s' := by
      rw [Sessions.after, List.foldlM_append]
      exact Option.bind_eq_some_iff.mpr ⟨s, hrun, hrest⟩
    have hthrown' : s'.thrown = none := by
      have hkept : Sessions.Working A s' := Traces.after_kept
        (fun s e s' he hs hstep => (Sessions.drains A).kept s e s' he hs hstep) hworking hfs hrest
      exact hkept.unthrown
    have hsettled := Sessions.settled_of_quiet hall hthrown' hquiet
    refine ⟨hsettled, fun r h hr hstays hfails => ?_⟩
    -- what is pending neither tears a session down nor lets a write fail
    apply completed_of_settled hall hsettled hr
    · rw [List.mem_append]
      exact fun hmem => hmem.elim hstays fun hmem => hfs _ hmem
    · rw [List.mem_append]
      exact fun hmem => hmem.elim hfails fun hmem => hfs _ hmem

end Runs

theorem comes_to_rest_chat : ∃ s, Sessions.initial.after Demo.chat = some s ∧
    ∃ fs s', s.after fs = some s' ∧ Quiet Sessions.step SessionEvent.Progress s' := by
  obtain ⟨fs, s', _, hrest, hquiet⟩ := (comes_to_rest Demo.chat _ rfl rfl).2.1
  exact ⟨_, rfl, fs, s', hrest, hquiet⟩

end Webserver

import Webserver.WebsocketMembership

/-!
# Delivery of broadcasts

What one sender has received from its client reaches the strand of every other session in that
order, each message once, and the strand, the queue and `async_write` keep the order.
-/

set_option autoImplicit false

namespace Webserver

universe u v

namespace Sessions
variable {ι : Type u} {μ : Type v} [DecidableEq ι] {s s' : Sessions ι μ} {e : SessionEvent ι μ}

/-- The messages that the clients have sent, with the sessions that received them. -/
def incoming (es : List (SessionEvent ι μ)) : List (ι × μ) :=
  es.filterMap fun
    | .receive i (some m) => some (i, m)
    | _ => none

/-- The message of a snapshot that has read the session. -/
def addressing (r : ι) (s : Sessions ι μ) : SessionEvent ι μ → Option (ι × μ)
  | .snapshot i targets =>
    match s.phase i with
    | some (.broadcasting m) => if r ∈ targets then some (i, m) else none
    | _ => none
  | _ => none

def addressed (r : ι) (s : Sessions ι μ) (es : List (SessionEvent ι μ)) : List (ι × μ) :=
  Traces.log step (addressing r) s es

/-- The message that a session has received and not taken a snapshot for. -/
def unread (i : ι) : Option (HandlerPhase ι μ) → List (ι × μ)
  | some (.broadcasting m) => [(i, m)]
  | _ => []

/-- The message that a session has still to post. -/
def awaiting (r i : ι) : Option (HandlerPhase ι μ) → List (ι × μ)
  | some (.posting m targets) => if r ∈ targets then [(i, m)] else []
  | _ => []

def turnsTo (r : ι) (ts : List (Turn ι μ)) : List (ι × μ) :=
  (ts.filter fun t => t.receiver = r).map fun t => (t.sender, t.message)

theorem turnsTo_append (r : ι) (ts us : List (Turn ι μ)) :
    turnsTo r (ts ++ us) = turnsTo r ts ++ turnsTo r us := by
  rw [turnsTo, List.filter_append, List.map_append]
  rfl

theorem fromSender_append (i : ι) (l k : List (ι × μ)) :
    fromSender i (l ++ k) = fromSender i l ++ fromSender i k :=
  List.filter_append l k

omit [DecidableEq ι] in
theorem incoming_snoc (es : List (SessionEvent ι μ)) (e : SessionEvent ι μ) :
    incoming (es ++ [e]) = incoming es ++ incoming [e] :=
  List.filterMap_append

theorem addressed_snoc {es : List (SessionEvent ι μ)} (h : s.after es = some s') (r : ι)
    (e : SessionEvent ι μ) :
    addressed r s (es ++ [e]) = addressed r s es ++ (addressing r s' e).toList :=
  Traces.log_snoc h e

/-- Events of other sessions say nothing of this one. -/
theorem fromSender_other {i : ι} (h : Took s e s') (he : e.session ≠ i) (r : ι) :
    fromSender i (incoming [e]) = [] ∧ fromSender i (addressing r s e).toList = [] ∧
      fromSender i (turnsTo r (s.turn e).toList) = [] := by
  have hnone {x : ι × μ} (hx : x.1 = e.session) : fromSender i [x] = [] := by
    have hne : x.1 ≠ i := fun h => he (hx.symm.trans h)
    simp [fromSender, hne]
  refine ⟨?_, ?_, ?_⟩
  · cases e with
    | receive k message =>
      cases message with
      | none => rfl
      | some m => exact hnone rfl
    | _ => rfl
  · cases e with
    | snapshot k targets =>
      rw [addressing]
      split
      · split
        · exact hnone rfl
        · rfl
      · rfl
    | _ => rfl
  · rcases h.turn_cases with hturn | ⟨k, m, j, targets, rfl, _, hturn⟩
    · rw [hturn]
      rfl
    · rw [hturn, Option.toList_some, turnsTo]
      by_cases hj : j = r
      · rw [List.filter_cons_of_pos (by simpa using hj)]
        exact hnone rfl
      · rw [List.filter_cons_of_neg (by simpa using hj)]
        rfl

theorem fromSender_self (i : ι) (m : μ) : fromSender i [(i, m)] = [(i, m)] := by
  simp [fromSender]

/-- A message is received, then its receivers are read, then each of them has its turn. -/
theorem Took.sends {r i : ι} (h : Took s e s')
    (hnodup : ∀ m targets, s.phase i = some (.posting m targets) → targets.Nodup)
    {A B P : List (ι × μ)} (hread : (A ++ unread i (s.phase i)).Sublist B)
    (hposted : P ++ awaiting r i (s.phase i) = A) :
    ((A ++ fromSender i (addressing r s e).toList) ++ unread i (s'.phase i)).Sublist
        (B ++ fromSender i (incoming [e])) ∧
      (P ++ fromSender i (turnsTo r (s.turn e).toList)) ++ awaiting r i (s'.phase i) =
        A ++ fromSender i (addressing r s e).toList := by
  -- nothing happens to a message
  have hquiet (haddressing : addressing r s e = none) (hturn : s.turn e = none)
      (hunread : unread i (s'.phase i) = unread i (s.phase i))
      (hawaiting : awaiting r i (s'.phase i) = awaiting r i (s.phase i)) :
      ((A ++ fromSender i (addressing r s e).toList) ++ unread i (s'.phase i)).Sublist
          (B ++ fromSender i (incoming [e])) ∧
        (P ++ fromSender i (turnsTo r (s.turn e).toList)) ++ awaiting r i (s'.phase i) =
          A ++ fromSender i (addressing r s e).toList := by
    have hnone : fromSender i (turnsTo r (none : Option (Turn ι μ)).toList) = [] := rfl
    have hnone' : fromSender i (none : Option (ι × μ)).toList = [] := rfl
    rw [haddressing, hturn, hunread, hawaiting, hnone, hnone', List.append_nil, List.append_nil]
    exact ⟨hread.trans (List.sublist_append_left B _), hposted⟩
  rcases h.phase_cases i with ⟨p, hp, hmoves⟩ | ⟨hsame, hstays⟩
  · generalize hq : s.phase i = q at hmoves
    rw [hp]
    cases hmoves with
    | run | accepted | refused | inserted | readError | erased =>
      exact hp ▸ hquiet rfl rfl (by rw [hp, hq]; rfl) (by rw [hp, hq]; rfl)
    | removed hp' =>
      refine hp ▸ hquiet rfl rfl ?_ ?_ <;>
        · rw [hp, hq]
          rcases hp' with rfl | rfl | rfl <;> rfl
    | broadcastDone m =>
      have hturn : s.turn (.post i) = none := by rw [turn, hq]
      exact hp ▸ hquiet rfl hturn (by rw [hp, hq]; rfl) (by rw [hp, hq]; rfl)
    | received m =>
      rw [hq] at hread hposted
      have hreceived : fromSender i (incoming [.receive i (some m)]) = [(i, m)] :=
        fromSender_self i m
      have hread' : A.Sublist B := by simpa [unread] using hread
      rw [hreceived]
      constructor
      · show ((A ++ []) ++ [(i, m)]).Sublist (B ++ [(i, m)])
        rw [List.append_nil]
        exact hread'.append (List.Sublist.refl _)
      · show (P ++ []) ++ [] = A ++ []
        have hposted' : P = A := by simpa [awaiting] using hposted
        rw [List.append_nil, List.append_nil, hposted', List.append_nil]
    | snapshot m targets =>
      have hturn : s.turn (.snapshot i targets) = none := rfl
      have haddressing : fromSender i (addressing r s (.snapshot i targets)).toList =
          awaiting r i (some (.posting m targets)) := by
        rw [addressing, hq, awaiting]
        dsimp only
        split
        · exact fromSender_self i m
        · rfl
      rw [hq] at hread hposted
      rw [haddressing]
      constructor
      · have hshort : (A ++ awaiting r i (some (.posting m targets))).Sublist (A ++ [(i, m)]) := by
          apply List.Sublist.append (List.Sublist.refl A)
          rw [awaiting]
          split
          · exact List.Sublist.refl _
          · exact List.nil_sublist _
        exact (List.append_nil _).symm ▸ (List.append_nil B).symm ▸ hshort.trans hread
      · rw [← hposted]
        simp [awaiting, hturn, turnsTo, fromSender]
    | turn m j targets =>
      have hturn : s.turn (.post i) = some ⟨i, j, m, s.lockable j⟩ := by rw [turn, hq]
      have hfresh := (List.nodup_cons.mp (hnodup m (j :: targets) hq)).1
      rw [hq] at hread hposted
      refine ⟨?_, ?_⟩
      · exact (List.append_nil A).symm ▸ hread.trans (List.sublist_append_left B _)
      · rw [hturn, ← hposted]
        by_cases hj : j = r
        · subst hj
          simp [awaiting, turnsTo, fromSender, addressing, hfresh]
        · simp [awaiting, turnsTo, fromSender, addressing, hj, Ne.symm hj]
  · by_cases he : e.session = i
    · rcases hstays with hne | rfl | ⟨ok, rfl⟩ | ⟨m, rfl⟩ | rfl
      · exact absurd he hne
      all_goals exact hquiet rfl rfl (by rw [hsame]) (by rw [hsame])
    · obtain ⟨hreceived, haddressing, hturn⟩ := fromSender_other h he r
      rw [hreceived, haddressing, hturn, hsame, List.append_nil, List.append_nil, List.append_nil]
      exact ⟨hread, hposted⟩

omit [DecidableEq ι] in
/-- A session can be locked while it is there and its destructor has not begun. -/
theorem lockable_of_phase {j : ι} (hj : s.phase j ≠ none)
    (hleaving : ∀ p, s.phase j = some p → p ≠ .removing ∧ p ≠ .destroyed) :
    s.lockable j = true := by
  cases hh : s.handlers j with
  | none => exact absurd (by rw [phase, hh]; rfl) hj
  | some h =>
    obtain ⟨hremoving, hdestroyed⟩ := hleaving h.phase (phase_eq hh)
    rw [lockable_eq hh, WebsocketHandler.lockable]
    split
    · rename_i hp
      exact absurd hp hremoving
    · rename_i hp
      exact absurd hp hdestroyed
    · rfl

end Sessions

section Runs
variable {ι : Type u} {μ : Type v} [DecidableEq ι]

/-- What the sessions hold that are in a loop or on their way out. -/
structure Underway (es : List (SessionEvent ι μ)) (s : Sessions ι μ) : Prop where
  nodup : ∀ i m targets, s.phase i = some (.posting m targets) → targets.Nodup
  there : ∀ i m targets, s.phase i = some (.posting m targets) → ∀ j ∈ targets, s.phase j ≠ none
  leaving : ∀ j p, s.phase j = some p → p = .removing ∨ p = .destroyed → .destroy j ∈ es

theorem Underway.step {es : List (SessionEvent ι μ)} {s s' : Sessions ι μ} {e : SessionEvent ι μ}
    (hs : Underway es s) (henrolled : Enrolled es s) (h : Sessions.Took s e s') :
    Underway (es ++ [e]) s' := by
  have hthere {j : ι} (hj : s.phase j ≠ none) : s'.phase j ≠ none := by
    rcases h.phase_cases j with ⟨p, hp, _⟩ | ⟨hsame, _⟩
    · rw [hp]
      simp
    · rw [hsame]
      exact hj
  -- the targets of a loop are those of the snapshot, or what is left of them
  have htargets {i : ι} {m : μ} {targets : List ι}
      (hphase : s'.phase i = some (.posting m targets)) :
      targets.Nodup ∧ ∀ j ∈ targets, s.phase j ≠ none := by
    rcases h.phase_cases i with ⟨p, hp, hmoves⟩ | ⟨hsame, _⟩
    · rw [hphase] at hp
      obtain rfl := Option.some.inj hp
      generalize hq : s.phase i = q at hmoves
      cases hmoves with
      | turn m j targets =>
        have hnodup := hs.nodup i m (j :: targets) hq
        exact ⟨(List.nodup_cons.mp hnodup).2,
          fun k hk => hs.there i m (j :: targets) hq k (List.mem_cons_of_mem j hk)⟩
      | snapshot m targets =>
        cases h with
        | @snapshot _ g hi m' hp' sessions hc targets hnodup htargets =>
          refine ⟨hnodup, fun j hj => ?_⟩
          have hmember : s.map.Member g.channel j :=
            ⟨sessions, hc, htargets ▸ List.mem_toFinset.mpr hj⟩
          have hchannel := ((henrolled.members g.channel j).mp hmember).1
          intro hnone
          rw [Sessions.channel] at hchannel
          rw [Sessions.phase] at hnone
          rw [Option.map_eq_none_iff.mp hnone] at hchannel
          exact absurd hchannel (by simp)
    · rw [hsame] at hphase
      exact ⟨hs.nodup i m targets hphase, hs.there i m targets hphase⟩
  constructor
  · exact fun i m targets hphase => (htargets hphase).1
  · exact fun i m targets hphase j hj => hthere ((htargets hphase).2 j hj)
  · intro j p hp hleaving
    rcases h.phase_cases j with ⟨p', hp', hmoves⟩ | ⟨hsame, _⟩
    · rw [hp] at hp'
      obtain rfl := Option.some.inj hp'
      generalize hq : s.phase j = q at hmoves
      cases hmoves with
      | removed _ => exact List.mem_append_right es List.mem_cons_self
      | erased => exact List.mem_append_left _ (hs.leaving j _ hq (Or.inl rfl))
      | _ => rcases hleaving with hp | hp <;> exact absurd hp (by simp)
    · exact List.mem_append_left _ (hs.leaving j p (hsame.symm.trans hp) hleaving)

theorem underway_of_run {es : List (SessionEvent ι μ)} {s : Sessions ι μ}
    (h : Sessions.initial.after es = some s) : Underway es s := by
  have hnone (i : ι) : (Sessions.initial : Sessions ι μ).phase i = none := rfl
  refine Sessions.run_invariant ⟨fun i m targets h => ?_, fun i m targets h => ?_, fun j p h => ?_⟩
    (fun _ _ _ _ hes hI htook => hI.step (enrolled_of_run hes) htook) h
  all_goals
    rw [hnone] at h
    exact absurd h (by simp)

/-- In its turn a session that is not destroyed is posted to. -/
theorem turns_locked {es : List (SessionEvent ι μ)} {s : Sessions ι μ}
    (h : Sessions.initial.after es = some s) {r : ι} (hstays : .destroy r ∉ es) :
    ∀ t ∈ Sessions.initial.turns es, t.receiver = r → t.locked = true := by
  refine Sessions.run_invariant (I := fun es _ => .destroy r ∉ es →
    ∀ t ∈ Sessions.initial.turns es, t.receiver = r → t.locked = true) ?_ ?_ h hstays
  · exact fun _ t ht => absurd ht List.not_mem_nil
  · intro es s e s' hes hI htook hstays t ht hreceiver
    rw [List.mem_append, not_or] at hstays
    rw [Sessions.turns_snoc hes, List.mem_append] at ht
    rcases ht with ht | ht
    · exact hI hstays.1 t ht hreceiver
    · rcases htook.turn_cases with hturn | ⟨i, m, j, targets, rfl, hphase, hturn⟩
      · rw [hturn] at ht
        exact absurd ht List.not_mem_nil
      · rw [hturn] at ht
        obtain rfl := List.mem_singleton.mp ht
        obtain rfl : j = r := hreceiver
        have hunderway := underway_of_run hes
        apply Sessions.lockable_of_phase
        · exact hunderway.there i m (j :: targets) hphase j List.mem_cons_self
        · intro p hp
          refine ⟨fun hleaving => ?_, fun hleaving => ?_⟩
          · exact hstays.1 (hunderway.leaving j p hp (Or.inl hleaving))
          · exact hstays.1 (hunderway.leaving j p hp (Or.inr hleaving))

theorem postsTo_of_locked {r : ι} {ts : List (Turn ι μ)}
    (h : ∀ t ∈ ts, t.receiver = r → t.locked = true) :
    Sessions.postsTo r ts = Sessions.turnsTo r ts := by
  rw [Sessions.postsTo, Sessions.turnsTo]
  congr 1
  apply List.filter_congr
  intro t ht
  by_cases hreceiver : t.receiver = r
  · simp [hreceiver, h t ht hreceiver]
  · simp [hreceiver]

theorem sends_of_run {es : List (SessionEvent ι μ)} {s : Sessions ι μ}
    (h : Sessions.initial.after es = some s) (r i : ι) :
    (Sessions.fromSender i (Sessions.addressed r .initial es) ++
        Sessions.unread i (s.phase i)).Sublist (Sessions.fromSender i (Sessions.incoming es)) ∧
      Sessions.fromSender i (Sessions.turnsTo r (Sessions.initial.turns es)) ++
          Sessions.awaiting r i (s.phase i) =
        Sessions.fromSender i (Sessions.addressed r .initial es) := by
  refine Sessions.run_invariant (I := fun es s =>
    (Sessions.fromSender i (Sessions.addressed r .initial es) ++
        Sessions.unread i (s.phase i)).Sublist (Sessions.fromSender i (Sessions.incoming es)) ∧
      Sessions.fromSender i (Sessions.turnsTo r (Sessions.initial.turns es)) ++
          Sessions.awaiting r i (s.phase i) =
        Sessions.fromSender i (Sessions.addressed r .initial es)) ?_ ?_ h
  · exact ⟨List.Sublist.refl [], rfl⟩
  · intro es s e s' hes hI htook
    rw [Sessions.addressed_snoc hes, Sessions.incoming_snoc, Sessions.turns_snoc hes,
      Sessions.turnsTo_append, Sessions.fromSender_append, Sessions.fromSender_append,
      Sessions.fromSender_append]
    exact htook.sends ((underway_of_run hes).nodup i) hI.1 hI.2

/-- The turns that a sender gives a receiver come in the order of what it has received. -/
theorem turnsTo_sublist_incoming {es : List (SessionEvent ι μ)} {s : Sessions ι μ}
    (h : Sessions.initial.after es = some s) (r i : ι) :
    (Sessions.fromSender i (Sessions.turnsTo r (Sessions.initial.turns es))).Sublist
      (Sessions.fromSender i (Sessions.incoming es)) := by
  obtain ⟨hread, hposted⟩ := sends_of_run h r i
  refine List.Sublist.trans ?_ hread
  rw [← hposted, List.append_assoc]
  exact List.sublist_append_left _ _

/-- How the messages of `i` stand with the receiver `r`, whose handler is `h`. -/
structure InOrder (es : List (SessionEvent ι μ)) (s : Sessions ι μ) (i r : ι)
    (h : WebsocketHandler ι μ) : Prop where
  /-- What has been handed to `async_write`, waits behind it or is pending on the strand is what
  has been posted. -/
  moved : Sessions.fromSender i (h.written ++ h.queue.tail ++ h.strand) =
    Sessions.fromSender i (Sessions.postsTo r (Sessions.initial.turns es))
  /-- It is posted in the order in which the client sent it, each message once. -/
  order : (Sessions.fromSender i (Sessions.postsTo r (Sessions.initial.turns es))).Sublist
    (Sessions.fromSender i (Sessions.incoming es))
  /-- Nothing is lost that a snapshot has addressed to the receiver. -/
  complete : Sessions.fromSender i (Sessions.postsTo r (Sessions.initial.turns es)) ++
      Sessions.awaiting r i (s.phase i) =
    Sessions.fromSender i (Sessions.addressed r .initial es)

/-- Messages of one sender reach a session that stays in order, each of them once. A failed write
leaves them where they are. -/
theorem inOrder_of_run (es : List (SessionEvent ι μ)) (s : Sessions ι μ)
    (hrun : Sessions.initial.after es = some s) (i r : ι) (h : WebsocketHandler ι μ)
    (hr : s.handlers r = some h) (hstays : .destroy r ∉ es) : InOrder es s i r h := by
  have hlocked := postsTo_of_locked (turns_locked hrun hstays)
  constructor
  · rw [← Sessions.mailbox_of_run hrun r, Sessions.mailbox, hr]
    rfl
  · rw [hlocked]
    exact turnsTo_sublist_incoming hrun r i
  · rw [hlocked, (sends_of_run hrun r i).2]

end Runs

theorem inOrder_of_run_chat :
    ∃ s h, Sessions.initial.after Demo.chat = some s ∧ s.handlers 1 = some h ∧
      InOrder Demo.chat s 0 1 h := by
  have hstays : SessionEvent.destroy 1 ∉ Demo.chat := by simp [Demo.chat]
  exact ⟨_, _, rfl, rfl, inOrder_of_run Demo.chat _ rfl 0 1 _ rfl hstays⟩

end Webserver

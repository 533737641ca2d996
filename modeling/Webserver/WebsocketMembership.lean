import Webserver.WebsocketBroadcast

/-!
# Membership of channels

A session is in the set of its own channel between the second part of `Add` and the second part
of `Remove`, and a broadcast gives every session of the set it has read one turn.
-/

set_option autoImplicit false

namespace Webserver

universe u v

namespace Sessions
variable {ι : Type u} {μ : Type v} [DecidableEq ι] {s s' : Sessions ι μ} {e : SessionEvent ι μ}

/-- The sets of the channels change where a session is inserted or erased. -/
theorem Took.member_iff (h : Took s e s') (c : Str) (i : ι) :
    s'.map.Member c i ↔ (s.map.Member c i ∧ ¬ (e = .erase i ∧ s.channel i = some c)) ∨
      (e = .insert i ∧ s.channel i = some c ∧ c ∈ s.map) := by
  have hkept (hinsert : e ≠ .insert i) (herase : e ≠ .erase i)
      (hsame : s'.map.Member c i ↔ s.map.Member c i) :
      s'.map.Member c i ↔ (s.map.Member c i ∧ ¬ (e = .erase i ∧ s.channel i = some c)) ∨
        (e = .insert i ∧ s.channel i = some c ∧ c ∈ s.map) := by
    rw [hsame]
    constructor
    · exact fun hmember => Or.inl ⟨hmember, fun h => herase h.1⟩
    · rintro (⟨hmember, _⟩ | ⟨he, _⟩)
      · exact hmember
      · exact absurd he hinsert
  cases h with
  | accepted hi hp => exact hkept (by simp) (by simp) ChannelMap.member_addChannel
  | @inserted j g hi hp =>
    rw [setMap_map, ChannelMap.member_insertSession]
    constructor
    · rintro (hmember | ⟨rfl, rfl, hc⟩)
      · exact Or.inl ⟨hmember, fun h => absurd h.1 (by simp)⟩
      · exact Or.inr ⟨rfl, channel_eq hi, hc⟩
    · rintro (⟨hmember, _⟩ | ⟨he, hchannel, hc⟩)
      · exact Or.inl hmember
      · obtain rfl := SessionEvent.insert.inj he
        rw [channel_eq hi] at hchannel
        obtain rfl := Option.some.inj hchannel
        exact Or.inr ⟨rfl, rfl, hc⟩
  | @erased j g hi hp =>
    rw [setMap_map, ChannelMap.member_eraseSession]
    constructor
    · rintro ⟨hmember, hne⟩
      refine Or.inl ⟨hmember, fun ⟨he, hchannel⟩ => hne ?_⟩
      obtain rfl := SessionEvent.erase.inj he
      rw [channel_eq hi] at hchannel
      exact ⟨(Option.some.inj hchannel).symm, rfl⟩
    · rintro (⟨hmember, hne⟩ | ⟨he, _⟩)
      · refine ⟨hmember, fun ⟨hc, hij⟩ => hne ?_⟩
        subst hij hc
        exact ⟨rfl, channel_eq hi⟩
      · exact absurd he (by simp)
  | _ => exact hkept (by simp) (by simp) Iff.rfl

end Sessions

section Runs
variable {ι : Type u} {μ : Type v} [DecidableEq ι]

/-- What the run says about the sets of the channels. -/
structure Enrolled (es : List (SessionEvent ι μ)) (s : Sessions ι μ) : Prop where
  members : ∀ c i, s.map.Member c i ↔ s.channel i = some c ∧ .insert i ∈ es ∧ .erase i ∉ es
  adding : ∀ i, s.phase i = some .adding → .handshake i true ∈ es
  inserted : ∀ i, .insert i ∈ es → .handshake i true ∈ es
  erased : ∀ i, .erase i ∈ es → s.phase i = some .destroyed

omit [DecidableEq ι] in
theorem enrolled_initial : Enrolled ([] : List (SessionEvent ι μ)) Sessions.initial where
  members := by
    intro c i
    constructor
    · rintro ⟨sessions, hlookup, _⟩
      exact absurd hlookup (by simp [Sessions.initial])
    · rintro ⟨_, hinsert, _⟩
      exact absurd hinsert List.not_mem_nil
  adding := fun i h => absurd h (by simp [Sessions.phase, Sessions.initial])
  inserted := fun i h => absurd h List.not_mem_nil
  erased := fun i h => absurd h List.not_mem_nil

theorem Enrolled.step {es : List (SessionEvent ι μ)} {s s' : Sessions ι μ} {e : SessionEvent ι μ}
    (hs : Enrolled es s) (hrecorded : Recorded es s) (h : Sessions.Took s e s') :
    Enrolled (es ++ [e]) s' := by
  have hmem {e' : SessionEvent ι μ} : e' ∈ es ++ [e] ↔ e' ∈ es ∨ e' = e := by
    rw [List.mem_append, List.mem_singleton]
  -- a session is inserted while it is adding
  have hinsert {i : ι} (he : e = .insert i) : s.phase i = some .adding := by
    subst he
    rcases h.phase_cases i with ⟨p, _, hmoves⟩ | ⟨_, hstays⟩
    · generalize s.phase i = q at hmoves
      cases hmoves
      rfl
    · rcases hstays with hne | he | ⟨_, he⟩ | ⟨_, he⟩ | he
      · exact absurd rfl hne
      all_goals exact absurd he (by simp)
  constructor
  · intro c i
    rw [h.member_iff, hs.members, h.channel_iff, hmem, hmem]
    constructor
    · rintro (⟨⟨hchannel, hin, hout⟩, hne⟩ | ⟨he, hchannel, _⟩)
      · exact ⟨Or.inl hchannel, Or.inl hin, fun h => h.elim hout fun he => hne ⟨he.symm, hchannel⟩⟩
      · refine ⟨Or.inl hchannel, Or.inr he.symm, fun h => ?_⟩
        rcases h with hout | heq
        · have hphase := hs.erased i hout
          rw [hinsert he] at hphase
          exact absurd hphase (by simp)
        · exact absurd (heq.trans he) (by simp)
    · rintro ⟨hchannel, hin, hout⟩
      rw [not_or] at hout
      rcases hin with hin | he
      · rcases hchannel with hchannel | rfl
        · exact Or.inl ⟨⟨hchannel, hin, hout.1⟩, fun h => hout.2 h.1.symm⟩
        · -- a session that has been inserted is not run again
          obtain ⟨d, hd⟩ := hrecorded.handshakes i (hs.inserted i hin)
          rw [h.run_fresh] at hd
          exact absurd hd (by simp)
      · rcases hchannel with hchannel | hrun
        · refine Or.inr ⟨he.symm, hchannel, (hrecorded.map c).mpr ⟨i, ?_, ?_⟩⟩
          · exact (hrecorded.channels i c).mp hchannel
          · exact hs.adding i (hinsert he.symm)
        · exact absurd (he.trans hrun) (by simp)
  · intro i hphase
    rw [hmem]
    rcases h.phase_cases i with ⟨p, hp, hmoves⟩ | ⟨hsame, _⟩
    · rw [hphase] at hp
      obtain rfl := Option.some.inj hp
      generalize s.phase i = q at hmoves
      cases hmoves
      exact Or.inr rfl
    · exact Or.inl (hs.adding i (hsame.symm.trans hphase))
  · intro i hin
    rw [hmem] at hin ⊢
    rcases hin with hin | he
    · exact Or.inl (hs.inserted i hin)
    · exact Or.inl (hs.adding i (hinsert he.symm))
  · intro i hout
    rw [hmem] at hout
    rcases h.phase_cases i with ⟨p, hp, hmoves⟩ | ⟨hsame, hstays⟩
    · rcases hout with hout | rfl
      · -- nothing moves a session that has been destroyed
        rw [hs.erased i hout] at hmoves
        generalize hq : some HandlerPhase.destroyed = q at hmoves
        cases hmoves with
        | removed hp' => rcases hp' with rfl | rfl | rfl <;> exact absurd hq (by simp)
        | _ => exact absurd hq (by simp)
      · generalize s.phase i = q at hmoves
        cases hmoves
        exact hp
    · rcases hout with hout | rfl
      · rw [hsame, hs.erased i hout]
      · rcases hstays with hne | he | ⟨_, he⟩ | ⟨_, he⟩ | he
        · exact absurd rfl hne
        all_goals exact absurd he (by simp)

theorem enrolled_of_run {es : List (SessionEvent ι μ)} {s : Sessions ι μ}
    (h : Sessions.initial.after es = some s) : Enrolled es s :=
  Sessions.run_invariant enrolled_initial
    (fun _ _ _ _ hes hI htook => hI.step (recorded_of_run hes) htook) h

/-! The turns of a broadcast. -/

/-- The events from the snapshot of a broadcast to the end of its loop. -/
structure WholeBroadcast (i : ι) (m : μ) (s₀ : Sessions ι μ) (es : List (SessionEvent ι μ))
    (s₁ : Sessions ι μ) : Prop where
  message : s₀.phase i = some (.broadcasting m)
  events : ∃ targets rest, es = .snapshot i targets :: (rest ++ [.post i]) ∧
    ∀ targets', .snapshot i targets' ∉ rest
  run : s₀.after es = some s₁
  ended : s₁.phase i = some .reading

/-- Where a session is in the loop that it has begun with these targets. -/
structure InLoop (i : ι) (m : μ) (targets : List ι) (ts : List (Turn ι μ)) (s : Sessions ι μ) :
    Prop where
  rest : ∃ rest, s.phase i = some (.posting m rest) ∧
    (ts.filter fun t => t.sender = i).map (·.receiver) ++ rest = targets
  message : ∀ t ∈ ts.filter fun t => t.sender = i, t.message = m

/-- In its loop a session gives turns, and leaves it at the end. -/
theorem InLoop.step {i : ι} {m : μ} {targets : List ι} {ts : List (Turn ι μ)}
    {s s' : Sessions ι μ} {e : SessionEvent ι μ} (hs : InLoop i m targets ts s)
    (h : Sessions.Took s e s') :
    InLoop i m targets (ts ++ (s.turn e).toList) s' ∨ s'.phase i = some .reading := by
  obtain ⟨rest, hphase, hrest⟩ := hs.rest
  rcases h.phase_cases i with ⟨p, hp, hmoves⟩ | ⟨hsame, hstays⟩
  · rw [hphase] at hmoves
    generalize hq : some (HandlerPhase.posting m rest) = q at hmoves
    cases hmoves with
    | turn m' j rest' =>
      obtain ⟨rfl, rfl⟩ := HandlerPhase.posting.inj (Option.some.inj hq)
      have hturn : s.turn (.post i) = some ⟨i, j, m, s.lockable j⟩ := by
        rw [Sessions.turn, hphase]
      left
      constructor
      · refine ⟨rest', hp, ?_⟩
        rw [hturn, List.filter_append, List.map_append, List.append_assoc, ← hrest]
        simp
      · intro t ht
        rw [hturn, List.filter_append, List.mem_append] at ht
        rcases ht with ht | ht
        · exact hs.message t ht
        · obtain rfl := List.mem_singleton.mp (List.mem_of_mem_filter ht)
          rfl
    | broadcastDone m' => exact Or.inr hp
    | removed hp' => rcases hp' with rfl | rfl | rfl <;> exact absurd hq (by simp)
    | _ => exact absurd hq (by simp)
  · -- an event that leaves the session where it is gives no turn of it
    have hnone : (s.turn e).toList.filter (fun t => t.sender = i) = [] := by
      rcases h.turn_cases with hturn | ⟨k, m', j, targets', rfl, _, hturn⟩
      · rw [hturn]
        rfl
      · have hk : k ≠ i := by
          rintro rfl
          rcases hstays with hne | he | ⟨_, he⟩ | ⟨_, he⟩ | he
          · exact hne rfl
          all_goals exact absurd he (by simp)
        rw [hturn]
        simp [hk]
    left
    constructor
    · exact ⟨rest, hsame.trans hphase, by rw [List.filter_append, hnone, List.append_nil, hrest]⟩
    · rw [List.filter_append, hnone, List.append_nil]
      exact hs.message

/-- Out of its loop a session stays out until it takes another snapshot. -/
theorem not_posting_step {i : ι} {s s' : Sessions ι μ} {e : SessionEvent ι μ}
    (hs : ∀ m rest, s.phase i ≠ some (.posting m rest)) (h : Sessions.Took s e s')
    (hsnapshot : ∀ targets, e ≠ .snapshot i targets) :
    ∀ m rest, s'.phase i ≠ some (.posting m rest) := by
  intro m rest hphase
  rcases h.phase_cases i with ⟨p, hp, hmoves⟩ | ⟨hsame, _⟩
  · rw [hphase] at hp
    obtain rfl := Option.some.inj hp
    generalize hq : s.phase i = q at hmoves
    cases hmoves with
    | snapshot m targets => exact hsnapshot rest rfl
    | turn m j targets => exact hs m (j :: rest) hq
  · exact hs m rest (hsame.symm.trans hphase)

theorem inLoop_of_run {i : ι} {m : μ} {targets : List ι} {s₀ s : Sessions ι μ}
    {es : List (SessionEvent ι μ)} (hinit : s₀.phase i = some (.posting m targets))
    (h : s₀.after es = some s) (hsnapshot : ∀ targets', .snapshot i targets' ∉ es) :
    InLoop i m targets (s₀.turns es) s ∨ ∀ m' rest, s.phase i ≠ some (.posting m' rest) := by
  refine Sessions.run_invariant (I := fun es s => (∀ targets', .snapshot i targets' ∉ es) →
    InLoop i m targets (s₀.turns es) s ∨ ∀ m' rest, s.phase i ≠ some (.posting m' rest)) ?_ ?_ h
    hsnapshot
  · exact fun _ => Or.inl ⟨⟨targets, hinit, rfl⟩, fun t ht => absurd ht (by simp [Sessions.turns, Traces.log])⟩
  · intro es s e s' hes hI htook hsnapshot
    have hbefore (targets' : List ι) : .snapshot i targets' ∉ es := fun hmem =>
      hsnapshot targets' (List.mem_append_left _ hmem)
    have he (targets' : List ι) : e ≠ .snapshot i targets' := by
      rintro rfl
      exact hsnapshot targets' (List.mem_append_right es List.mem_cons_self)
    rw [Sessions.turns_snoc hes]
    rcases hI hbefore with hloop | hout
    · rcases hloop.step htook with hloop' | hreading
      · exact Or.inl hloop'
      · exact Or.inr fun m' rest hphase => absurd (hreading.symm.trans hphase) (by simp)
    · exact Or.inr (not_posting_step hout htook he)

/-- In a whole broadcast every session of the set has one turn. -/
theorem WholeBroadcast.turns {i : ι} {m : μ} {s₀ s₁ : Sessions ι μ}
    {es : List (SessionEvent ι μ)} (h : WholeBroadcast i m s₀ es s₁) :
    ∃ c sessions, s₀.channel i = some c ∧ AList.lookup c s₀.map = some sessions ∧
      (((s₀.turns es).filter fun t => t.sender = i).map (·.receiver)).Nodup ∧
      (∀ j, j ∈ ((s₀.turns es).filter fun t => t.sender = i).map (·.receiver) ↔ j ∈ sessions) ∧
      ∀ t ∈ (s₀.turns es).filter fun t => t.sender = i, t.message = m := by
  obtain ⟨targets, rest, rfl, hsnapshot⟩ := h.events
  have hrun := h.run
  rw [Sessions.after, List.foldlM_cons] at hrun
  obtain ⟨s, hs, hrest⟩ := Option.bind_eq_some_iff.mp hrun
  have htook := (Sessions.took_of_step hs).2
  obtain ⟨c, sessions, hc, hsessions, hnodup, htargets, hphase⟩ : ∃ c sessions,
      s₀.channel i = some c ∧ AList.lookup c s₀.map = some sessions ∧ targets.Nodup ∧
        targets.toFinset = sessions ∧ s.phase i = some (.posting m targets) := by
    cases htook with
    | @snapshot _ g hi m' hp sessions hc targets hnodup htargets =>
      have hm : m' = m := by
        have hmessage := h.message
        rw [Sessions.phase_eq hi, hp] at hmessage
        exact HandlerPhase.broadcasting.inj (Option.some.inj hmessage)
      refine ⟨g.channel, sessions, Sessions.channel_eq hi, hc, hnodup, htargets, ?_⟩
      rw [Sessions.phase_set, if_pos rfl, hm]
      rfl
  have hturns : s₀.turns (.snapshot i targets :: (rest ++ [.post i])) =
      s.turns (rest ++ [.post i]) := by
    rw [Sessions.turns, Traces.log, hs]
    rfl
  rw [hturns]
  obtain ⟨s₂, hs₂, hlast⟩ := Option.bind_eq_some_iff.mp
    ((Sessions.after_snoc s rest (.post i)).symm.trans hrest)
  rw [Sessions.turns_snoc hs₂]
  have htook₂ := (Sessions.took_of_step hlast).2
  have hdone : ∃ m', s₂.phase i = some (.posting m' []) := by
    rcases htook₂.phase_cases i with ⟨p, hp, hmoves⟩ | ⟨_, hstays⟩
    · rw [h.ended] at hp
      obtain rfl := Option.some.inj hp
      generalize s₂.phase i = q at hmoves
      cases hmoves with
      | broadcastDone m' => exact ⟨m', rfl⟩
    · rcases hstays with hne | he | ⟨_, he⟩ | ⟨_, he⟩ | he
      · exact absurd rfl hne
      all_goals exact absurd he (by simp)
  obtain ⟨m', hdone⟩ := hdone
  have hnone : s₂.turn (.post i) = none := by rw [Sessions.turn, hdone]
  rw [hnone, Option.toList_none, List.append_nil]
  rcases inLoop_of_run hphase hs₂ hsnapshot with hloop | hout
  · obtain ⟨rest', hrest', hreceivers⟩ := hloop.rest
    rw [hdone] at hrest'
    obtain ⟨rfl, rfl⟩ := HandlerPhase.posting.inj (Option.some.inj hrest')
    rw [List.append_nil] at hreceivers
    refine ⟨c, sessions, hc, hsessions, hreceivers ▸ hnodup, fun j => ?_, hloop.message⟩
    rw [hreceivers, ← htargets, List.mem_toFinset]
  · exact absurd hdone (hout m' [])

/-- The sets of the channels and the broadcasts to them, in a run and the state it leads to. -/
structure ChannelsHold (es : List (SessionEvent ι μ)) (s : Sessions ι μ) : Prop where
  /-- The set of a channel is that of the sessions with this target that have executed `Add` and
  have not executed `Remove`. -/
  members : ∀ c i, s.map.Member c i ↔
    .run i c ∈ es ∧ .handshake i true ∈ es ∧ .insert i ∈ es ∧ .erase i ∉ es
  disjoint : ∀ c d i, s.map.Member c i → s.map.Member d i → c = d
  /-- `GetChannels` has one entry for every channel that has been joined. -/
  channels : ∃ channels : List Str, channels.Nodup ∧ (∀ c, c ∈ channels ↔ Joined es c) ∧
    s.map.getChannels = channels.map ChannelMap.channelName
  /-- What a session has written, queued and has on its strand is what the turns of the loops have
  posted to it. -/
  posted : ∀ r, s.mailbox r = Sessions.postsTo r (Sessions.initial.turns es)
  /-- During a broadcast a session of the set of the snapshot has one turn, and is posted the
  message if it can be locked then; other sessions are posted nothing by the sender. -/
  broadcasts : ∀ pre mid post s₀ s₁ i m, es = pre ++ mid ++ post →
    Sessions.initial.after pre = some s₀ → WholeBroadcast i m s₀ mid s₁ →
      ∃ c, s₀.channel i = some c ∧ ∀ j,
        s₁.mailbox j = s₀.mailbox j ++ Sessions.postsTo j (s₀.turns mid) ∧
        (s₀.map.Member c j → ∃ t, t.message = m ∧
          ((s₀.turns mid).filter fun t => t.sender = i).filter (fun t => t.receiver = j) = [t] ∧
          Sessions.fromSender i (Sessions.postsTo j (s₀.turns mid)) =
            if t.locked then [(i, m)] else []) ∧
        (¬ s₀.map.Member c j → Sessions.fromSender i (Sessions.postsTo j (s₀.turns mid)) = []) ∧
        (.run j c ∉ es → Sessions.fromSender i (Sessions.postsTo j (s₀.turns mid)) = [])

theorem WholeBroadcast.posts {i : ι} {m : μ} {s₀ s₁ : Sessions ι μ}
    {es : List (SessionEvent ι μ)} (h : WholeBroadcast i m s₀ es s₁) :
    ∃ c, s₀.channel i = some c ∧ ∀ j,
      (s₀.map.Member c j → ∃ t, t.message = m ∧
        ((s₀.turns es).filter fun t => t.sender = i).filter (fun t => t.receiver = j) = [t] ∧
        Sessions.fromSender i (Sessions.postsTo j (s₀.turns es)) =
          if t.locked then [(i, m)] else []) ∧
      (¬ s₀.map.Member c j → Sessions.fromSender i (Sessions.postsTo j (s₀.turns es)) = []) := by
  obtain ⟨c, sessions, hc, hsessions, hnodup, hreceivers, hmessage⟩ := h.turns
  have hmember (j : ι) : s₀.map.Member c j ↔ j ∈ sessions := by
    constructor
    · rintro ⟨sessions', hsessions', hj⟩
      rw [hsessions] at hsessions'
      exact Option.some.inj hsessions' ▸ hj
    · exact fun hj => ⟨sessions, hsessions, hj⟩
  refine ⟨c, hc, fun j => ⟨fun hj => ?_, fun hj => ?_⟩⟩
  · rw [hmember, ← hreceivers] at hj
    obtain ⟨t, hreceiver, hfilter⟩ := Traces.exists_filter_eq_singleton hnodup hj
    have ht : t ∈ ((s₀.turns es).filter fun t => t.sender = i).filter fun t => t.receiver = j := by
      rw [hfilter]
      exact List.mem_singleton_self t
    have hm := hmessage t (List.mem_of_mem_filter ht)
    have hsender : t.sender = i := by simpa using (List.mem_filter.mp (List.mem_of_mem_filter ht)).2
    refine ⟨t, hm, hfilter, ?_⟩
    rw [Sessions.fromSender_postsTo, hfilter]
    cases hlocked : t.locked <;> simp [hlocked, hm, hsender]
  · rw [hmember, ← hreceivers] at hj
    have hnone : ((s₀.turns es).filter fun t => t.sender = i).filter
        (fun t => t.receiver = j) = [] := by
      rw [List.filter_eq_nil_iff]
      intro t ht heq
      exact hj (List.mem_map.mpr ⟨t, ht, of_decide_eq_true heq⟩)
    rw [Sessions.fromSender_postsTo, hnone]
    rfl

/-- In every run the sets of the channels are those of their sessions, and a broadcast is posted
once to each session of the set it has read. -/
theorem channelsHold_of_run (es : List (SessionEvent ι μ)) (s : Sessions ι μ)
    (hrun : Sessions.initial.after es = some s) : ChannelsHold es s := by
  have hrecorded := recorded_of_run hrun
  have henrolled := enrolled_of_run hrun
  constructor
  · intro c i
    rw [henrolled.members, hrecorded.channels]
    constructor
    · rintro ⟨hchannel, hin, hout⟩
      exact ⟨hchannel, henrolled.inserted i hin, hin, hout⟩
    · rintro ⟨hchannel, _, hin, hout⟩
      exact ⟨hchannel, hin, hout⟩
  · intro c d i hc hd
    rw [henrolled.members] at hc hd
    exact Option.some.inj (hc.1.symm.trans hd.1)
  · refine ⟨s.map.keys, s.map.nodupKeys, fun c => ?_, rfl⟩
    rw [← hrecorded.map]
    exact AList.mem_keys.symm
  · exact Sessions.mailbox_of_run hrun
  · rintro pre mid post s₀ s₁ i m rfl hpre hbroadcast
    obtain ⟨c, hc, hposts⟩ := hbroadcast.posts
    refine ⟨c, hc, fun j => ⟨Sessions.mailbox_append hpre hbroadcast.run j, (hposts j).1,
      (hposts j).2, fun hrun' => (hposts j).2 fun hmember => ?_⟩⟩
    rw [(enrolled_of_run hpre).members, (recorded_of_run hpre).channels] at hmember
    exact hrun' (List.mem_append_left _ (List.mem_append_left _ hmember.1))

end Runs

namespace Demo

/-- Two sessions on one channel; the first one sends, and the second one writes. -/
def chat : List (SessionEvent ℕ Unit) :=
  [.run 0 "/chat".toList, .handshake 0 true, .insert 0, .run 1 "/chat".toList,
    .handshake 1 true, .insert 1, .receive 0 (some ()), .snapshot 0 [1, 0], .post 0, .post 0,
    .post 0, .onBroadcast 1, .onWrite 1 true]

end Demo

theorem channelsHold_of_run_chat :
    ∃ s, Sessions.initial.after Demo.chat = some s ∧ ChannelsHold Demo.chat s :=
  ⟨_, rfl, channelsHold_of_run Demo.chat _ rfl⟩

end Webserver

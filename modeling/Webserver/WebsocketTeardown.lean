import Webserver.WebsocketHandler

/-!
# Teardown of websocket sessions

The channels in the map are those that some session has joined, so `Remove` finds the channel
of a session exactly if a handshake on that channel has succeeded before.
-/

set_option autoImplicit false

namespace Webserver

universe u v

namespace Sessions
variable {ι : Type u} {μ : Type v} [DecidableEq ι] {s s' : Sessions ι μ} {e : SessionEvent ι μ}

omit [DecidableEq ι] in
theorem channel_eq {i : ι} {h : WebsocketHandler ι μ} (hi : s.handlers i = some h) :
    s.channel i = some h.channel := by
  rw [channel, hi]
  rfl

theorem set_channel_same {i : ι} {h g : WebsocketHandler ι μ} (hi : s.handlers i = some h)
    (hg : g.channel = h.channel) (j : ι) : (s.set i g).channel j = s.channel j := by
  rw [set_channel]
  split
  · rename_i hj
    rw [hj, channel_eq hi, hg]
  · rfl

theorem goto_channel_same {i : ι} {h : WebsocketHandler ι μ} (hi : s.handlers i = some h)
    (p : HandlerPhase ι μ) (j : ι) : (s.set i (h.goto p)).channel j = s.channel j :=
  set_channel_same hi (h.goto_channel p) j

/-- A session has the channel it was run on. -/
theorem Took.channel_iff (h : Took s e s') (j : ι) (c : Str) :
    s'.channel j = some c ↔ s.channel j = some c ∨ e = .run j c := by
  have hkept (hrun : e ≠ .run j c) (hsame : s'.channel j = s.channel j) :
      s'.channel j = some c ↔ s.channel j = some c ∨ e = .run j c := by
    rw [hsame]
    exact ⟨Or.inl, fun h => h.resolve_right hrun⟩
  cases h with
  | run c' hi =>
    rename_i i
    rw [set_channel]
    by_cases hj : j = i
    · subst hj
      simp [channel, hi, WebsocketHandler.run]
    · simp [hj, Ne.symm hj]
  | accepted hi hp => exact hkept (by simp) (goto_channel_same hi _ j)
  | refused hi hp => exact hkept (by simp) (goto_channel_same hi _ j)
  | inserted hi hp => exact hkept (by simp) (goto_channel_same hi _ j)
  | readError hi hp => exact hkept (by simp) (goto_channel_same hi _ j)
  | received hi hp m hc => exact hkept (by simp) (goto_channel_same hi _ j)
  | broadcastThrew hi hp m hc => exact hkept (by simp) rfl
  | snapshot hi hp hc hnodup htargets => exact hkept (by simp) (goto_channel_same hi _ j)
  | posted hi hp hj hlock =>
    refine hkept (by simp) ?_
    rw [set_channel_same hj (WebsocketHandler.post_channel ..), goto_channel_same hi]
  | skipped hi hp hj => exact hkept (by simp) (goto_channel_same hi _ j)
  | broadcastDone hi hp => exact hkept (by simp) (goto_channel_same hi _ j)
  | onBroadcast hi hs hlock => exact hkept (by simp) (set_channel_same hi (by simp) j)
  | onWrite hi ok hw hlock => exact hkept (by simp) (set_channel_same hi (by simp) j)
  | removed hi hp hc => exact hkept (by simp) (goto_channel_same hi _ j)
  | removeThrew hi hp hc => exact hkept (by simp) rfl
  | erased hi hp => exact hkept (by simp) (goto_channel_same hi _ j)

/-- A channel is added by a handshake of a session on it, and by nothing else. -/
theorem Took.mem_map_iff (h : Took s e s') (c : Str) :
    c ∈ s'.map ↔ c ∈ s.map ∨ ∃ i, e = .handshake i true ∧ s.channel i = some c := by
  have hkept (hno : ∀ i, e ≠ .handshake i true) (hsame : c ∈ s'.map ↔ c ∈ s.map) :
      c ∈ s'.map ↔ c ∈ s.map ∨ ∃ i, e = .handshake i true ∧ s.channel i = some c := by
    rw [hsame]
    exact ⟨Or.inl, fun h => h.resolve_right fun ⟨i, hi, _⟩ => hno i hi⟩
  cases h with
  | run c' hi => exact hkept (by simp) Iff.rfl
  | accepted hi hp =>
    rename_i i g
    rw [setMap_map, ChannelMap.mem_addChannel]
    constructor
    · rintro (rfl | hc)
      · exact Or.inr ⟨i, rfl, channel_eq hi⟩
      · exact Or.inl hc
    · rintro (hc | ⟨j, hj, hc⟩)
      · exact Or.inr hc
      · obtain rfl : i = j := by simpa using hj
        rw [channel_eq hi] at hc
        exact Or.inl (Option.some.inj hc).symm
  | refused hi hp => exact hkept (by simp) Iff.rfl
  | inserted hi hp => exact hkept (by simp) ChannelMap.mem_insertSession
  | readError hi hp => exact hkept (by simp) Iff.rfl
  | received hi hp m hc => exact hkept (by simp) Iff.rfl
  | broadcastThrew hi hp m hc => exact hkept (by simp) Iff.rfl
  | snapshot hi hp hc hnodup htargets => exact hkept (by simp) Iff.rfl
  | posted hi hp hj hlock => exact hkept (by simp) Iff.rfl
  | skipped hi hp hj => exact hkept (by simp) Iff.rfl
  | broadcastDone hi hp => exact hkept (by simp) Iff.rfl
  | onBroadcast hi hs hlock => exact hkept (by simp) Iff.rfl
  | onWrite hi ok hw hlock => exact hkept (by simp) Iff.rfl
  | removed hi hp hc => exact hkept (by simp) Iff.rfl
  | removeThrew hi hp hc => exact hkept (by simp) Iff.rfl
  | erased hi hp => exact hkept (by simp) ChannelMap.mem_eraseSession

/-- `Remove` throws if and only if the channel of the session is not in the map. -/
theorem Took.threw_iff (h : Took s e s') (hthrown : s.thrown = none) :
    (∃ i, s'.thrown = some (.remove i)) ↔
      ∃ i c, e = .destroy i ∧ s.channel i = some c ∧ c ∉ s.map := by
  have hno (hdestroy : ∀ i, e ≠ .destroy i) (hthrew : ∀ i, s'.thrown ≠ some (.remove i)) :
      (∃ i, s'.thrown = some (.remove i)) ↔
        ∃ i c, e = .destroy i ∧ s.channel i = some c ∧ c ∉ s.map :=
    iff_of_false (fun ⟨i, hi⟩ => hthrew i hi) fun ⟨i, _, hi, _⟩ => hdestroy i hi
  cases h with
  | removed hi hp hc =>
    refine iff_of_false (fun ⟨j, hj⟩ => by simp [hthrown] at hj) ?_
    rintro ⟨j, c, hj, hchannel, hmem⟩
    obtain rfl := SessionEvent.destroy.inj hj
    rw [channel_eq hi] at hchannel
    exact hmem (Option.some.inj hchannel ▸ hc)
  | removeThrew hi hp hc => exact iff_of_true ⟨_, rfl⟩ ⟨_, _, rfl, channel_eq hi, hc⟩
  | broadcastThrew hi hp m hc => exact hno (by simp) (by simp)
  | _ => exact hno (by simp) (by simp [hthrown])

theorem Took.run_fresh {i : ι} {c : Str} (h : Took s (.run i c) s') : s.channel i = none := by
  cases h with
  | run c hi => rw [channel, hi]; rfl

theorem Took.handshake_channel {i : ι} {ok : Bool} (h : Took s (.handshake i ok) s') :
    ∃ c, s.channel i = some c := by
  cases h with
  | accepted hi hp => exact ⟨_, channel_eq hi⟩
  | refused hi hp => exact ⟨_, channel_eq hi⟩

end Sessions

section Runs
variable {ι : Type u} {μ : Type v} [DecidableEq ι]

/-- A handshake has succeeded on the channel. -/
def Joined (es : List (SessionEvent ι μ)) (c : Str) : Prop :=
  ∃ i, .run i c ∈ es ∧ .handshake i true ∈ es

/-- Before a session is destroyed a handshake has succeeded on its channel. -/
def AllJoined (es : List (SessionEvent ι μ)) : Prop :=
  ∀ pre i post c, es = pre ++ .destroy i :: post → .run i c ∈ pre → Joined pre c

omit [DecidableEq ι] in
theorem allJoined_snoc {es : List (SessionEvent ι μ)} {e : SessionEvent ι μ} :
    AllJoined (es ++ [e]) ↔
      AllJoined es ∧ ∀ i c, e = .destroy i → .run i c ∈ es → Joined es c := by
  constructor
  · intro h
    refine ⟨fun pre i post c heq hrun => ?_, fun i c he hrun => ?_⟩
    · exact h pre i (post ++ [e]) c (by rw [heq]; simp) hrun
    · exact h es i [] c (by rw [he]) hrun
  · rintro ⟨hes, he⟩ pre i post c heq hrun
    rcases List.eq_nil_or_concat post with rfl | ⟨post', e', rfl⟩
    · obtain ⟨rfl, hlast⟩ := List.append_inj' heq rfl
      exact he i c (List.cons.inj hlast).1 hrun
    · rw [List.concat_eq_append, ← List.cons_append, ← List.append_assoc] at heq
      exact hes pre i post' c (List.append_inj' heq rfl).1 hrun

/-- What the run says about its last state. -/
structure Recorded (es : List (SessionEvent ι μ)) (s : Sessions ι μ) : Prop where
  channels : ∀ i c, s.channel i = some c ↔ .run i c ∈ es
  handshakes : ∀ i, .handshake i true ∈ es → ∃ c, s.channel i = some c
  map : ∀ c, c ∈ s.map ↔ Joined es c

theorem Recorded.step {es : List (SessionEvent ι μ)} {s s' : Sessions ι μ}
    {e : SessionEvent ι μ} (hs : Recorded es s) (h : Sessions.Took s e s') :
    Recorded (es ++ [e]) s' := by
  have hchannels (i : ι) (c : Str) : s'.channel i = some c ↔ .run i c ∈ es ++ [e] := by
    rw [h.channel_iff, hs.channels, List.mem_append, List.mem_singleton, eq_comm (a := e)]
  refine ⟨hchannels, fun i hi => ?_, fun c => ?_⟩
  · rcases List.mem_append.mp hi with hi | hi
    · obtain ⟨c, hc⟩ := hs.handshakes i hi
      exact ⟨c, (h.channel_iff i c).mpr (Or.inl hc)⟩
    · obtain rfl := List.mem_singleton.mp hi
      obtain ⟨c, hc⟩ := h.handshake_channel
      exact ⟨c, (h.channel_iff i c).mpr (Or.inl hc)⟩
  · rw [h.mem_map_iff, hs.map]
    constructor
    · rintro (⟨i, hrun, hok⟩ | ⟨i, rfl, hc⟩)
      · exact ⟨i, List.mem_append_left _ hrun, List.mem_append_left _ hok⟩
      · exact ⟨i, List.mem_append_left _ ((hs.channels i c).mp hc), by simp⟩
    · rintro ⟨i, hrun, hok⟩
      rw [← hchannels, h.channel_iff] at hrun
      rcases List.mem_append.mp hok with hold | hnew
      · -- a session that has completed its handshake is not run again
        rcases hrun with hrun | rfl
        · exact Or.inl ⟨i, (hs.channels i c).mp hrun, hold⟩
        · obtain ⟨d, hd⟩ := hs.handshakes i hold
          rw [h.run_fresh] at hd
          exact absurd hd (by simp)
      · obtain rfl := List.mem_singleton.mp hnew
        rcases hrun with hrun | hrun
        · exact Or.inr ⟨i, rfl, hrun⟩
        · exact absurd hrun (by simp)

theorem recorded_of_run {es : List (SessionEvent ι μ)} {s : Sessions ι μ}
    (h : Sessions.initial.after es = some s) : Recorded es s := by
  apply Sessions.run_invariant ?_ ?_ h
  · exact ⟨fun i c => by simp [Sessions.channel, Sessions.initial], fun i hi => by simp at hi,
      fun c => by simp [Sessions.initial, Joined]⟩
  · intro es s e s' _ hs htook
    exact hs.step htook

end Runs

/-- In a run no destructor throws if and only if before each of them a handshake has succeeded
on the channel of its session. -/
theorem removes_iff_allJoined {ι : Type u} {μ : Type v} [DecidableEq ι]
    (es : List (SessionEvent ι μ)) (s : Sessions ι μ)
    (hrun : Sessions.initial.after es = some s) :
    (∀ i, s.thrown ≠ some (.remove i)) ↔ AllJoined es := by
  induction es using List.reverseRecOn generalizing s with
  | nil =>
    obtain rfl := Option.some.inj hrun
    refine iff_of_true (fun i => by simp [Sessions.initial]) fun pre i post c heq => ?_
    exact absurd heq (by simp)
  | append_singleton es e ih =>
    rw [Sessions.after_snoc] at hrun
    obtain ⟨s₀, hes, hstep⟩ := Option.bind_eq_some_iff.mp hrun
    obtain ⟨hthrown, htook⟩ := Sessions.took_of_step hstep
    have hrecorded := recorded_of_run hes
    have hbefore : AllJoined es := (ih s₀ hes).mp fun i => by simp [hthrown]
    rw [allJoined_snoc, ← not_exists, htook.threw_iff hthrown]
    constructor
    · refine fun h => ⟨hbefore, fun i c he hmem => ?_⟩
      rw [← hrecorded.map]
      by_contra hc
      exact h ⟨i, c, he, (hrecorded.channels i c).mpr hmem, hc⟩
    · rintro ⟨_, h⟩ ⟨i, c, he, hchannel, hc⟩
      exact hc ((hrecorded.map c).mpr (h i c he ((hrecorded.channels i c).mp hchannel)))

namespace Demo

/-- A session joins its channel; a second one is refused and destroyed. -/
def refusedSecond : List (SessionEvent ℕ Unit) :=
  [.run 0 "/chat".toList, .handshake 0 true, .insert 0, .run 1 "/chat".toList,
    .handshake 1 false, .destroy 1]

end Demo

theorem removes_iff_allJoined_second :
    ∃ s, Sessions.initial.after Demo.refusedSecond = some s ∧
      ((∀ i, s.thrown ≠ some (.remove i)) ↔ AllJoined Demo.refusedSecond) :=
  ⟨_, rfl, removes_iff_allJoined Demo.refusedSecond _ rfl⟩

/-- The first session on a channel is refused and destroyed. -/
theorem not_removes_refusedFirst :
    ¬ ∀ (es : List (SessionEvent ℕ Unit)) (s : Sessions ℕ Unit),
      Sessions.initial.after es = some s → ∀ i, s.thrown ≠ some (.remove i) :=
  fun h => h [.run 0 "/chat".toList, .handshake 0 false, .destroy 0] _ rfl 0 rfl

end Webserver

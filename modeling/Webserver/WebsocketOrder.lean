import Webserver.WebsocketDelivery

/-!
# The order of messages at different sessions

Every session writes in the order in which it is posted to. The posts of one broadcast are
separate steps, so two broadcasts whose loops overlap may post to two sessions in different
orders.
-/

set_option autoImplicit false

namespace Webserver

universe u v

variable {ι : Type u} {μ : Type v} [DecidableEq ι]

/-- The first list has `a` before `b`, and the second one `b` before `a`. -/
def Disagree (l k : List (ι × μ)) (a b : ι × μ) : Prop := [a, b].Sublist l ∧ [b, a].Sublist k

/-- The loop of `a` has had its last turn when the one of `b` has its first. -/
def Serial (ts : List (Turn ι μ)) (a b : ι × μ) : Prop :=
  ∃ first second, ts = first ++ second ∧ (∀ t ∈ first, (t.sender, t.message) ≠ b) ∧
    ∀ t ∈ second, (t.sender, t.message) ≠ a

omit [DecidableEq ι] in
theorem not_disagree_of_nodup {l : List (ι × μ)} (hnodup : l.Nodup) (a b : ι × μ) :
    ¬ Disagree l l a b := by
  rintro ⟨hab, hba⟩
  induction l with
  | nil => exact absurd hab (by simp)
  | cons x l ih =>
    rw [List.nodup_cons] at hnodup
    rcases List.sublist_cons_iff.mp hab with hab' | ⟨r, heq, hb⟩
    · rcases List.sublist_cons_iff.mp hba with hba' | ⟨r, heq, _⟩
      · exact ih hnodup.2 hab' hba'
      · obtain rfl := (List.cons.inj heq).1
        exact hnodup.1 (hab'.subset (List.mem_cons_of_mem _ List.mem_cons_self))
    · obtain ⟨rfl, rfl⟩ := List.cons.inj heq
      rcases List.sublist_cons_iff.mp hba with hba' | ⟨r, heq, ha⟩
      · exact hnodup.1 (hba'.subset (List.mem_cons_of_mem _ List.mem_cons_self))
      · obtain ⟨rfl, rfl⟩ := List.cons.inj heq
        exact hnodup.1 (ha.subset List.mem_cons_self)

theorem mem_postsTo {r : ι} {ts : List (Turn ι μ)} {a : ι × μ} (h : a ∈ Sessions.postsTo r ts) :
    ∃ t ∈ ts, (t.sender, t.message) = a := by
  obtain ⟨t, ht, heq⟩ := List.mem_map.mp h
  exact ⟨t, List.mem_of_mem_filter ht, heq⟩

theorem postsTo_sublist_turnsTo (r : ι) (ts : List (Turn ι μ)) :
    (Sessions.postsTo r ts).Sublist (Sessions.turnsTo r ts) := by
  apply List.Sublist.map
  apply List.monotone_filter_right
  intro t ht
  simp only [decide_eq_true_eq] at ht ⊢
  exact ht.1

/-- Broadcasts one after the other are posted in that order to every session. -/
theorem Serial.not_before {ts : List (Turn ι μ)} {a b : ι × μ} (h : Serial ts a b) (r : ι) :
    ¬ [b, a].Sublist (Sessions.postsTo r ts) := by
  obtain ⟨first, second, rfl, hfirst, hsecond⟩ := h
  intro hba
  rw [Sessions.postsTo_append] at hba
  obtain ⟨l, k, heq, hl, hk⟩ := List.sublist_append_iff.mp hba
  cases l with
  | nil =>
    rw [List.nil_append] at heq
    have ha : a ∈ Sessions.postsTo r second := hk.subset (by rw [← heq]; simp)
    obtain ⟨t, ht, hta⟩ := mem_postsTo ha
    exact hsecond t ht hta
  | cons x l =>
    obtain rfl := (List.cons.inj heq).1
    have hb : b ∈ Sessions.postsTo r first := hl.subset List.mem_cons_self
    obtain ⟨t, ht, htb⟩ := mem_postsTo hb
    exact hfirst t ht htb

/-- What a session has written is the beginning of what has been posted to it. -/
theorem written_isPrefix {es : List (SessionEvent ι μ)} {s : Sessions ι μ}
    (hrun : Sessions.initial.after es = some s) {r : ι} {h : WebsocketHandler ι μ}
    (hr : s.handlers r = some h) :
    h.written <+: Sessions.postsTo r (Sessions.initial.turns es) := by
  have hmailbox := Sessions.mailbox_of_run hrun r
  rw [Sessions.mailbox, hr] at hmailbox
  rw [← hmailbox]
  exact ⟨h.queue.tail ++ h.strand, (List.append_assoc ..).symm⟩

/-- Every session writes what it is posted, in that order; two sessions agree on two messages of
one sender, and on two broadcasts whose loops do not overlap. -/
theorem agree_of_serial (es : List (SessionEvent ι μ)) (s : Sessions ι μ)
    (hrun : Sessions.initial.after es = some s) (hdistinct : (Sessions.incoming es).Nodup) :
    (∀ r h, s.handlers r = some h →
      h.written <+: Sessions.postsTo r (Sessions.initial.turns es)) ∧
    ∀ r₁ r₂ h₁ h₂ a b, s.handlers r₁ = some h₁ → s.handlers r₂ = some h₂ →
      (a.1 = b.1 ∨ Serial (Sessions.initial.turns es) a b ∨
        Serial (Sessions.initial.turns es) b a) →
      ¬ Disagree h₁.written h₂.written a b := by
  refine ⟨fun r h hr => written_isPrefix hrun hr, ?_⟩
  rintro r₁ r₂ h₁ h₂ a b hr₁ hr₂ hserial ⟨hab, hba⟩
  have hposted₁ := hab.trans (written_isPrefix hrun hr₁).sublist
  have hposted₂ := hba.trans (written_isPrefix hrun hr₂).sublist
  rcases hserial with hsender | hserial | hserial
  · -- both orders would be in what the sender has received
    have hincoming (r : ι) : (Sessions.fromSender a.1
        (Sessions.postsTo r (Sessions.initial.turns es))).Sublist (Sessions.incoming es) :=
      ((postsTo_sublist_turnsTo r _).filter _).trans
        ((turnsTo_sublist_incoming hrun r a.1).trans List.filter_sublist)
    have hkeep : Sessions.fromSender a.1 [a, b] = [a, b] := by
      simp [Sessions.fromSender, hsender]
    have hkeep' : Sessions.fromSender a.1 [b, a] = [b, a] := by
      simp [Sessions.fromSender, hsender]
    apply not_disagree_of_nodup hdistinct a b
    constructor
    · exact hkeep ▸ (hposted₁.filter _).trans (hincoming r₁)
    · exact hkeep' ▸ (hposted₂.filter _).trans (hincoming r₂)
  · exact hserial.not_before r₂ hposted₂
  · exact hserial.not_before r₁ hposted₁

namespace Demo

/-- Two sessions send at the same time, and the second loop overtakes the first one between its
two posts; then the first session sends again. -/
def crossing : List (SessionEvent ℕ Bool) :=
  [.run 0 "/pad".toList, .handshake 0 true, .insert 0, .run 1 "/pad".toList, .handshake 1 true,
    .insert 1, .receive 0 (some false), .receive 1 (some true), .snapshot 0 [0, 1],
    .snapshot 1 [0, 1], .post 0, .post 1, .post 1, .post 0, .post 0, .receive 0 (some true),
    .snapshot 0 [0, 1], .post 0, .post 0, .onBroadcast 0, .onBroadcast 0, .onBroadcast 0,
    .onWrite 0 true, .onWrite 0 true, .onBroadcast 1, .onBroadcast 1, .onBroadcast 1,
    .onWrite 1 true, .onWrite 1 true]

end Demo

/-- The sessions agree on the two messages of the first one, and on the last message and the one
whose loop was over before. -/
theorem agree_of_serial_crossing :
    ∃ s, Sessions.initial.after Demo.crossing = some s ∧
      (∀ r h, s.handlers r = some h →
        h.written <+: Sessions.postsTo r (Sessions.initial.turns Demo.crossing)) ∧
      ∀ r₁ r₂ h₁ h₂, s.handlers r₁ = some h₁ → s.handlers r₂ = some h₂ →
        ¬ Disagree h₁.written h₂.written (0, false) (0, true) ∧
          ¬ Disagree h₁.written h₂.written (1, true) (0, true) := by
  obtain ⟨hwritten, hagree⟩ := agree_of_serial Demo.crossing _ rfl (by decide)
  refine ⟨_, rfl, hwritten, fun r₁ r₂ h₁ h₂ hr₁ hr₂ => ⟨?_, ?_⟩⟩
  · exact hagree r₁ r₂ h₁ h₂ _ _ hr₁ hr₂ (Or.inl rfl)
  · refine hagree r₁ r₂ h₁ h₂ _ _ hr₁ hr₂ (Or.inr (Or.inl ?_))
    exact ⟨(Sessions.initial.turns Demo.crossing).take 4,
      (Sessions.initial.turns Demo.crossing).drop 4, rfl, by decide, by decide⟩

/-- The two sessions write the two messages in opposite orders. -/
theorem not_agree_crossing :
    ¬ ∀ (es : List (SessionEvent ℕ Bool)) (s : Sessions ℕ Bool),
      Sessions.initial.after es = some s → (Sessions.incoming es).Nodup →
        ∀ r₁ r₂ h₁ h₂ a b, s.handlers r₁ = some h₁ → s.handlers r₂ = some h₂ →
          ¬ Disagree h₁.written h₂.written a b := by
  intro h
  have hdisagree := h Demo.crossing _ rfl (by decide) 0 1 _ _ (0, false) (1, true) rfl rfl
  exact hdisagree ⟨by decide, by decide⟩

end Webserver

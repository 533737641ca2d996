import Mathlib.Data.Finset.Card
import Mathlib.Data.Finset.Image
import Webserver.Library.Traces

/-!
# Server

`StartAccept`, `HandleAccept` and `StartSession`, with the threads that run what is queued in the
`io_service`: the one of `main` and one for every session that has been started. `HandleRead` may
keep its thread for any time, the other callbacks return at once; the strands of two sessions are
taken not to wait for each other. The read of a session is started before its thread gets to
`io_service_.run()`, so that another thread may handle it first.
-/

set_option autoImplicit false

namespace Webserver

/-- A session, by the number of its construction. -/
inductive SessionStage where
  | absent
  /-- `async_accept` waits for a connection to its socket. -/
  | waiting
  /-- The accept has failed. -/
  | refused
  /-- Its thread has been created. -/
  | spawned
  /-- `Start` has called `async_read`. -/
  | reading
  /-- `HandleRead` is queued. -/
  | queued
  | handling
  | handled
deriving DecidableEq

/-- `Start` has nothing left to call but `io_service_.run()`. -/
def SessionStage.Started : SessionStage → Prop
  | reading | queued | handling | handled => True
  | _ => False

/-- `none` is the thread of `main`. -/
abbrev Thread := Option ℕ

structure Server where
  /-- `cur_session_`. -/
  current : ℕ
  /-- How `async_accept` has completed, if it has; `HandleAccept` is queued then. -/
  accepted : Option Bool
  stage : ℕ → SessionStage
  /-- The thread of the session is in `io_service_.run()`. -/
  running : ℕ → Bool
  /-- The session whose `HandleRead` a thread is in. -/
  busy : Thread → Option ℕ

inductive ServerEvent where
  | accept (ok : Bool)
  | handleAccept (t : Thread)
  | start (i : ℕ)
  /-- The thread of the session calls `io_service_.run()`. -/
  | enter (i : ℕ)
  | read (i : ℕ)
  | handleRead (t : Thread) (i : ℕ)
  /-- `HandleRead` returns. -/
  | done (t : Thread)

namespace Server

def setStage (s : Server) (i : ℕ) (stage : SessionStage) : Server :=
  { s with stage := Function.update s.stage i stage }

/-- `StartAccept`, for the session that is constructed next. -/
def startAccept (s : Server) (next : ℕ) : Server :=
  { s with current := next, accepted := none }.setStage next .waiting

/-- `StartSession`. -/
def startSession (s : Server) (i : ℕ) : Server := s.setStage i .spawned

def handleAccept (s : Server) (ok : Bool) : Server :=
  (if ok then s.startSession s.current else s.setStage s.current .refused).startAccept
    (s.current + 1)

/-- The server when `main` calls `run`. -/
def initial : Server := startAccept ⟨0, none, fun _ => .absent, fun _ => false, fun _ => none⟩ 0

/-- The thread is in `io_service_.run()`. -/
def InRun (s : Server) : Thread → Prop
  | none => True
  | some i => s.running i = true

/-- It waits there for something to be queued. -/
def Idle (s : Server) (t : Thread) : Prop := s.InRun t ∧ s.busy t = none

instance (x : SessionStage) : Decidable x.Started := by
  cases x <;> first | exact isTrue trivial | exact isFalse id

instance (s : Server) (t : Thread) : Decidable (s.InRun t) :=
  match t with
  | none => isTrue trivial
  | some i => inferInstanceAs (Decidable (s.running i = true))

instance (s : Server) (t : Thread) : Decidable (s.Idle t) := inferInstanceAs (Decidable (_ ∧ _))

/-- A step; what is queued is run by a thread that is idle. -/
def step (s : Server) : ServerEvent → Option Server
  | .accept ok => if s.accepted = none then some { s with accepted := some ok } else none
  | .handleAccept t =>
    match s.accepted with
    | none => none
    | some ok => if s.Idle t then some (s.handleAccept ok) else none
  | .start i => if s.stage i = .spawned then some (s.setStage i .reading) else none
  | .enter i =>
    if (s.stage i).Started ∧ s.running i = false then
      some { s with running := Function.update s.running i true }
    else none
  | .read i => if s.stage i = .reading then some (s.setStage i .queued) else none
  | .handleRead t i =>
    if s.stage i = .queued ∧ s.Idle t then
      some { s.setStage i .handling with busy := Function.update s.busy t (some i) }
    else none
  | .done t =>
    match s.busy t with
    | none => none
    | some i => some { s.setStage i .handled with busy := Function.update s.busy t none }

/-- Everything a step can do. -/
inductive Took (s : Server) : ServerEvent → Server → Prop
  | accept (ok : Bool) (ha : s.accepted = none) :
      Took s (.accept ok) { s with accepted := some ok }
  | handleAccept (t : Thread) {ok : Bool} (ha : s.accepted = some ok) (ht : s.Idle t) :
      Took s (.handleAccept t) (s.handleAccept ok)
  | start (i : ℕ) (hi : s.stage i = .spawned) : Took s (.start i) (s.setStage i .reading)
  | enter (i : ℕ) (hi : (s.stage i).Started) (hr : s.running i = false) :
      Took s (.enter i) { s with running := Function.update s.running i true }
  | read (i : ℕ) (hi : s.stage i = .reading) : Took s (.read i) (s.setStage i .queued)
  | handleRead (t : Thread) (i : ℕ) (hi : s.stage i = .queued) (ht : s.Idle t) :
      Took s (.handleRead t i)
        { s.setStage i .handling with busy := Function.update s.busy t (some i) }
  | done (t : Thread) {i : ℕ} (ht : s.busy t = some i) :
      Took s (.done t) { s.setStage i .handled with busy := Function.update s.busy t none }

theorem took_of_step {s s' : Server} {e : ServerEvent} (hstep : step s e = some s') :
    Took s e s' := by
  cases e with
  | accept ok =>
    simp only [step] at hstep
    split at hstep
    · rename_i ha
      exact Option.some.inj hstep ▸ .accept ok ha
    · exact absurd hstep (by simp)
  | handleAccept t =>
    simp only [step] at hstep
    split at hstep
    · exact absurd hstep (by simp)
    · rename_i ok ha
      split at hstep
      · rename_i ht
        exact Option.some.inj hstep ▸ .handleAccept t ha ht
      · exact absurd hstep (by simp)
  | start i =>
    simp only [step] at hstep
    split at hstep
    · rename_i hi
      exact Option.some.inj hstep ▸ .start i hi
    · exact absurd hstep (by simp)
  | enter i =>
    simp only [step] at hstep
    split at hstep
    · rename_i h
      exact Option.some.inj hstep ▸ .enter i h.1 h.2
    · exact absurd hstep (by simp)
  | read i =>
    simp only [step] at hstep
    split at hstep
    · rename_i hi
      exact Option.some.inj hstep ▸ .read i hi
    · exact absurd hstep (by simp)
  | handleRead t i =>
    simp only [step] at hstep
    split at hstep
    · rename_i h
      exact Option.some.inj hstep ▸ .handleRead t i h.1 h.2
    · exact absurd hstep (by simp)
  | done t =>
    simp only [step] at hstep
    split at hstep
    · exact absurd hstep (by simp)
    · rename_i i ht
      exact Option.some.inj hstep ▸ .done t ht

section Stages
variable {s : Server}

theorem setStage_stage (s : Server) (i j : ℕ) (x : SessionStage) :
    (s.setStage i x).stage j = if j = i then x else s.stage j :=
  Function.update_apply ..

theorem handleAccept_stage (s : Server) (ok : Bool) (j : ℕ) :
    (s.handleAccept ok).stage j =
      if j = s.current + 1 then .waiting
      else if j = s.current then (if ok then .spawned else .refused) else s.stage j := by
  cases ok <;> simp [handleAccept, startAccept, startSession, setStage, Function.update_apply]

@[simp] theorem handleAccept_busy (s : Server) (ok : Bool) : (s.handleAccept ok).busy = s.busy := by
  cases ok <;> rfl

@[simp] theorem handleAccept_running (s : Server) (ok : Bool) :
    (s.handleAccept ok).running = s.running := by
  cases ok <;> rfl

@[simp] theorem handleAccept_current (s : Server) (ok : Bool) :
    (s.handleAccept ok).current = s.current + 1 := by
  cases ok <;> rfl

@[simp] theorem handleAccept_accepted (s : Server) (ok : Bool) :
    (s.handleAccept ok).accepted = none := by
  cases ok <;> rfl

end Stages

/-- What holds in every state of a run. -/
structure Sound (s : Server) : Prop where
  /-- Sessions are constructed in order, and the last one is being accepted. -/
  waiting : ∀ i, s.stage i = .waiting ↔ i = s.current
  absent : ∀ i, s.stage i = .absent ↔ s.current < i
  running : ∀ i, s.running i = true → (s.stage i).Started
  busy : ∀ t i, s.busy t = some i → s.InRun t ∧ s.stage i = .handling
  /-- A session is handled by one thread. -/
  alone : ∀ t t' i, s.busy t = some i → s.busy t' = some i → t = t'

theorem sound_initial : Sound initial where
  waiting i := by
    rw [initial, startAccept, setStage_stage]
    by_cases hi : i = 0 <;> simp [hi, setStage]
  absent i := by
    rw [initial, startAccept, setStage_stage]
    by_cases hi : i = 0
    · simp [hi, setStage]
    · simp [hi, setStage, Nat.pos_of_ne_zero hi]
  running i h := absurd h (by simp [initial, startAccept, setStage])
  busy t i h := absurd h (by simp [initial, startAccept, setStage])
  alone t t' i h := absurd h (by simp [initial, startAccept, setStage])

section Steps
variable {s s' : Server} {e : ServerEvent}

/-- A session moves on to a stage that is neither of the first two. -/
theorem setStage_sound {i : ℕ} {x : SessionStage} {busy : Thread → Option ℕ} (hs : s.Sound)
    (hi : s.stage i ≠ .waiting ∧ s.stage i ≠ .absent) (hx : x ≠ .waiting ∧ x ≠ .absent)
    (hstarted : (s.stage i).Started → x.Started)
    (hbusy : ∀ t j, busy t = some j → s.InRun t ∧ (s.setStage i x).stage j = .handling)
    (halone : ∀ t t' j, busy t = some j → busy t' = some j → t = t') :
    Sound { s.setStage i x with busy } where
  waiting j := by
    dsimp only
    rw [setStage_stage]
    by_cases hj : j = i
    · subst hj
      rw [if_pos rfl]
      exact iff_of_false hx.1 fun h => hi.1 ((hs.waiting j).mpr h)
    · rw [if_neg hj]
      exact hs.waiting j
  absent j := by
    dsimp only
    rw [setStage_stage]
    by_cases hj : j = i
    · subst hj
      rw [if_pos rfl]
      exact iff_of_false hx.2 fun h => hi.2 ((hs.absent j).mpr h)
    · rw [if_neg hj]
      exact hs.absent j
  running j h := by
    have hj := hs.running j h
    dsimp only
    rw [setStage_stage]
    split
    · rename_i heq
      subst heq
      exact hstarted hj
    · exact hj
  busy t j h := by
    obtain ⟨ht, hj⟩ := hbusy t j h
    refine ⟨?_, hj⟩
    cases t <;> exact ht
  alone := halone

/-- A session that no thread handles moves on. -/
theorem Sound.move (hs : s.Sound) {i : ℕ} {x y : SessionStage} (hi : s.stage i = y)
    (hy : y ≠ .waiting ∧ y ≠ .absent ∧ y ≠ .handling) (hx : x ≠ .waiting ∧ x ≠ .absent)
    (hstarted : y.Started → x.Started) : Sound (s.setStage i x) := by
  subst hi
  refine @setStage_sound s i x s.busy hs ⟨hy.1, hy.2.1⟩ hx hstarted ?_ hs.alone
  intro t j h
  obtain ⟨ht, hj⟩ := hs.busy t j h
  refine ⟨ht, ?_⟩
  rw [setStage_stage, if_neg, hj]
  rintro rfl
  exact hy.2.2 hj

/-- `HandleAccept` leaves the sessions alone that have been started or refused before. -/
theorem Sound.handleAccept_other (hs : s.Sound) (ok : Bool) {j : ℕ} {x : SessionStage}
    (hj : s.stage j = x) (hw : x ≠ .waiting) (ha : x ≠ .absent) :
    (s.handleAccept ok).stage j = x := by
  rw [handleAccept_stage, if_neg, if_neg, hj]
  · rintro rfl
    exact hw (hj.symm.trans ((hs.waiting _).mpr rfl))
  · rintro rfl
    exact ha (hj.symm.trans ((hs.absent _).mpr (Nat.lt_succ_self _)))

theorem Sound.handleAccept (hs : s.Sound) (ok : Bool) : (s.handleAccept ok).Sound where
  waiting j := by
    rw [handleAccept_stage, handleAccept_current]
    by_cases hj : j = s.current + 1
    · simp [hj]
    · rw [if_neg hj]
      by_cases hjc : j = s.current
      · cases ok <;> simp [hjc]
      · rw [if_neg hjc]
        exact iff_of_false (fun h => hjc ((hs.waiting j).mp h)) hj
  absent j := by
    rw [handleAccept_stage, handleAccept_current]
    by_cases hj : j = s.current + 1
    · simp [hj]
    · rw [if_neg hj]
      by_cases hjc : j = s.current
      · cases ok <;> simp [hjc]
      · rw [if_neg hjc, hs.absent]
        omega
  running j h := by
    rw [handleAccept_running] at h
    have hj := hs.running j h
    rw [hs.handleAccept_other ok (j := j) rfl]
    · exact hj
    · intro h
      rw [h] at hj
      exact hj
    · intro h
      rw [h] at hj
      exact hj
  busy t j h := by
    rw [handleAccept_busy] at h
    obtain ⟨ht, hj⟩ := hs.busy t j h
    refine ⟨?_, hs.handleAccept_other ok hj (by simp) (by simp)⟩
    cases t with
    | none => trivial
    | some k =>
      rw [InRun, handleAccept_running]
      exact ht
  alone t t' j h h' := by
    rw [handleAccept_busy] at h h'
    exact hs.alone t t' j h h'

theorem Sound.enter (hs : s.Sound) {i : ℕ} (hi : (s.stage i).Started) :
    Sound { s with running := Function.update s.running i true } where
  waiting := hs.waiting
  absent := hs.absent
  running j h := by
    dsimp only at h
    rw [Function.update_apply] at h
    split at h
    · rename_i hj
      subst hj
      exact hi
    · exact hs.running j h
  busy t j h := by
    obtain ⟨ht, hj⟩ := hs.busy t j h
    refine ⟨?_, hj⟩
    cases t with
    | none => trivial
    | some k =>
      rw [InRun]
      dsimp only
      rw [Function.update_apply]
      split
      · rfl
      · exact ht
  alone := hs.alone

/-- An idle thread takes a session that is queued. -/
theorem Sound.handleRead (hs : s.Sound) {t : Thread} {i : ℕ} (hi : s.stage i = .queued)
    (ht : s.Idle t) :
    Sound { s.setStage i .handling with busy := Function.update s.busy t (some i) } := by
  have hno (t' : Thread) : s.busy t' ≠ some i := by
    intro h
    exact absurd (hi.symm.trans (hs.busy t' i h).2) (by simp)
  refine setStage_sound hs (by simp [hi]) (by simp) (fun _ => trivial) ?_ ?_
  · intro t' j h
    rw [Function.update_apply] at h
    rw [setStage_stage]
    split at h
    · rename_i htt
      rw [htt, if_pos (Option.some.inj h).symm]
      exact ⟨ht.1, rfl⟩
    · obtain ⟨ht', hj⟩ := hs.busy t' j h
      refine ⟨ht', ?_⟩
      rw [if_neg, hj]
      rintro rfl
      exact hno t' h
  · intro t₁ t₂ j h₁ h₂
    rw [Function.update_apply] at h₁ h₂
    split at h₁ <;> split at h₂
    · simp_all
    · rw [← Option.some.inj h₁] at h₂
      exact absurd h₂ (hno t₂)
    · rw [← Option.some.inj h₂] at h₁
      exact absurd h₁ (hno t₁)
    · exact hs.alone t₁ t₂ j h₁ h₂

/-- The thread is idle again, and the session is no other's. -/
theorem Sound.done (hs : s.Sound) {t : Thread} {i : ℕ} (ht : s.busy t = some i) :
    Sound { s.setStage i .handled with busy := Function.update s.busy t none } := by
  obtain ⟨hrun, hi⟩ := hs.busy t i ht
  have hother {t' : Thread} {j : ℕ} (h : Function.update s.busy t none t' = some j) :
      t' ≠ t ∧ s.busy t' = some j := by
    rw [Function.update_apply] at h
    split at h
    · exact absurd h (by simp)
    · exact ⟨by assumption, h⟩
  refine setStage_sound hs (by simp [hi]) (by simp) (fun _ => trivial) ?_ ?_
  · intro t' j h
    obtain ⟨hne, hbusy⟩ := hother h
    obtain ⟨ht', hj⟩ := hs.busy t' j hbusy
    refine ⟨ht', ?_⟩
    rw [setStage_stage, if_neg, hj]
    rintro rfl
    exact hne (hs.alone t' t j hbusy ht)
  · intro t₁ t₂ j h₁ h₂
    exact hs.alone t₁ t₂ j (hother h₁).2 (hother h₂).2

theorem Sound.step (hs : s.Sound) (h : Took s e s') : s'.Sound := by
  cases h with
  | accept ok ha => exact ⟨hs.waiting, hs.absent, hs.running, hs.busy, hs.alone⟩
  | handleAccept t ha ht => exact hs.handleAccept _
  | start i hi => exact hs.move (x := .reading) hi (by simp) (by simp) fun _ => trivial
  | enter i hi hr => exact hs.enter hi
  | read i hi => exact hs.move (x := .queued) hi (by simp) (by simp) fun _ => trivial
  | handleRead t i hi ht => exact hs.handleRead hi ht
  | done t ht => exact hs.done ht

/-- The thread waits for something to be queued, or will do so next. -/
def Ready (s : Server) : Thread → Prop
  | none => s.Idle none
  | some i => s.Idle (some i) ∨ ((s.stage i).Started ∧ s.running i = false)

/-- There are more threads in `run` or on their way there than sessions that are handled. -/
theorem Sound.exists_ready (hs : s.Sound) : ∃ t, s.Ready t := by
  by_contra hnone
  let A : Finset ℕ := (Finset.range (s.current + 1)).filter fun i => (s.stage i).Started
  let T : Finset Thread := insert none (A.image some)
  have hcard : T.card = A.card + 1 := by
    rw [Finset.card_insert_of_notMem (by simp),
      Finset.card_image_of_injective A (Option.some_injective ℕ)]
  have hbusy (t : Thread) (ht : t ∈ T) : ∃ i, s.busy t = some i := by
    by_contra h
    have hidle : s.busy t = none := Option.eq_none_iff_forall_ne_some.mpr fun i hi => h ⟨i, hi⟩
    rcases Finset.mem_insert.mp ht with rfl | ht
    · exact hnone ⟨none, trivial, hidle⟩
    · obtain ⟨i, hi, rfl⟩ := Finset.mem_image.mp ht
      have hstarted := (Finset.mem_filter.mp hi).2
      cases hr : s.running i with
      | true => exact hnone ⟨some i, .inl ⟨hr, hidle⟩⟩
      | false => exact hnone ⟨some i, .inr ⟨hstarted, hr⟩⟩
  have hmaps : ∀ t ∈ T, (s.busy t).getD 0 ∈ A := by
    intro t ht
    obtain ⟨i, hi⟩ := hbusy t ht
    have hstage := (hs.busy t i hi).2
    have hle : ¬ s.current < i := by
      intro h
      rw [(hs.absent i).mpr h] at hstage
      exact absurd hstage (by simp)
    rw [hi, Option.getD_some, Finset.mem_filter, Finset.mem_range, hstage]
    exact ⟨by omega, trivial⟩
  have hinj : ∀ t ∈ T, ∀ t' ∈ T, (s.busy t).getD 0 = (s.busy t').getD 0 → t = t' := by
    intro t ht t' ht' heq
    obtain ⟨i, hi⟩ := hbusy t ht
    obtain ⟨j, hj⟩ := hbusy t' ht'
    rw [hi, hj, Option.getD_some, Option.getD_some] at heq
    exact hs.alone t t' i hi (heq ▸ hj)
  have hle := Finset.card_le_card_of_injOn (fun t => (s.busy t).getD 0) hmaps
    fun t ht t' ht' => hinj t ht t' ht'
  omega

/-- The same state, or the one after a thread has called `io_service_.run()`. -/
def Soon (s s₁ : Server) : Prop := s₁ = s ∨ ∃ i, step s (.enter i) = some s₁

theorem Sound.exists_idle (hs : s.Sound) : ∃ s₁ t, s.Soon s₁ ∧ s₁.Idle t ∧
    s₁.accepted = s.accepted ∧ s₁.stage = s.stage := by
  obtain ⟨t, ht⟩ := hs.exists_ready
  cases t with
  | none => exact ⟨s, none, .inl rfl, ht, rfl, rfl⟩
  | some i =>
    rcases ht with ht | ⟨hstarted, hr⟩
    · exact ⟨s, some i, .inl rfl, ht, rfl, rfl⟩
    · have hidle : s.busy (some i) = none := by
        rw [Option.eq_none_iff_forall_ne_some]
        intro j hj
        have hrun : s.running i = true := (hs.busy (some i) j hj).1
        exact absurd (hr.symm.trans hrun) (by simp)
      refine ⟨{ s with running := Function.update s.running i true }, some i, .inr ⟨i, ?_⟩,
        ⟨?_, hidle⟩, rfl, rfl⟩
      · rw [Server.step, if_pos ⟨hstarted, hr⟩]
      · exact Function.update_self ..

end Steps

/-! ### Runs -/

/-- The state after a run, if every event of it can happen. -/
def after (es : List ServerEvent) : Option Server := Traces.after step initial es

/-- The session that a connection is accepted for. -/
def connecting (s : Server) : ServerEvent → Option ℕ
  | .accept true => some s.current
  | _ => none

/-- The session that `StartSession` is called for. -/
def starting (s : Server) : ServerEvent → Option ℕ
  | .handleAccept _ => if s.accepted = some true then some s.current else none
  | _ => none

def connections (es : List ServerEvent) : List ℕ := Traces.log step connecting initial es

def started (es : List ServerEvent) : List ℕ := Traces.log step starting initial es

/-- The connection that `HandleAccept` has not been called for. -/
def unstarted (s : Server) : List ℕ := if s.accepted = some true then [s.current] else []

theorem connections_snoc {es : List ServerEvent} {s : Server} (h : after es = some s)
    (e : ServerEvent) : connections (es ++ [e]) = connections es ++ (connecting s e).toList :=
  Traces.log_snoc h e

theorem started_snoc {es : List ServerEvent} {s : Server} (h : after es = some s)
    (e : ServerEvent) : started (es ++ [e]) = started es ++ (starting s e).toList :=
  Traces.log_snoc h e

/-- What a run says about its connections. -/
structure Kept (es : List ServerEvent) (s : Server) : Prop where
  sound : s.Sound
  inOrder : started es ++ s.unstarted = connections es
  before : ∀ i ∈ started es, i < s.current
  once : (started es).Pairwise (· < ·)

theorem Kept.step {es : List ServerEvent} {s s' : Server} {e : ServerEvent} (hs : Kept es s)
    (hes : after es = some s) (h : Took s e s') : Kept (es ++ [e]) s' := by
  have hsound := hs.sound.step h
  have hquiet (hconnecting : connecting s e = none) (hstarting : starting s e = none)
      (haccepted : s'.accepted = s.accepted) (hcurrent : s'.current = s.current) :
      Kept (es ++ [e]) s' := by
    have hnone : started (es ++ [e]) = started es := by
      rw [started_snoc hes, hstarting]
      exact List.append_nil _
    refine ⟨hsound, ?_, ?_, ?_⟩
    · rw [hnone, connections_snoc hes, hconnecting, unstarted, haccepted, hcurrent]
      exact hs.inOrder.trans (List.append_nil _).symm
    · rw [hnone, hcurrent]
      exact hs.before
    · rw [hnone]
      exact hs.once
  cases h with
  | accept ok ha =>
    have hnone : started (es ++ [.accept ok]) = started es := by
      rw [started_snoc hes]
      exact List.append_nil _
    have hbefore : started es = connections es := by
      have hinOrder := hs.inOrder
      rwa [unstarted, ha, if_neg (by simp), List.append_nil] at hinOrder
    refine ⟨hsound, ?_, ?_, ?_⟩
    · rw [hnone, connections_snoc hes, hbefore]
      cases ok <;> rfl
    · rw [hnone]
      exact hs.before
    · rw [hnone]
      exact hs.once
  | @handleAccept t ok ha ht =>
    have hmore : started (es ++ [.handleAccept t]) = started es ++ s.unstarted := by
      rw [started_snoc hes, starting, unstarted]
      split <;> rfl
    have hcurrent (i : ℕ) (hi : i ∈ s.unstarted) : i = s.current := by
      rw [unstarted] at hi
      split at hi
      · exact List.mem_singleton.mp hi
      · exact absurd hi List.not_mem_nil
    refine ⟨hsound, ?_, ?_, ?_⟩
    · rw [hmore, connections_snoc hes, hs.inOrder, unstarted, handleAccept_accepted,
        if_neg (by simp)]
      rfl
    · rw [hmore, handleAccept_current]
      intro i hi
      rcases List.mem_append.mp hi with hi | hi
      · exact (hs.before i hi).trans (Nat.lt_succ_self _)
      · exact (hcurrent i hi).trans_lt (Nat.lt_succ_self _)
    · rw [hmore, List.pairwise_append]
      refine ⟨hs.once, ?_, fun i hi j hj => (hs.before i hi).trans_eq (hcurrent j hj).symm⟩
      rw [unstarted]
      split <;> simp
  | start | enter | read | handleRead | done => exact hquiet rfl rfl rfl rfl

theorem kept_of_run {es : List ServerEvent} {s : Server} (h : after es = some s) : Kept es s := by
  refine Traces.after_invariant (I := Kept) ⟨sound_initial, rfl, by simp [started, Traces.log], ?_⟩
    (fun es s e s' hes hI hstep => hI.step hes (took_of_step hstep)) h
  exact List.Pairwise.nil

/-- However many handlers keep their threads: what is queued can be run, at the latest when a
thread that is on its way has got to `io_service_.run()`. -/
structure Serves (es : List ServerEvent) (s : Server) : Prop where
  accepts : s.accepted ≠ none → ∃ s₁ t s', s.Soon s₁ ∧ step s₁ (.handleAccept t) = some s'
  reads : ∀ i, s.stage i = .queued → ∃ s₁ t s', s.Soon s₁ ∧ step s₁ (.handleRead t i) = some s'
  /-- Connections are started in the order in which they were accepted, each of them once, and
  all but the one that `HandleAccept` is queued for. -/
  started : started es ++ s.unstarted = connections es ∧ (connections es).Pairwise (· < ·)
  /-- One session at a time is being accepted. -/
  waiting : ∀ i, s.stage i = .waiting ↔ i = s.current

/-- In every run of the server. -/
theorem serves_of_run (es : List ServerEvent) (s : Server) (hrun : after es = some s) :
    Serves es s := by
  have hkept := kept_of_run hrun
  obtain ⟨s₁, t, hsoon, ht, haccepted, hstage⟩ := hkept.sound.exists_idle
  refine ⟨fun ha => ?_, fun i hi => ?_, ⟨hkept.inOrder, ?_⟩, hkept.sound.waiting⟩
  · obtain ⟨ok, hok⟩ := Option.ne_none_iff_exists'.mp ha
    exact ⟨s₁, t, s₁.handleAccept ok, hsoon, by simp only [step, haccepted, hok, if_pos ht]⟩
  · exact ⟨s₁, t, _, hsoon, by rw [step, hstage, if_pos ⟨hi, ht⟩]⟩
  · rw [← hkept.inOrder, List.pairwise_append]
    refine ⟨hkept.once, ?_, fun i hi j hj => ?_⟩
    · rw [unstarted]
      split <;> simp
    · rw [unstarted] at hj
      split at hj
      · rw [List.mem_singleton.mp hj]
        exact hkept.before i hi
      · exact absurd hj List.not_mem_nil

end Server

namespace Demo

/-- The threads of `main` and of the first session hang in the handlers of two sessions, and the
thread of the second one is still on its way. -/
def hanging : List ServerEvent :=
  [.accept true, .handleAccept none, .start 0, .read 0, .handleRead none 0, .enter 0,
    .accept true, .handleAccept (some 0), .start 1, .read 1, .handleRead (some 0) 1, .accept true]

end Demo

theorem Server.serves_of_run_hanging :
    ∃ s, Server.after Demo.hanging = some s ∧ Server.Serves Demo.hanging s :=
  ⟨_, rfl, Server.serves_of_run Demo.hanging _ rfl⟩

end Webserver

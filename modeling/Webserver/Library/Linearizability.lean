import Mathlib.Data.List.Basic
import Webserver.Library.Runs

/-!
# Linearizable histories

A history lists the invocations and the answers of operations in the order in which they were
seen. It is linearizable over a sequential machine if the machine gives the same answers in
some order that never turns around two operations of which one was answered before the other
was invoked. Completion order is such an order wherever it is a run of the machine.
-/

set_option autoImplicit false

namespace Linearizability

universe u v w x

inductive Event (ι : Type u) (β : Type v) where
  | invoked (i : ι)
  | answered (i : ι) (b : β)
  deriving DecidableEq

namespace Event
variable {ι : Type u} {β : Type v}

def op : Event ι β → ι
  | .invoked i => i
  | .answered i _ => i

def answer : Event ι β → Option (ι × β)
  | .invoked _ => none
  | .answered i b => some (i, b)

end Event

section Histories
variable {ι : Type u} {β : Type v} {h l : List (Event ι β)} {i : ι} {b : β}

/-- The answers in completion order. -/
def answers (h : List (Event ι β)) : List (ι × β) := h.filterMap Event.answer

@[simp] theorem answers_append (h l : List (Event ι β)) :
    answers (h ++ l) = answers h ++ answers l := List.filterMap_append

@[simp] theorem answers_nil : answers ([] : List (Event ι β)) = [] := rfl

@[simp] theorem answers_invoked (i : ι) (l : List (Event ι β)) :
    answers (.invoked i :: l) = answers l := rfl

@[simp] theorem answers_answered (i : ι) (b : β) (l : List (Event ι β)) :
    answers (.answered i b :: l) = (i, b) :: answers l := rfl

theorem mem_answers : (i, b) ∈ answers h ↔ Event.answered i b ∈ h := by
  unfold answers
  rw [List.mem_filterMap]
  constructor
  · rintro ⟨ev, hev, heq⟩
    cases ev with
    | invoked j => exact absurd heq (by simp [Event.answer])
    | answered j c =>
      obtain ⟨rfl, rfl⟩ := Prod.mk.inj (Option.some.inj heq)
      exact hev
  · exact fun hev => ⟨_, hev, rfl⟩

/-- Nothing is heard of an operation before its invocation. -/
def WellFormed (h : List (Event ι β)) : Prop :=
  ∀ l j l', h = l ++ .invoked j :: l' → ∀ ev ∈ l, ev.op ≠ j

theorem wellFormed_nil : WellFormed ([] : List (Event ι β)) := by
  intro l j l' heq
  exact absurd heq (by simp)

theorem WellFormed.snoc (hh : WellFormed h) {ev : Event ι β}
    (hev : ∀ j, ev = .invoked j → ∀ ev' ∈ h, ev'.op ≠ j) : WellFormed (h ++ [ev]) := by
  intro l j l' heq
  rcases List.eq_nil_or_concat l' with rfl | ⟨l'', ev', rfl⟩
  · obtain ⟨rfl, hlast⟩ := List.append_inj' heq rfl
    exact hev j (List.cons.inj hlast).1
  · rw [List.concat_eq_append, ← List.cons_append, ← List.append_assoc] at heq
    exact hh l j l'' (List.append_inj' heq rfl).1

end Histories

/-- A sequential explanation of a history. -/
structure Linearizes {σ : Type w} {α : Type x} {ι : Type u} {β : Type v}
    (step : σ → α → β × σ) (s : σ) (request : ι → α) (h : List (Event ι β))
    (order : List (ι × β)) : Prop where
  complete : order.Perm (answers h)
  sequential : Runs.outputs step s (order.map fun p => request p.1) = order.map Prod.snd
  realTime : ∀ l i b l' j l'', h = l ++ .answered i b :: (l' ++ .invoked j :: l'') →
    ∀ b', (j, b') ∈ order → [(i, b), (j, b')].Sublist order

def Linearizable {σ : Type w} {α : Type x} {ι : Type u} {β : Type v}
    (step : σ → α → β × σ) (s : σ) (request : ι → α) (h : List (Event ι β)) : Prop :=
  ∃ order, Linearizes step s request h order

/-- Completion order explains a history if it is a run of the machine. -/
theorem linearizable_of_completion {σ : Type w} {α : Type x} {ι : Type u} {β : Type v}
    {step : σ → α → β × σ} {s : σ} {request : ι → α} {h : List (Event ι β)}
    (hh : WellFormed h)
    (hseq : Runs.outputs step s ((answers h).map fun p => request p.1) =
      (answers h).map Prod.snd) : Linearizable step s request h := by
  refine ⟨answers h, List.Perm.refl _, hseq, fun l i b l' j l'' heq b' hb' => ?_⟩
  -- the answer of `j` comes behind its invocation, which comes behind the answer of `i`
  have hbefore := hh (l ++ .answered i b :: l') j l'' (by rw [heq]; simp)
  rw [heq] at hb' ⊢
  have hj : (j, b') ∈ answers l'' := by
    rw [mem_answers] at hb' ⊢
    have hsplit : Event.answered j b' ∈ l ++ .answered i b :: l' ∨
        Event.answered j b' ∈ l'' := by
      simpa [or_assoc] using hb'
    exact hsplit.resolve_left fun hmem => hbefore _ hmem rfl
  rw [answers_append, answers_answered, answers_append, answers_invoked]
  refine (List.Sublist.cons_cons _ ?_).trans (List.sublist_append_right _ _)
  exact (List.singleton_sublist.mpr hj).trans (List.sublist_append_right _ _)

/-- The answers so far are those of the machine in completion order, which is in `s'` now. -/
structure Explained {σ : Type w} {α : Type x} {ι : Type u} {β : Type v} (step : σ → α → β × σ)
    (s : σ) (request : ι → α) (h : List (Event ι β)) (s' : σ) : Prop where
  wellFormed : WellFormed h
  outputs : Runs.outputs step s ((answers h).map fun p => request p.1) = (answers h).map Prod.snd
  final : Runs.final step s ((answers h).map fun p => request p.1) = s'

section Explained
variable {σ : Type w} {α : Type x} {ι : Type u} {β : Type v} {step : σ → α → β × σ} {s s' s'' : σ}
  {request : ι → α} {h : List (Event ι β)} {i : ι} {b : β}

theorem explained_nil (step : σ → α → β × σ) (s : σ) (request : ι → α) :
    Explained step s request ([] : List (Event ι β)) s := ⟨wellFormed_nil, rfl, rfl⟩

namespace Explained
variable (he : Explained step s request h s')
include he

theorem invoked (hi : ∀ ev ∈ h, ev.op ≠ i) : Explained step s request (h ++ [.invoked i]) s' := by
  have hanswers : answers (h ++ [.invoked i]) = answers h := by simp
  refine ⟨he.wellFormed.snoc fun j hj => ?_, ?_, ?_⟩
  · obtain rfl := Event.invoked.inj hj
    exact hi
  · rw [hanswers, he.outputs]
  · rw [hanswers, he.final]

/-- The machine answers the same and goes on. -/
theorem answered (hstep : step s' (request i) = (b, s'')) :
    Explained step s request (h ++ [.answered i b]) s'' := by
  refine ⟨he.wellFormed.snoc fun j hj => absurd hj (by simp), ?_, ?_⟩
  · rw [answers_append, List.map_append, Runs.outputs_append, he.outputs, he.final]
    simp [hstep]
  · rw [answers_append, List.map_append, Runs.final_append, he.final]
    simp [hstep]

theorem linearizable : Linearizable step s request h :=
  linearizable_of_completion he.wellFormed he.outputs

end Explained

end Explained

end Linearizability

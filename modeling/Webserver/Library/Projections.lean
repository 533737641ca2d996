import Webserver.Library.Runs
import Webserver.Library.Traces

/-!
# A part of a machine

A machine whose events may be impossible, and a deterministic machine that takes some of these
events as its own inputs. If every event is either passed over or answered as the part answers
it, then what a run answers to the events of the part are the outputs of the part.
-/

set_option autoImplicit false

namespace Projections

open Traces

universe u v w x y

variable {σ : Type u} {ε : Type v} {τ : Type w} {α : Type x} {β : Type y}

/-- The answers to the events that are read. -/
def seenBy (read : ε → Option α) (answer : σ → ε → β) (s : σ) (e : ε) : Option β :=
  (read e).map fun _ => answer s e

/-- `A` is what is known of every event and `B` of every output of the part. -/
structure Follows (step : σ → ε → Option σ) (answer : σ → ε → β) (part : τ → α → β × τ)
    (read : ε → Option α) (R : σ → τ → Prop) (A : ε → Prop) (B : β → Prop) : Prop where
  taken : ∀ s t e a s', A e → R s t → read e = some a → step s e = some s' →
    B (part t a).1 → answer s e = (part t a).1 ∧ R s' (part t a).2
  passed : ∀ s t e s', A e → R s t → read e = none → step s e = some s' → R s' t

variable {step : σ → ε → Option σ} {answer : σ → ε → β} {part : τ → α → β × τ}
  {read : ε → Option α} {R : σ → τ → Prop} {A : ε → Prop} {B : β → Prop}

theorem Follows.run (h : Follows step answer part read R A B) {s s' : σ} {t : τ} {es : List ε}
    (hR : R s t) (has : ∀ e ∈ es, A e) (hrun : after step s es = some s')
    (hout : ∀ b ∈ Runs.outputs part t (es.filterMap read), B b) :
    log step (seenBy read answer) s es = Runs.outputs part t (es.filterMap read) ∧
      R s' (Runs.final part t (es.filterMap read)) := by
  induction es generalizing s t with
  | nil =>
    obtain rfl := Option.some.inj hrun
    exact ⟨rfl, hR⟩
  | cons e es ih =>
    rw [after_cons] at hrun
    obtain ⟨s₁, hs₁, hrest⟩ := Option.bind_eq_some_iff.mp hrun
    have hA : A e := has e List.mem_cons_self
    have hrests : ∀ e' ∈ es, A e' := fun e' he' => has e' (List.mem_cons_of_mem e he')
    rw [log, hs₁]
    dsimp only
    cases hread : read e with
    | none =>
      rw [List.filterMap_cons_none hread] at hout ⊢
      have hnext := h.passed s t e s₁ hA hR hread hs₁
      obtain ⟨hlog, hfinal⟩ := ih hnext hrests hrest hout
      rw [hlog, seenBy, hread]
      exact ⟨rfl, hfinal⟩
    | some a =>
      rw [List.filterMap_cons_some hread] at hout ⊢
      rw [Runs.outputs_cons, List.forall_mem_cons] at hout
      obtain ⟨heq, hnext⟩ := h.taken s t e a s₁ hA hR hread hs₁ hout.1
      obtain ⟨hlog, hfinal⟩ := ih hnext hrests hrest hout.2
      rw [hlog, seenBy, hread, Runs.outputs_cons, ← heq]
      exact ⟨rfl, hfinal⟩

end Projections

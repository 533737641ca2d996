import Mathlib.Data.List.Basic

/-!
# Runs of a deterministic machine

A step takes an input and gives an output and the next state. A run is a list of inputs; the
two rules are the ones every result about runs here goes through: an invariant is kept by a
whole run if every step keeps it, and two machines related by a simulation answer alike.
-/

set_option autoImplicit false

namespace Runs

universe u v w x

section Machine
variable {σ : Type u} {α : Type v} {β : Type w} (step : σ → α → β × σ)

def outputs : σ → List α → List β
  | _, [] => []
  | s, a :: as => (step s a).1 :: outputs (step s a).2 as

def final : σ → List α → σ
  | s, [] => s
  | s, a :: as => final (step s a).2 as

@[simp] theorem outputs_nil (s : σ) : outputs step s [] = [] := rfl

@[simp] theorem outputs_cons (s : σ) (a : α) (as : List α) :
    outputs step s (a :: as) = (step s a).1 :: outputs step (step s a).2 as := rfl

@[simp] theorem final_nil (s : σ) : final step s [] = s := rfl

@[simp] theorem final_cons (s : σ) (a : α) (as : List α) :
    final step s (a :: as) = final step (step s a).2 as := rfl

theorem final_append (s : σ) (as bs : List α) :
    final step s (as ++ bs) = final step (final step s as) bs := by
  induction as generalizing s with
  | nil => rfl
  | cons a as ih => exact ih _

theorem outputs_append (s : σ) (as bs : List α) :
    outputs step s (as ++ bs) = outputs step s as ++ outputs step (final step s as) bs := by
  induction as generalizing s with
  | nil => rfl
  | cons a as ih => simp [ih]

variable {step}

/-- The invariant rule; `A` is what is known of every input of the run. -/
theorem final_invariant {I : σ → Prop} {A : α → Prop}
    (hstep : ∀ s a, A a → I s → I (step s a).2) {s : σ} (hs : I s) {as : List α}
    (has : ∀ a ∈ as, A a) : I (final step s as) := by
  induction as generalizing s with
  | nil => exact hs
  | cons a as ih =>
    exact ih (hstep s a (has a List.mem_cons_self) hs) fun b hb => has b (List.mem_cons_of_mem a hb)

/-- What every step from the invariant answers, every output of a run is. -/
theorem forall_mem_outputs {I : σ → Prop} {A : α → Prop} {P : β → Prop}
    (hstep : ∀ s a, A a → I s → P (step s a).1 ∧ I (step s a).2) {s : σ} (hs : I s)
    {as : List α} (has : ∀ a ∈ as, A a) : ∀ b ∈ outputs step s as, P b := by
  induction as generalizing s with
  | nil => exact fun b hb => absurd hb List.not_mem_nil
  | cons a as ih =>
    obtain ⟨hout, hnext⟩ := hstep s a (has a List.mem_cons_self) hs
    rw [outputs_cons, List.forall_mem_cons]
    exact ⟨hout, ih hnext fun b hb => has b (List.mem_cons_of_mem a hb)⟩

end Machine

/-- The simulation rule; `A` is what is known of every input and `B` of every output of the
second machine. -/
theorem outputs_of_simulation {σ : Type u} {τ : Type x} {α : Type v} {β : Type w}
    {step : σ → α → β × σ} {step' : τ → α → β × τ} {R : σ → τ → Prop} {A : α → Prop}
    {B : β → Prop}
    (hstep : ∀ s t a, A a → B (step' t a).1 → R s t →
      (step s a).1 = (step' t a).1 ∧ R (step s a).2 (step' t a).2)
    {s : σ} {t : τ} (hR : R s t) {as : List α} (has : ∀ a ∈ as, A a)
    (hout : ∀ b ∈ outputs step' t as, B b) : outputs step s as = outputs step' t as := by
  induction as generalizing s t with
  | nil => rfl
  | cons a as ih =>
    rw [outputs_cons, List.forall_mem_cons] at hout
    obtain ⟨heq, hnext⟩ := hstep s t a (has a List.mem_cons_self) hout.1 hR
    rw [outputs_cons, outputs_cons, heq,
      ih hnext (fun b hb => has b (List.mem_cons_of_mem a hb)) hout.2]

end Runs

import Webserver.Library.Traces

/-!
# Machines that come to rest

Some events of a machine answer to what is pending, the others start something new. Where the
former lower a measure, a run of them is no longer than the measure, and one of these runs comes
to rest.
-/

set_option autoImplicit false

namespace Draining

open Traces

universe u v

variable {σ : Type u} {ε : Type v}

/-- No event of the kind can happen. -/
def Quiet (step : σ → ε → Option σ) (P : ε → Prop) (s : σ) : Prop := ∀ e, P e → step s e = none

/-- From the invariant, the events of the kind keep it and lower the measure. -/
structure Drains (step : σ → ε → Option σ) (P : ε → Prop) (I : σ → Prop) (measure : σ → ℕ) :
    Prop where
  kept : ∀ s e s', P e → I s → step s e = some s' → I s'
  lower : ∀ s e s', P e → I s → step s e = some s' → measure s' < measure s

variable {step : σ → ε → Option σ} {P : ε → Prop} {I : σ → Prop} {measure : σ → ℕ}

/-- No schedule of such events goes on forever. -/
theorem Drains.length_le (h : Drains step P I measure) {s s' : σ} {es : List ε} (hs : I s)
    (hes : ∀ e ∈ es, P e) (hrun : after step s es = some s') :
    es.length + measure s' ≤ measure s := by
  induction es generalizing s with
  | nil =>
    obtain rfl := Option.some.inj hrun
    simp
  | cons e es ih =>
    rw [after_cons] at hrun
    obtain ⟨s₁, hs₁, hrest⟩ := Option.bind_eq_some_iff.mp hrun
    have hP : P e := hes e List.mem_cons_self
    have hle := ih (h.kept s e s₁ hP hs hs₁) (fun e' he' => hes e' (List.mem_cons_of_mem e he')) hrest
    have hlt := h.lower s e s₁ hP hs hs₁
    rw [List.length_cons]
    omega

theorem Drains.exists_quiet (h : Drains step P I measure) {s : σ} (hs : I s) :
    ∃ es s', (∀ e ∈ es, P e) ∧ after step s es = some s' ∧ Quiet step P s' := by
  induction hm : measure s using Nat.strongRecOn generalizing s with
  | _ m ih =>
    by_cases hquiet : Quiet step P s
    · exact ⟨[], s, by simp, rfl, hquiet⟩
    · obtain ⟨e, he⟩ := not_forall.mp hquiet
      obtain ⟨hP, hne⟩ := Classical.not_imp.mp he
      obtain ⟨s₁, hs₁⟩ := Option.ne_none_iff_exists'.mp hne
      have hlt : measure s₁ < m := hm ▸ h.lower s e s₁ hP hs hs₁
      obtain ⟨es, s', hes, hrun, hq⟩ := ih (measure s₁) hlt (h.kept s e s₁ hP hs hs₁) rfl
      refine ⟨e :: es, s', ?_, ?_, hq⟩
      · rw [List.forall_mem_cons]
        exact ⟨hP, hes⟩
      · rw [after_cons, hs₁]
        exact hrun

end Draining

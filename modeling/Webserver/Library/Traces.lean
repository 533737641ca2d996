import Mathlib.Data.List.Induction

/-!
# Runs of a machine whose events may be impossible

A step takes an event and gives the next state, if the event can happen. What is observed at
the steps of a run makes its log.
-/

set_option autoImplicit false

namespace Traces

universe u v w

variable {σ : Type u} {ε : Type v} {β : Type w} (step : σ → ε → Option σ)

/-- The state after a run, if every event of it can happen. -/
def after (s : σ) (es : List ε) : Option σ := es.foldlM step s

@[simp] theorem after_nil (s : σ) : after step s [] = some s := rfl

theorem after_cons (s : σ) (e : ε) (es : List ε) :
    after step s (e :: es) = (step s e).bind fun s' => after step s' es := by
  rw [after, List.foldlM_cons]
  rfl

theorem after_append (s : σ) (es fs : List ε) :
    after step s (es ++ fs) = (after step s es).bind fun s' => after step s' fs := by
  rw [after, List.foldlM_append]
  rfl

theorem after_snoc (s : σ) (es : List ε) (e : ε) :
    after step s (es ++ [e]) = (after step s es).bind fun s' => step s' e := by
  rw [after_append]
  congr 1
  funext s'
  rw [after_cons]
  exact Option.bind_fun_some _

/-- What `observe` sees at the steps of a run, in order. -/
def log (observe : σ → ε → Option β) : σ → List ε → List β
  | _, [] => []
  | s, e :: es =>
    (observe s e).toList ++
      match step s e with
      | none => []
      | some s' => log observe s' es

variable {step} {observe : σ → ε → Option β}

theorem log_append {s s' : σ} {es : List ε} (h : after step s es = some s') (fs : List ε) :
    log step observe s (es ++ fs) = log step observe s es ++ log step observe s' fs := by
  induction es generalizing s with
  | nil =>
    obtain rfl := Option.some.inj h
    rfl
  | cons e es ih =>
    rw [after_cons] at h
    obtain ⟨s₁, hs₁, hrest⟩ := Option.bind_eq_some_iff.mp h
    rw [List.cons_append, log, log, hs₁]
    dsimp only
    rw [ih hrest, List.append_assoc]

theorem log_snoc {s s' : σ} {es : List ε} (h : after step s es = some s') (e : ε) :
    log step observe s (es ++ [e]) = log step observe s es ++ (observe s' e).toList := by
  rw [log_append h, log]
  congr 1
  cases step s' e <;> exact List.append_nil _

/-- What is in the log of a run was observed at one of its steps. -/
theorem exists_of_mem_log {s s' : σ} {es : List ε} (h : after step s es = some s') {b : β}
    (hb : b ∈ log step observe s es) : ∃ es₁ e es₂ s₁ s₂, es = es₁ ++ e :: es₂ ∧
      after step s es₁ = some s₁ ∧ step s₁ e = some s₂ ∧ observe s₁ e = some b := by
  induction es generalizing s with
  | nil => exact absurd hb List.not_mem_nil
  | cons e es ih =>
    rw [after_cons] at h
    obtain ⟨s₁, hs₁, hrest⟩ := Option.bind_eq_some_iff.mp h
    rw [log, hs₁] at hb
    rcases List.mem_append.mp hb with hb | hb
    · exact ⟨[], e, es, s, s₁, rfl, rfl, hs₁, Option.mem_toList.mp hb⟩
    · obtain ⟨es₁, f, es₂, s₂, s₃, rfl, hafter, hstep, hobserve⟩ := ih hrest hb
      refine ⟨e :: es₁, f, es₂, s₂, s₃, rfl, ?_, hstep, hobserve⟩
      rw [after_cons, hs₁]
      exact hafter

/-- Every step of a run happens where `P` allows it. -/
def Along (step : σ → ε → Option σ) (P : σ → ε → Prop) : σ → List ε → Prop
  | _, [] => True
  | s, e :: es => P s e ∧ ∀ s', step s e = some s' → Along step P s' es

theorem along_snoc {P : σ → ε → Prop} {s s' : σ} {es : List ε} (h : after step s es = some s')
    (e : ε) : Along step P s (es ++ [e]) ↔ Along step P s es ∧ P s' e := by
  induction es generalizing s with
  | nil =>
    obtain rfl := Option.some.inj h
    simp [Along]
  | cons f es ih =>
    rw [after_cons] at h
    obtain ⟨s₁, hs₁, hrest⟩ := Option.bind_eq_some_iff.mp h
    have hone (Q : σ → Prop) : (∀ t, step s f = some t → Q t) ↔ Q s₁ := by
      constructor
      · intro hall
        exact hall s₁ hs₁
      · intro hQ t ht
        exact Option.some.inj (hs₁.symm.trans ht) ▸ hQ
    rw [List.cons_append, Along, Along, hone, hone, ih hrest, and_assoc]

theorem Along.of_append {P : σ → ε → Prop} {s : σ} {es fs : List ε}
    (h : Along step P s (es ++ fs)) : Along step P s es := by
  induction es generalizing s with
  | nil => trivial
  | cons e es ih => exact ⟨h.1, fun s' hs' => ih (h.2 s' hs')⟩

/-- The invariant rule: what holds of the empty run and is kept by every event that can happen
holds of every run and the state it leads to. -/
theorem after_invariant {I : List ε → σ → Prop} {s₀ : σ} (hinit : I [] s₀)
    (hstep : ∀ es s e s', after step s₀ es = some s → I es s → step s e = some s' →
      I (es ++ [e]) s')
    {es : List ε} {s : σ} (h : after step s₀ es = some s) : I es s := by
  induction es using List.reverseRecOn generalizing s with
  | nil =>
    obtain rfl := Option.some.inj h
    exact hinit
  | append_singleton es e ih =>
    rw [after_snoc] at h
    obtain ⟨s₁, hes, he⟩ := Option.bind_eq_some_iff.mp h
    exact hstep es s₁ e s hes (ih hes) he

/-- The rule for an invariant that every event of a kind keeps, from any state. -/
theorem after_kept {I : σ → Prop} {A : ε → Prop}
    (hstep : ∀ s e s', A e → I s → step s e = some s' → I s') {s s' : σ} (hs : I s)
    {es : List ε} (hes : ∀ e ∈ es, A e) (h : after step s es = some s') : I s' := by
  induction es generalizing s with
  | nil =>
    obtain rfl := Option.some.inj h
    exact hs
  | cons e es ih =>
    rw [after_cons] at h
    obtain ⟨s₁, hs₁, hrest⟩ := Option.bind_eq_some_iff.mp h
    exact ih (hstep s e s₁ (hes e List.mem_cons_self) hs hs₁)
      (fun e' he' => hes e' (List.mem_cons_of_mem e he')) hrest

/-- An element of a list whose values under `f` differ is the only one with its value. -/
theorem exists_filter_eq_singleton {α : Type u} [DecidableEq β] {f : α → β}
    {l : List α} (hnodup : (l.map f).Nodup) {b : β} (hb : b ∈ l.map f) :
    ∃ a, f a = b ∧ l.filter (fun a => f a = b) = [a] := by
  induction l with
  | nil => exact absurd hb List.not_mem_nil
  | cons a l ih =>
    rw [List.map_cons, List.nodup_cons] at hnodup
    rw [List.map_cons, List.mem_cons] at hb
    by_cases ha : f a = b
    · refine ⟨a, ha, ?_⟩
      have hnone : l.filter (fun a => f a = b) = [] := by
        rw [List.filter_eq_nil_iff]
        intro a' ha' heq
        exact hnodup.1 (List.mem_map.mpr ⟨a', ha', (of_decide_eq_true heq).trans ha.symm⟩)
      rw [List.filter_cons_of_pos (by simpa using ha), hnone]
    · obtain ⟨a', ha', hfilter⟩ := ih hnodup.2 (hb.resolve_left (Ne.symm ha))
      exact ⟨a', ha', by rw [List.filter_cons_of_neg (by simpa using ha), hfilter]⟩

end Traces

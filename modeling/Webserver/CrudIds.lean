import Mathlib.Order.Interval.Finset.Basic
import Mathlib.Data.Int.Interval
import Webserver.CrudHandler

/-!
# The ids of an entity

The operations on `entity_to_id_` through `has`, and what `GetNextID` returns: the least
positive id that is not in use, unless every positive `int` is.
-/

set_option autoImplicit false

namespace Webserver

namespace IdMap
variable {ids : IdMap} {e k : Str} {id j : Int}

theorem has_of_none (h : ids e = none) (j : Int) : ids.has e j = false := by
  simp [has, h]

@[simp] theorem has_empty (e : Str) (j : Int) : IdMap.empty.has e j = false := rfl

theorem has_insert :
    (ids.insert e id).has k j = if k = e then (decide (j = id) || ids.has e j) else ids.has k j := by
  unfold has insert
  by_cases hk : k = e
  · subst hk
    cases ids k <;> simp
  · simp [hk]

theorem has_erase :
    (ids.erase e id).has k j = if k = e then (decide (j ≠ id) && ids.has e j) else ids.has k j := by
  unfold has erase
  by_cases hk : k = e
  · subst hk
    cases ids k <;> simp
  · simp [hk]

theorem insert_other (hk : k ≠ e) : (ids.insert e id) k = ids k := by simp [insert, hk]

theorem erase_other (hk : k ≠ e) : (ids.erase e id) k = ids k := by simp [erase, hk]

theorem insert_self_ne_none : (ids.insert e id) e ≠ none := by simp [insert]

theorem erase_self_ne_none : (ids.erase e id) e ≠ none := by simp [erase]

end IdMap

namespace CrudHandler

/-- The counter cannot run past the size of the set without having met a free id. -/
theorem not_mem_of_card {s : Finset Int} {n : Int}
    (hbelow : ∀ j, 1 ≤ j → j < n → j ∈ s) (hcard : (s.card : Int) = n - 1) : n ∉ s := by
  intro hmem
  have hsub : Finset.Icc 1 n ⊆ s := by
    intro j hj
    rw [Finset.mem_Icc] at hj
    by_cases h : j = n
    · exact h ▸ hmem
    · exact hbelow j hj.1 (by omega)
  have hle := Finset.card_le_card hsub
  rw [Int.card_Icc] at hle
  omega

/-- The invariant of the loop: every id below the counter is in use. -/
theorem nextIdLoop_spec {s : Finset Int} (k : Nat) (n : Int) (hpos : 1 ≤ n) (hmax : n ≤ intMax)
    (hbelow : ∀ j, 1 ≤ j → j < n → j ∈ s) (hcard : (s.card : Int) = n - 1 + k) :
    (∃ id, nextIdLoop s k n = .ok id ∧ 1 ≤ id ∧ id ≤ intMax ∧ id ∉ s ∧
      ∀ j, 1 ≤ j → j < id → j ∈ s) ∨
    (nextIdLoop s k n = .error .intOverflow ∧ ∀ j : Int, 1 ≤ j → j ≤ intMax → j ∈ s) := by
  induction k generalizing n with
  | zero =>
    exact Or.inl ⟨n, rfl, hpos, hmax, not_mem_of_card hbelow (by simpa using hcard), hbelow⟩
  | succ k ih =>
    by_cases hmem : n ∉ s
    · exact Or.inl ⟨n, by rw [nextIdLoop, if_pos hmem], hpos, hmax, hmem, hbelow⟩
    · have hbelow' : ∀ j, 1 ≤ j → j < n + 1 → j ∈ s := by
        intro j hj hlt
        by_cases h : j = n
        · exact h ▸ not_not.mp hmem
        · exact hbelow j hj (by omega)
      rw [nextIdLoop, if_neg hmem]
      by_cases hlast : n = intMax
      · rw [if_pos hlast]
        exact Or.inr ⟨rfl, fun j hj hle => hbelow' j hj (by omega)⟩
      · rw [if_neg hlast]
        exact ih (n + 1) (by omega) (by omega) hbelow' (by push_cast at hcard; omega)

theorem getNextID_spec (ids : IdMap) (e : Str) :
    (∃ id, getNextID ids e = .ok id ∧ 1 ≤ id ∧ id ≤ intMax ∧ ids.has e id = false ∧
      ∀ j, 1 ≤ j → j < id → ids.has e j = true) ∨
    (getNextID ids e = .error .intOverflow ∧ ∀ j : Int, 1 ≤ j → j ≤ intMax → ids.has e j = true) := by
  cases h : ids e with
  | none =>
    refine Or.inl ⟨1, by simp [getNextID, h], by omega, by decide, IdMap.has_of_none h 1, ?_⟩
    intro j hj hlt
    omega
  | some s =>
    have hhas (j : Int) : ids.has e j = decide (j ∈ s) := by simp [IdMap.has, h]
    have hspec := nextIdLoop_spec (s := s) s.card 1 (by omega) (by decide)
      (fun j hj hlt => by omega) (by omega)
    simpa [getNextID, h, hhas] using hspec

theorem getNextID_ok_iff {ids : IdMap} {e : Str} {id : Int} :
    getNextID ids e = .ok id ↔
      1 ≤ id ∧ id ≤ intMax ∧ ids.has e id = false ∧ ∀ j, 1 ≤ j → j < id → ids.has e j = true := by
  rcases getNextID_spec ids e with ⟨i, hi, hpos, hmax, hfree, hbelow⟩ | ⟨herr, hall⟩
  · rw [hi]
    constructor
    · intro h
      exact Except.ok.inj h ▸ ⟨hpos, hmax, hfree, hbelow⟩
    · rintro ⟨hpos', hmax', hfree', hbelow'⟩
      rcases lt_trichotomy i id with hlt | rfl | hlt
      · rw [hbelow' i hpos hlt] at hfree
        exact absurd hfree (by decide)
      · rfl
      · rw [hbelow id hpos' hlt] at hfree'
        exact absurd hfree' (by decide)
  · rw [herr]
    constructor
    · intro h
      exact absurd h (by simp)
    · rintro ⟨hpos, hmax, hfree, _⟩
      rw [hall id hpos hmax] at hfree
      exact absurd hfree (by decide)

/-- `GetNextID` depends on nothing but the ids in use. -/
theorem getNextID_congr {ids ids' : IdMap} {e e' : Str}
    (h : ∀ j, ids.has e j = ids'.has e' j) : getNextID ids e = getNextID ids' e' := by
  rcases getNextID_spec ids' e' with ⟨i, hi, hspec⟩ | ⟨herr, hall⟩
  · rw [hi, getNextID_ok_iff]
    simpa only [h] using hspec
  · rcases getNextID_spec ids e with ⟨i, _, hpos, hmax, hfree, _⟩ | ⟨herr', _⟩
    · rw [h, hall i hpos hmax] at hfree
      exact absurd hfree (by decide)
    · rw [herr, herr']

theorem getNextID_empty {ids : IdMap} {e : Str} (h : ∀ j, ids.has e j = false) :
    getNextID ids e = .ok 1 :=
  getNextID_ok_iff.mpr ⟨by omega, by decide, h 1, fun j hj hlt => by omega⟩

/-- `GetNextID` returns the least positive integer that is not stored for the entity. -/
def ReturnsLeast (ids : IdMap) (e : Str) : Prop :=
  ∃ id, getNextID ids e = .ok id ∧ IsLeast {j : Int | 0 < j ∧ ids.has e j = false} id

/-- It does so exactly if some positive `int` is not stored, and returns 1 for a new entity. -/
theorem returnsLeast_iff (ids : IdMap) (e : Str) :
    (ReturnsLeast ids e ↔ ∃ j : Int, 0 < j ∧ j ≤ intMax ∧ ids.has e j = false) ∧
      (ids e = none → getNextID ids e = .ok 1) := by
  constructor
  · constructor
    · rintro ⟨id, hid, ⟨hpos, hfree⟩, _⟩
      exact ⟨id, hpos, (getNextID_ok_iff.mp hid).2.1, hfree⟩
    · rintro ⟨j, hpos, hmax, hfree⟩
      rcases getNextID_spec ids e with ⟨id, hid, hpos', _, hfree', hbelow⟩ | ⟨_, hall⟩
      · refine ⟨id, hid, ⟨hpos', hfree'⟩, ?_⟩
        rintro i ⟨hi, hifree⟩
        by_contra hlt
        rw [hbelow i hi (not_le.mp hlt)] at hifree
        exact absurd hifree (by decide)
      · rw [hall j hpos hmax] at hfree
        exact absurd hfree (by decide)
  · intro hnone
    exact getNextID_empty (IdMap.has_of_none hnone)

namespace Demo

def positiveInts : Finset Int := (Finset.range intMax).image fun n : Nat => (n : Int) + 1

theorem mem_positiveInts {j : Int} : j ∈ positiveInts ↔ 0 < j ∧ j ≤ intMax := by
  rw [positiveInts, Finset.mem_image]
  constructor
  · rintro ⟨n, hn, rfl⟩
    rw [Finset.mem_range] at hn
    omega
  · rintro ⟨hpos, hmax⟩
    refine ⟨j.toNat - 1, ?_, by omega⟩
    rw [Finset.mem_range]
    omega

/-- An entity with an object under every positive `int`. -/
def allInUse : IdMap := fun _ => some positiveInts

end Demo

/-- No `int` is left to return. -/
theorem not_returnsLeast_allInUse : ¬ ReturnsLeast Demo.allInUse "a".toList := by
  rintro ⟨id, hid, ⟨hpos, hfree⟩, _⟩
  have hmax := (getNextID_ok_iff.mp hid).2.1
  have hused : Demo.allInUse.has "a".toList id = true := by
    rw [IdMap.has_iff]
    exact ⟨Demo.positiveInts, rfl, Demo.mem_positiveInts.mpr ⟨hpos, hmax⟩⟩
  rw [hused] at hfree
  exact absurd hfree (by decide)

end CrudHandler

end Webserver

import Mathlib.Data.List.Basic
import Mathlib.Data.List.Forall2
import Mathlib.Data.List.Induction
import Mathlib.Data.List.Perm.Basic

/-!
# Tables filled by declarations

A declaration asks for a key and is refused if that key is bound; otherwise it binds the key it
registers, which may be another one or none. What a list of declarations leaves behind, and how
far it depends on their order.
-/

set_option autoImplicit false

namespace Registration

universe u v w
variable {ι : Type u} {κ : Type v} {ν : Type w}

/-- The key a declaration asks for, and the key and value it registers. -/
structure Rules (ι : Type u) (κ : Type v) (ν : Type w) where
  asked : ι → κ
  entry : ι → Option (κ × ν)

namespace Rules
variable (R : Rules ι κ ν)

def key (i : ι) : Option κ := (R.entry i).map Prod.fst

/-- `j` is refused if it comes after `i`. -/
def Blocks (i j : ι) : Prop := R.key i = some (R.asked j)

/-- No declaration of the list is refused. -/
def ConflictFree (is : List ι) : Prop := is.Pairwise fun i j => ¬ R.Blocks i j

/-- No key is bound twice. -/
def Fresh (is : List ι) : Prop := is.Pairwise fun i j => R.key i = none ∨ R.key i ≠ R.key j

instance [DecidableEq κ] (i j : ι) : Decidable (R.Blocks i j) :=
  inferInstanceAs (Decidable (_ = _))

instance [DecidableEq κ] (is : List ι) : Decidable (R.ConflictFree is) :=
  inferInstanceAs (Decidable (List.Pairwise _ _))

variable {R} {i j : ι} {is js : List ι} {k : κ}

theorem getElem?_concat_eq_some {m : ℕ} :
    (is ++ [i])[m]? = some j ↔ is[m]? = some j ∨ (m = is.length ∧ j = i) := by
  rcases Nat.lt_trichotomy m is.length with hlt | rfl | hgt
  · have hne : m ≠ is.length := by omega
    simp [List.getElem?_append_left hlt, hne]
  · simp [eq_comm]
  · have hne : m ≠ is.length := by omega
    rw [List.getElem?_eq_none (by simp; omega), List.getElem?_eq_none (by omega)]
    simp [hne]

theorem key_of_entry {x : ν} (h : R.entry i = some (k, x)) : R.key i = some k := by
  rw [key, h]
  rfl

theorem key_eq_some_iff : R.key i = some k ↔ ∃ x, R.entry i = some (k, x) := by
  constructor
  · intro h
    obtain ⟨⟨k', x⟩, hentry, rfl⟩ := Option.map_eq_some_iff.mp h
    exact ⟨x, hentry⟩
  · rintro ⟨x, hentry⟩
    exact key_of_entry hentry

theorem entry_eq_of_fresh (h : R.Fresh is) (hi : i ∈ is) (hj : j ∈ is)
    (hik : R.key i = some k) (hjk : R.key j = some k) : R.entry i = R.entry j := by
  have hpair : is.Pairwise fun i j =>
      R.key i = some k → R.key j = some k → R.entry i = R.entry j := by
    apply h.imp
    intro i j hij hi hj
    rcases hij with hnone | hne
    · exact absurd (hi.symm.trans hnone) (by simp)
    · exact absurd (hi.trans hj.symm) hne
  have hflip : is.Pairwise fun i j =>
      R.key j = some k → R.key i = some k → R.entry j = R.entry i := by
    apply h.imp
    intro i j hij hj hi
    rcases hij with hnone | hne
    · exact absurd (hi.symm.trans hnone) (by simp)
    · exact absurd (hi.trans hj.symm) hne
  exact List.Pairwise.forall_of_forall_of_flip (fun _ _ _ _ => rfl) hpair hflip hi hj hik hjk

section Bound
variable [DecidableEq κ] (R)

/-- What a key is bound to in the end, with the number of the declaration that bound it. -/
def bound (k : κ) : ℕ → List ι → Option (ℕ × ν)
  | _, [] => none
  | n, i :: is =>
    (bound k (n + 1) is).or
      (match R.entry i with
      | some (k', x) => if k' = k then some (n, x) else none
      | none => none)

def value (k : κ) (is : List ι) : Option ν := (R.bound k 0 is).map Prod.snd

variable {R}

theorem bound_append (k : κ) (n : ℕ) (is js : List ι) :
    R.bound k n (is ++ js) = (R.bound k (n + is.length) js).or (R.bound k n is) := by
  induction is generalizing n with
  | nil => simp [bound]
  | cons i is ih =>
    rw [List.cons_append, bound, ih, bound, Option.or_assoc, List.length_cons,
      Nat.add_assoc n 1, Nat.add_comm 1]

theorem bound_concat_self (n : ℕ) (is : List ι) {x : ν} (h : R.entry i = some (k, x)) :
    R.bound k n (is ++ [i]) = some (n + is.length, x) := by
  rw [bound_append, bound, bound, h]
  simp

theorem bound_concat (n : ℕ) (is : List ι) (h : R.key i ≠ some k) :
    R.bound k n (is ++ [i]) = R.bound k n is := by
  rw [bound_append, bound, bound]
  cases he : R.entry i with
  | none => rfl
  | some e =>
    obtain ⟨k', x⟩ := e
    have hne : k' ≠ k := fun heq => h (heq ▸ key_of_entry he)
    simp [hne]

theorem bound_eq_none_iff (k : κ) (n : ℕ) (is : List ι) :
    R.bound k n is = none ↔ ∀ i ∈ is, R.key i ≠ some k := by
  induction is using List.reverseRecOn with
  | nil => simp [bound]
  | append_singleton is i ih =>
    by_cases h : R.key i = some k
    · obtain ⟨x, hx⟩ := key_eq_some_iff.mp h
      simp [bound_concat_self n is hx, h]
    · rw [bound_concat n is h, ih]
      simp [or_imp, forall_and, h]

theorem bound_eq_some_iff (n : ℕ) (is : List ι) {m : ℕ} {x : ν} :
    R.bound k n is = some (n + m, x) ↔
      ∃ i, is[m]? = some i ∧ R.entry i = some (k, x) ∧
        ∀ m' j, m < m' → is[m']? = some j → R.key j ≠ some k := by
  induction is using List.reverseRecOn with
  | nil => simp [bound]
  | append_singleton is i ih =>
    by_cases h : R.key i = some k
    · obtain ⟨y, hy⟩ := key_eq_some_iff.mp h
      rw [bound_concat_self n is hy]
      constructor
      · intro heq
        obtain ⟨hm, rfl⟩ : n + is.length = n + m ∧ y = x := by simpa using heq
        obtain rfl : is.length = m := by omega
        refine ⟨i, getElem?_concat_eq_some.mpr (Or.inr ⟨rfl, rfl⟩), hy, ?_⟩
        intro m' j hlt hj
        rcases getElem?_concat_eq_some.mp hj with hj | ⟨rfl, _⟩
        · have := (List.getElem?_eq_some_iff.mp hj).1
          omega
        · omega
      · rintro ⟨j, hj, he, hlater⟩
        rcases getElem?_concat_eq_some.mp hj with hj | ⟨rfl, rfl⟩
        · have hlt := (List.getElem?_eq_some_iff.mp hj).1
          exact absurd h (hlater is.length i hlt (getElem?_concat_eq_some.mpr (Or.inr ⟨rfl, rfl⟩)))
        · rw [hy] at he
          rw [(Prod.mk.inj (Option.some.inj he)).2]
    · rw [bound_concat n is h, ih]
      apply exists_congr
      intro j
      constructor
      · rintro ⟨hj, he, hlater⟩
        refine ⟨getElem?_concat_eq_some.mpr (Or.inl hj), he, ?_⟩
        intro m' j' hlt hj'
        rcases getElem?_concat_eq_some.mp hj' with hj' | ⟨_, rfl⟩
        · exact hlater m' j' hlt hj'
        · exact h
      · rintro ⟨hj, he, hlater⟩
        rcases getElem?_concat_eq_some.mp hj with hj | ⟨_, rfl⟩
        · refine ⟨hj, he, ?_⟩
          intro m' j' hlt hj'
          exact hlater m' j' hlt (getElem?_concat_eq_some.mpr (Or.inl hj'))
        · exact absurd (key_of_entry he) h

theorem map_bound (k : κ) (n m : ℕ) (is : List ι) :
    (R.bound k n is).map Prod.snd = (R.bound k m is).map Prod.snd := by
  induction is using List.reverseRecOn with
  | nil => rfl
  | append_singleton is i ih =>
    by_cases h : R.key i = some k
    · obtain ⟨x, hx⟩ := key_eq_some_iff.mp h
      rw [bound_concat_self n is hx, bound_concat_self m is hx]
      rfl
    · rw [bound_concat n is h, bound_concat m is h, ih]

theorem value_append (k : κ) (is js : List ι) :
    R.value k (is ++ js) = (R.value k js).or (R.value k is) := by
  rw [value, bound_append, Option.map_or, map_bound k _ 0 js]
  rfl

theorem value_eq_none_iff : R.value k is = none ↔ ∀ i ∈ is, R.key i ≠ some k := by
  rw [value, Option.map_eq_none_iff, bound_eq_none_iff]

theorem exists_of_value {x : ν} (h : R.value k is = some x) :
    ∃ i ∈ is, R.entry i = some (k, x) := by
  obtain ⟨⟨m, y⟩, hbound, rfl⟩ := Option.map_eq_some_iff.mp h
  rw [show m = 0 + m by omega] at hbound
  obtain ⟨i, hi, hentry, _⟩ := (bound_eq_some_iff 0 is).mp hbound
  exact ⟨i, List.mem_of_getElem? hi, hentry⟩

/-- Where the declarations of a key agree, their order does not matter to it. -/
theorem value_perm (hperm : is.Perm js)
    (hsame : ∀ i ∈ is, ∀ j ∈ is, R.key i = some k → R.key j = some k → R.entry i = R.entry j) :
    R.value k is = R.value k js := by
  cases hv : R.value k is with
  | none =>
    symm
    rw [value_eq_none_iff] at hv ⊢
    exact fun j hj => hv j (hperm.mem_iff.mpr hj)
  | some x =>
    obtain ⟨i, hi, hentry⟩ := exists_of_value hv
    cases hv' : R.value k js with
    | none => exact absurd (key_of_entry hentry) (value_eq_none_iff.mp hv' i (hperm.mem_iff.mp hi))
    | some y =>
      obtain ⟨j, hj, hentry'⟩ := exists_of_value hv'
      have heq := hsame i hi j (hperm.mem_iff.mpr hj) (key_of_entry hentry) (key_of_entry hentry')
      rw [hentry, hentry'] at heq
      rw [(Prod.mk.inj (Option.some.inj heq)).2]

theorem value_eq_some_iff_of_fresh (h : R.Fresh is) {x : ν} :
    R.value k is = some x ↔ ∃ i ∈ is, R.entry i = some (k, x) := by
  constructor
  · exact exists_of_value
  · rintro ⟨i, hi, hentry⟩
    cases hv : R.value k is with
    | none => exact absurd (key_of_entry hentry) (value_eq_none_iff.mp hv i hi)
    | some y =>
      obtain ⟨j, hj, hentry'⟩ := exists_of_value hv
      have heq := entry_eq_of_fresh h hi hj (key_of_entry hentry) (key_of_entry hentry')
      rw [hentry, hentry'] at heq
      rw [(Prod.mk.inj (Option.some.inj heq)).2]

end Bound

/-! ### Blocks of declarations in any order -/

/-- The declarations stand in blocks, and inside a block in any order. -/
def Rearranged (bs bs' : List (List ι)) : Prop := List.Forall₂ List.Perm bs bs'

theorem conflictFree_flatten {bs : List (List ι)} :
    R.ConflictFree bs.flatten ↔
      (∀ b ∈ bs, R.ConflictFree b) ∧
        bs.Pairwise fun b b' => ∀ i ∈ b, ∀ j ∈ b', ¬ R.Blocks i j :=
  List.pairwise_flatten

theorem rearranged_map {f : List ι → List ι} (hf : ∀ b : List ι, b.Perm (f b)) (bs : List (List ι)) :
    Rearranged bs (bs.map f) := by
  rw [Rearranged, List.forall₂_map_right_iff]
  exact List.forall₂_same.mpr fun b _ => hf b

namespace Rearranged
variable {bs bs' : List (List ι)}

theorem symm (h : Rearranged bs bs') : Rearranged bs' bs :=
  List.Forall₂.flip (h.imp fun _ _ hp => hp.symm)

theorem exists_perm (h : Rearranged bs bs') {b : List ι} (hb : b ∈ bs) :
    ∃ b' ∈ bs', b.Perm b' := by
  induction h with
  | nil => exact absurd hb List.not_mem_nil
  | cons hp _ ih =>
    rcases List.mem_cons.mp hb with rfl | hb
    · exact ⟨_, List.mem_cons_self, hp⟩
    · obtain ⟨b', hb', hperm⟩ := ih hb
      exact ⟨b', List.mem_cons_of_mem _ hb', hperm⟩

theorem flatten_perm (h : Rearranged bs bs') : bs.flatten.Perm bs'.flatten := by
  induction h with
  | nil => exact List.Perm.refl _
  | cons hp _ ih => exact hp.append ih

/-- What holds between the members of different blocks does not depend on their order. -/
theorem pairwise_across {r : ι → ι → Prop} (h : Rearranged bs bs')
    (hbs : bs.Pairwise fun b b' => ∀ i ∈ b, ∀ j ∈ b', r i j) :
    bs'.Pairwise fun b b' => ∀ i ∈ b, ∀ j ∈ b', r i j := by
  induction h with
  | nil => exact List.Pairwise.nil
  | cons hp htail ih =>
    obtain ⟨hhead, hrest⟩ := List.pairwise_cons.mp hbs
    refine List.pairwise_cons.mpr ⟨?_, ih hrest⟩
    intro b' hb' i hi j hj
    obtain ⟨b, hb, hperm⟩ := exists_perm (symm htail) hb'
    exact hhead b hb i (hp.mem_iff.mpr hi) j (hperm.mem_iff.mp hj)

end Rearranged

section Order
variable {bs bs' : List (List ι)}

/-- No declaration is refused in any order exactly if no two stand in blocks where the first
blocks the second, or in one block where either blocks the other. -/
theorem conflictFree_all_iff (R : Rules ι κ ν) (bs : List (List ι)) :
    (∀ bs', Rearranged bs bs' → R.ConflictFree bs'.flatten) ↔
      (∀ b ∈ bs, b.Pairwise fun i j => ¬ R.Blocks i j ∧ ¬ R.Blocks j i) ∧
        bs.Pairwise fun b b' => ∀ i ∈ b, ∀ j ∈ b', ¬ R.Blocks i j := by
  constructor
  · intro h
    obtain ⟨hin, hacross⟩ := conflictFree_flatten.mp
      (h bs (List.forall₂_same.mpr fun b _ => List.Perm.refl b))
    refine ⟨fun b hb => ?_, hacross⟩
    have hrev := (conflictFree_flatten.mp (h _ (rearranged_map (fun b => b.reverse_perm.symm) bs))).1
      b.reverse (List.mem_map_of_mem hb)
    exact (hin b hb).and (List.pairwise_reverse.mp hrev)
  · rintro ⟨hin, hacross⟩ bs' hbs'
    refine conflictFree_flatten.mpr ⟨fun b' hb' => ?_, hbs'.pairwise_across hacross⟩
    obtain ⟨b, hb, hperm⟩ := hbs'.symm.exists_perm hb'
    have hb'in := (hperm.pairwise_iff fun h => ⟨h.2, h.1⟩).mpr (hin b hb)
    exact hb'in.imp fun h => h.1

/-- If a declaration that blocks another ranks below it unless both block each other, then some
order refuses none exactly if no conflict is there in every order. -/
theorem conflictFree_some_iff (bs : List (List ι)) (rank : ι → ℕ)
    (hrank : ∀ i j, R.Blocks i j → rank i < rank j ∨ R.Blocks j i) :
    (∃ bs', Rearranged bs bs' ∧ R.ConflictFree bs'.flatten) ↔
      (∀ b ∈ bs, b.Pairwise fun i j => ¬ (R.Blocks i j ∧ R.Blocks j i)) ∧
        bs.Pairwise fun b b' => ∀ i ∈ b, ∀ j ∈ b', ¬ R.Blocks i j := by
  constructor
  · rintro ⟨bs', hbs', hfree⟩
    obtain ⟨hin, hacross⟩ := conflictFree_flatten.mp hfree
    refine ⟨fun b hb => ?_, hbs'.symm.pairwise_across hacross⟩
    obtain ⟨b', hb', hperm⟩ := hbs'.exists_perm hb
    apply (hperm.pairwise_iff fun h hr => h ⟨hr.2, hr.1⟩).mpr
    exact (hin b' hb').imp fun h hr => h hr.1
  · rintro ⟨hin, hacross⟩
    -- the higher ranks go first
    have hsort (b : List ι) : b.Perm (b.mergeSort fun i j => rank j ≤ rank i) :=
      (List.mergeSort_perm b _).symm
    have hbs' := rearranged_map hsort bs
    refine ⟨_, hbs', conflictFree_flatten.mpr ⟨?_, hbs'.pairwise_across hacross⟩⟩
    intro b' hb'
    obtain ⟨b, hb, rfl⟩ := List.mem_map.mp hb'
    have hsorted : (b.mergeSort fun i j => rank j ≤ rank i).Pairwise
        fun i j => decide (rank j ≤ rank i) = true := by
      apply List.pairwise_mergeSort
      · intro i j k hij hjk
        simp only [decide_eq_true_eq] at hij hjk ⊢
        omega
      · intro i j
        simp only [Bool.or_eq_true, decide_eq_true_eq]
        omega
    have hmutual := ((hsort b).pairwise_iff fun h hr => h ⟨hr.2, hr.1⟩).mp (hin b hb)
    apply (hsorted.and hmutual).imp
    rintro i j ⟨hle, hnot⟩ hblocks
    rcases hrank i j hblocks with hlt | hback
    · have := of_decide_eq_true hle
      omega
    · exact hnot ⟨hblocks, hback⟩

/-- Whether a declaration is refused does not depend on the order exactly if a conflict is
there in every order, between two blocks or inside one, or in none. -/
theorem conflictFree_order_iff (bs : List (List ι)) (rank : ι → ℕ)
    (hrank : ∀ i j, R.Blocks i j → rank i < rank j ∨ R.Blocks j i) :
    (∀ bs', Rearranged bs bs' → (R.ConflictFree bs'.flatten ↔ R.ConflictFree bs.flatten)) ↔
      (¬ bs.Pairwise fun b b' => ∀ i ∈ b, ∀ j ∈ b', ¬ R.Blocks i j) ∨
        (∃ b ∈ bs, ¬ b.Pairwise fun i j => ¬ (R.Blocks i j ∧ R.Blocks j i)) ∨
        ∀ b ∈ bs, b.Pairwise fun i j => ¬ R.Blocks i j ∧ ¬ R.Blocks j i := by
  have hsome := conflictFree_some_iff bs rank hrank
  have hall := conflictFree_all_iff R bs
  have hrefl : Rearranged bs bs := List.forall₂_same.mpr fun b _ => List.Perm.refl b
  by_cases hacross : bs.Pairwise fun b b' => ∀ i ∈ b, ∀ j ∈ b', ¬ R.Blocks i j
  · simp only [hacross, not_true, false_or, and_true] at hsome hall ⊢
    rw [← hall]
    constructor
    · intro h
      by_cases hmutual : ∀ b ∈ bs, b.Pairwise fun i j => ¬ (R.Blocks i j ∧ R.Blocks j i)
      · right
        obtain ⟨bs₁, hbs₁, hfree⟩ := hsome.mpr hmutual
        exact fun bs' hbs' => (h bs' hbs').mpr ((h bs₁ hbs₁).mp hfree)
      · left
        simpa only [not_forall, exists_prop] using hmutual
    · rintro (⟨b, hb, hnot⟩ | h) bs' hbs'
      · have hnone (bs'' : List (List ι)) (hbs'' : Rearranged bs bs'') :
            ¬ R.ConflictFree bs''.flatten :=
          fun hfree => hnot (hsome.mp ⟨bs'', hbs'', hfree⟩ b hb)
        exact iff_of_false (hnone bs' hbs') (hnone bs hrefl)
      · exact iff_of_true (h bs' hbs') (h bs hrefl)
  · simp only [hacross, not_false_iff, true_or, iff_true, and_false, iff_false, not_exists,
      not_and] at hsome ⊢
    exact fun bs' hbs' => iff_of_false (hsome bs' hbs') (hsome bs hrefl)

theorem value_rearranged [DecidableEq κ] (h : Rearranged bs bs')
    (hsame : ∀ b ∈ bs, ∀ i ∈ b, ∀ j ∈ b, R.key i = some k → R.key j = some k →
      R.entry i = R.entry j) :
    R.value k bs.flatten = R.value k bs'.flatten := by
  induction h with
  | nil => rfl
  | cons hperm _ ih =>
    obtain ⟨hb, hbs⟩ := List.forall_mem_cons.mp hsame
    rw [List.flatten_cons, List.flatten_cons, value_append, value_append, ih hbs,
      value_perm hperm hb]

end Order

end Rules

/-- A rearrangement of the images of a list comes from one of the list. -/
theorem exists_perm_filterMap {σ : Type w} {f : σ → Option ι} {xs ys : List ι}
    (h : xs.Perm ys) : ∀ ss : List σ, ss.filterMap f = xs →
      ∃ ss', ss.Perm ss' ∧ ss'.filterMap f = ys := by
  induction h with
  | nil => exact fun ss hss => ⟨ss, List.Perm.refl _, hss⟩
  | cons x _ ih =>
    intro ss hss
    obtain ⟨pre, s, post, rfl, hpre, hs, hpost⟩ := List.filterMap_eq_cons_iff.mp hss
    obtain ⟨post', hperm, hpost'⟩ := ih post hpost
    refine ⟨pre ++ s :: post', (hperm.cons s).append_left pre, ?_⟩
    rw [List.filterMap_append, List.filterMap_eq_nil_iff.mpr hpre, List.filterMap_cons_some hs,
      hpost', List.nil_append]
  | swap x y l =>
    intro ss hss
    obtain ⟨pre, s, post, rfl, hpre, hs, hpost⟩ := List.filterMap_eq_cons_iff.mp hss
    obtain ⟨pre', t, post', rfl, hpre', ht, hpost'⟩ := List.filterMap_eq_cons_iff.mp hpost
    refine ⟨pre ++ t :: (pre' ++ s :: post'), ?_, ?_⟩
    · apply List.Perm.append_left
      have hst : (s :: (pre' ++ t :: post')).Perm (s :: t :: (pre' ++ post')) :=
        List.perm_middle.cons s
      have hts : (t :: s :: (pre' ++ post')).Perm (t :: (pre' ++ s :: post')) :=
        List.perm_middle.symm.cons t
      exact (hst.trans (List.Perm.swap t s _)).trans hts
    · rw [List.filterMap_append, List.filterMap_eq_nil_iff.mpr hpre, List.filterMap_cons_some ht,
        List.filterMap_append, List.filterMap_eq_nil_iff.mpr hpre', List.filterMap_cons_some hs,
        hpost']
      rfl
  | trans _ _ ih ih' =>
    intro ss hss
    obtain ⟨ss', hperm, hss'⟩ := ih ss hss
    obtain ⟨ss'', hperm', hss''⟩ := ih' ss' hss'
    exact ⟨ss'', hperm.trans hperm', hss''⟩

end Registration

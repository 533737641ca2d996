import Mathlib.Data.List.DropRight
import Mathlib.Data.List.Infix

/-!
# Prefixes that end at a separator

A key covers a list if it is the list itself or stands in it in front of a separator. Cutting
the list at its last separator loses no key but the list itself, so that a search that cuts
again and again meets the longest key first.
-/

set_option autoImplicit false

namespace PrefixMatch

universe u v
variable {α : Type u} {κ : Type v} {sep : α} {b c k n : List α}

def Covers (sep : α) (k b : List α) : Prop := b = k ∨ k ++ [sep] <+: b

instance [DecidableEq α] (sep : α) (k b : List α) : Decidable (Covers sep k b) :=
  inferInstanceAs (Decidable (_ ∨ _))

/-- A key of the table that covers `b`, with no longer one. -/
structure Longest (sep : α) (find : List α → Option κ) (b k : List α) : Prop where
  covers : Covers sep k b
  longest : ∀ k', find k' ≠ none → Covers sep k' b → k'.length ≤ k.length

theorem Covers.length_le (h : Covers sep k b) : k.length ≤ b.length := by
  rcases h with rfl | h
  · exact le_rfl
  · have hlen := h.length_le
    simp only [List.length_append, List.length_singleton] at hlen
    omega

theorem Covers.isPrefix (h : Covers sep k b) : k <+: b := by
  rcases h with rfl | h
  · exact List.prefix_rfl
  · exact (List.prefix_append k [sep]).trans h

theorem covers_iff : Covers sep k b ↔ b = k ∨ ∃ rest, b = k ++ sep :: rest := by
  apply or_congr Iff.rfl
  constructor
  · rintro ⟨rest, hrest⟩
    exact ⟨rest, by rw [← hrest]; simp⟩
  · rintro ⟨rest, hrest⟩
    exact ⟨rest, by rw [hrest]; simp⟩

/-- The keys of a list are the list itself and the keys of what is in front of its last
separator. -/
theorem covers_append_sep (hn : sep ∉ n) :
    Covers sep k (c ++ sep :: n) ↔ k = c ++ sep :: n ∨ Covers sep k c := by
  constructor
  · intro h
    rcases covers_iff.mp h with h | ⟨rest, hrest⟩
    · exact Or.inl h.symm
    · right
      rcases List.append_eq_append_iff.mp hrest with ⟨m, hk, hm⟩ | ⟨m, hc, hm⟩
      · cases m with
        | nil => exact Or.inl (by rw [hk, List.append_nil])
        | cons x m =>
          exfalso
          apply hn
          rw [(List.cons.inj hm).2]
          simp
      · cases m with
        | nil => exact Or.inl (by rw [hc, List.append_nil])
        | cons x m =>
          obtain ⟨rfl, _⟩ := List.cons.inj hm
          exact covers_iff.mpr (Or.inr ⟨m, hc⟩)
  · intro h
    rcases h with rfl | h
    · exact Or.inl rfl
    · right
      rcases h with rfl | h
      · exact ⟨n, by simp⟩
      · exact h.trans (List.prefix_append c _)

theorem Covers.eq_of_length {k' : List α} (h : Covers sep k b) (h' : Covers sep k' b)
    (hlen : k.length = k'.length) : k = k' :=
  (List.prefix_of_prefix_length_le h.isPrefix h'.isPrefix hlen.le).eq_of_length hlen

section Stem
variable [DecidableEq α]

/-- A list without the separators at its end. -/
def stem (sep : α) (xs : List α) : List α := xs.rdropWhile (· = sep)

theorem stem_isPrefix (sep : α) (xs : List α) : stem sep xs <+: xs :=
  List.rdropWhile_prefix _ xs

theorem stem_append_replicate (sep : α) (xs : List α) (m : ℕ) :
    stem sep (xs ++ List.replicate m sep) = stem sep xs := by
  induction m with
  | zero => rw [List.replicate_zero, List.append_nil]
  | succ m ih =>
    rw [List.replicate_succ', ← List.append_assoc, stem, List.rdropWhile_concat_pos _ _ _ (by simp)]
    exact ih

theorem stem_eq_self {xs : List α} (h : xs.getLast? ≠ some sep) : stem sep xs = xs := by
  apply List.rdropWhile_eq_self_iff.mpr
  intro hne hlast
  apply h
  rw [List.getLast?_eq_some_getLast hne, of_decide_eq_true hlast]

theorem getLast?_stem (sep : α) (xs : List α) : (stem sep xs).getLast? ≠ some sep := by
  intro h
  have hne : stem sep xs ≠ [] := by
    intro hnil
    simp [hnil] at h
  rw [List.getLast?_eq_some_getLast hne] at h
  exact List.rdropWhile_last_not _ xs hne (decide_eq_true (Option.some.inj h))

theorem stem_spec (sep : α) (xs : List α) :
    ∃ m, xs = stem sep xs ++ List.replicate m sep := by
  refine ⟨(xs.rtakeWhile (· = sep)).length, ?_⟩
  have htail : xs.rtakeWhile (· = sep) = List.replicate (xs.rtakeWhile (· = sep)).length sep :=
    List.eq_replicate_of_mem fun x hx => by simpa using List.mem_rtakeWhile_imp hx
  rw [← htail]
  exact List.rdropWhile_append_rtakeWhile.symm

end Stem

end PrefixMatch

import Mathlib.Data.List.Basic
import Mathlib.Data.List.Induction

/-!
# Segments of a separated list

`segments sep xs` lists the non-empty runs of `xs` between occurrences of `sep`;
`joined sep ns` writes segments back, each after one separator.
-/

set_option autoImplicit false

namespace Segments

universe u
variable {α : Type u}

def joined (sep : α) (ns : List (List α)) : List α :=
  ns.flatMap fun n => sep :: n

@[simp] theorem joined_nil (sep : α) : joined sep [] = [] := rfl

@[simp] theorem joined_cons (sep : α) (n : List α) (ns : List (List α)) :
    joined sep (n :: ns) = sep :: n ++ joined sep ns := rfl

theorem joined_append (sep : α) (ns ms : List (List α)) :
    joined sep (ns ++ ms) = joined sep ns ++ joined sep ms := List.flatMap_append

theorem joined_snoc (sep : α) (ns : List (List α)) (n : List α) :
    joined sep (ns ++ [n]) = joined sep ns ++ sep :: n := by
  simp [joined_append]

variable [DecidableEq α]

/-- The runs between separators, empty ones included. -/
def pieces (sep : α) : List α → List (List α)
  | [] => [[]]
  | x :: xs =>
    if x = sep then [] :: pieces sep xs
    else
      match pieces sep xs with
      | [] => [[x]]
      | w :: ws => (x :: w) :: ws

def segments (sep : α) (xs : List α) : List (List α) :=
  (pieces sep xs).filter fun w => !w.isEmpty

/-- A segment: not empty and free of the separator. -/
def IsSegment (sep : α) (n : List α) : Prop := n ≠ [] ∧ sep ∉ n

instance (sep : α) (n : List α) : Decidable (IsSegment sep n) :=
  inferInstanceAs (Decidable (_ ∧ _))

variable {sep : α} {n : List α} {ns ms : List (List α)}

theorem pieces_ne_nil (sep : α) (xs : List α) : pieces sep xs ≠ [] := by
  cases xs with
  | nil => simp [pieces]
  | cons x xs =>
    simp only [pieces]
    split
    · simp
    · split <;> simp

theorem pieces_append (sep : α) (xs ys : List α) :
    pieces sep (xs ++ sep :: ys) = pieces sep xs ++ pieces sep ys := by
  induction xs with
  | nil => simp [pieces]
  | cons x xs ih =>
    by_cases hx : x = sep
    · simp [pieces, hx, ih]
    · simp only [List.cons_append, pieces, if_neg hx, ih]
      cases hp : pieces sep xs with
      | nil => exact absurd hp (pieces_ne_nil sep xs)
      | cons w ws => simp

theorem pieces_of_not_mem {xs : List α} (h : sep ∉ xs) : pieces sep xs = [xs] := by
  induction xs with
  | nil => rfl
  | cons x xs ih =>
    have hx : x ≠ sep := fun heq => h (heq ▸ List.mem_cons_self)
    simp [pieces, hx, ih fun hm => h (List.mem_cons_of_mem x hm)]

theorem not_mem_of_mem_pieces {xs w : List α} (h : w ∈ pieces sep xs) : sep ∉ w := by
  induction xs generalizing w with
  | nil =>
    simp only [pieces, List.mem_singleton] at h
    simp [h]
  | cons x xs ih =>
    simp only [pieces] at h
    split at h
    · rcases List.mem_cons.mp h with rfl | h
      · simp
      · exact ih h
    · rename_i hx
      split at h
      · simp only [List.mem_singleton] at h
        simp [h, Ne.symm hx]
      · rename_i v vs hp
        rcases List.mem_cons.mp h with rfl | h
        · have hv := ih (w := v) (by simp [hp])
          simp [Ne.symm hx, hv]
        · exact ih (by simp [hp, h])

theorem mem_segments_isSegment {xs w : List α} (h : w ∈ segments sep xs) : IsSegment sep w := by
  obtain ⟨hw, hne⟩ := List.mem_filter.mp h
  exact ⟨by simpa using hne, not_mem_of_mem_pieces hw⟩

@[simp] theorem segments_nil (sep : α) : segments sep ([] : List α) = [] := rfl

theorem segments_append (sep : α) (xs ys : List α) :
    segments sep (xs ++ sep :: ys) = segments sep xs ++ segments sep ys := by
  simp [segments, pieces_append]

@[simp] theorem segments_sep_cons (sep : α) (xs : List α) :
    segments sep (sep :: xs) = segments sep xs := by
  simp [segments, pieces]

theorem segments_of_isSegment (h : IsSegment sep n) : segments sep n = [n] := by
  simp [segments, pieces_of_not_mem h.2, h.1]

omit [DecidableEq α] in
/-- Of several separators the last one stands in front of the segment. -/
theorem append_replicate_sep (xs : List α) (k : ℕ) (n : List α) :
    xs ++ List.replicate (k + 1) sep ++ n = (xs ++ List.replicate k sep) ++ sep :: n := by
  simp [List.replicate_succ']

theorem segments_snoc (xs : List α) (h : IsSegment sep n) :
    segments sep (xs ++ sep :: n) = segments sep xs ++ [n] := by
  rw [segments_append, segments_of_isSegment h]

@[simp] theorem segments_concat_sep (sep : α) (xs : List α) :
    segments sep (xs ++ [sep]) = segments sep xs := by
  rw [segments_append]
  simp

theorem segments_joined (h : ∀ n ∈ ns, IsSegment sep n) : segments sep (joined sep ns) = ns := by
  induction ns using List.reverseRecOn with
  | nil => rfl
  | append_singleton ns n ih =>
    rw [joined_snoc, segments_snoc _ (h n (by simp)), ih fun m hm => h m (by simp [hm])]

theorem joined_injective (hn : ∀ n ∈ ns, IsSegment sep n) (hm : ∀ n ∈ ms, IsSegment sep n)
    (h : joined sep ns = joined sep ms) : ns = ms := by
  rw [← segments_joined hn, ← segments_joined hm, h]

end Segments

import Mathlib.Data.Finmap
import Mathlib.Data.Fintype.EquivFin
import Mathlib.Order.Preorder.Finite

/-!
# Stores of numbered objects

A finite map from pairs of an owner and a number to a value. New objects go under the least
positive number that the owner does not use.
-/

set_option autoImplicit false

namespace ObjectStore

universe u v

variable {ε : Type u} {β : Type v}

abbrev Objects (ε : Type u) (β : Type v) := Finmap fun _ : ε × ℕ => β

theorem exists_free (m : Objects ε β) (e : ε) : ∃ n, 1 ≤ n ∧ (e, n) ∉ m := by
  classical
  obtain ⟨n, hn⟩ := Infinite.exists_notMem_finset (m.keys.image fun k => k.2 - 1)
  refine ⟨n + 1, Nat.le_add_left 1 n, fun hmem => hn ?_⟩
  exact Finset.mem_image.mpr ⟨(e, n + 1), Finmap.mem_keys.mpr hmem, rfl⟩

section
variable [DecidableEq ε]

def leastFree (m : Objects ε β) (e : ε) : ℕ := Nat.find (exists_free m e)

theorem leastFree_pos (m : Objects ε β) (e : ε) : 1 ≤ leastFree m e :=
  (Nat.find_spec (exists_free m e)).1

theorem leastFree_notMem (m : Objects ε β) (e : ε) : (e, leastFree m e) ∉ m :=
  (Nat.find_spec (exists_free m e)).2

theorem mem_of_lt_leastFree {m : Objects ε β} {e : ε} {j : ℕ} (hj : 1 ≤ j)
    (hlt : j < leastFree m e) : (e, j) ∈ m :=
  not_not.mp fun h => Nat.find_min (exists_free m e) hlt ⟨hj, h⟩

theorem leastFree_eq {m : Objects ε β} {e : ε} {n : ℕ} (hn : 1 ≤ n) (hfree : (e, n) ∉ m)
    (hbelow : ∀ j, 1 ≤ j → j < n → (e, j) ∈ m) : leastFree m e = n :=
  (Nat.find_eq_iff _).mpr ⟨⟨hn, hfree⟩, fun j hlt hj => hj.2 (hbelow j hj.1 hlt)⟩

end

end ObjectStore

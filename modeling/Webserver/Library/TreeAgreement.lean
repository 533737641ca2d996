import Webserver.Library.PathWalk

/-!
# Trees that agree from a depth on

Two trees with the same files and the same listings from some depth on. Above that depth they
may differ in directories that hold nothing: one of them may have made some that the other
lacks. What is done to both trees keeps the agreement, and so do directories made above the
depth in one of them alone.
-/

set_option autoImplicit false

namespace FileTree.Tree

universe u v
variable {α : Type u} {β : Type v}

structure AgreeFrom (d : ℕ) (t t' : Tree α β) : Prop where
  files : ∀ k c, t.node k = some (.file c) ↔ t'.node k = some (.file c)
  names : ∀ k, d ≤ k.length → t.names k = t'.names k

namespace AgreeFrom
variable {d : ℕ} {t t' : Tree α β} {l k : Loc α} {n : α}

theorem refl (t : Tree α β) : AgreeFrom d t t := ⟨fun _ _ => Iff.rfl, fun _ _ => rfl⟩

variable (h : AgreeFrom d t t')
include h

theorem symm : AgreeFrom d t' t :=
  ⟨fun k c => (h.files k c).symm, fun k hk => (h.names k hk).symm⟩

theorem isFile (k : Loc α) : t.isFile k = t'.isFile k := by
  rw [Bool.eq_iff_iff, isFile_iff, isFile_iff]
  exact exists_congr fun c => h.files k c

/-- Where both have a directory they show the same node. -/
theorem node_of_isDir (hk : d ≤ k.length) (hd : t.isDir k = true) (hd' : t'.isDir k = true) :
    t.node k = t'.node k := by
  rw [node_eq_dir hd, node_eq_dir hd', h.names k hk]

/-- Below the depth every node is the same. -/
theorem below (hl : d ≤ l.length) (n : α) : t.node (n :: l) = t'.node (n :: l) := by
  have hmem : t.node (n :: l) ≠ none ↔ t'.node (n :: l) ≠ none := by
    rw [← mem_names_iff, ← mem_names_iff, h.names l hl]
  have hd : d ≤ (n :: l).length := Nat.le_succ_of_le hl
  rcases hn : t.node (n :: l) with _ | ⟨ns | c⟩
  · rw [hn] at hmem
    exact (not_not.mp (hmem.not.mp (by simp))).symm
  · have hne := hmem.mp (by simp [hn])
    rcases hn' : t'.node (n :: l) with _ | ⟨ns' | c⟩
    · exact absurd hn' hne
    · rw [← hn, ← hn']
      exact h.node_of_isDir hd (isDir_of_node hn) (isDir_of_node hn')
    · rw [← h.files, hn] at hn'
      exact absurd hn' (by simp)
  · exact ((h.files _ c).mp hn).symm

theorem isDir_below (hl : d ≤ l.length) (n : α) : t.isDir (n :: l) = t'.isDir (n :: l) :=
  isDir_congr (h.below hl n)

end AgreeFrom

theorem names_of_isLeaf {t : Tree α β} {l : Loc α} {x : Node α β} (hx : x.isLeaf = true)
    (hn : t.node l = some x) : t.names l = [] := by
  cases x with
  | dir ns => rw [names_of_node hn, List.isEmpty_iff.mp hx]
  | file c => rw [names, hn]

section Names
variable [DecidableEq α] {t : Tree α β} {l : Loc α} {n : α}

theorem put_names {x : Node α β} (hl : t.isDir l = true) (hn : t.node (n :: l) = none)
    (hx : x.isLeaf = true) (k : Loc α) :
    (t.put n l x).names k = if k = l then t.names l ++ [n] else t.names k := by
  have hnode := put_node hl hn hx k
  split
  · rename_i hk
    rw [hk, if_neg (List.cons_ne_self n l).symm, if_pos rfl] at hnode
    rw [hk, names_of_node hnode]
  · rename_i hk
    rw [if_neg hk] at hnode
    by_cases hself : k = n :: l
    · rw [if_pos hself] at hnode
      rw [names_of_isLeaf hx hnode, hself, names, hn]
    · rw [if_neg hself] at hnode
      rw [names, names, hnode]

theorem unlink_names (h : (t.node (n :: l)).any Node.isLeaf = true) (k : Loc α) :
    (t.unlink n l).names k = if k = l then (t.names l).erase n else t.names k := by
  have hnode := unlink_node h k
  split
  · rename_i hk
    rw [hk, if_neg (List.cons_ne_self n l).symm, if_pos rfl] at hnode
    rw [hk, names_of_node hnode]
  · rename_i hk
    rw [if_neg hk] at hnode
    by_cases hself : k = n :: l
    · rw [if_pos hself] at hnode
      obtain ⟨x, hx, hleaf⟩ := (Option.any_eq_true _ _).mp h
      rw [names, hnode, hself, names_of_isLeaf hleaf hx]
    · rw [if_neg hself] at hnode
      rw [names, names, hnode]

theorem write_names (hf : t.isFile l = true) (c : β) (k : Loc α) :
    (t.write l c).names k = t.names k := by
  have hnode := write_node hf c k
  by_cases hk : k = l
  · obtain ⟨c', hc'⟩ := isFile_iff.mp hf
    rw [if_pos hk] at hnode
    rw [names, names, hnode, hk, hc']
  · rw [if_neg hk] at hnode
    rw [names, names, hnode]

end Names

section Changes
variable [DecidableEq α] {d : ℕ} {t t' : Tree α β} {l k : Loc α} {n : α} {c : β}

theorem put_leaf_file_iff {x : Node α β} (hl : t.isDir l = true) (hn : t.node (n :: l) = none)
    (hx : x.isLeaf = true) :
    (t.put n l x).node k = some (.file c) ↔
      (k = n :: l ∧ x = .file c) ∨ t.node k = some (.file c) := by
  rw [put_node hl hn hx]
  by_cases hself : k = n :: l
  · simp [hself, hn]
  · by_cases hk : k = l
    · simp [hk, node_eq_dir hl]
    · simp [hself, hk]

theorem write_file_iff (hf : t.isFile l = true) {c' : β} :
    (t.write l c).node k = some (.file c') ↔
      (k = l ∧ c = c') ∨ (k ≠ l ∧ t.node k = some (.file c')) := by
  rw [write_node hf]
  by_cases hk : k = l <;> simp [hk]

theorem mkdirs_cons_fst (t : Tree α β) (n : α) (l : Loc α) :
    (t.mkdirs (n :: l)).1 =
      if (t.mkdirs l).2 = true ∧ (t.mkdirs l).1.node (n :: l) = none then
        (t.mkdirs l).1.put n l (.dir [])
      else (t.mkdirs l).1 := by
  rcases mkdirs_cons_cases t n l with ⟨hf, he⟩ | ⟨hok, ⟨hd, he⟩ | ⟨hf, he⟩ | ⟨hn, he⟩⟩
  · rw [he, if_neg (by simp [hf])]
  · rw [he, if_neg (by simp [node_eq_dir hd])]
  · obtain ⟨c, hc⟩ := isFile_iff.mp hf
    rw [he, if_neg (by simp [hc])]
  · rw [he, if_pos ⟨hok, hn⟩]

/-- A path that ends in `.` is not removed. -/
theorem remove_snoc_stay (t : Tree α β) (p : List (Step α)) :
    (t.remove (p ++ [.stay])).1 = t := by
  have hlast : (p ++ [Step.stay (α := α)]).getLast? = some .stay := by simp
  unfold remove
  rw [hlast]
  split
  · rfl
  · rename_i hdown
    exact absurd hdown (by simp)
  · rfl

namespace AgreeFrom

theorem put (h : AgreeFrom d t t') {x : Node α β} (hx : x.isLeaf = true)
    (hl : t.isDir l = true) (hn : t.node (n :: l) = none)
    (hl' : t'.isDir l = true) (hn' : t'.node (n :: l) = none) :
    AgreeFrom d (t.put n l x) (t'.put n l x) := by
  refine ⟨fun k c => ?_, fun k hk => ?_⟩
  · rw [put_leaf_file_iff hl hn hx, put_leaf_file_iff hl' hn' hx, h.files]
  · rw [put_names hl hn hx, put_names hl' hn' hx]
    split
    · rename_i hkl
      rw [← hkl, h.names k hk]
    · exact h.names k hk

/-- A directory made in one of the trees alone, above the depth. -/
theorem put_dir_left (h : AgreeFrom d t t') (hl : t.isDir l = true)
    (hn : t.node (n :: l) = none) (hd : l.length < d) :
    AgreeFrom d (t.put n l (.dir [])) t' := by
  refine ⟨fun k c => ?_, fun k hk => ?_⟩
  · rw [put_dir_file_iff hl hn, h.files]
  · rw [put_names hl hn rfl, if_neg (fun hkl => by rw [hkl] at hk; omega), h.names k hk]

theorem write (h : AgreeFrom d t t') (hf : t.isFile l = true) (c : β) :
    AgreeFrom d (t.write l c) (t'.write l c) := by
  have hf' := (h.isFile l).symm.trans hf
  refine ⟨fun k c' => ?_, fun k hk => ?_⟩
  · rw [write_file_iff hf, write_file_iff hf', h.files]
  · rw [write_names hf, write_names hf', h.names k hk]

theorem unlink (h : AgreeFrom d t t') (hleaf : (t.node (n :: l)).any Node.isLeaf = true)
    (hleaf' : (t'.node (n :: l)).any Node.isLeaf = true) :
    AgreeFrom d (t.unlink n l) (t'.unlink n l) := by
  refine ⟨fun k c => ?_, fun k hk => ?_⟩
  · by_cases hself : k = n :: l
    · rw [unlink_node hleaf, unlink_node hleaf', if_pos hself, if_pos hself]
    · rw [unlink_file_iff hleaf hself, unlink_file_iff hleaf' hself, h.files]
  · rw [unlink_names hleaf, unlink_names hleaf']
    split
    · rename_i hkl
      rw [← hkl, h.names k hk]
    · exact h.names k hk

theorem mkdirs_ok (h : AgreeFrom d t t') (l : Loc α) : (t.mkdirs l).2 = (t'.mkdirs l).2 := by
  rw [Bool.eq_iff_iff, mkdirs_ok_iff, mkdirs_ok_iff]
  exact forall_congr' fun k => imp_congr_right fun _ => by rw [h.isFile k]

/-- Directories made above the depth in one of the trees alone. -/
theorem mkdirs_left (h : AgreeFrom d t t') (hl : l.length ≤ d) :
    AgreeFrom d (t.mkdirs l).1 t' := by
  induction l with
  | nil => exact h
  | cons n l ih =>
    have hlt : l.length < d := hl
    have hl := ih (Nat.le_of_lt hlt)
    rcases mkdirs_cons_cases t n l with ⟨_, he⟩ | ⟨hok, ⟨_, he⟩ | ⟨_, he⟩ | ⟨hn, he⟩⟩
    · rwa [he]
    · rwa [he]
    · rwa [he]
    · rw [he]
      exact hl.put_dir_left (mkdirs_isDir_self hok) hn hlt

/-- Directories made in both: what one of them lacks lies above the depth. -/
theorem mkdirs (h : AgreeFrom d t t') (l : Loc α) :
    AgreeFrom d (t.mkdirs l).1 (t'.mkdirs l).1 := by
  induction l with
  | nil => exact h
  | cons n l ih =>
    have hok := h.mkdirs_ok l
    have hshort (hne : (t.mkdirs l).1.node (n :: l) ≠ (t'.mkdirs l).1.node (n :: l)) :
        l.length < d := by
      by_contra hle
      exact hne (ih.below (Nat.le_of_not_lt hle) n)
    rw [mkdirs_cons_fst, mkdirs_cons_fst, ← hok]
    by_cases hl : (t.mkdirs l).2 = true
    · have hd := mkdirs_isDir_self hl
      have hd' := mkdirs_isDir_self (hok.symm.trans hl)
      by_cases hn : (t.mkdirs l).1.node (n :: l) = none <;>
        by_cases hn' : (t'.mkdirs l).1.node (n :: l) = none
      · rw [if_pos ⟨hl, hn⟩, if_pos ⟨hl, hn'⟩]
        exact ih.put rfl hd hn hd' hn'
      · rw [if_pos ⟨hl, hn⟩, if_neg fun hc => hn' hc.2]
        exact ih.put_dir_left hd hn (hshort fun heq => hn' (heq.symm.trans hn))
      · rw [if_neg fun hc => hn hc.2, if_pos ⟨hl, hn'⟩]
        exact (ih.symm.put_dir_left hd' hn' (hshort fun heq => hn (heq.trans hn'))).symm
      · rwa [if_neg fun hc => hn hc.2, if_neg fun hc => hn' hc.2]
    · rwa [if_neg fun hc => hl hc.1, if_neg fun hc => hl hc.1]

/-- Removal along a path that both trees read alike at its end. -/
theorem remove (h : AgreeFrom d t t') {p : List (Step α)} (hp : NoUp p)
    (hnode : t.node (lexical [] p) = t'.node (lexical [] p)) :
    AgreeFrom d (t.remove p).1 (t'.remove p).1 := by
  rcases List.eq_nil_or_concat' p with rfl | ⟨q, s, rfl⟩
  · exact h
  · cases s with
    | stay => rwa [remove_snoc_stay, remove_snoc_stay]
    | up => exact absurd (List.mem_append_right q List.mem_cons_self) hp
    | down n =>
      have hq : NoUp q := fun hm => hp (List.mem_append_left _ hm)
      rw [lexical_append, lexical_cons, lexical_nil, Step.apply] at hnode
      rw [remove_snoc hq, remove_snoc hq, ← hnode]
      split
      · rename_i hleaf
        exact h.unlink hleaf (hnode ▸ hleaf)
      · exact h

end AgreeFrom

end Changes

end FileTree.Tree

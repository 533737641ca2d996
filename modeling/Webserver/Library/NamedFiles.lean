import Mathlib.Data.List.Induction
import Webserver.Library.PathWalk

/-!
# Paths that can name a file

A walk takes every step from a directory, so a path names a file in some tree exactly if no
shorter part of it leads to the location of the file or below it.
-/

set_option autoImplicit false

namespace FileTree

universe u v
variable {α : Type u} {β : Type v}

/-- No proper part of the path leads to where the path leads, or below it. -/
def NamesFile (p : List (Step α)) : Prop :=
  p ≠ [] ∧ ∀ q, q <+: p → q ≠ p → ¬ lexical [] p <:+ lexical [] q

/-- Such a path ends in a name. -/
theorem NamesFile.exists_down {p : List (Step α)} (h : NamesFile p) :
    ∃ q n, p = q ++ [.down n] := by
  induction p using List.reverseRecOn with
  | nil => exact absurd rfl h.1
  | append_singleton q s _ =>
    have hq := h.2 q (List.prefix_append _ _) (by simp)
    rw [lexical_append] at hq
    cases s with
    | stay => exact absurd List.suffix_rfl hq
    | up => exact absurd (List.tail_suffix _) hq
    | down n => exact ⟨q, n, rfl⟩

namespace Tree
variable {t t' : Tree α β} {l k : Loc α} {p : List (Step α)} {c : β}

theorem walk_mono (hdirs : ∀ k, t.isDir k = true → t'.isDir k = true)
    (h : t.walk l p = some k) : t'.walk l p = some k := by
  induction p generalizing l with
  | nil => exact h
  | cons s p ih =>
    simp only [walk] at h ⊢
    split at h
    · rename_i hl
      rw [if_pos (hdirs l hl)]
      exact ih h
    · exact absurd h (by simp)

/-- A path that finds a file can name one. -/
theorem namesFile_of_lookup (h : t.lookup p = some (.file c)) : NamesFile p := by
  obtain ⟨k, hwalk, hk⟩ := Option.bind_eq_some_iff.mp h
  obtain rfl := walk_eq_lexical hwalk
  have hfile := isFile_of_node hk
  refine ⟨fun hnil => ?_, ?_⟩
  · rw [hnil, lexical_nil, not_isFile_of_isDir isDir_root] at hfile
    exact absurd hfile (by decide)
  · rintro q ⟨r, rfl⟩ hne hs
    have hr : r ≠ [] := fun hr => hne (by rw [hr, List.append_nil])
    have hd := isDir_of_suffix (walk_isDir hwalk hr) hs
    rw [not_isFile_of_isDir hd] at hfile
    exact absurd hfile (by decide)

/-- A walk looks at nothing but the directories. -/
theorem walk_congr (h : ∀ k, t'.isDir k = t.isDir k) : t'.walk l p = t.walk l p := by
  induction p generalizing l with
  | nil => rfl
  | cons s p ih =>
    rw [walk, walk, h l]
    split
    · exact ih
    · rfl

/-- A walk that ends where nothing is has come there from the directory above. -/
theorem isDir_of_walk {n : α} (h : t.walk [] p = some (n :: l)) (hn : t.node (n :: l) = none) :
    t.isDir l = true := by
  induction p using List.reverseRecOn with
  | nil => exact absurd (Option.some.inj h) (by simp)
  | append_singleton q s _ =>
    have hd := walk_isDir h (by simp)
    have hl := walk_eq_lexical h
    rw [lexical_append] at hl
    cases s with
    | stay =>
      have heq : n :: l = lexical [] q := hl
      rw [heq, node_eq_dir hd] at hn
      exact absurd hn (by simp)
    | up =>
      have heq : n :: l = (lexical [] q).tail := hl
      cases hq : lexical [] q with
      | nil => simp [hq] at heq
      | cons m k =>
        rw [hq] at heq hd
        obtain rfl : n :: l = k := heq
        have hparent := isDir_parent (t := t) (n := m) (l := n :: l) (by simp [node_eq_dir hd])
        rw [node_eq_dir hparent] at hn
        exact absurd hn (by simp)
    | down m =>
      obtain ⟨_, rfl⟩ := List.cons.inj (show n :: l = m :: lexical [] q from hl)
      exact hd

variable [DecidableEq α]

theorem isDir_put_file {n : α} (hl : t.isDir l = true) (hn : t.node (n :: l) = none) (k : Loc α) :
    (t.put n l (.file c)).isDir k = t.isDir k := by
  unfold isDir
  rw [put_file_node hl hn]
  split
  · rename_i hk
    rw [hk, hn]
    rfl
  · split
    · rename_i hk
      rw [hk, node_eq_dir hl]
      rfl
    · rfl

theorem isDir_write (hl : t.isFile l = true) (k : Loc α) : (t.write l c).isDir k = t.isDir k := by
  unfold isDir
  rw [write_node hl]
  split
  · rename_i hk
    obtain ⟨c', hc'⟩ := isFile_iff.mp hl
    rw [hk, hc']
    rfl
  · rfl

/-- `makeDirs` makes nothing but what the parts of the path lead to. -/
theorem makeDirs_origin (hl : t.isDir l = true) (hk : (t.makeDirs l p).1.node k ≠ none) :
    t.node k ≠ none ∨ ∃ q, q <+: p ∧ lexical l q = k := by
  induction p generalizing t l with
  | nil => exact Or.inl hk
  | cons s p ih =>
    have hcons {t' : Tree α β} (hl' : t'.isDir (s.apply l) = true)
        (hk' : (t'.makeDirs (s.apply l) p).1.node k ≠ none) :
        t'.node k ≠ none ∨ ∃ q, q <+: s :: p ∧ lexical l q = k := by
      rcases ih hl' hk' with hold | ⟨q, hq, hlex⟩
      · exact Or.inl hold
      · exact Or.inr ⟨s :: q, List.cons_prefix_cons.mpr ⟨rfl, hq⟩, hlex⟩
    rcases makeDirs_cons_cases t l s p hl with ⟨hd, he⟩ | ⟨_, he⟩ | ⟨n, rfl, hn, he⟩
    · rw [he] at hk
      exact hcons hd hk
    · rw [he] at hk
      exact Or.inl hk
    · rw [he] at hk
      rcases hcons (isDir_put_dir_self hl hn) hk with hold | hnew
      · rw [put_dir_node hl hn] at hold
        split at hold
        · rename_i hkn
          exact Or.inr ⟨[.down n], List.prefix_append _ _, hkn.symm⟩
        · split at hold
          · rename_i hkl
            exact Or.inr ⟨[], List.nil_prefix, hkl.symm⟩
          · exact Or.inl hold
      · exact Or.inr hnew

theorem makeDirs_ok_of_no_files (hl : t.isDir l = true) (hfiles : ∀ k, t.isFile k = false) :
    (t.makeDirs l p).2 = true := by
  induction p generalizing t l with
  | nil => rfl
  | cons s p ih =>
    rcases makeDirs_cons_cases t l s p hl with ⟨hd, he⟩ | ⟨hf, _⟩ | ⟨n, rfl, hn, he⟩
    · rw [he]
      exact ih hd hfiles
    · rw [hfiles] at hf
      exact absurd hf (by decide)
    · rw [he]
      refine ih (isDir_put_dir_self hl hn) fun k => ?_
      rw [Bool.eq_false_iff]
      intro hk
      obtain ⟨c, hc⟩ := isFile_iff.mp hk
      rw [put_dir_file_iff hl hn] at hc
      have hold := hfiles k
      rw [isFile_of_node hc] at hold
      exact absurd hold (by decide)

omit [DecidableEq α] in
theorem bare_isFile (k : Loc α) : (bare : Tree α β).isFile k = false := by
  by_cases hk : k = [] <;> simp [isFile, bare, hk, Node.isFile]

/-- A path that can name a file does so in some tree. -/
theorem exists_lookup (h : NamesFile p) (c : β) : ∃ t : Tree α β, t.lookup p = some (.file c) := by
  obtain ⟨q, n, rfl⟩ := h.exists_down
  have hok : ((bare : Tree α β).makeDirs [] q).2 = true :=
    makeDirs_ok_of_no_files isDir_root bare_isFile
  obtain ⟨hwalk, hd⟩ := makeDirs_walk isDir_root hok
  have hfree : ((bare : Tree α β).makeDirs [] q).1.node (n :: lexical [] q) = none := by
    by_contra hne
    rcases makeDirs_origin isDir_root hne with hold | ⟨r, hr, hlex⟩
    · exact hold (by simp [bare])
    · refine h.2 r (hr.trans (List.prefix_append _ _)) (fun heq => ?_) ?_
      · have hlen := hr.length_le
        rw [heq, List.length_append, List.length_singleton] at hlen
        omega
      · rw [hlex, lexical_append]
        exact List.suffix_rfl
  refine ⟨((bare : Tree α β).makeDirs [] q).1.put n (lexical [] q) (.file c), ?_⟩
  have hput := put_file_node (c := c) hd hfree
  have hdirs (k : Loc α) (hk : ((bare : Tree α β).makeDirs [] q).1.isDir k = true) :
      (((bare : Tree α β).makeDirs [] q).1.put n (lexical [] q) (.file c)).isDir k = true := by
    by_cases hself : k = lexical [] q
    · exact isDir_of_node (by rw [hput, if_neg (hself ▸ (List.cons_ne_self _ _).symm), if_pos hself])
    · have hne : k ≠ n :: lexical [] q := by
        rintro rfl
        have hnode := node_eq_dir hk
        rw [hfree] at hnode
        exact absurd hnode (by simp)
      exact (isDir_congr (by rw [hput, if_neg hne, if_neg hself])).trans hk
  rw [lookup, walk_append, walk_mono hdirs hwalk, Option.bind_some, walk, if_pos (hdirs _ hd)]
  rw [Step.apply, walk, Option.bind_some, hput, if_pos rfl]

end Tree
end FileTree

import Mathlib.Data.List.Basic
import Mathlib.Data.List.Nodup
import Mathlib.Logic.Function.Basic

/-!
# File trees without links

A tree maps locations to directories and files. A location lists names with the deepest
first, so that the parent of `n :: l` is `l` and a location at or below `l` has `l` as a
suffix. Names and file contents are arbitrary types. The structure carries its own
well-formedness: a location exists exactly when its parent is a directory that lists it.
-/

set_option autoImplicit false

namespace FileTree

universe u v
variable {α : Type u} {β : Type v}

/-- A location, deepest name first; `[]` is the root. -/
abbrev Loc (α : Type u) := List α

inductive Node (α : Type u) (β : Type v) where
  | dir (names : List α)
  | file (content : β)
deriving DecidableEq

namespace Node

def isDir : Node α β → Bool
  | .dir _ => true
  | .file _ => false

def isFile : Node α β → Bool
  | .dir _ => false
  | .file _ => true

/-- What may be added or removed in one step: a file or an empty directory. -/
def isLeaf : Node α β → Bool
  | .dir names => names.isEmpty
  | .file _ => true

end Node

@[ext] structure Tree (α : Type u) (β : Type v) where
  node : Loc α → Option (Node α β)
  root : ∃ ns, node [] = some (.dir ns)
  linked : ∀ n l, node (n :: l) ≠ none ↔ ∃ ns, node l = some (.dir ns) ∧ n ∈ ns
  nodup : ∀ l ns, node l = some (.dir ns) → ns.Nodup

namespace Tree
variable (t : Tree α β)

def isDir (l : Loc α) : Bool := (t.node l).any Node.isDir

def isFile (l : Loc α) : Bool := (t.node l).any Node.isFile

/-- The names a directory lists, in the order in which they were added. -/
def names (l : Loc α) : List α :=
  match t.node l with
  | some (.dir ns) => ns
  | _ => []

variable {t}
variable {l k a : Loc α} {n m : α} {c : β}

theorem isDir_iff : t.isDir l = true ↔ ∃ ns, t.node l = some (.dir ns) := by
  unfold isDir
  rcases t.node l with _ | ⟨ns | c⟩ <;> simp [Node.isDir]

theorem isFile_iff : t.isFile l = true ↔ ∃ c, t.node l = some (.file c) := by
  unfold isFile
  rcases t.node l with _ | ⟨ns | c⟩ <;> simp [Node.isFile]

theorem isDir_of_node {ns : List α} (h : t.node l = some (.dir ns)) : t.isDir l = true :=
  isDir_iff.mpr ⟨ns, h⟩

theorem isFile_of_node (h : t.node l = some (.file c)) : t.isFile l = true :=
  isFile_iff.mpr ⟨c, h⟩

theorem node_eq_dir (h : t.isDir l = true) : t.node l = some (.dir (t.names l)) := by
  obtain ⟨ns, hns⟩ := isDir_iff.mp h
  simp [names, hns]

theorem names_of_node {ns : List α} (h : t.node l = some (.dir ns)) : t.names l = ns := by
  simp [names, h]

theorem not_isFile_of_isDir (h : t.isDir l = true) : t.isFile l = false := by
  obtain ⟨ns, hns⟩ := isDir_iff.mp h
  simp [isFile, hns, Node.isFile]

theorem node_eq_none_iff : t.node l = none ↔ t.isDir l = false ∧ t.isFile l = false := by
  unfold isDir isFile
  rcases t.node l with _ | ⟨ns | c⟩ <;> simp [Node.isDir, Node.isFile]

theorem isDir_congr {t' : Tree α β} (h : t'.node l = t.node l) : t'.isDir l = t.isDir l := by
  simp [isDir, h]

theorem isFile_congr {t' : Tree α β} (h : t'.node l = t.node l) : t'.isFile l = t.isFile l := by
  simp [isFile, h]

@[simp] theorem isDir_root : t.isDir [] = true := isDir_iff.mpr t.root

theorem mem_names_iff : n ∈ t.names l ↔ t.node (n :: l) ≠ none := by
  rw [t.linked]
  constructor
  · intro h
    cases hd : t.isDir l with
    | true => exact ⟨_, node_eq_dir hd, h⟩
    | false =>
      have hnone : t.names l = [] := by
        unfold names
        split
        · rename_i ns hns
          rw [isDir_of_node hns] at hd
          exact absurd hd (by decide)
        · rfl
      simp [hnone] at h
  · rintro ⟨ns, hns, hm⟩
    rwa [names_of_node hns]

theorem names_nodup : (t.names l).Nodup := by
  cases hd : t.isDir l with
  | true => exact t.nodup l _ (node_eq_dir hd)
  | false =>
    unfold names
    split
    · rename_i ns hns
      exact t.nodup l ns hns
    · exact List.nodup_nil

/-- The parent of whatever exists is a directory. -/
theorem isDir_parent (h : t.node (n :: l) ≠ none) : t.isDir l = true := by
  obtain ⟨ns, hns, _⟩ := (t.linked n l).mp h
  exact isDir_of_node hns

/-- Every location strictly above whatever exists is a directory. -/
theorem isDir_of_above (h : t.node l ≠ none) (ha : a <:+ l) (hne : a ≠ l) :
    t.isDir a = true := by
  induction l with
  | nil => exact absurd (List.suffix_nil.mp ha) hne
  | cons n l ih =>
    have hl := isDir_parent h
    rcases List.suffix_cons_iff.mp ha with heq | hs
    · exact absurd heq hne
    · by_cases heq : a = l
      · rwa [heq]
      · refine ih ?_ hs heq
        rw [node_eq_dir hl]
        simp

/-- Below a location that is not a directory nothing exists. -/
theorem node_eq_none_of_above (hd : t.isDir a = false) (ha : a <:+ l) (hne : a ≠ l) :
    t.node l = none := by
  by_contra h
  rw [isDir_of_above h ha hne] at hd
  exact absurd hd (by decide)

/-- Below an empty directory there is nothing. -/
theorem node_eq_none_of_empty {a : Loc α} (h : t.node a = some (.dir [])) (ha : a <:+ l)
    (hne : l ≠ a) : t.node l = none := by
  induction l with
  | nil => exact absurd (List.suffix_nil.mp ha).symm hne
  | cons n l ih =>
    have hl := (List.suffix_cons_iff.mp ha).resolve_left (Ne.symm hne)
    by_cases heq : l = a
    · by_contra hnode
      have hmem := mem_names_iff.mpr hnode
      rw [heq, names_of_node h] at hmem
      exact List.not_mem_nil hmem
    · exact node_eq_none_of_above (node_eq_none_iff.mp (ih hl heq)).1 (List.suffix_cons n l)
        (List.cons_ne_self n l).symm

theorem isDir_of_suffix (h : t.isDir l = true) (ha : a <:+ l) : t.isDir a = true := by
  by_cases hne : a = l
  · rwa [hne]
  · exact isDir_of_above (by rw [node_eq_dir h]; simp) ha hne

theorem not_isFile_of_suffix (h : t.isDir l = true) (ha : a <:+ l) : t.isFile a = false :=
  not_isFile_of_isDir (isDir_of_suffix h ha)

theorem cons_cons_ne_self (m n : α) (l : Loc α) : m :: n :: l ≠ l := by
  intro heq
  have hlen := congrArg List.length heq
  simp only [List.length_cons] at hlen
  omega

/-- The tree with nothing in it. -/
def bare : Tree α β where
  node l := if l = [] then some (.dir []) else none
  root := ⟨[], rfl⟩
  linked n l := by
    constructor
    · intro h
      exact absurd rfl h
    · rintro ⟨ns, hns, hn⟩
      split at hns
      · obtain rfl : ns = [] := by simpa using hns.symm
        exact absurd hn List.not_mem_nil
      · exact absurd hns (by simp)
  nodup l ns h := by
    split at h
    · obtain rfl : ns = [] := by simpa using h.symm
      exact List.nodup_nil
    · exact absurd h (by simp)

theorem isLeaf_of_isFile (h : t.isFile l = true) : (t.node l).any Node.isLeaf = true := by
  obtain ⟨c, hc⟩ := isFile_iff.mp h
  simp [hc, Node.isLeaf]

theorem isDir_of_isLeaf (h : (t.node (n :: l)).any Node.isLeaf = true) : t.isDir l = true :=
  isDir_parent (n := n) fun hnone => by simp [hnone] at h

theorem ne_cons_of_suffix {k : Loc α} (hk : k <:+ l) : k ≠ n :: l := by
  rintro rfl
  have hlen := hk.length_le
  simp only [List.length_cons] at hlen
  omega

section Changes
variable [DecidableEq α]

/-- Adds the leaf `x` under the name `n` in the directory `l`; nothing happens when `l` is
not a directory, the name is taken or `x` is not a leaf. -/
def put (t : Tree α β) (n : α) (l : Loc α) (x : Node α β) : Tree α β :=
  if h : t.isDir l = true ∧ t.node (n :: l) = none ∧ x.isLeaf = true then
    { node := fun k =>
        if k = n :: l then some x
        else if k = l then some (.dir (t.names l ++ [n]))
        else t.node k
      root := by
        by_cases hl : l = []
        · exact ⟨t.names l ++ [n], by simp [hl]⟩
        · obtain ⟨ns, hns⟩ := t.root
          exact ⟨ns, by simp [Ne.symm hl, hns]⟩
      linked := by
        intro m k
        by_cases hk : k = l
        · subst hk
          by_cases hm : m = n
          · simp [hm]
          · simp [hm, mem_names_iff]
        · by_cases hkn : k = n :: l
          · subst hkn
            have hbelow : t.node (m :: n :: l) = none := by
              by_contra hne
              have hd := isDir_parent hne
              rw [node_eq_dir hd] at h
              exact absurd h.2.1 (by simp)
            have hml : m :: n :: l ≠ l := cons_cons_ne_self m n l
            simp only [List.cons.injEq, hk, and_false, if_false, hml, hbelow, ne_eq,
              not_true_eq_false, if_true, Option.some.injEq, false_iff]
            rintro ⟨ns, rfl, hm⟩
            have hnil : ns = [] := List.isEmpty_iff.mp h.2.2
            simp [hnil] at hm
          · have hmk : m :: k ≠ n :: l := fun heq => hk (List.cons.inj heq).2
            simp only [hmk, if_false, hkn, hk]
            by_cases hml : m :: k = l
            · simp only [hml, if_true]
              rw [← t.linked, hml, node_eq_dir h.1]
              simp
            · simp only [hml, if_false]
              exact t.linked m k
      nodup := by
        intro k ns hns
        split at hns
        · injection hns with hx
          have hnil : ns = [] := by
            have hleaf := h.2.2
            rw [hx] at hleaf
            exact List.isEmpty_iff.mp hleaf
          simp [hnil]
        · split at hns
          · simp only [Option.some.injEq, Node.dir.injEq] at hns
            rw [← hns]
            refine List.nodup_append.mpr ⟨names_nodup, by simp, ?_⟩
            rintro x hx y hy rfl
            rw [List.mem_singleton.mp hy] at hx
            exact mem_names_iff.mp hx h.2.1
          · exact t.nodup k ns hns }
  else t

theorem put_node {x : Node α β} (hl : t.isDir l = true) (hn : t.node (n :: l) = none)
    (hx : x.isLeaf = true) (k : Loc α) :
    (t.put n l x).node k =
      if k = n :: l then some x
      else if k = l then some (.dir (t.names l ++ [n]))
      else t.node k := by
  unfold put
  rw [dif_pos ⟨hl, hn, hx⟩]

theorem put_dir_node (hl : t.isDir l = true) (hn : t.node (n :: l) = none) (k : Loc α) :
    (t.put n l (.dir [])).node k =
      if k = n :: l then some (.dir [])
      else if k = l then some (.dir (t.names l ++ [n]))
      else t.node k :=
  put_node hl hn rfl k

theorem put_file_node (hl : t.isDir l = true) (hn : t.node (n :: l) = none) (k : Loc α) :
    (t.put n l (.file c)).node k =
      if k = n :: l then some (.file c)
      else if k = l then some (.dir (t.names l ++ [n]))
      else t.node k :=
  put_node hl hn rfl k

/-- Removes the leaf at `n :: l`; nothing happens when there is no leaf. -/
def unlink (t : Tree α β) (n : α) (l : Loc α) : Tree α β :=
  if h : (t.node (n :: l)).any Node.isLeaf = true then
    have hne : t.node (n :: l) ≠ none := fun hnone => by simp [hnone] at h
    { node := fun k =>
        if k = n :: l then none
        else if k = l then some (.dir ((t.names l).erase n))
        else t.node k
      root := by
        by_cases hl : l = []
        · exact ⟨(t.names l).erase n, by simp [hl]⟩
        · obtain ⟨ns, hns⟩ := t.root
          exact ⟨ns, by simp [Ne.symm hl, hns]⟩
      linked := by
        intro m k
        by_cases hk : k = l
        · subst hk
          by_cases hm : m = n
          · subst hm
            simp [(names_nodup (t := t) (l := k)).not_mem_erase]
          · simp [hm, List.mem_erase_of_ne hm, mem_names_iff]
        · have hmk : m :: k ≠ n :: l := fun heq => hk (List.cons.inj heq).2
          by_cases hkn : k = n :: l
          · subst hkn
            have hbelow : t.node (m :: n :: l) = none := by
              by_contra hc
              obtain ⟨ns, hns, hm⟩ := (t.linked m (n :: l)).mp hc
              simp only [hns, Option.any_some, Node.isLeaf] at h
              simp [List.isEmpty_iff.mp h] at hm
            have hml : m :: n :: l ≠ l := cons_cons_ne_self m n l
            simp only [hmk, if_false, hml, hbelow, if_true]
            simp
          · simp only [hmk, if_false, hkn, hk]
            by_cases hml : m :: k = l
            · simp only [hml, if_true]
              rw [← t.linked, hml, node_eq_dir (isDir_parent hne)]
              simp
            · simp only [hml, if_false]
              exact t.linked m k
      nodup := by
        intro k ns hns
        split at hns
        · exact absurd hns (by simp)
        · split at hns
          · simp only [Option.some.injEq, Node.dir.injEq] at hns
            rw [← hns]
            exact names_nodup.erase n
          · exact t.nodup k ns hns }
  else t

theorem unlink_node (h : (t.node (n :: l)).any Node.isLeaf = true) (k : Loc α) :
    (t.unlink n l).node k =
      if k = n :: l then none
      else if k = l then some (.dir ((t.names l).erase n))
      else t.node k := by
  unfold unlink
  rw [dif_pos h]

theorem isDir_unlink (h : (t.node (n :: l)).any Node.isLeaf = true) :
    (t.unlink n l).isDir l = true :=
  isDir_of_node (by rw [unlink_node h, if_neg (List.cons_ne_self n l).symm, if_pos rfl])

theorem unlink_file_iff (h : (t.node (n :: l)).any Node.isLeaf = true) {k : Loc α}
    (hk : k ≠ n :: l) (c : β) :
    (t.unlink n l).node k = some (.file c) ↔ t.node k = some (.file c) := by
  rw [unlink_node h, if_neg hk]
  split
  · rename_i hkl
    rw [hkl, node_eq_dir (isDir_of_isLeaf h)]
    simp
  · rfl

/-- Replaces the content of a file; nothing happens when `l` is not a file. -/
def write (t : Tree α β) (l : Loc α) (c : β) : Tree α β :=
  if h : t.isFile l = true then
    { node := fun k => if k = l then some (.file c) else t.node k
      root := by
        have hl : ([] : Loc α) ≠ l := by
          rintro rfl
          rw [not_isFile_of_isDir isDir_root] at h
          exact absurd h (by decide)
        obtain ⟨ns, hns⟩ := t.root
        exact ⟨ns, by simp [hl, hns]⟩
      linked := by
        intro m k
        obtain ⟨c', hc'⟩ := isFile_iff.mp h
        by_cases hk : k = l
        · subst hk
          have hmk : m :: k ≠ k := List.cons_ne_self m k
          have hbelow : t.node (m :: k) = none := by
            by_contra hne
            rw [node_eq_dir (isDir_parent hne)] at hc'
            exact absurd hc' (by simp)
          simp [hmk, hbelow]
        · by_cases hml : m :: k = l
          · have := t.linked m k
            rw [hml, hc'] at this
            simp only [hml, if_true, hk, if_false]
            simpa using this
          · simp only [hml, if_false, hk]
            exact t.linked m k
      nodup := by
        intro k ns hns
        split at hns
        · exact absurd hns (by simp)
        · exact t.nodup k ns hns }
  else t

theorem write_node (h : t.isFile l = true) (c : β) (k : Loc α) :
    (t.write l c).node k = if k = l then some (.file c) else t.node k := by
  unfold write
  rw [dif_pos h]

theorem isFile_put_above (hl : t.isDir l = true) (hn : t.node (n :: l) = none) {k : Loc α}
    (hk : k <:+ l) (c : β) : (t.put n l (.file c)).isFile k = t.isFile k := by
  by_cases hkl : k = l
  · rw [hkl, not_isFile_of_isDir hl]
    have hdir : (t.put n l (.file c)).node l = some (.dir (t.names l ++ [n])) := by
      rw [put_file_node hl hn, if_neg (List.cons_ne_self n l).symm, if_pos rfl]
    exact not_isFile_of_isDir (isDir_of_node hdir)
  · exact isFile_congr (by rw [put_file_node hl hn, if_neg (ne_cons_of_suffix hk), if_neg hkl])

theorem isFile_unlink_above (h : (t.node (n :: l)).any Node.isLeaf = true) {k : Loc α}
    (hk : k <:+ l) : (t.unlink n l).isFile k = t.isFile k := by
  by_cases hkl : k = l
  · rw [hkl, not_isFile_of_isDir (isDir_unlink h), not_isFile_of_isDir (isDir_of_isLeaf h)]
  · exact isFile_congr (by rw [unlink_node h, if_neg (ne_cons_of_suffix hk), if_neg hkl])

theorem isFile_put_file (hl : t.isDir l = true) (hn : t.node (n :: l) = none) :
    (t.put n l (.file c)).isFile (n :: l) = true :=
  isFile_of_node (by rw [put_file_node hl hn, if_pos rfl])

/-- Writing to a file just created. -/
theorem put_write (hl : t.isDir l = true) (hn : t.node (n :: l) = none) (c' : β) :
    (t.put n l (.file c)).write (n :: l) c' = t.put n l (.file c') := by
  ext1
  funext k
  rw [write_node (isFile_put_file hl hn), put_file_node hl hn, put_file_node hl hn]
  split <;> rfl

theorem isFile_write (h : t.isFile l = true) : (t.write l c).isFile l = true :=
  isFile_of_node (by rw [write_node h, if_pos rfl])

theorem write_write (h : t.isFile l = true) (c' : β) :
    (t.write l c).write l c' = t.write l c' := by
  ext1
  funext k
  rw [write_node (isFile_write h), write_node h, write_node h]
  split <;> rfl

end Changes

end Tree
end FileTree

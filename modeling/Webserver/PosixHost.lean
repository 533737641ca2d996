import Webserver.BoostFilesystem

/-!
# A POSIX host

Definitions for the path functions, with the properties `Host` asks for, and the host they
make with a given working directory. Directories are read in the order of their entries.
-/

set_option autoImplicit false

namespace Webserver

open Segments

namespace PosixPath

/-- The spelling before and after the last slash. -/
def splitLast : Str → Option (Str × Str)
  | [] => none
  | c :: p =>
    match splitLast p with
    | some (d, n) => some (c :: d, n)
    | none => if c = '/' then some ([], p) else none

/-- Without the slashes at the end. -/
def dropSlashes : Str → Str
  | [] => []
  | c :: p =>
    match dropSlashes p with
    | [] => if c = '/' then [] else [c]
    | d => c :: d

def append (p q : Str) : Str :=
  if q = [] then p
  else if p = [] ∨ p.getLast? = some '/' ∨ q.head? = some '/' then p ++ q
  else p ++ '/' :: q

def filename (p : Str) : Str :=
  match splitLast p with
  | none => p
  | some (d, n) =>
    if d = ['/'] then p
    else if n ≠ [] then n
    else if dropSlashes d = [] then ['/']
    else dot

/-- A lone root-name: two slashes and a name. -/
def isRootName (p : Str) : Bool :=
  match splitLast p with
  | some (d, n) => d == ['/'] && n != []
  | none => false

def parentPath (p : Str) : Str :=
  match splitLast p with
  | none => []
  | some (d, n) =>
    if n = [] then dropSlashes d
    else if d = ['/'] then []
    else if dropSlashes d = [] then ['/']
    else if isRootName (dropSlashes d) then dropSlashes d ++ ['/']
    else dropSlashes d

/-- A root-name, the root directory, the names and a dot for a trailing slash. -/
def elements (p : Str) : List Str :=
  let names := components p
  let trailing := if p.getLast? = some '/' ∧ names ≠ [] then [dot] else []
  match p with
  | '/' :: '/' :: r =>
    if r.head? = some '/' then ['/'] :: (names ++ trailing)
    else ("//".toList ++ names.headD []) ::
      ((if '/' ∈ r then [['/']] else []) ++ (names.tail ++ trailing))
  | '/' :: _ => ['/'] :: (names ++ trailing)
  | _ => names ++ trailing

def extension (p : Str) : Str :=
  if '.' ∈ filename p ∧ filename p ≠ dot ∧ filename p ≠ dotDot then
    '.' :: ((filename p).reverse.takeWhile (· ≠ '.')).reverse
  else []

theorem elements_absolute (p : Str) (habs : p.head? = some '/') (hlast : p.getLast? ≠ some '/')
    (hnet : ¬ IsNet p) : elements p = ['/'] :: components p := by
  have htrailing : (if p.getLast? = some '/' ∧ components p ≠ [] then [dot] else []) = [] :=
    if_neg fun h => hlast h.1
  unfold elements
  dsimp only
  rw [htrailing, List.append_nil]
  split
  · rename_i r
    by_cases hr : r.head? = some '/'
    · rw [if_pos hr]
    · exact absurd ⟨r, rfl, hr⟩ hnet
  · rfl
  · rename_i hslash
    obtain ⟨r, rfl⟩ := List.head?_eq_some_iff.mp habs
    exact absurd rfl (hslash r)

theorem elements_net (p : Str) (h : IsNet p) : (elements p).head? ≠ some ['/'] := by
  obtain ⟨r, rfl, hr⟩ := h
  simp [elements, hr]

def absolute (cwd : List Name) (p : Str) : Str :=
  if p.head? = some '/' then p else append (joined '/' cwd) p

theorem splitLast_of_not_mem {n : Str} (h : '/' ∉ n) : splitLast n = none := by
  induction n with
  | nil => rfl
  | cons c n ih =>
    have hc : c ≠ '/' := fun heq => h (heq ▸ List.mem_cons_self)
    simp [splitLast, ih fun hm => h (List.mem_cons_of_mem c hm), hc]

theorem splitLast_snoc (d : Str) {n : Str} (h : '/' ∉ n) :
    splitLast (d ++ '/' :: n) = some (d, n) := by
  induction d with
  | nil => simp [splitLast, splitLast_of_not_mem h]
  | cons c d ih => simp [splitLast, ih]

theorem not_mem_of_splitLast {p : Str} (h : splitLast p = none) : '/' ∉ p := by
  induction p with
  | nil => simp
  | cons c p ih =>
    simp only [splitLast] at h
    split at h
    · exact absurd h (by simp)
    · rename_i hs
      split at h
      · exact absurd h (by simp)
      · rename_i hc
        simp [Ne.symm hc, ih hs]

theorem splitLast_some {p d n : Str} (h : splitLast p = some (d, n)) :
    p = d ++ '/' :: n ∧ '/' ∉ n := by
  induction p generalizing d n with
  | nil => simp [splitLast] at h
  | cons c p ih =>
    simp only [splitLast] at h
    split at h
    · rename_i d' n' hs
      obtain ⟨rfl, rfl⟩ := Prod.mk.inj (Option.some.inj h)
      obtain ⟨rfl, hn⟩ := ih hs
      exact ⟨rfl, hn⟩
    · rename_i hs
      split at h
      · rename_i hc
        obtain ⟨rfl, rfl⟩ := Prod.mk.inj (Option.some.inj h)
        exact ⟨by rw [hc]; rfl, not_mem_of_splitLast hs⟩
      · exact absurd h (by simp)

/-- What is dropped is a run of slashes, and no slash is left at the end. -/
theorem dropSlashes_spec (p : Str) :
    (∃ k, p = dropSlashes p ++ List.replicate k '/') ∧
      (dropSlashes p).getLast? ≠ some '/' := by
  induction p with
  | nil => exact ⟨⟨0, rfl⟩, by simp [dropSlashes]⟩
  | cons c p ih =>
    obtain ⟨⟨k, hk⟩, hlast⟩ := ih
    cases hd : dropSlashes p with
    | nil =>
      rw [hd] at hk
      by_cases hc : c = '/'
      · simp only [dropSlashes, hd, hc, if_true]
        exact ⟨⟨k + 1, by rw [hk]; rfl⟩, by simp⟩
      · simp only [dropSlashes, hd, hc, if_false]
        exact ⟨⟨k, by rw [hk]; rfl⟩, by simpa using hc⟩
    | cons a d =>
      rw [hd] at hk hlast
      simp only [dropSlashes, hd]
      exact ⟨⟨k, by rw [hk]; rfl⟩, by simpa [List.getLast?_cons_cons] using hlast⟩

theorem dropSlashes_replicate (k : Nat) : dropSlashes (List.replicate k '/') = [] := by
  induction k with
  | zero => rfl
  | succ k ih => simp [List.replicate_succ, dropSlashes, ih]

theorem dropSlashes_append {d : Str} (h : d.getLast? ≠ some '/') (k : Nat) :
    dropSlashes (d ++ List.replicate k '/') = d := by
  induction d with
  | nil => exact dropSlashes_replicate k
  | cons c d ih =>
    cases d with
    | nil =>
      have hc : c ≠ '/' := by simpa using h
      simp [dropSlashes, dropSlashes_replicate, hc]
    | cons a d =>
      have hd := ih (by simpa [List.getLast?_cons_cons] using h)
      rw [List.cons_append, dropSlashes, hd]

theorem dropSlashes_isPrefix (p : Str) : dropSlashes p <+: p := by
  obtain ⟨⟨k, hk⟩, _⟩ := dropSlashes_spec p
  exact ⟨_, hk.symm⟩

theorem components_append_slashes (p : Str) (k : Nat) :
    components (p ++ List.replicate k '/') = components p := by
  induction k with
  | zero => simp
  | succ k ih =>
    rw [List.replicate_succ', ← List.append_assoc, components, segments_concat_sep]
    exact ih

theorem components_dropSlashes (p : Str) : components (dropSlashes p) = components p := by
  obtain ⟨⟨k, hk⟩, _⟩ := dropSlashes_spec p
  conv_rhs => rw [hk, components_append_slashes]

theorem isNet_of_isPrefix {p d : Str} (hp : IsNet p) (hd : d <+: p) (hne : d ≠ [])
    (hlast : d.getLast? ≠ some '/') : IsNet d := by
  obtain ⟨r, rfl, hr⟩ := hp
  obtain ⟨s, hs⟩ := hd
  match d, hne with
  | [a], _ =>
    obtain rfl := (List.cons.inj hs).1
    simp at hlast
  | [a, b], _ =>
    obtain rfl := (List.cons.inj (List.cons.inj hs).2).1
    simp at hlast
  | a :: b :: c :: d, _ =>
    simp only [List.cons_append, List.cons.injEq] at hs
    obtain ⟨rfl, rfl, rfl⟩ := hs
    exact ⟨c :: d, rfl, by simpa using hr⟩

theorem isRootName_iff {p : Str} :
    isRootName p = true ↔ ∃ n, n ≠ [] ∧ '/' ∉ n ∧ p = '/' :: '/' :: n := by
  unfold isRootName
  constructor
  · intro h
    split at h
    · rename_i d n hs
      obtain ⟨rfl, hn⟩ := splitLast_some hs
      simp only [Bool.and_eq_true, beq_iff_eq, bne_iff_ne] at h
      obtain ⟨rfl, hne⟩ := h
      exact ⟨n, hne, hn, rfl⟩
    · exact absurd h (by decide)
  · rintro ⟨n, hne, hn, rfl⟩
    have hs := splitLast_snoc ['/'] hn
    simp only [List.cons_append, List.nil_append] at hs
    simp [hs, hne]

theorem isNet_of_isRootName {p : Str} (h : isRootName p = true) (s : Str) : IsNet (p ++ s) := by
  obtain ⟨n, hne, hn, rfl⟩ := isRootName_iff.mp h
  refine ⟨n ++ s, rfl, ?_⟩
  cases n with
  | nil => exact absurd rfl hne
  | cons c n =>
    intro hc
    exact hn (by simpa using List.mem_cons.mpr (Or.inl (Option.some.inj hc).symm))

theorem parentPath_net (p : Str) (h : IsNet p) : parentPath p = [] ∨ IsNet (parentPath p) := by
  unfold parentPath
  split
  · exact Or.inl rfl
  · rename_i d n hs
    obtain ⟨rfl, hn⟩ := splitLast_some hs
    have hpre : dropSlashes d <+: d ++ '/' :: n :=
      (dropSlashes_isPrefix d).trans (List.prefix_append d _)
    have hkeep : dropSlashes d = [] ∨ IsNet (dropSlashes d) := by
      by_cases hne : dropSlashes d = []
      · exact Or.inl hne
      · exact Or.inr (isNet_of_isPrefix h hpre hne (dropSlashes_spec d).2)
    split
    · exact hkeep
    · split
      · exact Or.inl rfl
      · rename_i hn0 hd
        split
        · -- a run of slashes in front of a name is one slash or at least three
          rename_i hnil
          exfalso
          obtain ⟨⟨k, hk⟩, _⟩ := dropSlashes_spec d
          rw [hnil, List.nil_append] at hk
          obtain ⟨r, heq, hr⟩ := h
          match k with
          | 0 =>
            rw [hk] at heq
            obtain rfl := (List.cons.inj heq).2
            exact hn List.mem_cons_self
          | 1 => exact hd hk
          | k + 2 =>
            rw [hk] at heq
            obtain rfl := (List.cons.inj (List.cons.inj heq).2).2
            cases k <;> simp [List.replicate_succ] at hr
        · split
          · rename_i hroot
            exact Or.inr (isNet_of_isRootName hroot _)
          · exact hkeep

theorem parentPath_shorter (p : Str) (h : p ≠ []) : (parentPath p).length < p.length := by
  unfold parentPath
  split
  · exact List.length_pos_of_ne_nil h
  · rename_i d n hs
    obtain ⟨rfl, _⟩ := splitLast_some hs
    have hle := (dropSlashes_isPrefix d).length_le
    simp only [List.length_append, List.length_cons]
    split
    · omega
    · rename_i hn
      have hpos := List.length_pos_of_ne_nil hn
      split
      · simp only [List.length_nil]
        omega
      · split
        · simp only [List.length_cons, List.length_nil]
          omega
        · split
          · simp only [List.length_append, List.length_cons, List.length_nil]
            omega
          · omega

theorem components_parentPath (d n : Str) (hn : IsSegment '/' n) :
    components (parentPath (d ++ '/' :: n)) = components d := by
  simp only [parentPath, splitLast_snoc d hn.2, hn.1, if_false]
  split
  · rename_i hd
    rw [hd]
    rfl
  · split
    · rename_i hnil
      rw [← components_dropSlashes d, hnil]
      rfl
    · split
      · rw [← components_dropSlashes d]
        exact segments_concat_sep '/' _
      · exact components_dropSlashes d

theorem components_parentPath_isPrefix (p : Str) : components (parentPath p) <+: components p := by
  cases hs : splitLast p with
  | none =>
    rw [parentPath, hs]
    exact List.nil_prefix
  | some x =>
    obtain ⟨d, n⟩ := x
    obtain ⟨rfl, hn⟩ := splitLast_some hs
    by_cases hnil : n = []
    · subst hnil
      have hp : parentPath (d ++ ['/']) = dropSlashes d := by simp [parentPath, hs]
      have hd : components (d ++ ['/']) = components d := segments_concat_sep '/' d
      have heq : components (parentPath (d ++ ['/'])) = components (d ++ ['/']) := by
        rw [hp, components_dropSlashes, hd]
      exact heq ▸ List.prefix_rfl
    · rw [components_parentPath d n ⟨hnil, hn⟩]
      unfold components
      rw [segments_snoc d ⟨hnil, hn⟩]
      exact List.prefix_append _ _

theorem parentPath_snoc (d : Str) (k : Nat) (n : Str) (hn : IsSegment '/' n) (hne : d ≠ [])
    (hlast : d.getLast? ≠ some '/') (hnet : ¬ IsNet d) :
    parentPath (d ++ List.replicate (k + 1) '/' ++ n) = d := by
  have hd := dropSlashes_append hlast k
  have hslash : d ++ List.replicate k '/' ≠ ['/'] := by
    intro heq
    rw [heq] at hd
    exact hne hd.symm
  have hroot : isRootName d ≠ true := fun h => hnet (by simpa using isNet_of_isRootName h [])
  rw [append_replicate_sep, parentPath, splitLast_snoc _ hn.2]
  simp [hn.1, hslash, hd, hne, hroot]

theorem parentPath_top (k : Nat) (n : Str) (hn : IsSegment '/' n) (hk : k ≠ 1) :
    parentPath (List.replicate (k + 1) '/' ++ n) = ['/'] := by
  have hsplit : List.replicate (k + 1) '/' ++ n = List.replicate k '/' ++ '/' :: n := by
    simp [List.replicate_succ']
  have hslash : List.replicate k '/' ≠ ['/'] := by
    intro heq
    exact hk (by simpa using congrArg List.length heq)
  rw [hsplit, parentPath, splitLast_snoc _ hn.2]
  simp [hn.1, hslash, dropSlashes_replicate]

end PosixPath

/-- The host whose working directory has the given names. -/
def Host.posix (cwd : List Name) (h : ∀ n ∈ cwd, IsName n) : Host where
  cwd := cwd
  cwd_names := h
  append := PosixPath.append
  append_eq _ _ := rfl
  filename := PosixPath.filename
  filename_snoc d n hn hd := by
    simp [PosixPath.filename, PosixPath.splitLast_snoc d hn.2, hd, hn.1]
  filename_name n hn := by
    simp [PosixPath.filename, PosixPath.splitLast_of_not_mem hn]
  parentPath := PosixPath.parentPath
  parentPath_snoc := PosixPath.parentPath_snoc
  parentPath_top := PosixPath.parentPath_top
  parentPath_name n hn := by
    simp [PosixPath.parentPath, PosixPath.splitLast_of_not_mem hn]
  parentPath_net := PosixPath.parentPath_net
  parentPath_shorter := PosixPath.parentPath_shorter
  components_parentPath := PosixPath.components_parentPath
  components_parentPath_isPrefix := PosixPath.components_parentPath_isPrefix
  elements := PosixPath.elements
  elements_absolute := PosixPath.elements_absolute
  elements_net := PosixPath.elements_net
  absolute := PosixPath.absolute cwd
  absolute_eq p habs _ := if_pos habs
  absolute_net p hnet _ := by
    have habs : p.head? = some '/' := by
      obtain ⟨r, rfl, _⟩ := hnet
      rfl
    rwa [PosixPath.absolute, if_pos habs]
  extension := PosixPath.extension
  readdir l := l
  readdir_perm _ := List.Perm.refl _

namespace Demo

def host : Host := Host.posix ["srv".toList] (by decide)

end Demo

end Webserver

import Webserver.Library.FileTree

/-!
# Creating directories and walking paths

`mkdirs` makes a location and everything above it. A path is a list of steps (stay, up,
down to a name), as a file system reads the components of a path name: `walk` follows it
through the directories that exist, `lexical` without looking. The two agree wherever the
walk succeeds, and for paths that never go up they differ only in what a missing directory
hides.
-/

set_option autoImplicit false

namespace FileTree

universe u v
variable {α : Type u} {β : Type v}

namespace Tree
variable [DecidableEq α] {t : Tree α β} {l k a : Loc α} {n : α} {c : β}

/-- Makes the location a directory, its ancestors first; fails when one of them is a file. -/
def mkdirs (t : Tree α β) : Loc α → Tree α β × Bool
  | [] => (t, true)
  | n :: l =>
    match t.mkdirs l with
    | (t', false) => (t', false)
    | (t', true) =>
      match t'.node (n :: l) with
      | some (.dir _) => (t', true)
      | some (.file _) => (t', false)
      | none => (t'.put n l (.dir []), true)

/-- Everything one call of `mkdirs` can do at its last name. -/
theorem mkdirs_cons_cases (t : Tree α β) (n : α) (l : Loc α) :
    ((t.mkdirs l).2 = false ∧ t.mkdirs (n :: l) = ((t.mkdirs l).1, false)) ∨
    ((t.mkdirs l).2 = true ∧
      (((t.mkdirs l).1.isDir (n :: l) = true ∧ t.mkdirs (n :: l) = ((t.mkdirs l).1, true)) ∨
       ((t.mkdirs l).1.isFile (n :: l) = true ∧ t.mkdirs (n :: l) = ((t.mkdirs l).1, false)) ∨
       ((t.mkdirs l).1.node (n :: l) = none ∧
          t.mkdirs (n :: l) = ((t.mkdirs l).1.put n l (.dir []), true)))) := by
  rcases hm : t.mkdirs l with ⟨t', ok⟩
  cases ok with
  | false => exact Or.inl ⟨rfl, by simp [mkdirs, hm]⟩
  | true =>
    refine Or.inr ⟨rfl, ?_⟩
    rcases hn : t'.node (n :: l) with _ | ⟨ns | c⟩
    · exact Or.inr (Or.inr ⟨rfl, by simp [mkdirs, hm, hn]⟩)
    · exact Or.inl ⟨isDir_of_node hn, by simp [mkdirs, hm, hn]⟩
    · exact Or.inr (Or.inl ⟨isFile_of_node hn, by simp [mkdirs, hm, hn]⟩)

theorem mkdirs_isDir_self (h : (t.mkdirs l).2 = true) : (t.mkdirs l).1.isDir l = true := by
  induction l with
  | nil => exact isDir_root
  | cons n l ih =>
    rcases mkdirs_cons_cases t n l with ⟨_, he⟩ | ⟨hok, ⟨hd, he⟩ | ⟨_, he⟩ | ⟨hn, he⟩⟩
    · simp [he] at h
    · rwa [he]
    · simp [he] at h
    · rw [he]
      exact isDir_iff.mpr ⟨[], by simp [put_dir_node (ih hok) hn]⟩

theorem mkdirs_of_isDir (h : t.isDir l = true) : t.mkdirs l = (t, true) := by
  induction l with
  | nil => rfl
  | cons n l ih =>
    have hl := ih (isDir_of_suffix h (List.suffix_cons n l))
    simp [mkdirs, hl, node_eq_dir h]

/-- Only the location and what lies above it is touched. -/
theorem mkdirs_frame (h : ¬ k <:+ l) : (t.mkdirs l).1.node k = t.node k := by
  induction l with
  | nil => rfl
  | cons n l ih =>
    have hkl : ¬ k <:+ l := fun hs => h (hs.trans (List.suffix_cons n l))
    have hkn : k ≠ n :: l := fun heq => h (heq ▸ List.suffix_refl _)
    have hk : k ≠ l := fun heq => hkl (heq ▸ List.suffix_refl _)
    rcases mkdirs_cons_cases t n l with ⟨_, he⟩ | ⟨hok, ⟨_, he⟩ | ⟨_, he⟩ | ⟨hn, he⟩⟩
    · rw [he, ih hkl]
    · rw [he, ih hkl]
    · rw [he, ih hkl]
    · rw [he, put_dir_node (mkdirs_isDir_self hok) hn, if_neg hkn, if_neg hk, ih hkl]

/-- Directories stay directories and files stay as they are. -/
theorem mkdirs_keeps (t : Tree α β) (l k : Loc α) :
    (t.isDir k = true → (t.mkdirs l).1.isDir k = true) ∧
    (∀ c, (t.mkdirs l).1.node k = some (.file c) ↔ t.node k = some (.file c)) := by
  induction l with
  | nil => exact ⟨id, fun _ => Iff.rfl⟩
  | cons n l ih =>
    rcases mkdirs_cons_cases t n l with ⟨_, he⟩ | ⟨hok, ⟨_, he⟩ | ⟨_, he⟩ | ⟨hn, he⟩⟩
    · rwa [he]
    · rwa [he]
    · rwa [he]
    · have hp := put_dir_node (mkdirs_isDir_self hok) hn k
      rw [he]
      by_cases hkn : k = n :: l
      · subst hkn
        rw [if_pos rfl] at hp
        refine ⟨fun _ => isDir_of_node hp, fun c => ?_⟩
        rw [hp, ← ih.2 c, hn]
        simp
      · rw [if_neg hkn] at hp
        by_cases hkl : k = l
        · subst hkl
          rw [if_pos rfl] at hp
          refine ⟨fun _ => isDir_of_node hp, fun c => ?_⟩
          rw [hp, ← ih.2 c, node_eq_dir (mkdirs_isDir_self hok)]
          simp
        · rw [if_neg hkl] at hp
          exact ⟨fun hd => by rw [isDir_congr hp]; exact ih.1 hd, fun c => by rw [hp, ih.2 c]⟩

theorem mkdirs_file_iff : (t.mkdirs l).1.node k = some (.file c) ↔ t.node k = some (.file c) :=
  (mkdirs_keeps t l k).2 c

theorem mkdirs_isFile : (t.mkdirs l).1.isFile k = t.isFile k := by
  rw [Bool.eq_iff_iff, isFile_iff, isFile_iff]
  exact exists_congr fun c => mkdirs_file_iff

theorem mkdirs_isDir (h : t.isDir k = true) : (t.mkdirs l).1.isDir k = true :=
  (mkdirs_keeps t l k).1 h

theorem mkdirs_ok_iff : (t.mkdirs l).2 = true ↔ ∀ k, k <:+ l → t.isFile k = false := by
  constructor
  · intro h k hk
    rw [← mkdirs_isFile (l := l)]
    exact not_isFile_of_suffix (mkdirs_isDir_self h) hk
  · intro h
    induction l with
    | nil => rfl
    | cons n l ih =>
      have hl := ih fun k hk => h k (hk.trans (List.suffix_cons n l))
      have hn := h (n :: l) (List.suffix_refl _)
      rw [← mkdirs_isFile (l := l)] at hn
      rcases mkdirs_cons_cases t n l with ⟨hf, _⟩ | ⟨_, ⟨_, he⟩ | ⟨hf, _⟩ | ⟨_, he⟩⟩
      · simp [hl] at hf
      · rw [he]
      · simp [hn] at hf
      · rw [he]

theorem exists_isFile_of_failed (h : (t.mkdirs l).2 = false) :
    ∃ k, k <:+ l ∧ t.isFile k = true := by
  by_contra hnone
  have hfree (k : List α) (hk : k <:+ l) : t.isFile k = false := by
    by_contra hfile
    exact hnone ⟨k, hk, by simpa using hfile⟩
  rw [mkdirs_ok_iff.mpr hfree] at h
  exact absurd h (by decide)

/-- A failing call changes nothing: the file in the way is met before anything is missing. -/
theorem mkdirs_of_failed (h : (t.mkdirs l).2 = false) : (t.mkdirs l).1 = t := by
  induction l with
  | nil => rfl
  | cons n l ih =>
    rcases mkdirs_cons_cases t n l with ⟨hf, he⟩ | ⟨_, ⟨_, he⟩ | ⟨hf, he⟩ | ⟨_, he⟩⟩
    · rw [he, ih hf]
    · simp [he] at h
    · rw [mkdirs_isFile] at hf
      have hne : t.node (n :: l) ≠ none := by
        obtain ⟨c, hc⟩ := isFile_iff.mp hf
        simp [hc]
      rw [he, mkdirs_of_isDir (isDir_parent hne)]
    · simp [he] at h

/-- A location that was missing becomes an empty directory. -/
theorem mkdirs_new (hok : (t.mkdirs l).2 = true) (hl : t.node l = none) :
    (t.mkdirs l).1.node l = some (.dir []) := by
  cases l with
  | nil =>
    obtain ⟨ns, hns⟩ := t.root
    simp [hns] at hl
  | cons n l =>
    have hnl : ¬ n :: l <:+ l := fun hs => by
      have := hs.length_le
      simp only [List.length_cons] at this
      omega
    rcases mkdirs_cons_cases t n l with ⟨_, he⟩ | ⟨hok', ⟨hd, _⟩ | ⟨_, he⟩ | ⟨hn, he⟩⟩
    · simp [he] at hok
    · rw [isDir_congr (mkdirs_frame hnl), isDir, hl] at hd
      simp at hd
    · simp [he] at hok
    · rw [he, put_dir_node (mkdirs_isDir_self hok') hn, if_pos rfl]

/-- The node at the location itself: kept when it is a directory, empty when it is new. -/
theorem mkdirs_node_self (hok : (t.mkdirs l).2 = true) :
    (t.mkdirs l).1.node l = some (.dir (t.names l)) := by
  by_cases hd : t.isDir l = true
  · rw [mkdirs_of_isDir hd]
    exact node_eq_dir hd
  · have hf := mkdirs_ok_iff.mp hok l (List.suffix_refl l)
    have hnone : t.node l = none := node_eq_none_iff.mpr ⟨by simpa using hd, hf⟩
    rw [mkdirs_new hok hnone]
    simp [names, hnone]

/-- An empty directory added at `k` on the way does not change what is made. -/
theorem mkdirs_put (hl : t.isDir l = true) (hn : t.node (n :: l) = none) (hk : n :: l <:+ k) :
    (t.put n l (.dir [])).mkdirs k = t.mkdirs k := by
  obtain ⟨s, rfl⟩ := hk
  induction s with
  | nil =>
    have hd : (t.put n l (.dir [])).isDir (n :: l) = true :=
      isDir_of_node (by rw [put_dir_node hl hn, if_pos rfl])
    rw [List.nil_append, mkdirs_of_isDir hd]
    simp [mkdirs, mkdirs_of_isDir hl, hn]
  | cons m s ih =>
    simp only [List.cons_append, mkdirs]
    rw [ih]

end Tree

/-- One component of a path name: `.`, `..` or a name. -/
inductive Step (α : Type u) where
  | stay
  | up
  | down (n : α)
deriving DecidableEq

namespace Step

/-- Above the root is the root. -/
def apply : Step α → Loc α → Loc α
  | .stay, l => l
  | .up, l => l.tail
  | .down n, l => n :: l

end Step

/-- Where a path leads by its spelling alone. -/
def lexical (l : Loc α) (p : List (Step α)) : Loc α :=
  p.foldl (fun l s => s.apply l) l

@[simp] theorem lexical_nil (l : Loc α) : lexical l [] = l := rfl

@[simp] theorem lexical_cons (l : Loc α) (s : Step α) (p : List (Step α)) :
    lexical l (s :: p) = lexical (s.apply l) p := rfl

theorem lexical_append (l : Loc α) (p q : List (Step α)) :
    lexical l (p ++ q) = lexical (lexical l p) q := List.foldl_append

theorem lexical_down (l : Loc α) (ns : List α) :
    lexical l (ns.map .down) = ns.reverse ++ l := by
  induction ns generalizing l with
  | nil => rfl
  | cons n ns ih => simp [ih, Step.apply]

/-- The path never goes up. -/
def NoUp (p : List (Step α)) : Prop := Step.up ∉ p

theorem NoUp.of_cons {s : Step α} {p : List (Step α)} (h : NoUp (s :: p)) : NoUp p :=
  fun hm => h (List.mem_cons_of_mem s hm)

theorem NoUp.append {p q : List (Step α)} (hp : NoUp p) (hq : NoUp q) : NoUp (p ++ q) :=
  fun hm => (List.mem_append.mp hm).elim hp hq

theorem noUp_down (ns : List α) : NoUp (ns.map Step.down) := by
  simp [NoUp]

theorem NoUp.suffix_lexical {p : List (Step α)} (h : NoUp p) (l : Loc α) :
    l <:+ lexical l p := by
  induction p generalizing l with
  | nil => exact List.suffix_refl l
  | cons s p ih =>
    cases s with
    | stay => exact ih h.of_cons l
    | up => exact absurd List.mem_cons_self h
    | down n => exact (List.suffix_cons n l).trans (ih h.of_cons (n :: l))

namespace Tree
variable {t : Tree α β} {l k a : Loc α} {n : α} {c : β} {p q : List (Step α)}

/-- Follows a path; every step starts from a directory. -/
def walk (t : Tree α β) : Loc α → List (Step α) → Option (Loc α)
  | l, [] => some l
  | l, s :: p => if t.isDir l then t.walk (s.apply l) p else none

/-- What a path name finds from the root. -/
def lookup (t : Tree α β) (p : List (Step α)) : Option (Node α β) :=
  (t.walk [] p).bind t.node

theorem walk_eq_lexical (h : t.walk l p = some k) : k = lexical l p := by
  induction p generalizing l with
  | nil => exact (Option.some.inj h).symm
  | cons s p ih =>
    simp only [walk] at h
    split at h
    · exact ih h
    · exact absurd h (by simp)

theorem walk_append : t.walk l (p ++ q) = (t.walk l p).bind fun k => t.walk k q := by
  induction p generalizing l with
  | nil => rfl
  | cons s p ih =>
    simp only [List.cons_append, walk]
    split
    · exact ih
    · rfl

/-- Every directory from which a successful walk takes a step. -/
theorem walk_isDir (h : t.walk l (p ++ q) = some k) (hq : q ≠ []) :
    t.isDir (lexical l p) = true := by
  rw [walk_append] at h
  obtain ⟨a, ha, hk⟩ := Option.bind_eq_some_iff.mp h
  rw [← walk_eq_lexical ha]
  cases q with
  | nil => exact absurd rfl hq
  | cons s q =>
    simp only [walk] at hk
    by_contra hd
    simp [hd] at hk

/-- Where the spelled location is a directory, a path that never goes up reaches it. -/
theorem walk_of_isDir (h : NoUp p) (hd : t.isDir (lexical l p) = true) :
    t.walk l p = some (lexical l p) := by
  induction p generalizing l with
  | nil => rfl
  | cons s p ih =>
    have hl : t.isDir l = true := isDir_of_suffix hd (h.suffix_lexical l)
    simp only [walk, hl, if_true]
    exact ih h.of_cons hd

theorem lookup_isDir (h : NoUp p) :
    (t.lookup p).any Node.isDir = t.isDir (lexical [] p) := by
  cases hd : t.isDir (lexical [] p) with
  | true => rw [lookup, walk_of_isDir h hd]; exact hd
  | false =>
    rw [lookup]
    cases hw : t.walk [] p with
    | none => rfl
    | some k =>
      rw [walk_eq_lexical hw]
      exact hd

/-- A path that ends in a name and never goes up finds what is at its spelled location. -/
theorem lookup_snoc (h : NoUp p) (n : α) :
    t.lookup (p ++ [.down n]) = t.node (n :: lexical [] p) := by
  rw [lookup, walk_append]
  cases hd : t.isDir (lexical [] p) with
  | true =>
    rw [walk_of_isDir h hd]
    simp [walk, hd, Step.apply]
  | false =>
    have hnone : t.node (n :: lexical [] p) = none := by
      by_contra hne
      rw [isDir_parent hne] at hd
      exact absurd hd (by decide)
    rw [hnone]
    cases hw : t.walk [] p with
    | none => rfl
    | some k =>
      rw [walk_eq_lexical hw]
      simp [walk, hd]

/-- A file is found where the path does not end in a step that asks for a directory. -/
theorem lookup_eq_file_iff (h : NoUp p) :
    t.lookup p = some (.file c) ↔
      (∃ q n, p = q ++ [.down n]) ∧ t.node (lexical [] p) = some (.file c) := by
  rcases List.eq_nil_or_concat' p with rfl | ⟨q, s, rfl⟩
  · have hroot : t.lookup [] = some (.dir (t.names [])) := node_eq_dir isDir_root
    rw [hroot]
    simp
  cases s with
  | stay =>
    have hnot : ¬ ∃ q' n, q ++ [Step.stay] = q' ++ [Step.down n] := by
      rintro ⟨q', n, heq⟩
      exact absurd (List.append_inj_right' heq rfl) (by simp)
    simp only [hnot, false_and, iff_false]
    intro hlookup
    obtain ⟨k, hk, hnode⟩ := Option.bind_eq_some_iff.mp hlookup
    have hd := walk_isDir hk (by simp)
    rw [walk_eq_lexical hk, lexical_append, lexical_cons, lexical_nil] at hnode
    rw [Step.apply, node_eq_dir hd] at hnode
    exact absurd hnode (by simp)
  | up => exact absurd (List.mem_append_right q List.mem_cons_self) h
  | down n =>
    rw [lookup_snoc (fun hm => h (List.mem_append_left _ hm)), lexical_append]
    exact ⟨fun hnode => ⟨⟨q, n, rfl⟩, hnode⟩, fun hnode => hnode.2⟩

theorem walk_snoc (h : NoUp p) (hd : t.isDir (lexical [] p) = true) (n : α) :
    t.walk [] (p ++ [.down n]) = some (n :: lexical [] p) := by
  rw [walk_append, walk_of_isDir h hd]
  simp [walk, hd, Step.apply]

theorem walk_snoc_of_not_isDir (hd : t.isDir (lexical [] p) = false) (s : Step α) :
    t.walk [] (p ++ [s]) = none := by
  cases hw : t.walk [] (p ++ [s]) with
  | none => rfl
  | some k =>
    rw [walk_isDir hw (by simp)] at hd
    exact absurd hd (by decide)

section Changes
variable [DecidableEq α]

/-- Makes every directory a path names, from the left; the second part tells success. -/
def makeDirs : Tree α β → Loc α → List (Step α) → Tree α β × Bool
  | t, _, [] => (t, true)
  | t, l, .down n :: p =>
    match t.node (n :: l) with
    | some (.file _) => (t, false)
    | some (.dir _) => makeDirs t (n :: l) p
    | none => makeDirs (t.put n l (.dir [])) (n :: l) p
  | t, l, .stay :: p => makeDirs t l p
  | t, l, .up :: p => makeDirs t l.tail p

/-- Everything one step of `makeDirs` can do. -/
theorem makeDirs_cons_cases (t : Tree α β) (l : Loc α) (s : Step α) (p : List (Step α))
    (hl : t.isDir l = true) :
    (t.isDir (s.apply l) = true ∧ t.makeDirs l (s :: p) = t.makeDirs (s.apply l) p) ∨
    (t.isFile (s.apply l) = true ∧ t.makeDirs l (s :: p) = (t, false)) ∨
    (∃ n, s = .down n ∧ t.node (n :: l) = none ∧
      t.makeDirs l (s :: p) = (t.put n l (.dir [])).makeDirs (n :: l) p) := by
  cases s with
  | stay => exact Or.inl ⟨hl, rfl⟩
  | up => exact Or.inl ⟨isDir_of_suffix hl (List.tail_suffix l), rfl⟩
  | down n =>
    rcases hn : t.node (n :: l) with _ | ⟨ns | c⟩
    · exact Or.inr (Or.inr ⟨n, rfl, hn, by simp [makeDirs, hn]⟩)
    · exact Or.inl ⟨isDir_of_node hn, by simp [makeDirs, hn, Step.apply]⟩
    · exact Or.inr (Or.inl ⟨isFile_of_node hn, by simp [makeDirs, hn]⟩)

theorem isDir_put_dir (hl : t.isDir l = true) (hn : t.node (n :: l) = none)
    (hk : t.isDir k = true) : (t.put n l (.dir [])).isDir k = true := by
  have hp := put_dir_node hl hn k
  by_cases hkn : k = n :: l
  · rw [if_pos hkn] at hp
    exact isDir_of_node hp
  · rw [if_neg hkn] at hp
    by_cases hkl : k = l
    · rw [if_pos hkl] at hp
      exact isDir_of_node hp
    · rw [if_neg hkl] at hp
      rwa [isDir_congr hp]

theorem isDir_put_dir_self (hl : t.isDir l = true) (hn : t.node (n :: l) = none) :
    (t.put n l (.dir [])).isDir (n :: l) = true :=
  isDir_of_node (by rw [put_dir_node hl hn, if_pos rfl])

theorem put_dir_file_iff (hl : t.isDir l = true) (hn : t.node (n :: l) = none) :
    (t.put n l (.dir [])).node k = some (.file c) ↔ t.node k = some (.file c) := by
  rw [put_dir_node hl hn]
  by_cases hkn : k = n :: l
  · simp [hkn, hn]
  · by_cases hkl : k = l
    · simp [hkl, node_eq_dir hl]
    · simp [hkn, hkl]

theorem makeDirs_file_iff (hl : t.isDir l = true) :
    (t.makeDirs l p).1.node k = some (.file c) ↔ t.node k = some (.file c) := by
  induction p generalizing t l with
  | nil => rfl
  | cons s p ih =>
    rcases makeDirs_cons_cases t l s p hl with ⟨hd, he⟩ | ⟨_, he⟩ | ⟨n, rfl, hn, he⟩
    · rw [he, ih hd]
    · rw [he]
    · rw [he, ih (isDir_put_dir_self hl hn), put_dir_file_iff hl hn]

theorem makeDirs_isFile (hl : t.isDir l = true) :
    (t.makeDirs l p).1.isFile k = t.isFile k := by
  rw [Bool.eq_iff_iff, isFile_iff, isFile_iff]
  exact exists_congr fun c => makeDirs_file_iff hl

theorem makeDirs_isDir (hl : t.isDir l = true) (hk : t.isDir k = true) :
    (t.makeDirs l p).1.isDir k = true := by
  induction p generalizing t l with
  | nil => exact hk
  | cons s p ih =>
    rcases makeDirs_cons_cases t l s p hl with ⟨hd, he⟩ | ⟨_, he⟩ | ⟨n, rfl, hn, he⟩
    · rw [he]
      exact ih hd hk
    · rwa [he]
    · rw [he]
      exact ih (isDir_put_dir_self hl hn) (isDir_put_dir hl hn hk)

/-- After success the path leads, through directories, to its spelled location. -/
theorem makeDirs_walk (hl : t.isDir l = true) (hok : (t.makeDirs l p).2 = true) :
    (t.makeDirs l p).1.walk l p = some (lexical l p) ∧
      (t.makeDirs l p).1.isDir (lexical l p) = true := by
  induction p generalizing t l with
  | nil => exact ⟨rfl, hl⟩
  | cons s p ih =>
    rcases makeDirs_cons_cases t l s p hl with ⟨hd, he⟩ | ⟨_, he⟩ | ⟨n, rfl, hn, he⟩
    · rw [he] at hok ⊢
      have hk := makeDirs_isDir (p := p) hd hl
      simpa only [walk, hk, if_true, lexical_cons] using ih hd hok
    · simp [he] at hok
    · rw [he] at hok ⊢
      have hd := isDir_put_dir_self hl hn
      have hk := makeDirs_isDir (p := p) hd (isDir_put_dir hl hn hl)
      simpa only [walk, hk, if_true, lexical_cons, Step.apply] using ih hd hok

/-- A path that never goes up is made exactly as its location is. -/
theorem makeDirs_eq_mkdirs (h : NoUp p) (hl : t.isDir l = true) :
    t.makeDirs l p = t.mkdirs (lexical l p) := by
  induction p generalizing t l with
  | nil => exact (mkdirs_of_isDir hl).symm
  | cons s p ih =>
    rcases makeDirs_cons_cases t l s p hl with ⟨hd, he⟩ | ⟨hf, he⟩ | ⟨n, rfl, hn, he⟩
    · rw [he, ih h.of_cons hd, lexical_cons]
    · have hfail : (t.mkdirs (lexical l (s :: p))).2 = false := by
        by_contra hok
        have hall := mkdirs_ok_iff.mp (by simpa using hok)
        rw [hall _ (h.of_cons.suffix_lexical (s.apply l))] at hf
        exact absurd hf (by decide)
      rw [he]
      exact (Prod.ext (mkdirs_of_failed hfail) hfail).symm
    · rw [he, ih h.of_cons (isDir_put_dir_self hl hn), lexical_cons]
      exact mkdirs_put hl hn (h.of_cons.suffix_lexical (n :: l))

/-- Removes the file or the empty directory a path names. Nothing to remove is a success;
a directory that is not empty, the root, and a path that does not end in a name are refused. -/
def remove (t : Tree α β) (p : List (Step α)) : Tree α β × Bool :=
  match t.walk [] p, p.getLast? with
  | none, _ => (t, true)
  | some (n :: l), some (.down _) =>
    match t.node (n :: l) with
    | none => (t, true)
    | some x => if x.isLeaf then (t.unlink n l, true) else (t, false)
  | some _, _ => (t, false)

/-- A successful removal leaves nothing at the location; otherwise nothing changes. -/
theorem remove_cases (t : Tree α β) (p : List (Step α)) :
    (t.remove p).1 = t ∨
    ∃ n l, t.walk [] p = some (n :: l) ∧ (t.node (n :: l)).any Node.isLeaf = true ∧
      t.remove p = (t.unlink n l, true) := by
  unfold remove
  split
  · exact Or.inl rfl
  · rename_i n l m hw _
    split
    · exact Or.inl rfl
    · rename_i x hx
      split
      · rename_i hleaf
        exact Or.inr ⟨n, l, hw, by simpa [hx] using hleaf, rfl⟩
      · exact Or.inl rfl
  · exact Or.inl rfl

theorem remove_snoc (h : NoUp p) (n : α) :
    t.remove (p ++ [.down n]) =
      if (t.node (n :: lexical [] p)).any Node.isLeaf = true then
        (t.unlink n (lexical [] p), true)
      else (t, (t.node (n :: lexical [] p)).isNone) := by
  have hlast : (p ++ [Step.down n]).getLast? = some (.down n) := by simp
  unfold remove
  cases hd : t.isDir (lexical [] p) with
  | true =>
    rw [walk_snoc h hd, hlast]
    cases hn : t.node (n :: lexical [] p) with
    | none => simp [hn]
    | some x => cases hx : x.isLeaf <;> simp [hn, hx]
  | false =>
    have hnone : t.node (n :: lexical [] p) = none := by
      by_contra hne
      rw [isDir_parent hne] at hd
      exact absurd hd (by decide)
    rw [walk_snoc_of_not_isDir hd]
    simp [hnone]

end Changes
end Tree
end FileTree

import Webserver.Library.PathWalk
import Webserver.Strings

/-!
# The host: working directory and path names

A path name is a string; the file system reads it as the list of its components. What the
server takes from its host is one value: the working directory, the functions of
`boost::filesystem::path` on spellings, each with the documented behaviour the handlers rely
on, and the order in which a directory is read.
-/

set_option autoImplicit false

namespace Webserver

open FileTree Segments

abbrev Name := Str
abbrev Loc := FileTree.Loc Name
abbrev Tree := FileTree.Tree Name Str
abbrev Step := FileTree.Step Name

def dot : Name := ['.']

def dotDot : Name := ['.', '.']

/-- An ordinary component: a file name other than `.` and `..`. -/
def IsName (n : Name) : Prop := IsSegment '/' n ∧ n ≠ dot ∧ n ≠ dotDot

instance (n : Name) : Decidable (IsName n) := inferInstanceAs (Decidable (_ ∧ _))

def toStep (n : Name) : Step :=
  if n = dot then .stay else if n = dotDot then .up else .down n

def components (p : Str) : List Name := segments '/' p

/-- A path name as the kernel reads it; a trailing slash asks for a directory, as `/.` does. -/
def steps (p : Str) : List Step :=
  (components p).map toStep ++ if p.getLast? = some '/' then [.stay] else []

/-- Two slashes and no third: the spelling starts with a root-name such as `//net`. -/
def IsNet (p : Str) : Prop := ∃ r, p = '/' :: '/' :: r ∧ r.head? ≠ some '/'

structure Host where
  /-- The names of `current_path()`, topmost first. -/
  cwd : List Name
  cwd_names : ∀ n ∈ cwd, IsName n
  /-- `operator/`: a separator is added unless it would be redundant. -/
  append : Str → Str → Str
  append_eq : ∀ p q, append p q =
    if q = [] then p
    else if p = [] ∨ p.getLast? = some '/' ∨ q.head? = some '/' then p ++ q
    else p ++ '/' :: q
  /-- `path::filename`: the last element. -/
  filename : Str → Str
  filename_snoc : ∀ d n, IsSegment '/' n → d ≠ ['/'] → filename (d ++ '/' :: n) = n
  filename_name : ∀ n, '/' ∉ n → filename n = n
  /-- `path::parent_path`: the spelling in front of the last element, separators dropped. -/
  parentPath : Str → Str
  parentPath_snoc : ∀ d k n, IsSegment '/' n → d ≠ [] → d.getLast? ≠ some '/' → ¬ IsNet d →
    parentPath (d ++ List.replicate (k + 1) '/' ++ n) = d
  parentPath_top : ∀ k n, IsSegment '/' n → k ≠ 1 →
    parentPath (List.replicate (k + 1) '/' ++ n) = ['/']
  parentPath_name : ∀ n, '/' ∉ n → parentPath n = []
  parentPath_net : ∀ p, IsNet p → parentPath p = [] ∨ IsNet (parentPath p)
  parentPath_shorter : ∀ p, p ≠ [] → (parentPath p).length < p.length
  components_parentPath : ∀ d n, IsSegment '/' n →
    components (parentPath (d ++ '/' :: n)) = components d
  components_parentPath_isPrefix : ∀ p, components (parentPath p) <+: components p
  /-- `path::begin()` to `path::end()`. -/
  elements : Str → List Str
  elements_absolute : ∀ p, p.head? = some '/' → p.getLast? ≠ some '/' → ¬ IsNet p →
    elements p = ['/'] :: components p
  elements_net : ∀ p, IsNet p → (elements p).head? ≠ some ['/']
  /-- `boost::filesystem::absolute`. -/
  absolute : Str → Str
  absolute_eq : ∀ p, p.head? = some '/' → ¬ IsNet p → absolute p = p
  absolute_net : ∀ p, IsNet p → p ≠ ['/', '/'] → IsNet (absolute p)
  /-- `path::extension`. -/
  extension : Str → Str
  /-- The order of a `directory_iterator` is not specified. -/
  readdir : List Name → List Name
  readdir_perm : ∀ l, (readdir l).Perm l

theorem toStep_of_isName {n : Name} (h : IsName n) : toStep n = .down n := by
  simp [toStep, h.2.1, h.2.2]

theorem map_toStep_of_isName {ns : List Name} (h : ∀ n ∈ ns, IsName n) :
    ns.map toStep = ns.map .down :=
  List.map_congr_left fun n hn => toStep_of_isName (h n hn)

theorem toStep_eq_up {n : Name} : toStep n = .up ↔ n = dotDot := by
  unfold toStep
  split
  · rename_i h
    rw [h]
    decide
  · split <;> simp [*]

theorem components_joined {ns : List Name} (h : ∀ n ∈ ns, IsName n) :
    components (joined '/' ns) = ns :=
  segments_joined fun n hn => (h n hn).1

theorem components_of_isSegment {n : Name} (h : IsSegment '/' n) : components n = [n] :=
  segments_of_isSegment h

theorem noUp_map_toStep {ns : List Name} : NoUp (ns.map toStep) ↔ dotDot ∉ ns := by
  simp [NoUp, toStep_eq_up]

/-- No component is `..`. -/
def NoDotDot (p : Str) : Prop := dotDot ∉ components p

instance (p : Str) : Decidable (NoDotDot p) := inferInstanceAs (Decidable (¬ _))

theorem NoDotDot.noUp {p : Str} (h : NoDotDot p) : NoUp (steps p) := by
  refine (noUp_map_toStep.mpr h).append ?_
  split <;> simp [NoUp]

/-- The trailing slash of a spelling does not move it. -/
theorem lexical_steps (l : Loc) (p : Str) :
    lexical l (steps p) = lexical l ((components p).map toStep) := by
  rw [steps, lexical_append]
  split <;> rfl

theorem isName_intToString (id : Int) : IsName (intToString id) := by
  refine ⟨intToString_isSegment id, ?_, ?_⟩ <;> intro h
  all_goals
    cases id with
    | ofNat n =>
      have hm := not_mem_of_onlyDigits (c := '.') (onlyDigits_toDigits n) (by decide)
      rw [show Nat.toDigits 10 n = _ from h] at hm
      exact hm (by decide)
    | negSucc n => exact absurd (List.cons.inj h).1 (by decide)

theorem NoDotDot.parentPath {p : Str} (h : NoDotDot p) (H : Host) : NoDotDot (H.parentPath p) :=
  fun hm => h ((H.components_parentPath_isPrefix p).subset hm)

namespace Host
variable (H : Host)

/-- `current_path().string()`. -/
def currentPath : Str := if H.cwd = [] then ['/'] else joined '/' H.cwd

/-- Where the working directory is in the tree. -/
def cwdLoc : Loc := H.cwd.reverse

/-- `current_path() / p`. -/
def fromCwd (p : Str) : Str := H.append H.currentPath p

/-- `current_path() / entity / to_string(id)`. -/
def objectPath (entity : Str) (id : Int) : Str := H.append (H.fromCwd entity) (intToString id)

/-- Where a spelling relative to the working directory leads. -/
def locOf (p : Str) : Loc := lexical H.cwdLoc (steps p)

theorem currentPath_ne_nil : H.currentPath ≠ [] := by
  unfold currentPath
  split
  · simp
  · rename_i h
    cases hc : H.cwd with
    | nil => exact absurd hc h
    | cons n ns => simp

theorem components_currentPath : components H.currentPath = H.cwd := by
  unfold currentPath
  split
  · rename_i h
    rw [h]
    rfl
  · exact components_joined H.cwd_names

theorem components_append (p q : Str) :
    components (H.append p q) = components p ++ components q := by
  rw [H.append_eq]
  unfold components
  split
  · simp [*]
  · split
    · rename_i h
      rcases h with rfl | h | h
      · simp
      · obtain ⟨p', rfl⟩ := List.getLast?_eq_some_iff.mp h
        rw [List.append_assoc, List.singleton_append, segments_append, segments_concat_sep]
      · obtain ⟨q', rfl⟩ := List.head?_eq_some_iff.mp h
        rw [segments_append, segments_sep_cons]
    · exact segments_append '/' p q

theorem append_ne_nil {p : Str} (hp : p ≠ []) (q : Str) : H.append p q ≠ [] := by
  rw [H.append_eq]
  split
  · exact hp
  · split <;> simp [hp]

theorem fromCwd_ne_nil (p : Str) : H.fromCwd p ≠ [] :=
  H.append_ne_nil H.currentPath_ne_nil p

theorem components_fromCwd (p : Str) : components (H.fromCwd p) = H.cwd ++ components p := by
  rw [fromCwd, components_append, components_currentPath]

/-- Appending one segment writes it behind a slash. -/
theorem append_segment {p n : Str} (hp : p ≠ []) (hn : IsSegment '/' n) :
    ∃ d, H.append p n = d ++ '/' :: n ∧ components d = components p := by
  have hhead : n.head? ≠ some '/' := fun h => hn.2 (List.mem_of_mem_head? h)
  rw [H.append_eq, if_neg hn.1]
  by_cases hlast : p.getLast? = some '/'
  · obtain ⟨d, rfl⟩ := List.getLast?_eq_some_iff.mp hlast
    exact ⟨d, by simp, (segments_concat_sep '/' d).symm⟩
  · exact ⟨p, by simp [hp, hlast, hhead], rfl⟩

theorem lexical_cwd : lexical [] (H.cwd.map toStep) = H.cwdLoc := by
  rw [map_toStep_of_isName H.cwd_names, lexical_down, List.append_nil, cwdLoc]

theorem lexical_fromCwd (p : Str) : lexical [] (steps (H.fromCwd p)) = H.locOf p := by
  rw [lexical_steps, components_fromCwd, List.map_append, lexical_append, lexical_cwd, locOf,
    lexical_steps]

theorem noDotDot_cwd : dotDot ∉ H.cwd := fun h => (H.cwd_names _ h).2.2 rfl

theorem noDotDot_fromCwd {p : Str} (h : NoDotDot p) : NoDotDot (H.fromCwd p) := by
  rw [NoDotDot, components_fromCwd, List.mem_append]
  exact fun hm => hm.elim H.noDotDot_cwd h

theorem steps_objectPath (e : Str) (id : Int) :
    steps (H.objectPath e id) =
      (H.cwd ++ components e).map toStep ++ [.down (intToString id)] := by
  have hid := isName_intToString id
  obtain ⟨d, hd, hc⟩ := H.append_segment (H.fromCwd_ne_nil e) hid.1
  have hlast : (H.objectPath e id).getLast? ≠ some '/' := by
    intro h
    rw [objectPath, hd, List.getLast?_append_of_ne_nil _ (by simp)] at h
    rw [List.getLast?_cons_of_ne_nil hid.1.1] at h
    exact hid.1.2 (List.mem_of_mem_getLast? h)
  rw [steps, if_neg hlast, List.append_nil, objectPath, components_append, components_fromCwd]
  rw [List.map_append, components_of_isSegment hid.1]
  simp [toStep_of_isName hid]

theorem lexical_cwd_components (e : Str) :
    lexical [] ((H.cwd ++ components e).map toStep) = H.locOf e := by
  rw [List.map_append, lexical_append, lexical_cwd, locOf, lexical_steps]

/-- The object is directly below its entity, however the entity is spelled. -/
theorem lexical_objectPath (e : Str) (id : Int) :
    lexical [] (steps (H.objectPath e id)) = intToString id :: H.locOf e := by
  rw [steps_objectPath, lexical_append, lexical_cwd_components]
  rfl

theorem components_parentPath_objectPath (e : Str) (id : Int) :
    components (H.parentPath (H.objectPath e id)) = H.cwd ++ components e := by
  obtain ⟨d, hd, hc⟩ := H.append_segment (H.fromCwd_ne_nil e) (intToString_isSegment id)
  rw [objectPath, hd, H.components_parentPath _ _ (intToString_isSegment id), hc,
    components_fromCwd]

end Host

end Webserver

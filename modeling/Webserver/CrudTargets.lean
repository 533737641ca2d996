import Webserver.CrudHandler
import Webserver.PosixHost
import Webserver.RequestDispatcher

/-!
# File paths of dispatched requests

A location with an absolute root hands its handlers absolute spellings that end in a
component, with any number of slashes, `.` and `..` in between. `ParseTarget` and the loop of
`InitRoot` are computed here for all of them; spellings with a root-name, which start with two
slashes, are those where the loop never ends.
-/

set_option autoImplicit false

namespace Webserver

open Segments CrudHandler

/-- An absolute spelling that ends in a component. -/
structure IsTarget (p : Str) : Prop where
  absolute : p.head? = some '/'
  ended : p.getLast? ≠ some '/'

theorem isTarget_of_route {T : HandlerFactories} {target : Str} {m : RequestDispatcher.Match}
    (h : RequestDispatcher.route T target = some m) (hf : m.factory ≠ .notFoundHandler)
    {root : Str} (hroot : root.head? = some '/') : IsTarget (root ++ m.path) := by
  obtain ⟨hne, hlast⟩ := RequestDispatcher.route_path h hf
  refine ⟨?_, by rwa [List.getLast?_append_of_ne_nil _ hne]⟩
  rw [List.head?_append_of_ne_nil _ fun h => by simp [h] at hroot]
  exact hroot

theorem components_slashes (d : Str) (k : Nat) {n : Str} (hn : IsSegment '/' n) :
    components (d ++ List.replicate (k + 1) '/' ++ n) = components d ++ [n] := by
  rw [append_replicate_sep, components, segments_snoc _ hn]
  exact congrArg (· ++ [n]) (PosixPath.components_append_slashes d k)

theorem exists_last_of_mem {p : Str} (hslash : '/' ∈ p) (hended : p.getLast? ≠ some '/') :
    ∃ d k n, IsSegment '/' n ∧ d.getLast? ≠ some '/' ∧
      p = d ++ List.replicate (k + 1) '/' ++ n := by
  cases hs : PosixPath.splitLast p with
  | none => exact absurd hslash (PosixPath.not_mem_of_splitLast hs)
  | some x =>
    obtain ⟨d, n⟩ := x
    obtain ⟨rfl, hn⟩ := PosixPath.splitLast_some hs
    obtain ⟨⟨k, hk⟩, hlast⟩ := PosixPath.dropSlashes_spec d
    refine ⟨PosixPath.dropSlashes d, k, n, ⟨fun hnil => hended ?_, hn⟩, hlast, ?_⟩
    · rw [hnil, List.getLast?_concat]
    · conv_lhs => rw [hk]
      simp [List.replicate_succ']

namespace IsTarget
variable {p : Str} (hp : IsTarget p)
include hp

/-- The last component, the slashes in front of it, and what is in front of these. -/
theorem exists_last : ∃ d k n, IsSegment '/' n ∧ d.getLast? ≠ some '/' ∧
    p = d ++ List.replicate (k + 1) '/' ++ n :=
  exists_last_of_mem (List.mem_of_mem_head? hp.absolute) hp.ended

theorem ne_nil : p ≠ [] := fun h => by simpa [h] using hp.absolute

theorem isNet_append {q : Str} : IsNet (p ++ q) ↔ IsNet p := by
  obtain ⟨habs, hlast⟩ := hp
  match p with
  | [] => simp at habs
  | [c] =>
    obtain rfl : c = '/' := by simpa using habs
    exact absurd rfl hlast
  | [c, d] =>
    obtain rfl : c = '/' := by simpa using habs
    have hd : d ≠ '/' := fun h => hlast (by rw [h]; rfl)
    simp [IsNet, hd]
  | c :: d :: e :: r => simp [IsNet]

/-- The parent of a component at the top of the spelling is the root directory. -/
theorem parentPath_eq (H : Host) (hnet : ¬ IsNet p) {d n : Str} {k : Nat} (hn : IsSegment '/' n)
    (hd : d.getLast? ≠ some '/') (heq : p = d ++ List.replicate (k + 1) '/' ++ n) :
    (d = [] ∧ H.parentPath p = ['/']) ∨ (IsTarget d ∧ ¬ IsNet d ∧ H.parentPath p = d) := by
  subst heq
  by_cases hnil : d = []
  · subst hnil
    refine Or.inl ⟨rfl, H.parentPath_top k n hn fun hk => hnet ?_⟩
    subst hk
    refine ⟨n, rfl, fun hhead => hn.2 (List.mem_of_mem_head? hhead)⟩
  · have habs := hp.absolute
    rw [List.append_assoc, List.head?_append_of_ne_nil _ hnil] at habs
    have htarget : IsTarget d := ⟨habs, hd⟩
    rw [List.append_assoc, htarget.isNet_append] at hnet
    exact Or.inr ⟨htarget, hnet, H.parentPath_snoc d k n hn hnil hd hnet⟩

end IsTarget

section Parse
variable (H : Host) {p d n : Str} {k : Nat} (hnet : ¬ IsNet p) (hn : IsSegment '/' n)
  (heq : p = d ++ List.replicate (k + 1) '/' ++ n)
include hnet hn heq

/-- Outside a root-name the file name is the last component. -/
theorem filename_slashes : H.filename p = n := by
  rw [heq, append_replicate_sep]
  refine H.filename_snoc _ n hn fun hslash => hnet ?_
  refine ⟨n, ?_, fun hhead => hn.2 (List.mem_of_mem_head? hhead)⟩
  rw [heq, append_replicate_sep, hslash]
  rfl

theorem parseTarget_slashes :
    parseTarget H p =
      if onlyDigits n then
        if digitsValue n ≤ intMax then .ok (H.parentPath p, (digitsValue n : Int))
        else .error .outOfRange
      else .ok (p, -1) := by
  rw [parseTarget, filename_slashes H hnet hn heq, stoi, if_neg hn.1]
  by_cases h : digitsValue n ≤ intMax <;> simp [h]

omit hnet in
theorem components_parentPath_slashes : components (H.parentPath p) = components d := by
  rw [heq, append_replicate_sep, H.components_parentPath _ _ hn, PosixPath.components_append_slashes]

end Parse

section RootLoop
variable (H : Host)

/-- From a root-name the loop of `InitRoot` never comes to the root directory. -/
theorem rootLoop_of_isNet (k : Nat) {p : Str} (hp : p = [] ∨ IsNet p) : rootLoop H k p = none := by
  induction k generalizing p with
  | zero => rfl
  | succ k ih =>
    have hparent : H.parentPath p = [] ∨ IsNet (H.parentPath p) := by
      rcases hp with rfl | hp
      · exact Or.inl (H.parentPath_name [] List.not_mem_nil)
      · exact H.parentPath_net p hp
    have htop : H.parentPath p ≠ ['/'] := by
      intro h
      rw [h] at hparent
      rcases hparent with h | ⟨r, h, _⟩
      · exact absurd h (by simp)
      · exact absurd h (by simp)
    rw [rootLoop, if_neg htop]
    exact ih hparent

/-- From every other target it comes to the first component. -/
theorem rootLoop_of_isTarget (k : Nat) {p : Str} (hp : IsTarget p) (hnet : ¬ IsNet p)
    (hk : p.length < k) :
    ∃ root, rootLoop H k p = some root ∧ components root = (components p).take 1 := by
  induction k generalizing p with
  | zero => omega
  | succ k ih =>
    obtain ⟨d, j, n, hn, hd, heq⟩ := hp.exists_last
    rw [rootLoop]
    rcases hp.parentPath_eq H hnet hn hd heq with ⟨hnil, hparent⟩ | ⟨htarget, hnet', hparent⟩
    · refine ⟨p, if_pos hparent, ?_⟩
      rw [heq, components_slashes d j hn, hnil]
      rfl
    · have hne : d ≠ ['/'] := fun h => hd (by rw [h]; rfl)
      have hlen := congrArg List.length heq
      simp only [List.length_append, List.length_replicate] at hlen
      obtain ⟨root, hroot, hcomponents⟩ := ih htarget hnet' (by omega)
      refine ⟨root, ?_, ?_⟩
      · rw [hparent, if_neg hne]
        exact hroot
      · have hpos : components d ≠ [] := by
          obtain ⟨d', j', n', hn', _, heq'⟩ := htarget.exists_last
          rw [heq', components_slashes d' j' hn']
          simp
        rw [hcomponents, heq, components_slashes d j hn,
          List.take_append_of_le_length (List.length_pos_of_ne_nil hpos)]

end RootLoop

namespace Demo

/-- `root /crud;` -/
def crudConfig : NginxConfig := [.mk ["root".toList, "/crud".toList] none]

/-- `location /api CrudHandler { root /crud; }` -/
def factories : HandlerFactories where
  find path :=
    if path = "/api".toList then some (.crudHandler crudConfig)
    else if path = ['/'] then some .notFoundHandler
    else none
  top := rfl

end Demo

end Webserver

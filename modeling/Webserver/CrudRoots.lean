import Webserver.CrudAnswers
import Webserver.CrudOwnership
import Webserver.Library.TreeAgreement

/-!
# Root directories that come and go

`InitRoot` makes its directory before the lock is taken, so that while other requests run it can
be there early, or be gone again. A request whose file path has no `..` sees none of this beyond
its own root: on two disks that agree below the root directories it is answered alike.
-/

set_option autoImplicit false

namespace Webserver

open FileTree FileTree.Tree CrudHandler

universe u

/-- How deep the directories lie that `InitRoot` makes. -/
def Host.rootDepth (H : Host) : ℕ := H.cwdLoc.length + 1

/-- A file path as the dispatcher hands it over, without `..` and with an ordinary first
component. -/
structure Proper (p : Str) : Prop where
  ended : p.getLast? ≠ some '/'
  noDotDot : NoDotDot p
  first : (components p).head? ≠ some dot

theorem parseTarget_ok_cases {H : Host} {p e : Str} {id : Int}
    (h : parseTarget H p = .ok (e, id)) :
    (id = -1 ∧ e = p) ∨ (id ≠ -1 ∧ e = H.parentPath p) := by
  unfold parseTarget at h
  split at h
  · right
    cases hs : stoi (H.filename p) with
    | error a =>
      rw [hs] at h
      exact absurd h (by simp)
    | ok i =>
      rw [hs] at h
      obtain ⟨rfl, rfl⟩ := Prod.mk.inj (Except.ok.inj h)
      refine ⟨?_, rfl⟩
      unfold stoi at hs
      split at hs
      · exact absurd hs (by simp)
      · split at hs
        · rw [← Except.ok.inj hs]
          omega
        · exact absurd hs (by simp)
  · obtain ⟨rfl, rfl⟩ := Prod.mk.inj (Except.ok.inj h)
    exact Or.inl ⟨rfl, rfl⟩

namespace Proper
variable {H : Host} {p q root : Str} (hp : Proper p)
include hp

/-- What starts like the path lies below its first component. -/
theorem suffix (hq : components q <+: components p) {n : Name} {ns : List Name}
    (hne : components q = n :: ns) : n :: H.cwdLoc <:+ H.locOf q := by
  obtain ⟨ms, hms⟩ := hq
  have hmem : n ∈ components p := by
    rw [← hms, hne]
    exact List.mem_cons_self
  have hname : IsName n := by
    refine ⟨Segments.mem_segments_isSegment hmem, fun hdot => hp.first ?_, fun hup => ?_⟩
    · rw [← hms, hne, hdot]
      rfl
    · exact hp.noDotDot (hup ▸ hmem)
  have hup : NoUp (ns.map toStep) := by
    rw [noUp_map_toStep]
    intro hm
    refine hp.noDotDot ?_
    rw [← hms, hne]
    exact List.mem_append_left _ (List.mem_cons_of_mem n hm)
  rw [Host.locOf, lexical_steps, hne, List.map_cons, toStep_of_isName hname, lexical_cons]
  exact hup.suffix_lexical _

/-- The directory of `InitRoot` is the first component of the path. -/
theorem locOf_root (hloop : rootLoop H (p.length + 1) p = some root) :
    NoDotDot root ∧ (H.locOf root).length = H.rootDepth ∧ H.locOf root <:+ H.locOf p := by
  have hends : ¬ (p.head? = some '/' → IsNet p) := fun h => by
    rw [(rootLoop_eq_none_iff hp.ended).mpr h] at hloop
    exact absurd hloop (by simp)
  obtain ⟨habs, hnet⟩ := Classical.not_imp.mp hends
  have htarget : IsTarget p := ⟨habs, hp.ended⟩
  obtain ⟨root', hroot', hfirst⟩ := rootLoop_of_isTarget H _ htarget hnet (Nat.lt_succ_self _)
  obtain rfl := Option.some.inj (hloop.symm.trans hroot')
  obtain ⟨d, k, m, hm, _, heq⟩ := htarget.exists_last
  obtain ⟨n, ns, hns⟩ := List.exists_cons_of_ne_nil
    (show components p ≠ [] by rw [heq, components_slashes d k hm]; simp)
  rw [hns, List.take_succ_cons, List.take_zero] at hfirst
  have hbegins : components root <+: components p := by
    rw [hfirst, hns]
    exact ⟨ns, rfl⟩
  have hplain : NoDotDot root := fun hm => hp.noDotDot (hbegins.subset hm)
  have hlen : (H.locOf root).length ≤ H.rootDepth := by
    rw [Host.locOf, lexical_steps, hfirst]
    simp only [List.map_cons, List.map_nil, lexical_cons, lexical_nil, toStep]
    split
    · exact Nat.le_succ _
    · split
      · rw [Step.apply, List.length_tail]
        exact (Nat.sub_le _ _).trans (Nat.le_succ _)
      · exact le_refl _
  have hsuffix := hp.suffix (H := H) hbegins hfirst
  have hloc : n :: H.cwdLoc = H.locOf root :=
    hsuffix.eq_of_length (Nat.le_antisymm hsuffix.length_le hlen)
  refine ⟨hplain, by rw [← hloc]; rfl, ?_⟩
  rw [← hloc]
  exact hp.suffix List.prefix_rfl hns

end Proper

/-! ### Two disks -/

/-- The same ids on disks that agree below the root directories. -/
structure Alike (H : Host) (s s' : Store Tree) : Prop where
  ids : s.ids = s'.ids
  disk : AgreeFrom H.rootDepth s.disk s'.disk

section Operations
variable {H : Host} {e : Str} {s s' : Store Tree} {t t' : Tree}

theorem AgreeFrom.dropDir (h : AgreeFrom H.rootDepth t t') (he : NoDotDot e)
    (hdepth : H.rootDepth ≤ (H.locOf e).length) (id : Int)
    (hd : t.isDir (H.locOf e) = true) (hd' : t'.isDir (H.locOf e) = true) :
    AgreeFrom H.rootDepth (Disk.dropDir H Faults.none e id t)
      (Disk.dropDir H Faults.none e id t') := by
  have hfiles : ((H.readdir (t.names (H.locOf e))).filter fun n => t.isFile (n :: H.locOf e)) =
      (H.readdir (t'.names (H.locOf e))).filter fun n => t'.isFile (n :: H.locOf e) := by
    rw [h.names _ hdepth]
    exact List.filter_congr fun n _ => h.isFile _
  obtain ⟨hup, hloc⟩ := Disk.lexical_parentPath_objectPath H id he
  rw [lexical_steps] at hloc
  unfold Disk.dropDir Disk.removePath
  rw [hfiles]
  split
  · refine h.remove (noUp_map_toStep.mpr hup) ?_
    rw [hloc]
    exact h.node_of_isDir hdepth hd hd'
  · exact h

theorem filesAt_congr (h : AgreeFrom H.rootDepth t t')
    (hdepth : H.rootDepth ≤ (H.locOf e).length) : filesAt H e t = filesAt H e t' := by
  rw [filesAt, filesAt, h.names _ hdepth]
  exact List.filter_congr fun n _ => h.isFile _

namespace Alike
variable (h : Alike H s s') (hdepth : H.rootDepth ≤ (H.locOf e).length)
include h

theorem symm : Alike H s' s := ⟨h.ids.symm, h.disk.symm⟩

theorem has (id : Int) : s.ids.has e id = s'.ids.has e id := by rw [h.ids]

include hdepth

theorem post (body : Str) :
    (postAt H Faults.none e body s).1 = (postAt H Faults.none e body s').1 ∧
      Alike H (postAt H Faults.none e body s).2 (postAt H Faults.none e body s').2 := by
  have hdirs := h.disk.mkdirs (H.locOf e)
  unfold postAt
  rw [h.ids]
  cases CrudHandler.getNextID s'.ids e with
  | error a => exact ⟨rfl, h⟩
  | ok id =>
    simp only [makeDirAt_none, h.disk.mkdirs_ok (H.locOf e)]
    cases hok : (s'.disk.mkdirs (H.locOf e)).2 with
    | false => exact ⟨rfl, rfl, hdirs⟩
    | true =>
      have hd := mkdirs_isDir_self ((h.disk.mkdirs_ok (H.locOf e)).trans hok)
      have hd' := mkdirs_isDir_self hok
      have hnode := hdirs.below hdepth (intToString id)
      dsimp only
      rw [Disk.objectLoc, hnode, hd, hd']
      split
      · rename_i hc
        simp only [Bool.and_true, Faults.none_openOut, Bool.not_false,
          Option.isNone_iff_eq_none] at hc
        exact ⟨rfl, rfl, hdirs.put rfl hd (hnode.trans hc) hd' hc⟩
      · exact ⟨rfl, rfl, hdirs⟩

omit hdepth in
theorem put (id : Int) (body : Str) :
    (putAt H Faults.none e id body s).1 = (putAt H Faults.none e id body s').1 ∧
      Alike H (putAt H Faults.none e id body s).2 (putAt H Faults.none e id body s').2 := by
  unfold putAt
  rw [h.has, h.disk.isFile]
  split
  · exact ⟨rfl, h⟩
  · split
    · rename_i hc
      rw [Bool.and_eq_true, ← h.disk.isFile] at hc
      exact ⟨rfl, h.ids, h.disk.write hc.1 _⟩
    · exact ⟨rfl, h⟩

theorem delete (he : NoDotDot e) (id : Int) :
    (deleteAt H Faults.none e id s).1 = (deleteAt H Faults.none e id s').1 ∧
      Alike H (deleteAt H Faults.none e id s).2 (deleteAt H Faults.none e id s').2 := by
  have hnode := h.disk.below hdepth (intToString id)
  unfold deleteAt
  rw [h.has, Disk.objectLoc, hnode]
  split
  · exact ⟨rfl, h⟩
  · split
    · rename_i hc
      rw [Bool.and_eq_true] at hc
      have hleaf' := hc.1
      have hleaf := hnode ▸ hleaf'
      refine ⟨rfl, by rw [h.ids], ?_⟩
      exact AgreeFrom.dropDir (h.disk.unlink hleaf hleaf') he hdepth id (isDir_unlink hleaf)
        (isDir_unlink hleaf')
    · exact ⟨rfl, h⟩

theorem get (id : Int) : getAt H Faults.none e id s = getAt H Faults.none e id s' := by
  rw [getAt, getAt, readAt, readAt, h.has, Disk.objectLoc, h.disk.below hdepth]

theorem list (hdir : s.ids e ≠ none → s.disk.isDir (H.locOf e) = s'.disk.isDir (H.locOf e)) :
    listAt H e s = listAt H e s' := by
  unfold listAt
  rw [← h.ids]
  cases hids : s.ids e with
  | none => rfl
  | some ids =>
    rw [scanAt, scanAt, hdir (by simp [hids]), filesAt_congr h.disk hdepth]

/-- One operation on both. A listing asks in addition whether its directory is there. -/
theorem act (he : NoDotDot e) (op : Op)
    (hdir : op = .list → s.ids e ≠ none →
      s.disk.isDir (H.locOf e) = s'.disk.isDir (H.locOf e)) :
    (act H Faults.none e op s).1 = (act H Faults.none e op s').1 ∧
      Alike H (act H Faults.none e op s).2 (act H Faults.none e op s').2 := by
  cases op with
  | post body => exact h.post hdepth body
  | put id body => exact h.put id body
  | delete id => exact h.delete hdepth he id
  | get id => exact ⟨h.get hdepth id, h⟩
  | list => exact ⟨h.list hdepth (hdir rfl), h⟩
  | refused => exact ⟨rfl, h⟩
  | thrown a => exact ⟨rfl, h⟩

end Alike

/-- A request on an object of an entity that is not in the map is answered without the disk. -/
theorem act_of_unknown {id : Int} (hid : id ≠ -1) (req : Request) :
    ∃ a, ∀ s : Store Tree, s.ids e = none → act H Faults.none e (Op.of id req) s = (a, s) := by
  have hhas {s : Store Tree} (hs : s.ids e = none) : s.ids.has e id = false :=
    IdMap.has_of_none hs id
  rw [Op.of, if_neg hid, Op.ofObject]
  cases req.method with
  | put => exact ⟨_, fun s hs => by rw [CrudHandler.act, putAt, hhas hs]; rfl⟩
  | delete => exact ⟨_, fun s hs => by rw [CrudHandler.act, deleteAt, hhas hs]; rfl⟩
  | get => exact ⟨_, fun s hs => by rw [CrudHandler.act, getAt, hhas hs]; rfl⟩
  | post => exact ⟨_, fun s _ => rfl⟩
  | other name => exact ⟨_, fun s _ => rfl⟩

end Operations

end Webserver

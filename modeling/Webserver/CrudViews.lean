import Webserver.CrudChanges
import Webserver.CrudEntity

/-!
# What a request can see

The answer of a request on an entity, under any faults, depends on the set of the entity, its
directory with the nodes directly below, and on whether a file stands in the way to it. Two
states that agree there answer alike and still agree afterwards.
-/

set_option autoImplicit false

namespace Webserver

open FileTree FileTree.Tree CrudHandler

structure SameView (H : Host) (e : Str) (s s' : Store Tree) : Prop where
  ids : s.ids e = s'.ids e
  dir : s.disk.node (H.locOf e) = s'.disk.node (H.locOf e)
  children : ∀ n, s.disk.node (n :: H.locOf e) = s'.disk.node (n :: H.locOf e)
  clear : ∀ k, k <:+ H.locOf e → s.disk.isFile k = s'.disk.isFile k

namespace SameView
variable {H : Host} {e : Str} {s s' s'' : Store Tree}

theorem refl (s : Store Tree) : SameView H e s s :=
  ⟨rfl, rfl, fun _ => rfl, fun _ _ => rfl⟩

theorem symm (h : SameView H e s s') : SameView H e s' s :=
  ⟨h.ids.symm, h.dir.symm, fun n => (h.children n).symm, fun k hk => (h.clear k hk).symm⟩

theorem trans (h : SameView H e s s') (h' : SameView H e s' s'') : SameView H e s s'' :=
  ⟨h.ids.trans h'.ids, h.dir.trans h'.dir, fun n => (h.children n).trans (h'.children n),
    fun k hk => (h.clear k hk).trans (h'.clear k hk)⟩

variable (h : SameView H e s s')
include h

theorem has (id : Int) : s.ids.has e id = s'.ids.has e id := by
  rw [IdMap.has, IdMap.has, h.ids]

theorem getNextID : getNextID s.ids e = getNextID s'.ids e :=
  getNextID_congr h.has

theorem isDir : s.disk.isDir (H.locOf e) = s'.disk.isDir (H.locOf e) := isDir_congr h.dir

theorem names : s.disk.names (H.locOf e) = s'.disk.names (H.locOf e) := by
  rw [Tree.names, Tree.names, h.dir]

theorem isFile (n : Name) :
    s.disk.isFile (n :: H.locOf e) = s'.disk.isFile (n :: H.locOf e) :=
  isFile_congr (h.children n)

theorem filesAt : filesAt H e s.disk = filesAt H e s'.disk := by
  unfold CrudHandler.filesAt
  rw [h.names]
  exact List.filter_congr fun n _ => h.isFile n

theorem mkdirs_ok : (s.disk.mkdirs (H.locOf e)).2 = (s'.disk.mkdirs (H.locOf e)).2 := by
  rw [Bool.eq_iff_iff, mkdirs_ok_iff, mkdirs_ok_iff]
  exact forall_congr' fun k => imp_congr_right fun hk => by rw [h.clear k hk]

/-- `create_directories` keeps the agreement. -/
theorem mkdirs : SameView H e { s with disk := (s.disk.mkdirs (H.locOf e)).1 }
    { s' with disk := (s'.disk.mkdirs (H.locOf e)).1 } := by
  refine ⟨h.ids, ?_, fun n => ?_, fun k hk => ?_⟩
  · cases hok : (s.disk.mkdirs (H.locOf e)).2 with
    | false =>
      dsimp only
      rw [mkdirs_of_failed hok, mkdirs_of_failed (h.mkdirs_ok.symm.trans hok)]
      exact h.dir
    | true =>
      dsimp only
      rw [mkdirs_node_self hok, mkdirs_node_self (h.mkdirs_ok.symm.trans hok), h.names]
  · have hn : ¬ n :: H.locOf e <:+ H.locOf e := fun hs => by
      have hlen := hs.length_le
      simp only [List.length_cons] at hlen
      omega
    dsimp only
    rw [mkdirs_frame hn, mkdirs_frame hn, h.children]
  · dsimp only
    rw [mkdirs_isFile, mkdirs_isFile, h.clear k hk]

theorem makeDirAt (F : Faults) :
    (makeDirAt H F e s.disk).1 = (makeDirAt H F e s'.disk).1 ∧
      SameView H e { s with disk := (makeDirAt H F e s.disk).2 }
        { s' with disk := (makeDirAt H F e s'.disk).2 } := by
  unfold CrudHandler.makeDirAt
  rw [h.isDir]
  split
  · exact ⟨rfl, h⟩
  · split
    · exact ⟨rfl, h⟩
    · exact ⟨h.mkdirs_ok, h.mkdirs⟩

end SameView

/-- What a request on one entity leaves to another: all that it can see, unless the other
directory is on the way to the first or lies behind one of the ids of the first. -/
theorem CrudHandler.Change.sameView {H : Host} {a b : Str} {s s' : Store Tree}
    (h : Change H a s s') (hkey : b ≠ a) (hab : ¬ H.locOf b <:+ H.locOf a)
    (hobj : ∀ id, CrudHandler.getNextID s.ids a = .ok id ∨ s.ids.has a id = true →
      ¬ Disk.objectLoc H a id <:+ H.locOf b) : SameView H b s s' := by
  refine ⟨(h.ids_other hkey).symm, ?_, fun n => ?_, fun k hk => ?_⟩
  · exact (h.node_other hab fun id hid heq => hobj id hid (heq ▸ List.suffix_rfl)).symm
  · refine (h.node_other (fun hs => hab ((List.suffix_cons n _).trans hs)) fun id _ heq => ?_).symm
    exact hab ((List.cons.inj heq).2 ▸ List.suffix_rfl)
  · have hfile := h.file_other (k := k) fun id hid heq => hobj id hid (heq ▸ hk)
    rw [Bool.eq_iff_iff, isFile_iff, isFile_iff]
    exact exists_congr fun c => (hfile c).symm

/-- The root of a location stays. -/
theorem isDir_root_of_change {H : Host} {R : Root} {E : Entity R} {s s' : Store Tree}
    (h : CrudHandler.Change H E.key s s') (hroot : s.disk.isDir (R.loc H) = true) :
    s'.disk.isDir (R.loc H) = true := by
  have hlen := (E.rootLoc_suffix H).length_le
  refine h.isDir_other hroot (fun heq => ?_) fun id _ heq => ?_
  all_goals
    rw [heq] at hlen
    simp only [E.locOf_key, Entity.dir, List.length_cons] at hlen
    omega

/-- Agreement on the nodes that a change at or below the directory touches. -/
theorem SameView.of_nodes {H : Host} {e : Str} {s s' u u' : Store Tree}
    (h : SameView H e s s') (hids : u.ids e = u'.ids e)
    (hdir : u.disk.node (H.locOf e) = u'.disk.node (H.locOf e))
    (hchildren : ∀ n, u.disk.node (n :: H.locOf e) = u'.disk.node (n :: H.locOf e))
    (habove : ∀ k, k <:+ H.locOf e → k ≠ H.locOf e →
      u.disk.isFile k = s.disk.isFile k ∧ u'.disk.isFile k = s'.disk.isFile k) :
    SameView H e u u' := by
  refine ⟨hids, hdir, hchildren, fun k hk => ?_⟩
  by_cases hself : k = H.locOf e
  · rw [hself]
    exact isFile_congr hdir
  · obtain ⟨hu, hu'⟩ := habove k hk hself
    rw [hu, hu', h.clear k hk]

section Steps
variable {H : Host} {e : Str} {s s' : Store Tree} (F : Faults) {id : Int} {body : Str}

theorem SameView.put_file (h : SameView H e s s') (hd : s.disk.isDir (H.locOf e) = true)
    (hfree : s.disk.node (Disk.objectLoc H e id) = none) :
    SameView H e
      ⟨s.disk.put (intToString id) (H.locOf e) (.file body), s.ids.insert e id⟩
      ⟨s'.disk.put (intToString id) (H.locOf e) (.file body), s'.ids.insert e id⟩ := by
  have hd' := h.isDir.symm.trans hd
  have hfree' := (h.children (intToString id)).symm.trans hfree
  refine h.of_nodes ?_ ?_ (fun n => ?_) fun k hk _ => ?_
  · simp [IdMap.insert, h.ids]
  · dsimp only
    rw [put_file_node hd hfree, put_file_node hd' hfree', if_neg (List.cons_ne_self _ _).symm,
      if_neg (List.cons_ne_self _ _).symm, if_pos rfl, if_pos rfl, h.names]
  · dsimp only
    rw [put_file_node hd hfree, put_file_node hd' hfree', h.children, h.names]
  · exact ⟨isFile_put_above hd hfree hk body, isFile_put_above hd' hfree' hk body⟩

theorem SameView.post (h : SameView H e s s') (body : Str) :
    (postAt H F e body s).1 = (postAt H F e body s').1 ∧
      SameView H e (postAt H F e body s).2 (postAt H F e body s').2 := by
  unfold postAt
  rw [h.getNextID]
  cases CrudHandler.getNextID s'.ids e with
  | error a => exact ⟨rfl, h⟩
  | ok id =>
    obtain ⟨hok, hview⟩ := h.makeDirAt F
    rcases hm : CrudHandler.makeDirAt H F e s.disk with ⟨ok, t⟩
    rcases hm' : CrudHandler.makeDirAt H F e s'.disk with ⟨ok', t'⟩
    rw [hm, hm'] at hok hview
    dsimp only at hok hview
    subst hok
    cases ok with
    | false => exact ⟨rfl, hview⟩
    | true =>
      have hfree := hview.children (intToString id)
      have hdir := hview.isDir
      dsimp only at hfree hdir ⊢
      rw [← hfree, ← hdir]
      split
      · rename_i hc
        simp only [Bool.and_eq_true, Option.isNone_iff_eq_none] at hc
        exact ⟨rfl, hview.put_file hc.1.2 hc.1.1⟩
      · exact ⟨rfl, hview⟩

theorem SameView.put (h : SameView H e s s') (id : Int) (body : Str) :
    (putAt H F e id body s).1 = (putAt H F e id body s').1 ∧
      SameView H e (putAt H F e id body s).2 (putAt H F e id body s').2 := by
  unfold putAt
  rw [h.has, h.isFile]
  split
  · exact ⟨rfl, h⟩
  · split
    · rename_i hc
      rw [Bool.and_eq_true] at hc
      have hf' := hc.1
      have hf := (h.isFile (intToString id)).trans hf'
      have hne (k : Loc) (hk : k <:+ H.locOf e) : k ≠ Disk.objectLoc H e id :=
        ne_cons_of_suffix hk
      refine ⟨rfl, h.of_nodes h.ids ?_ (fun n => ?_) fun k hk _ => ⟨?_, ?_⟩⟩
      · dsimp only
        rw [write_node hf, write_node hf', if_neg (hne _ List.suffix_rfl),
          if_neg (hne _ List.suffix_rfl), h.dir]
      · dsimp only
        rw [write_node hf, write_node hf', h.children]
      · exact isFile_congr (by dsimp only; rw [write_node hf, if_neg (hne k hk)])
      · exact isFile_congr (by dsimp only; rw [write_node hf', if_neg (hne k hk)])
    · exact ⟨rfl, h⟩

theorem SameView.unlink (h : SameView H e s s')
    (hleaf : (s.disk.node (Disk.objectLoc H e id)).any Node.isLeaf = true) :
    SameView H e ⟨s.disk.unlink (intToString id) (H.locOf e), s.ids.erase e id⟩
      ⟨s'.disk.unlink (intToString id) (H.locOf e), s'.ids.erase e id⟩ := by
  have hleaf' : (s'.disk.node (Disk.objectLoc H e id)).any Node.isLeaf = true := by
    rw [← h.children]
    exact hleaf
  refine h.of_nodes ?_ ?_ (fun n => ?_) fun k hk _ => ?_
  · simp [IdMap.erase, h.ids]
  · dsimp only
    rw [unlink_node hleaf, unlink_node hleaf', if_neg (List.cons_ne_self _ _).symm,
      if_neg (List.cons_ne_self _ _).symm, if_pos rfl, if_pos rfl, h.names]
  · dsimp only
    rw [unlink_node hleaf, unlink_node hleaf', h.children, h.names]
  · exact ⟨isFile_unlink_above hleaf hk, isFile_unlink_above hleaf' hk⟩

section Entities
variable {R : Root} {E : Entity R}

theorem SameView.dropDir (h : SameView H E.key s s') (id : Int)
    (hd : s.disk.isDir (H.locOf E.key) = true) :
    SameView H E.key { s with disk := Disk.dropDir H F E.key id s.disk }
      { s' with disk := Disk.dropDir H F E.key id s'.disk } := by
  have hdir := h.dir
  rw [E.locOf_key] at hdir
  rw [E.dropDir_key H F id hd, E.dropDir_key H F id (h.isDir.symm.trans hd), ← hdir]
  split
  · rename_i hc
    rw [Bool.and_eq_true] at hc
    have hleaf := hc.1
    have hleaf' := hleaf
    rw [hdir] at hleaf'
    refine h.of_nodes h.ids ?_ (fun n => ?_) fun k hk hself => ?_
    · dsimp only
      rw [unlink_node hleaf, unlink_node hleaf', E.locOf_key, Entity.dir, if_pos rfl, if_pos rfl]
    · have hn : n :: H.locOf E.key ≠ E.last :: E.parentLoc H ∧
          n :: H.locOf E.key ≠ E.parentLoc H := by
        rw [E.locOf_key, Entity.dir]
        exact ⟨fun heq => List.cons_ne_self _ _ (List.cons.inj heq).2, cons_cons_ne_self _ _ _⟩
      dsimp only
      rw [unlink_node hleaf, unlink_node hleaf', if_neg hn.1, if_neg hn.1, if_neg hn.2,
        if_neg hn.2, h.children]
    · rw [E.locOf_key] at hk hself
      have hk := (List.suffix_cons_iff.mp hk).resolve_left hself
      exact ⟨isFile_unlink_above hleaf hk, isFile_unlink_above hleaf' hk⟩
  · exact h

theorem SameView.delete (h : SameView H E.key s s') (id : Int) :
    (deleteAt H F E.key id s).1 = (deleteAt H F E.key id s').1 ∧
      SameView H E.key (deleteAt H F E.key id s).2 (deleteAt H F E.key id s').2 := by
  unfold deleteAt
  rw [h.has, ← h.children]
  split
  · exact ⟨rfl, h⟩
  · split
    · rename_i hc
      rw [Bool.and_eq_true] at hc
      exact ⟨rfl, (h.unlink hc.1).dropDir F id (isDir_unlink hc.1)⟩
    · exact ⟨rfl, h⟩

/-- One request, with the same faults on both sides. -/
theorem SameView.act (h : SameView H E.key s s') (op : Op) :
    (act H F E.key op s).1 = (act H F E.key op s').1 ∧
      SameView H E.key (act H F E.key op s).2 (act H F E.key op s').2 := by
  cases op with
  | post body => exact h.post F body
  | put id body => exact h.put F id body
  | delete id => exact h.delete F id
  | get id =>
    refine ⟨?_, h⟩
    dsimp only [CrudHandler.act]
    rw [getAt, getAt, readAt, readAt, h.has, h.children]
  | list =>
    refine ⟨?_, h⟩
    dsimp only [CrudHandler.act]
    rw [listAt, listAt, scanAt, scanAt, h.ids, h.isDir, h.filesAt]
  | refused => exact ⟨rfl, h⟩
  | thrown a => exact ⟨rfl, h⟩

end Entities

end Steps

end Webserver

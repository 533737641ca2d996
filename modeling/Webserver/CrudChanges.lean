import Webserver.CrudIds
import Webserver.CrudRequests

/-!
# What a request can change

One inversion for all operations and all faults: a request on an entity leaves everything as
it was, makes directories, or creates, rewrites or deletes one object of the entity. The
frames below are read off it.
-/

set_option autoImplicit false

namespace Webserver

open FileTree FileTree.Tree

namespace CrudHandler

inductive Change (H : Host) (e : Str) (s : Store Tree) : Store Tree → Prop
  | nothing : Change H e s s
  | madeDirs : Change H e s { s with disk := (s.disk.mkdirs (H.locOf e)).1 }
  | created (id : Int) (body : Str) (hnext : getNextID s.ids e = .ok id)
      (hdirs : (s.disk.mkdirs (H.locOf e)).2 = true)
      (hfree : s.disk.node (Disk.objectLoc H e id) = none) :
      Change H e s ⟨(s.disk.mkdirs (H.locOf e)).1.put (intToString id) (H.locOf e) (.file body),
        s.ids.insert e id⟩
  | rewritten (id : Int) (body : Str) (hlive : s.ids.has e id = true)
      (hfile : s.disk.isFile (Disk.objectLoc H e id) = true) :
      Change H e s { s with disk := s.disk.write (Disk.objectLoc H e id) body }
  | deleted (id : Int) (hlive : s.ids.has e id = true)
      (hleaf : (s.disk.node (Disk.objectLoc H e id)).any Node.isLeaf = true) :
      Change H e s ⟨s.disk.unlink (intToString id) (H.locOf e), s.ids.erase e id⟩
  | deletedLast (id : Int) (n : Name) (l : Loc) (hlive : s.ids.has e id = true)
      (hleaf : (s.disk.node (Disk.objectLoc H e id)).any Node.isLeaf = true)
      (hloc : H.locOf e = n :: l)
      (hempty : ((s.disk.unlink (intToString id) (H.locOf e)).node (n :: l)).any
        Node.isLeaf = true) :
      Change H e s ⟨(s.disk.unlink (intToString id) (H.locOf e)).unlink n l, s.ids.erase e id⟩

section Inversion
variable (H : Host) (F : Faults) {e : Str} (s : Store Tree)

theorem makeDirAt_cases (t : Tree) :
    makeDirAt H F e t = (false, t) ∨
      makeDirAt H F e t = ((t.mkdirs (H.locOf e)).2, (t.mkdirs (H.locOf e)).1) := by
  unfold makeDirAt
  split
  · rename_i hd
    exact Or.inr (by rw [mkdirs_of_isDir hd])
  · split
    · exact Or.inl rfl
    · exact Or.inr rfl

theorem mkdirs_node_objectLoc (id : Int) (t : Tree) :
    (t.mkdirs (H.locOf e)).1.node (Disk.objectLoc H e id) = t.node (Disk.objectLoc H e id) := by
  refine mkdirs_frame fun hs => ?_
  have hlen := hs.length_le
  simp only [Disk.objectLoc, List.length_cons] at hlen
  omega

/-- Only an empty directory goes. -/
theorem dropDir_cases (he : NoDotDot e) (id : Int) (t : Tree) :
    Disk.dropDir H F e id t = t ∨
      ∃ n l, H.locOf e = n :: l ∧ (t.node (n :: l)).any Node.isLeaf = true ∧
        Disk.dropDir H F e id t = t.unlink n l := by
  unfold Disk.dropDir Disk.removePath
  split
  · split
    · exact Or.inl rfl
    · rcases t.remove_cases ((components (H.parentPath (H.objectPath e id))).map toStep) with
        h | ⟨n, l, hw, hleaf, h⟩
      · exact Or.inl h
      · have hl : n :: l = H.locOf e := by
          rw [walk_eq_lexical hw, ← lexical_steps, (Disk.lexical_parentPath_objectPath H id he).2]
        exact Or.inr ⟨n, l, hl.symm, hleaf, by rw [h]⟩
  · exact Or.inl rfl

theorem change_post (body : Str) : Change H e s (postAt H F e body s).2 := by
  unfold postAt
  cases hnext : getNextID s.ids e with
  | error a => exact .nothing
  | ok id =>
    rcases makeDirAt_cases H F (e := e) s.disk with hm | hm
    · simp only [hm]
      exact .nothing
    · rcases hok : (s.disk.mkdirs (H.locOf e)).2 with _ | _
      · simp only [hm, hok]
        exact .madeDirs
      · simp only [hm, hok]
        split
        · rename_i hc
          simp only [Bool.and_eq_true, mkdirs_node_objectLoc, Option.isNone_iff_eq_none] at hc
          exact .created id _ hnext hok hc.1.1
        · exact .madeDirs

/-- An answered id is the one `GetNextID` returned. -/
theorem getNextID_of_answer {body : Str} {id : Int}
    (h : (postAt H F e body s).1 = idAnswer id) : getNextID s.ids e = .ok id := by
  unfold postAt at h
  cases hnext : getNextID s.ids e with
  | error a =>
    rw [hnext] at h
    exact absurd h (by simp [idAnswer])
  | ok i =>
    rw [hnext] at h
    rcases hm : makeDirAt H F e s.disk with ⟨_ | _, t⟩
    · rw [hm] at h
      exact absurd h (idAnswer_ne_page (by decide) id)
    · simp only [hm] at h
      split at h
      · rw [idAnswer_injective h]
      · exact absurd h (idAnswer_ne_page (by decide) id)

theorem change_put (id : Int) (body : Str) : Change H e s (putAt H F e id body s).2 := by
  unfold putAt
  split
  · exact .nothing
  · rename_i hlive
    split
    · rename_i hc
      rw [Bool.and_eq_true] at hc
      exact .rewritten id _ (by simpa using hlive) hc.1
    · exact .nothing

theorem change_delete (he : NoDotDot e) (id : Int) : Change H e s (deleteAt H F e id s).2 := by
  unfold deleteAt
  split
  · exact .nothing
  · rename_i hlive
    have hlive : s.ids.has e id = true := by simpa using hlive
    split
    · rename_i hc
      rw [Bool.and_eq_true] at hc
      rcases dropDir_cases H F he id (s.disk.unlink (intToString id) (H.locOf e)) with
        hdrop | ⟨n, l, hloc, hempty, hdrop⟩
      · rw [hdrop]
        exact .deleted id hlive hc.1
      · rw [hdrop]
        exact .deletedLast id n l hlive hc.1 hloc hempty
    · exact .nothing

/-- The inversion. -/
theorem change_act (he : NoDotDot e) (op : Op) : Change H e s (act H F e op s).2 := by
  cases op with
  | post body => exact change_post H F s body
  | put id body => exact change_put H F s id body
  | delete id => exact change_delete H F s he id
  | get id => exact .nothing
  | list => exact .nothing
  | refused => exact .nothing
  | thrown a => exact .nothing

end Inversion

section Frames
variable {H : Host} {e : Str} {s s' : Store Tree} (h : Change H e s s')
include h

/-- The sets of other entities are not touched. -/
theorem Change.ids_other {k : Str} (hk : k ≠ e) : s'.ids k = s.ids k := by
  cases h with
  | nothing => rfl
  | madeDirs => rfl
  | created id body => exact IdMap.insert_other hk
  | rewritten id body => rfl
  | deleted id => exact IdMap.erase_other hk
  | deletedLast id n l => exact IdMap.erase_other hk

theorem Change.has_other {k : Str} (hk : k ≠ e) (j : Int) : s'.ids.has k j = s.ids.has k j := by
  rw [IdMap.has, IdMap.has, h.ids_other hk]

/-- A key never leaves the map. -/
theorem Change.ids_ne_none {k : Str} (hk : s.ids k ≠ none) :
    s'.ids k ≠ none := by
  by_cases hke : k = e
  · subst hke
    cases h with
    | nothing => exact hk
    | madeDirs => exact hk
    | created id body => exact IdMap.insert_self_ne_none
    | rewritten id body => exact hk
    | deleted id => exact IdMap.erase_self_ne_none
    | deletedLast id n l => exact IdMap.erase_self_ne_none
  · rw [h.ids_other hke]
    exact hk

/-- An id enters the map only when `GetNextID` gives it out, with a file that was not there. -/
theorem Change.live_origin {id : Int} (hid : s'.ids.has e id = true) :
    s.ids.has e id = true ∨
      (getNextID s.ids e = .ok id ∧ s.disk.node (Disk.objectLoc H e id) = none ∧
        s'.disk.isFile (Disk.objectLoc H e id) = true) := by
  cases h with
  | nothing => exact Or.inl hid
  | madeDirs => exact Or.inl hid
  | created i body hnext hdirs hfree =>
    rw [IdMap.has_insert, if_pos rfl, Bool.or_eq_true, decide_eq_true_eq] at hid
    rcases hid with rfl | hid
    · have hn := (mkdirs_node_objectLoc H id s.disk).trans hfree
      exact Or.inr ⟨hnext, hfree, isFile_put_file (mkdirs_isDir_self hdirs) hn⟩
    · exact Or.inl hid
  | rewritten i body => exact Or.inl hid
  | deleted i =>
    rw [IdMap.has_erase, if_pos rfl, Bool.and_eq_true] at hid
    exact Or.inl hid.2
  | deletedLast i n l =>
    rw [IdMap.has_erase, if_pos rfl, Bool.and_eq_true] at hid
    exact Or.inl hid.2

/-- Away from the directories on the way and from the objects of the entity nothing moves. -/
theorem Change.node_other {k : Loc} (hk : ¬ k <:+ H.locOf e)
    (hobj : ∀ id, getNextID s.ids e = .ok id ∨ s.ids.has e id = true →
      k ≠ Disk.objectLoc H e id) : s'.disk.node k = s.disk.node k := by
  have hself : k ≠ H.locOf e := fun heq => hk (heq ▸ List.suffix_rfl)
  cases h with
  | nothing => rfl
  | madeDirs => exact mkdirs_frame hk
  | created id body hnext hdirs hfree =>
    have hd := mkdirs_isDir_self hdirs
    have hn := (mkdirs_node_objectLoc H id s.disk).trans hfree
    dsimp only
    rw [put_file_node hd hn, if_neg (hobj id (Or.inl hnext)), if_neg hself, mkdirs_frame hk]
  | rewritten id body hlive hfile =>
    dsimp only
    rw [write_node hfile, if_neg (hobj id (Or.inr hlive))]
  | deleted id hlive hleaf =>
    dsimp only
    rw [unlink_node hleaf, if_neg (hobj id (Or.inr hlive)), if_neg hself]
  | deletedLast id n l hlive hleaf hloc hempty =>
    have hl : k ≠ l := fun heq => hk (by rw [hloc, heq]; exact List.suffix_cons n l)
    dsimp only
    rw [unlink_node hempty, ← hloc, if_neg hself, if_neg hl, unlink_node hleaf,
      if_neg (hobj id (Or.inr hlive)), if_neg hself]

/-- The files of other owners keep their content, and none appears. -/
theorem Change.file_other {k : Loc} (hobj : ∀ id, getNextID s.ids e = .ok id ∨
      s.ids.has e id = true → k ≠ Disk.objectLoc H e id) (c : Str) :
    s'.disk.node k = some (.file c) ↔ s.disk.node k = some (.file c) := by
  cases h with
  | nothing => rfl
  | madeDirs => exact mkdirs_file_iff
  | created id body hnext hdirs hfree =>
    have hd := mkdirs_isDir_self hdirs
    have hn := (mkdirs_node_objectLoc H id s.disk).trans hfree
    have hobj := hobj id (Or.inl hnext)
    rw [Disk.objectLoc] at hobj
    dsimp only
    rw [put_file_node hd hn, if_neg hobj, ← mkdirs_file_iff]
    split
    · rename_i hk
      rw [hk, node_eq_dir hd]
      simp
    · rfl
  | rewritten id body hlive hfile =>
    dsimp only
    rw [write_node hfile, if_neg (hobj id (Or.inr hlive))]
  | deleted id hlive hleaf => exact unlink_file_iff hleaf (hobj id (Or.inr hlive)) c
  | deletedLast id n l hlive hleaf hloc hempty =>
    by_cases hk : k = n :: l
    · dsimp only
      rw [unlink_node hempty, if_pos hk, hk, ← hloc, node_eq_dir (isDir_of_isLeaf hleaf)]
      simp
    · exact (unlink_file_iff hempty hk c).trans
        (unlink_file_iff hleaf (hobj id (Or.inr hlive)) c)

theorem Change.isFile_above {k : Loc} (hk : k <:+ H.locOf e) :
    s'.disk.isFile k = s.disk.isFile k := by
  rw [Bool.eq_iff_iff, isFile_iff, isFile_iff]
  exact exists_congr fun c => h.file_other (fun id _ => ne_cons_of_suffix hk) c

/-- Directories stay, but for the one of the entity. -/
theorem Change.isDir_other {k : Loc} (hd : s.disk.isDir k = true) (hself : k ≠ H.locOf e)
    (hobj : ∀ id, s.ids.has e id = true → k ≠ Disk.objectLoc H e id) :
    s'.disk.isDir k = true := by
  have hk := node_eq_dir hd
  cases h with
  | nothing => exact hd
  | madeDirs => exact mkdirs_isDir hd
  | created id body hnext hdirs hfree =>
    have hl := mkdirs_isDir_self hdirs
    have hn := (mkdirs_node_objectLoc H id s.disk).trans hfree
    have hne : k ≠ Disk.objectLoc H e id := fun heq => by simp [heq, hfree] at hk
    refine (isDir_congr ?_).trans (mkdirs_isDir (l := H.locOf e) hd)
    dsimp only
    rw [put_file_node hl hn, if_neg hne, if_neg hself]
  | rewritten id body hlive hfile =>
    refine (isDir_congr ?_).trans hd
    dsimp only
    rw [write_node hfile, if_neg (hobj id hlive)]
  | deleted id hlive hleaf =>
    refine (isDir_congr ?_).trans hd
    dsimp only
    rw [unlink_node hleaf, if_neg (hobj id hlive), if_neg hself]
  | deletedLast id n l hlive hleaf hloc hempty =>
    by_cases hkl : k = l
    · rw [hkl]
      exact isDir_unlink hempty
    · refine (isDir_congr ?_).trans hd
      dsimp only
      rw [unlink_node hempty, ← hloc, if_neg hself, if_neg hkl, unlink_node hleaf,
        if_neg (hobj id hlive), if_neg hself]

end Frames

end CrudHandler

end Webserver

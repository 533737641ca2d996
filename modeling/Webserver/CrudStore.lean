import Webserver.CrudViews
import Webserver.Library.ObjectStore
import Webserver.Library.Runs
import Webserver.PosixHost

/-!
# The entities of a location as a store of objects

On a disk without faults the ids of an entity and its directory show one partial map from ids
to bodies. The four fields of `Cell` are what every method keeps: with the last object the
directory goes, while the key stays in the map with an empty set.
-/

set_option autoImplicit false

namespace Webserver

open FileTree FileTree.Tree CrudHandler

structure Cell (H : Host) (e : Str) (s : Store Tree) (m : Int → Option Str) : Prop where
  ids : ∀ id, s.ids.has e id = (m id).isSome
  objects : ∀ id, s.disk.node (Disk.objectLoc H e id) = (m id).map Node.file
  only : ∀ n, s.disk.node (n :: H.locOf e) ≠ none → ∃ id, n = intToString id
  gone : (∀ id, m id = none) → s.disk.node (H.locOf e) = none

section Cells
variable {H : Host} {e : Str} {s : Store Tree} {m : Int → Option Str} {id : Int} {body : Str}

theorem objectLoc_inj {i j : Int} : Disk.objectLoc H e i = Disk.objectLoc H e j ↔ i = j :=
  ⟨fun h => intToString_injective (List.cons.inj h).1, fun h => h ▸ rfl⟩

theorem objectLoc_ne_locOf (id : Int) : Disk.objectLoc H e id ≠ H.locOf e :=
  List.cons_ne_self _ _

namespace Cell
variable (hc : Cell H e s m)
include hc

theorem isDir_of_object (h : m id = some body) : s.disk.isDir (H.locOf e) = true :=
  isDir_parent (n := intToString id) (by
    have hobj := hc.objects id
    rw [h] at hobj
    simp [hobj])

theorem notFile : s.disk.isFile (H.locOf e) = false := by
  by_cases hall : ∀ id, m id = none
  · exact (node_eq_none_iff.mp (hc.gone hall)).2
  · obtain ⟨id, hid⟩ := not_forall.mp hall
    obtain ⟨body, hbody⟩ := Option.ne_none_iff_exists'.mp hid
    exact not_isFile_of_isDir (hc.isDir_of_object hbody)

theorem isFile_iff_live : s.disk.isFile (Disk.objectLoc H e id) = (m id).isSome := by
  rw [isFile, hc.objects id]
  cases m id <;> rfl

theorem of_sameView {s' : Store Tree} (h : SameView H e s s') : Cell H e s' m := by
  refine ⟨fun id => ?_, fun id => ?_, fun n hn => ?_, fun hall => ?_⟩
  · rw [← h.has, hc.ids]
  · rw [← h.children, hc.objects]
  · rw [← h.children] at hn
    exact hc.only n hn
  · rw [← h.dir, hc.gone hall]

/-- Whatever the directory lists is an object. -/
theorem exists_of_mem_names {n : Name} (hn : n ∈ s.disk.names (H.locOf e)) :
    ∃ id body, n = intToString id ∧ m id = some body := by
  have hnode := mem_names_iff.mp hn
  obtain ⟨id, rfl⟩ := hc.only n hnode
  have hobj := hc.objects id
  cases h : m id with
  | none =>
    rw [h] at hobj
    exact absurd hobj hnode
  | some body => exact ⟨id, body, rfl, h⟩

end Cell

theorem makeDirAt_none (t : Tree) :
    makeDirAt H Faults.none e t = ((t.mkdirs (H.locOf e)).2, (t.mkdirs (H.locOf e)).1) := by
  unfold makeDirAt
  split
  · rename_i hd
    rw [mkdirs_of_isDir hd]
  · rfl

/-- Without faults the answer is the content of the file. -/
theorem readAt_of_file {t : Tree} (hfile : t.node (Disk.objectLoc H e id) = some (.file body)) :
    readAt H Faults.none e id t = .ok (.ok, body) := by
  simp [readAt, hfile, readAnswer, Faults.none, readChunks_none]

end Cells

section Methods
variable {H : Host} {R : Root} {E : Entity R} {s : Store Tree} {m : Int → Option Str} {id : Int}
  (hc : Cell H E.key s m)
include hc

theorem Cell.mkdirs_ok (hp : s.disk.isDir (E.parentLoc H) = true) :
    (s.disk.mkdirs (H.locOf E.key)).2 = true := by
  rw [mkdirs_ok_iff]
  intro k hk
  have hfile := hc.notFile
  rw [E.locOf_key] at hk hfile
  rcases List.suffix_cons_iff.mp hk with rfl | hk
  · exact hfile
  · exact not_isFile_of_suffix hp hk

theorem Cell.post_eq (hok : (s.disk.mkdirs (H.locOf E.key)).2 = true)
    (hid : getNextID s.ids E.key = .ok id) (body : Str) :
    postAt H Faults.none E.key body s =
      (idAnswer id, ⟨(s.disk.mkdirs (H.locOf E.key)).1.put (intToString id) (H.locOf E.key)
        (.file body), s.ids.insert E.key id⟩) := by
  have hd := mkdirs_isDir_self hok
  have hfree := (getNextID_ok_iff.mp hid).2.2.1
  rw [hc.ids, Option.isSome_eq_false_iff, Option.isNone_iff_eq_none] at hfree
  have hnode := mkdirs_node_objectLoc H id s.disk (e := E.key)
  rw [hc.objects, hfree] at hnode
  simp [postAt, hid, makeDirAt_none, hok, hd, hnode]

theorem Cell.post (hok : (s.disk.mkdirs (H.locOf E.key)).2 = true)
    (hid : getNextID s.ids E.key = .ok id) (body : Str) :
    Cell H E.key (postAt H Faults.none E.key body s).2 (Function.update m id (some body)) := by
  have hd := mkdirs_isDir_self hok
  have hfree := (getNextID_ok_iff.mp hid).2.2.1
  rw [hc.ids, Option.isSome_eq_false_iff, Option.isNone_iff_eq_none] at hfree
  have hnode := mkdirs_node_objectLoc H id s.disk (e := E.key)
  rw [hc.objects, hfree] at hnode
  rw [hc.post_eq hok hid body]
  constructor
  · intro j
    rw [IdMap.has_insert, if_pos rfl, hc.ids]
    by_cases hj : j = id <;> simp [hj]
  · intro j
    dsimp only
    rw [put_file_node hd hnode]
    by_cases hj : j = id
    · simp [hj]
    · rw [if_neg (fun h => hj (objectLoc_inj.mp h)), if_neg (objectLoc_ne_locOf j),
        mkdirs_node_objectLoc, hc.objects, Function.update_of_ne hj]
  · intro n hn
    dsimp only at hn
    rw [put_file_node hd hnode] at hn
    by_cases hnid : n = intToString id
    · exact ⟨id, hnid⟩
    · rw [if_neg (by simp [hnid]), if_neg (List.cons_ne_self n _)] at hn
      rw [mkdirs_frame] at hn
      · exact hc.only n hn
      · intro hs
        have hlen := hs.length_le
        simp only [List.length_cons] at hlen
        omega
  · intro hall
    exact absurd (hall id) (by simp)

theorem Cell.put_eq (hid : m id ≠ none) (body : Str) :
    putAt H Faults.none E.key id body s =
      (idAnswer id, { s with disk := s.disk.write (Disk.objectLoc H E.key id) body }) := by
  have hsome := Option.isSome_iff_ne_none.mpr hid
  simp [putAt, hc.ids, hc.isFile_iff_live, hsome]

theorem Cell.put (hid : m id ≠ none) (body : Str) :
    Cell H E.key (putAt H Faults.none E.key id body s).2 (Function.update m id (some body)) := by
  have hsome := Option.isSome_iff_ne_none.mpr hid
  have hfile : s.disk.isFile (Disk.objectLoc H E.key id) = true := by
    rw [hc.isFile_iff_live, hsome]
  rw [hc.put_eq hid body]
  constructor
  · intro j
    rw [hc.ids]
    by_cases hj : j = id
    · simp [hj, hsome]
    · rw [Function.update_of_ne hj]
  · intro j
    dsimp only
    rw [write_node hfile]
    by_cases hj : j = id
    · simp [hj]
    · rw [if_neg (fun h => hj (objectLoc_inj.mp h)), hc.objects, Function.update_of_ne hj]
  · intro n hn
    dsimp only at hn
    rw [write_node hfile] at hn
    split at hn
    · rename_i heq
      exact ⟨id, (List.cons.inj heq).1⟩
    · exact hc.only n hn
  · intro hall
    exact absurd (hall id) (by simp)

theorem Cell.readAt_eq {body : Str} (hid : m id = some body) :
    readAt H Faults.none E.key id s.disk = .ok (.ok, body) := by
  have hobj := hc.objects id
  rw [hid] at hobj
  exact readAt_of_file hobj

theorem Cell.isLeaf (hid : m id ≠ none) :
    (s.disk.node (Disk.objectLoc H E.key id)).any Node.isLeaf = true := by
  refine isLeaf_of_isFile ?_
  rw [hc.isFile_iff_live, Option.isSome_iff_ne_none]
  exact hid

theorem Cell.unlink_child (hid : m id ≠ none) (n : Name) :
    (s.disk.unlink (intToString id) (H.locOf E.key)).node (n :: H.locOf E.key) =
      if n = intToString id then none else s.disk.node (n :: H.locOf E.key) := by
  rw [unlink_node (hc.isLeaf hid), if_neg (List.cons_ne_self n _)]
  simp

/-- With an object left the directory stays, with the last one it goes. -/
theorem Cell.emptied_iff (hid : m id ≠ none) :
    ((s.disk.unlink (intToString id) (H.locOf E.key)).node (E.dir H)).any Node.isLeaf = true ↔
      ∀ j, j ≠ id → m j = none := by
  rw [← E.locOf_key, node_eq_dir (isDir_unlink (hc.isLeaf hid)), Option.any_some, Node.isLeaf,
    List.isEmpty_iff, List.eq_nil_iff_forall_not_mem]
  constructor
  · intro h j hj
    by_contra hne
    refine h (intToString j) (mem_names_iff.mpr ?_)
    rw [hc.unlink_child hid, if_neg (fun h => hj (intToString_injective h)), hc.objects]
    simpa using hne
  · intro h n hn
    have hne := mem_names_iff.mp hn
    rw [hc.unlink_child hid] at hne
    split at hne
    · exact hne rfl
    · rename_i hnid
      obtain ⟨j, body, rfl, hj⟩ := hc.exists_of_mem_names (mem_names_iff.mpr hne)
      rw [h j (fun hji => hnid (by rw [hji]))] at hj
      exact absurd hj (by simp)

theorem Cell.delete_eq (hid : m id ≠ none) :
    deleteAt H Faults.none E.key id s =
      (idAnswer id, ⟨Disk.dropDir H Faults.none E.key id
        (s.disk.unlink (intToString id) (H.locOf E.key)), s.ids.erase E.key id⟩) := by
  simp [deleteAt, hc.ids, Option.isSome_iff_ne_none.mpr hid, hc.isLeaf hid]

theorem Cell.delete (hid : m id ≠ none) :
    Cell H E.key (deleteAt H Faults.none E.key id s).2 (Function.update m id none) := by
  have hids (j : Int) : (s.ids.erase E.key id).has E.key j =
      (Function.update m id none j).isSome := by
    rw [IdMap.has_erase, if_pos rfl, hc.ids]
    by_cases hj : j = id <;> simp [hj]
  rw [hc.delete_eq hid, E.dropDir_key H Faults.none id (isDir_unlink (hc.isLeaf hid)),
    Faults.none_remove, Bool.not_false, Bool.and_true]
  split
  · rename_i hleaf
    have hlast := (hc.emptied_iff hid).mp hleaf
    have hnone (k : Loc) (hk : H.locOf E.key <:+ k) :
        ((s.disk.unlink (intToString id) (H.locOf E.key)).unlink E.last (E.parentLoc H)).node k =
          none := by
      have hgone : ((s.disk.unlink (intToString id) (H.locOf E.key)).unlink E.last
          (E.parentLoc H)).node (E.dir H) = none := by
        rw [unlink_node hleaf]
        exact if_pos rfl
      rw [E.locOf_key] at hk
      by_cases heq : E.dir H = k
      · rw [← heq]
        exact hgone
      · exact node_eq_none_of_above (node_eq_none_iff.mp hgone).1 hk heq
    refine ⟨hids, fun j => ?_, fun n hn => absurd (hnone _ (List.suffix_cons n _)) hn,
      fun _ => hnone _ List.suffix_rfl⟩
    rw [hnone _ (List.suffix_cons _ _)]
    by_cases hj : j = id
    · simp [hj]
    · rw [Function.update_of_ne hj, hlast j hj]
      rfl
  · rename_i hleaf
    refine ⟨hids, fun j => ?_, fun n hn => ?_,
      fun hall => absurd ((hc.emptied_iff hid).mpr fun j hj => ?_) hleaf⟩
    · dsimp only
      rw [hc.unlink_child hid]
      by_cases hj : j = id
      · simp [hj]
      · rw [if_neg (fun h => hj (intToString_injective h)), hc.objects, Function.update_of_ne hj]
    · dsimp only at hn
      rw [hc.unlink_child hid] at hn
      exact hc.only n (fun h => hn (by rw [h, ite_self]))
    · rw [← hall j, Function.update_of_ne hj]

end Methods

/-- A name for an entity directly below the root. -/
@[ext]
structure EntityName where
  name : Name
  ordinary : IsName name
  notDigits : onlyDigits name = false
deriving DecidableEq

namespace EntityName

def entity (R : Root) (e : EntityName) : Entity R :=
  ⟨[], e.name, by simpa using e.ordinary, e.notDigits⟩

abbrev key (R : Root) (e : EntityName) : Str := (e.entity R).key

variable (R : Root) (H : Host)

theorem parentLoc_entity (e : EntityName) : (e.entity R).parentLoc H = R.loc H := by
  simp [entity, Entity.parentLoc, Entity.above, Root.loc]

theorem locOf_key (e : EntityName) : H.locOf (e.key R) = e.name :: R.loc H := by
  rw [key, Entity.locOf_key, Entity.dir, parentLoc_entity]
  rfl

variable {R}

theorem key_injective {a b : EntityName} (h : a.key R = b.key R) : a = b := by
  have hns := Segments.joined_injective (fun n hn => ((a.entity R).isName_path n hn).1)
    (fun n hn => ((b.entity R).isName_path n hn).1) h
  exact EntityName.ext (List.cons.inj (List.append_inj' hns rfl).2).1

theorem key_ne {a b : EntityName} (h : a ≠ b) : a.key R ≠ b.key R :=
  fun heq => h (key_injective heq)

end EntityName

section Siblings
variable {H : Host} {R : Root} {s s' : Store Tree} {m : Int → Option Str} {a b : EntityName}

/-- A request on one entity leaves the others alone. -/
theorem sameView_of_change (h : Change H (a.key R) s s') (hab : a ≠ b) :
    SameView H (b.key R) s s' := by
  refine h.sameView (EntityName.key_ne hab.symm) (fun hs => ?_) fun id _ hs => ?_
  · rw [EntityName.locOf_key, EntityName.locOf_key] at hs
    have heq := hs.eq_of_length (by simp)
    exact hab (EntityName.ext (List.cons.inj heq).1.symm)
  · have hlen := hs.length_le
    simp only [EntityName.locOf_key, List.length_cons] at hlen
    omega

theorem Cell.other (hc : Cell H (b.key R) s m) (h : Change H (a.key R) s s') (hab : a ≠ b) :
    Cell H (b.key R) s' m :=
  hc.of_sameView (sameView_of_change h hab)

end Siblings

section Runs
variable {H : Host} {R : Root} {s : Store Tree}

/-- Every request on an entity leaves some cell of it. -/
theorem Cell.act {E : Entity R} {m : Int → Option Str} (hc : Cell H E.key s m)
    (hp : s.disk.isDir (E.parentLoc H) = true) (op : Op) :
    ∃ m', Cell H E.key (act H Faults.none E.key op s).2 m' := by
  have hmissing {id : Int} (hid : m id = none) : s.ids.has E.key id = false := by
    rw [hc.ids, hid]
    rfl
  cases op with
  | post body =>
    cases hnext : getNextID s.ids E.key with
    | error a =>
      refine ⟨m, ?_⟩
      rw [CrudHandler.act, postAt, hnext]
      exact hc
    | ok id => exact ⟨_, hc.post (hc.mkdirs_ok hp) hnext body⟩
  | put id body =>
    by_cases hid : m id = none
    · refine ⟨m, ?_⟩
      rw [CrudHandler.act, putAt, hmissing hid]
      exact hc
    · exact ⟨_, hc.put hid body⟩
  | delete id =>
    by_cases hid : m id = none
    · refine ⟨m, ?_⟩
      rw [CrudHandler.act, deleteAt, hmissing hid]
      exact hc
    · exact ⟨_, hc.delete hid⟩
  | get id => exact ⟨m, hc⟩
  | list => exact ⟨m, hc⟩
  | refused => exact ⟨m, hc⟩
  | thrown a => exact ⟨m, hc⟩

/-- Any request on an entity of the location. -/
structure EntityRequest where
  entity : EntityName
  object : Option IdText
  request : Request

namespace EntityRequest

def filePath (R : Root) (r : EntityRequest) : Str := (r.entity.entity R).filePath r.object

def op (r : EntityRequest) : Op := Entity.opOf r.object r.request

end EntityRequest

/-- The server of one location on a disk without faults. -/
def locationServer (H : Host) (R : Root) (s : Store Tree) (r : EntityRequest) :
    Answer × Store Tree :=
  serve H (Disk.manager H Faults.none) (r.filePath R) r.request s

/-- What holds in every state of the location. -/
structure Healthy (H : Host) (R : Root) (s : Store Tree) : Prop where
  root : s.disk.isDir (R.loc H) = true
  cells : ∀ e : EntityName, ∃ m, Cell H (e.key R) s m

theorem locationServer_eq (r : EntityRequest) (hroot : s.disk.isDir (R.loc H) = true) :
    locationServer H R s r = act H Faults.none (r.entity.key R) r.op s :=
  Entity.serve_eq _ H Faults.none r.request s r.object hroot

theorem locationServer_change (r : EntityRequest) (hroot : s.disk.isDir (R.loc H) = true) :
    Change H (r.entity.key R) s (locationServer H R s r).2 := by
  rw [locationServer_eq r hroot]
  exact change_act H _ s (Entity.noDotDot_key _) r.op

theorem Healthy.step (hs : Healthy H R s) (r : EntityRequest) :
    Healthy H R (locationServer H R s r).2 := by
  have hchange := locationServer_change r hs.root
  refine ⟨isDir_root_of_change hchange hs.root, fun e => ?_⟩
  obtain ⟨m, hm⟩ := hs.cells e
  by_cases he : r.entity = e
  · subst he
    rw [locationServer_eq r hs.root]
    exact hm.act (by rw [EntityName.parentLoc_entity]; exact hs.root) r.op
  · exact ⟨m, hm.other hchange he⟩

theorem Healthy.run (hs : Healthy H R s) (rs : List EntityRequest) :
    Healthy H R (Runs.final (locationServer H R) s rs) :=
  Runs.final_invariant (A := fun _ => True) (fun _ r _ hs => hs.step r) hs fun _ _ => trivial

end Runs

/-- An entity without a directory and without ids shows no objects. -/
theorem cell_of_gone {H : Host} {e : Str} {s : Store Tree}
    (hdir : s.disk.node (H.locOf e) = none) (hids : ∀ id, s.ids.has e id = false) :
    Cell H e s fun _ => none := by
  have hbelow (n : Name) : s.disk.node (n :: H.locOf e) = none :=
    node_eq_none_of_above (node_eq_none_iff.mp hdir).1 (List.suffix_cons n _)
      (List.cons_ne_self n _).symm
  exact ⟨hids, fun id => hbelow _, fun n hn => absurd (hbelow n) hn, fun _ => hdir⟩

theorem cell_of_empty {H : Host} {R : Root} {t : Tree}
    (hroot : t.node (R.loc H) = some (.dir [])) (E : Entity R) :
    Cell H E.key ⟨t, IdMap.empty⟩ fun _ => none := by
  have hsuf := (E.rootLoc_suffix H).trans (List.suffix_cons E.last _)
  have hlen := (E.rootLoc_suffix H).length_le
  refine cell_of_gone (node_eq_none_of_empty hroot ?_ fun heq => ?_) fun _ => rfl
  · rw [E.locOf_key]
    exact hsuf
  · rw [← heq, E.locOf_key, Entity.dir, List.length_cons] at hlen
    omega

theorem healthy_of_empty {H : Host} {R : Root} {t : Tree}
    (hroot : t.node (R.loc H) = some (.dir [])) : Healthy H R ⟨t, IdMap.empty⟩ :=
  ⟨isDir_of_node hroot, fun e => ⟨_, cell_of_empty hroot (e.entity R)⟩⟩

/-! A server that runs in `/srv`, with the root `/crud` and nothing in it. -/

namespace Demo

def root : Root := ⟨"crud".toList, [], by decide⟩

def disk : Tree := (bare.mkdirs (root.loc host)).1

theorem root_empty : disk.node (root.loc host) = some (.dir []) := by decide +kernel

def x : EntityName := ⟨"x".toList, by decide, by decide⟩

end Demo

end Webserver

import Webserver.CrudStore

/-!
# Listings

What GET without an id answers in every state a location reaches. The list is read from the
directory, and the directory shows the live ids; but an entity whose objects are all deleted
has no directory while its key stays in the map.
-/

set_option autoImplicit false

namespace Webserver

open FileTree FileTree.Tree CrudHandler

/-- The JSON list of some ids. -/
def jsonList (ids : List Int) : Str :=
  "[".toList ++ ", ".toList.intercalate (ids.map intToString) ++ "]\n\n".toList

theorem foldl_listBody (files : List Str) (body : Str) :
    files.foldl (fun body file => body ++ (file ++ ", ".toList)) body =
      body ++ files.flatMap fun file => file ++ ", ".toList := by
  induction files generalizing body with
  | nil => simp
  | cons file files ih =>
    rw [List.foldl_cons, ih, List.flatMap_cons, List.append_assoc]

theorem flatMap_sep (sep file : Str) (files : List Str) :
    ((file :: files).flatMap fun file => file ++ sep) =
      sep.intercalate (file :: files) ++ sep := by
  induction files generalizing file with
  | nil => simp
  | cons file' files ih =>
    rw [List.flatMap_cons, ih, List.intercalate_cons_cons]
    simp

/-- Cutting off the last two characters removes the last separator. -/
theorem listBody_map (ids : List Int) : listBody (ids.map intToString) = jsonList ids := by
  cases ids with
  | nil => rfl
  | cons id ids =>
    have hlen (s : Str) : (s ++ ", ".toList).length - 2 = s.length := by simp
    have hpos (s : Str) : (s ++ ", ".toList).length > 1 := by simp
    simp only [listBody, jsonList]
    rw [foldl_listBody, List.map_cons, flatMap_sep, ← List.append_assoc, if_pos (hpos _), hlen,
      List.take_left]

theorem jsonList_ne_nil (id : Int) (ids : List Int) : jsonList (id :: ids) ≠ jsonList [] := by
  intro h
  have hnil : ", ".toList.intercalate ((id :: ids).map intToString) = [] :=
    List.append_cancel_left (List.append_cancel_right h)
  have hid := (intToString_isSegment id).1
  cases ids with
  | nil => exact hid (by simpa using hnil)
  | cons id' ids =>
    rw [List.map_cons, List.map_cons, List.intercalate_cons_cons] at hnil
    simp at hnil

/-- GET of the entity answers 200 with the live ids, each once, in some order. -/
def ListsLive (H : Host) (R : Root) (s : Store Tree) (e : EntityName) : Prop :=
  ∀ version body, ∃ ids : List Int, ids.Nodup ∧ (∀ id, id ∈ ids ↔ s.ids.has (e.key R) id = true) ∧
    (locationServer H R s ⟨e, none, ⟨.get, version, body⟩⟩).1 = .ok (.ok, jsonList ids)

section Scan
variable {H : Host} {e : Str} {s : Store Tree} {m : Int → Option Str}

theorem mem_filesAt {n : Name} {t : Tree} :
    n ∈ filesAt H e t ↔ t.isFile (n :: H.locOf e) = true := by
  rw [filesAt, List.mem_filter, (H.readdir_perm _).mem_iff, mem_names_iff]
  constructor
  · exact fun h => h.2
  · intro h
    obtain ⟨c, hc⟩ := isFile_iff.mp h
    exact ⟨by rw [hc]; simp, h⟩

/-- The directory shows the live ids and nothing else. -/
theorem Cell.filesAt_eq (hc : Cell H e s m) :
    ∃ ids : List Int, filesAt H e s.disk = ids.map intToString ∧ ids.Nodup ∧
      ∀ id, id ∈ ids ↔ s.ids.has e id = true := by
  have hrange : filesAt H e s.disk ∈ Set.range (List.map intToString) := by
    rw [Set.range_list_map]
    intro n hn
    rw [mem_filesAt] at hn
    obtain ⟨c, hfile⟩ := isFile_iff.mp hn
    obtain ⟨id, rfl⟩ := hc.only n (by rw [hfile]; simp)
    exact ⟨id, rfl⟩
  obtain ⟨ids, hids⟩ := hrange
  refine ⟨ids, hids.symm, ?_, fun id => ?_⟩
  · have hnodup : (filesAt H e s.disk).Nodup :=
      ((H.readdir_perm _).nodup_iff.mpr names_nodup).filter _
    rw [← hids] at hnodup
    exact hnodup.of_map
  · have hmem : id ∈ ids ↔ intToString id ∈ filesAt H e s.disk := by
      rw [← hids, List.mem_map_of_injective fun i j h => intToString_injective h]
    rw [hmem, mem_filesAt, hc.ids, ← hc.isFile_iff_live]

theorem listAt_of_key (hids : s.ids e ≠ none) : listAt H e s = scanAt H e s.disk := by
  obtain ⟨ids, hids⟩ := Option.ne_none_iff_exists'.mp hids
  rw [listAt, hids]
  rfl

theorem scanAt_of_isDir {t : Tree} (hd : t.isDir (H.locOf e) = true) :
    scanAt H e t = .ok (.ok, listBody (filesAt H e t)) :=
  if_pos hd

theorem scanAt_of_none {t : Tree} (hn : t.node (H.locOf e) = none) :
    scanAt H e t = page .internalServerError := by
  rw [scanAt, (node_eq_none_iff.mp hn).1]
  rfl

/-- An empty set in the map means that the directory is gone. -/
theorem Cell.listAt_of_empty (hc : Cell H e s m) (hids : s.ids e = some ∅) :
    listAt H e s = page .internalServerError := by
  rw [listAt_of_key (by simp [hids])]
  refine scanAt_of_none (hc.gone fun id => ?_)
  have hlive := hc.ids id
  rw [← Option.not_isSome_iff_eq_none, ← hlive]
  simp [IdMap.has, hids]

theorem Cell.listAt_of_live (hc : Cell H e s m) {ids : Finset Int} (hids : s.ids e = some ids)
    (hne : ids ≠ ∅) : listAt H e s = .ok (.ok, listBody (filesAt H e s.disk)) := by
  obtain ⟨id, hid⟩ := Finset.nonempty_iff_ne_empty.mpr hne
  have hlive : s.ids.has e id = true := IdMap.has_iff.mpr ⟨ids, hids, hid⟩
  rw [hc.ids] at hlive
  obtain ⟨body, hbody⟩ := Option.isSome_iff_exists.mp hlive
  rw [listAt_of_key (by simp [hids]), scanAt_of_isDir (hc.isDir_of_object hbody)]

end Scan

section Listing
variable {H : Host} {R : Root} {s : Store Tree}

theorem get_entity_eq (e : EntityName) (version : Nat) (body : Str)
    (hroot : s.disk.isDir (R.loc H) = true) :
    (locationServer H R s ⟨e, none, ⟨.get, version, body⟩⟩).1 = listAt H (e.key R) s := by
  rw [locationServer_eq _ hroot]
  rfl

/-- In a reachable state the listing is right unless the key is there with an empty set. -/
theorem Healthy.listsLive_iff (hs : Healthy H R s) (e : EntityName) :
    ListsLive H R s e ↔ s.ids (e.key R) ≠ some ∅ := by
  obtain ⟨m, hm⟩ := hs.cells e
  constructor
  · intro h hempty
    obtain ⟨ids, _, _, hanswer⟩ := h 11 []
    rw [get_entity_eq e 11 [] hs.root, hm.listAt_of_empty hempty] at hanswer
    exact absurd (Prod.mk.inj (Except.ok.inj hanswer)).1 (by decide)
  · intro hne version body
    simp only [get_entity_eq e version body hs.root]
    cases hids : s.ids (e.key R) with
    | none =>
      refine ⟨[], List.nodup_nil, fun id => ?_, by rw [listAt, hids]; rfl⟩
      simp [IdMap.has_of_none hids]
    | some ids =>
      obtain ⟨L, hfiles, hnodup, hlive⟩ := hm.filesAt_eq
      refine ⟨L, hnodup, hlive, ?_⟩
      rw [hm.listAt_of_live hids fun h => hne (by rw [hids, h]), hfiles, listBody_map]

end Listing

/-- The listing of an entity is right exactly until its last object is deleted. -/
theorem listsLive_iff_not_emptied (H : Host) (R : Root) (t : Tree)
    (hroot : t.node (R.loc H) = some (.dir [])) (rs : List EntityRequest) (e : EntityName) :
    ListsLive H R (Runs.final (locationServer H R) ⟨t, IdMap.empty⟩ rs) e ↔
      (Runs.final (locationServer H R) ⟨t, IdMap.empty⟩ rs).ids (e.key R) ≠ some ∅ :=
  ((healthy_of_empty hroot).run rs).listsLive_iff e

namespace Demo

def post (body : Str) : EntityRequest := ⟨x, none, ⟨.post, 11, body⟩⟩

def delete (n : Nat) : EntityRequest := ⟨x, some (.ofNat n), ⟨.delete, 11, []⟩⟩

def get (n : Nat) : EntityRequest := ⟨x, some (.ofNat n), ⟨.get, 11, []⟩⟩

def list : EntityRequest := ⟨x, none, ⟨.get, 11, []⟩⟩

end Demo

theorem listsLive_iff_not_emptied_post :
    ListsLive Demo.host Demo.root (Runs.final (locationServer Demo.host Demo.root)
        ⟨Demo.disk, IdMap.empty⟩ [Demo.post []]) Demo.x ↔
      (Runs.final (locationServer Demo.host Demo.root)
        ⟨Demo.disk, IdMap.empty⟩ [Demo.post []]).ids (Demo.x.key Demo.root) ≠ some ∅ :=
  listsLive_iff_not_emptied _ _ _ Demo.root_empty _ _

/-- POST, DELETE of the only object, GET of the list: 500. -/
theorem not_listsLive_post_delete :
    ¬ ListsLive Demo.host Demo.root (Runs.final (locationServer Demo.host Demo.root)
        ⟨Demo.disk, IdMap.empty⟩ [Demo.post [], Demo.delete 1]) Demo.x := by
  intro h
  obtain ⟨ids, _, _, hanswer⟩ := h 11 []
  have hstatus : (locationServer Demo.host Demo.root
      (Runs.final (locationServer Demo.host Demo.root) ⟨Demo.disk, IdMap.empty⟩
        [Demo.post [], Demo.delete 1]) Demo.list).1 = page .internalServerError := by
    decide +kernel
  have hpage := hstatus.symm.trans hanswer
  exact absurd (Prod.mk.inj (Except.ok.inj hpage)).1 (by decide)

end Webserver

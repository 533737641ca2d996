import Webserver.CrudFileSystemManager

/-!
# The manager at locations

For an entity without `..` in its spelling the operations of the manager depend only on where
the spelling leads: one equation for each operation, with every fault still free.
-/

set_option autoImplicit false

namespace Webserver

open FileTree FileTree.Tree

namespace Disk
variable (H : Host) (F : Faults) {e : Str} (id : Int) (content : Str) (t : Tree)

/-- The location of `current_path()/e/id`. -/
abbrev objectLoc (e : Str) (id : Int) : Loc := intToString id :: H.locOf e

theorem createDir_eq {p : Str} (hp : NoDotDot p) :
    createDir F p t =
      if t.isDir (lexical [] (steps p)) then (true, t)
      else if F.createDirectories p then (false, t)
      else ((t.mkdirs (lexical [] (steps p))).2, (t.mkdirs (lexical [] (steps p))).1) := by
  have hd : isDirectory t p = t.isDir (lexical [] (steps p)) := lookup_isDir hp.noUp
  have hex : isDirectory t p = true → fileExists t p = true := by
    intro h
    unfold isDirectory at h
    unfold fileExists
    cases hl : t.lookup (steps p) <;> simp_all
  unfold createDir
  rw [makeDirs_eq_mkdirs hp.noUp isDir_root]
  cases h : isDirectory t p with
  | true => simp [hex h, ← hd, h]
  | false => simp [← hd, h]

theorem lookup_objectPath (he : NoDotDot e) :
    t.lookup (steps (H.objectPath e id)) = t.node (objectLoc H e id) := by
  have hup : NoUp ((H.cwd ++ components e).map toStep) := by
    rw [noUp_map_toStep, List.mem_append]
    exact fun hm => hm.elim H.noDotDot_cwd he
  rw [H.steps_objectPath, lookup_snoc hup, H.lexical_cwd_components]

theorem walk_objectPath (he : NoDotDot e) :
    t.walk [] (steps (H.objectPath e id)) =
      if t.isDir (H.locOf e) then some (objectLoc H e id) else none := by
  have hup : NoUp ((H.cwd ++ components e).map toStep) := by
    rw [noUp_map_toStep, List.mem_append]
    exact fun hm => hm.elim H.noDotDot_cwd he
  have hloc := H.lexical_cwd_components e
  rw [H.steps_objectPath]
  split
  · rename_i hd
    rw [walk_snoc hup (by rwa [hloc]), hloc]
  · rename_i hd
    exact walk_snoc_of_not_isDir (by rw [hloc]; simpa using hd) _

theorem fileExists_objectPath (he : NoDotDot e) :
    fileExists t (H.objectPath e id) = (t.node (objectLoc H e id)).isSome := by
  rw [fileExists, lookup_objectPath H id t he]

theorem openOut_of_none (he : NoDotDot e) (hn : t.node (objectLoc H e id) = none) :
    openOut F (H.objectPath e id) t =
      if t.isDir (H.locOf e) && !F.openOut (H.objectPath e id) then
        some (t.put (intToString id) (H.locOf e) (.file []), objectLoc H e id)
      else none := by
  unfold openOut
  rw [walk_objectPath H id t he]
  cases F.openOut (H.objectPath e id) with
  | true => simp
  | false =>
    cases t.isDir (H.locOf e) with
    | false => simp
    | true =>
      rw [objectLoc] at hn
      simp [objectLoc, hn]

theorem openOut_of_isFile (he : NoDotDot e) (hf : t.isFile (objectLoc H e id) = true) :
    openOut F (H.objectPath e id) t =
      if F.openOut (H.objectPath e id) then none
      else some (t.write (objectLoc H e id) [], objectLoc H e id) := by
  obtain ⟨c, hc⟩ := isFile_iff.mp hf
  have hd : t.isDir (H.locOf e) = true := isDir_parent (n := intToString id) (by
    rw [objectLoc] at hc
    simp [hc])
  unfold openOut
  rw [walk_objectPath H id t he]
  cases F.openOut (H.objectPath e id) <;> simp [hd, hc]

theorem openOut_of_isDir (he : NoDotDot e) (hd : t.isDir (objectLoc H e id) = true) :
    openOut F (H.objectPath e id) t = none := by
  have hn := node_eq_dir hd
  have hp : t.isDir (H.locOf e) = true := isDir_parent (n := intToString id) (by
    rw [objectLoc] at hn
    simp [hn])
  unfold openOut
  rw [walk_objectPath H id t he]
  cases F.openOut (H.objectPath e id) <;> simp [hp, hn]

/-- A file is created where nothing is, in a directory that exists. -/
theorem createFile_eq (he : NoDotDot e) :
    createFile F (H.objectPath e id) content t =
      if (t.node (objectLoc H e id)).isNone && t.isDir (H.locOf e) &&
          !F.openOut (H.objectPath e id) then
        (true, t.put (intToString id) (H.locOf e)
          (.file (written F (H.objectPath e id) content)))
      else (false, t) := by
  unfold createFile
  rw [fileExists_objectPath H id t he]
  cases hn : t.node (objectLoc H e id) with
  | some x => simp
  | none =>
    rw [openOut_of_none H F id t he hn]
    cases hd : t.isDir (H.locOf e) with
    | false => simp
    | true =>
      cases F.openOut (H.objectPath e id) with
      | true => simp
      | false => simpa [objectLoc] using put_write hd hn _

/-- Only a file that exists is rewritten. -/
theorem writeFile_eq (he : NoDotDot e) :
    writeFile F (H.objectPath e id) content t =
      if t.isFile (objectLoc H e id) && !F.openOut (H.objectPath e id) then
        (true, t.write (objectLoc H e id) (written F (H.objectPath e id) content))
      else (false, t) := by
  unfold writeFile
  rw [fileExists_objectPath H id t he]
  rcases hn : t.node (objectLoc H e id) with _ | ⟨ns | c⟩
  · simp [isFile, hn]
  · rw [openOut_of_isDir H F id t he (isDir_of_node hn)]
    simp [not_isFile_of_isDir (isDir_of_node hn)]
  · have hf := isFile_of_node hn
    rw [openOut_of_isFile H F id t he hf]
    cases F.openOut (H.objectPath e id) <;> simp [hf, write_write hf]

theorem readFile_eq (he : NoDotDot e) (res : Response) :
    readFile F (H.objectPath e id) res t =
      if F.openIn (H.objectPath e id) then (false, res)
      else
        match t.node (objectLoc H e id) with
        | some (.file c) =>
          ((readChunks (F.read (H.objectPath e id)) 0 (IfStream.opened c) res.body).1,
            { res with
              body := (readChunks (F.read (H.objectPath e id)) 0 (IfStream.opened c) res.body).2 })
        | _ => (false, res) := by
  unfold readFile
  rw [lookup_objectPath H id t he]
  split
  · rfl
  · rcases t.node (objectLoc H e id) with _ | ⟨ns | c⟩ <;> rfl

theorem listFiles_eq {p : Str} (hp : NoDotDot p) :
    listFiles H p t =
      if t.isDir (lexical [] (steps p)) then
        (true, (H.readdir (t.names (lexical [] (steps p)))).filter
          fun n => t.isFile (n :: lexical [] (steps p)))
      else (false, []) := by
  unfold listFiles
  cases hd : t.isDir (lexical [] (steps p)) with
  | true => simp [walk_of_isDir hp.noUp hd, hd]
  | false =>
    cases hw : t.walk [] (steps p) with
    | none => rfl
    | some l => simp [walk_eq_lexical hw, hd]

theorem removePath_objectPath (he : NoDotDot e) :
    removePath F (H.objectPath e id) t =
      if F.remove (H.objectPath e id) then (t, false)
      else if (t.node (objectLoc H e id)).any Node.isLeaf = true then
        (t.unlink (intToString id) (H.locOf e), true)
      else (t, (t.node (objectLoc H e id)).isNone) := by
  have hup : NoUp ((H.cwd ++ components e).map toStep) := by
    rw [noUp_map_toStep, List.mem_append]
    exact fun hm => hm.elim H.noDotDot_cwd he
  have hsteps : (components (H.objectPath e id)).map toStep =
      (H.cwd ++ components e).map toStep ++ [.down (intToString id)] := by
    rw [Host.objectPath, H.components_append, H.components_fromCwd,
      components_of_isSegment (intToString_isSegment id), List.map_append, List.map_singleton,
      toStep_of_isName (isName_intToString id)]
  unfold removePath
  rw [hsteps, remove_snoc hup, H.lexical_cwd_components]

/-- The second half of `DeleteFile`: the directory goes when no file is left in it. -/
def dropDir (e : Str) (id : Int) (t : Tree) : Tree :=
  if ((H.readdir (t.names (H.locOf e))).filter fun n => t.isFile (n :: H.locOf e)).length == 0 then
    (removePath F (H.parentPath (H.objectPath e id)) t).1
  else t

theorem lexical_parentPath_objectPath (he : NoDotDot e) :
    NoDotDot (H.parentPath (H.objectPath e id)) ∧
      lexical [] (steps (H.parentPath (H.objectPath e id))) = H.locOf e := by
  have hc := H.components_parentPath_objectPath e id
  refine ⟨?_, by rw [lexical_steps, hc, H.lexical_cwd_components]⟩
  rw [NoDotDot, hc, List.mem_append]
  exact fun hm => hm.elim H.noDotDot_cwd he

theorem deleteFile_eq (he : NoDotDot e) :
    deleteFile H F (H.objectPath e id) t =
      if (t.node (objectLoc H e id)).any Node.isLeaf && !F.remove (H.objectPath e id) then
        (true, dropDir H F e id (t.unlink (intToString id) (H.locOf e)))
      else (false, t) := by
  obtain ⟨hp, hl⟩ := lexical_parentPath_objectPath H id he
  unfold deleteFile dropDir
  rw [fileExists_objectPath H id t he, removePath_objectPath H F id t he]
  cases hn : t.node (objectLoc H e id) with
  | none => simp
  | some x =>
    cases F.remove (H.objectPath e id) with
    | true => simp
    | false =>
      cases hx : x.isLeaf with
      | false => simp [hx]
      | true =>
        have hleaf : (t.node (intToString id :: H.locOf e)).any Node.isLeaf = true := by
          rw [objectLoc] at hn
          simp [hn, hx]
        have hd := isDir_unlink hleaf
        simp only [Option.isSome_some, Bool.not_true, Bool.false_eq_true, if_false,
          Option.any_some, hx, if_true, Bool.true_and, Bool.not_false, Bool.and_self]
        rw [listFiles_eq H _ hp, hl, if_pos hd]
        split <;> rfl

end Disk

end Webserver

import Webserver.CrudOutcomes
import Webserver.PosixHost

/-!
# Failed CRUD requests

Every failure comes before the first lasting effect: a request that is not answered with 200 has
made vain calls only, and these leave the files as they are.
-/

set_option autoImplicit false

namespace Webserver

open FileTree FileTree.Tree

/-- The files are as they were, the directories are still there, and what is new is a directory
without files. -/
structure Untouched (t t' : Tree) : Prop where
  files : ∀ k c, t'.node k = some (.file c) ↔ t.node k = some (.file c)
  dirs : ∀ k, t.isDir k = true → t'.isDir k = true
  fresh : ∀ k, t.node k = none → t'.node k ≠ none →
    t'.isDir k = true ∧ ∀ n, t'.isFile (n :: k) = false

namespace Untouched
variable {t t' t'' : Tree}

theorem of_files (hfiles : ∀ k c, t'.node k = some (.file c) ↔ t.node k = some (.file c))
    (hdirs : ∀ k, t.isDir k = true → t'.isDir k = true) : Untouched t t' := by
  refine ⟨hfiles, hdirs, ?_⟩
  intro k hnone hnew
  constructor
  · rcases hk : t'.node k with _ | ⟨ns | c⟩
    · exact absurd hk hnew
    · exact isDir_of_node hk
    · rw [(hfiles k c).mp hk] at hnone
      exact absurd hnone (by simp)
  · intro n
    by_contra hfile
    obtain ⟨c, hc⟩ := isFile_iff.mp (Bool.not_eq_false _ ▸ hfile)
    have hparent := isDir_parent (t := t) (n := n) (l := k) (by simp [(hfiles _ c).mp hc])
    rw [node_eq_dir hparent] at hnone
    exact absurd hnone (by simp)

theorem refl (t : Tree) : Untouched t t := of_files (fun _ _ => Iff.rfl) fun _ h => h

theorem trans (h : Untouched t t') (h' : Untouched t' t'') : Untouched t t'' :=
  of_files (fun k c => (h'.files k c).trans (h.files k c)) fun k hk => h'.dirs k (h.dirs k hk)

end Untouched

namespace CrudHandler
variable {H : Host} {F : Faults} {t t' : Tree}

theorem untouched_createDir (F : Faults) (p : Str) (t : Tree) :
    Untouched t (Disk.createDir F p t).2 := by
  unfold Disk.createDir
  split
  · exact .refl t
  · split
    · exact .refl t
    · exact .of_files (fun _ _ => makeDirs_file_iff isDir_root) fun _ h => makeDirs_isDir isDir_root h

theorem createFile_failed {p content : Str} (h : Disk.createFile F p content t = (false, t')) :
    t' = t := by
  unfold Disk.createFile at h
  split at h
  · exact (Prod.mk.inj h).2.symm
  · split at h
    · exact absurd (Prod.mk.inj h).1 (by simp)
    · exact (Prod.mk.inj h).2.symm

theorem writeFile_failed {p content : Str} (h : Disk.writeFile F p content t = (false, t')) :
    t' = t := by
  unfold Disk.writeFile at h
  split at h
  · exact (Prod.mk.inj h).2.symm
  · split at h
    · exact absurd (Prod.mk.inj h).1 (by simp)
    · exact (Prod.mk.inj h).2.symm

/-- `DeleteFile` reports a failure only of its first `remove`, which then had no effect. -/
theorem deleteFile_failed {p : Str} (h : Disk.deleteFile H F p t = (false, t')) : t' = t := by
  unfold Disk.deleteFile at h
  split at h
  · exact (Prod.mk.inj h).2.symm
  · split at h
    · exact absurd (Prod.mk.inj h).1 (by simp)
    · obtain ⟨hfailed, rfl⟩ := Prod.mk.inj h
      unfold Disk.removePath at hfailed ⊢
      split
      · rfl
      · rename_i hremove
        rw [if_neg hremove] at hfailed
        rcases remove_cases t ((components p).map toStep) with hsame | ⟨n, l, _, _, he⟩
        · exact hsame
        · rw [he] at hfailed
          exact absurd hfailed (by simp)

theorem VainCall.untouched (h : VainCall (Disk.manager H F) t t') : Untouched t t' := by
  cases h with
  | createDir p => exact untouched_createDir F p t
  | createFile h => exact createFile_failed h ▸ .refl t
  | readFile => exact .refl t
  | writeFile h => exact writeFile_failed h ▸ .refl t
  | deleteFile h => exact deleteFile_failed h ▸ .refl t
  | listFiles => exact .refl t

theorem VainCalls.untouched (h : VainCalls (Disk.manager H F) t t') : Untouched t t' := by
  induction h with
  | refl => exact .refl t
  | tail _ hcall ih => exact ih.trans hcall.untouched

section Requests
variable {σ : Type} (M : CrudFileSystemManager σ) {filePath : Str} {req : Request} {s : Store σ}
  {res : Response}

/-- A method that fails has made vain calls and left the map alone. -/
theorem handleMethod_vain
    (h : (handleMethod H M filePath req s res).status ≠ .ok .ok) :
    (handleMethod H M filePath req s res).store.ids = s.ids ∧
      VainCalls M s.disk (handleMethod H M filePath req s res).store.disk := by
  have hfails {o : Outcome σ} (hf : Fails M s res o) :
      o.store.ids = s.ids ∧ VainCalls M s.disk o.store.disk := by
    obtain ⟨status, disk, _, hvain, rfl⟩ := hf
    exact ⟨rfl, hvain⟩
  revert h
  unfold handleMethod
  cases req.method with
  | post =>
    intro h
    rcases handlePost_cases H M filePath req s res with hf | ⟨_, _, _, _, _, _, _, _, he⟩
    · exact hfails hf
    · exact absurd (congrArg Outcome.status he) h
  | get =>
    intro h
    rcases handleGet_cases H M filePath s res with
      hf | ⟨e, id, res', disk, _, _, _, hread, he⟩ | hok
    · exact hfails hf
    · have hcall := VainCall.readFile (M := M) (H.objectPath e id) res s.disk
      rw [hread] at hcall
      simp only [he]
      exact ⟨trivial, .single hcall⟩
    · exact absurd hok h
  | put =>
    intro h
    rcases handlePut_cases H M filePath req s res with hf | ⟨_, _, _, _, _, _, _, he⟩
    · exact hfails hf
    · exact absurd (congrArg Outcome.status he) h
  | delete =>
    intro h
    rcases handleDelete_cases H M filePath s res with hf | ⟨_, _, _, _, _, _, _, he⟩
    · exact hfails hf
    · exact absurd (congrArg Outcome.status he) h
  | other name => exact fun _ => ⟨rfl, .refl⟩

theorem handleRequest_vain
    (h : (handleRequest H M filePath req s res).status ≠ .ok .ok) :
    (handleRequest H M filePath req s res).store.ids = s.ids ∧
      VainCalls M s.disk (handleRequest H M filePath req s res).store.disk := by
  rcases handleRequest_cases H M filePath req s res with
    ⟨e, id, root, hadmits, he⟩ | ⟨status, disk, _, hvain, he⟩
  · rw [he, finish_status] at h
    rw [he, finish_store]
    obtain ⟨hids, hvain⟩ := handleMethod_vain M h
    exact ⟨hids, .trans (.single (.createDir _ _)) hvain⟩
  · rw [he, finish_store]
    exact ⟨rfl, hvain⟩

end Requests

/-- A request that is not answered with 200 leaves the map and every file as they were. -/
theorem failed_request_untouched (H : Host) (F : Faults) (filePath : Str) (req : Request)
    (s : Store Tree) (res : Response)
    (h : (handleRequest H (Disk.manager H F) filePath req s res).status ≠ .ok .ok) :
    (handleRequest H (Disk.manager H F) filePath req s res).store.ids = s.ids ∧
      Untouched s.disk (handleRequest H (Disk.manager H F) filePath req s res).store.disk := by
  obtain ⟨hids, hvain⟩ := handleRequest_vain (Disk.manager H F) h
  exact ⟨hids, VainCalls.untouched hvain⟩

namespace Demo

/-- A disk on which no directory can be made. -/
def full : Faults := { Faults.none with createDirectories := fun _ => true }

end Demo

theorem failed_request_untouched_full :
    (handleRequest Webserver.Demo.host (Disk.manager Webserver.Demo.host Demo.full) "/crud/a".toList
        ⟨.post, 11, "x".toList⟩ ⟨bare, IdMap.empty⟩ .fresh).store.ids = IdMap.empty ∧
      Untouched bare (handleRequest Webserver.Demo.host (Disk.manager Webserver.Demo.host Demo.full) "/crud/a".toList
        ⟨.post, 11, "x".toList⟩ ⟨bare, IdMap.empty⟩ .fresh).store.disk := by
  apply failed_request_untouched Webserver.Demo.host Demo.full "/crud/a".toList ⟨.post, 11, "x".toList⟩
    ⟨bare, IdMap.empty⟩ .fresh
  decide +kernel

end CrudHandler

end Webserver

import Webserver.CrudOutcomes
import Webserver.Library.NamedFiles
import Webserver.PosixHost
import Webserver.StaticHandler

/-!
# What CRUD writes store

`CreateFile` and `WriteFile` report whether the file was opened, not whether it was written: a
write that stops early is reported like one that stores the whole body.
-/

set_option autoImplicit false

namespace Webserver

open FileTree FileTree.Tree StaticHandler

namespace Disk
variable {F : Faults} {p content : Str} {t t' : Tree} {l : Loc}

/-- An opened file is there, at the end of the path, and no directory has come or gone. -/
theorem openOut_some (h : openOut F p t = some (t', l)) :
    t.walk [] (steps p) = some l ∧ t'.isFile l = true ∧ ∀ k, t'.isDir k = t.isDir k := by
  unfold openOut at h
  split at h
  · exact absurd h (by simp)
  · split at h
    · exact absurd h (by simp)
    · rename_i l' hwalk
      split at h
      · rename_i c hc
        obtain ⟨rfl, rfl⟩ := Prod.mk.inj (Option.some.inj h)
        have hfile := isFile_of_node hc
        exact ⟨hwalk, isFile_write hfile, isDir_write hfile⟩
      · rename_i n k hnone
        obtain ⟨rfl, rfl⟩ := Prod.mk.inj (Option.some.inj h)
        have hdir := isDir_of_walk hwalk hnone
        exact ⟨hwalk, isFile_put_file hdir hnone, isDir_put_file hdir hnone⟩
      · exact absurd h (by simp)

theorem fileContent_written (h : openOut F p t = some (t', l)) (c : Str) :
    fileContent (t'.write l c) p = some c := by
  obtain ⟨hwalk, hfile, hdirs⟩ := openOut_some h
  rw [fileContent_eq_some, Tree.lookup, walk_congr (isDir_write hfile), walk_congr hdirs, hwalk,
    Option.bind_some, write_node hfile, if_pos rfl]

/-- The whole content reaches the file. -/
def WritesAll (F : Faults) (p content : Str) : Prop :=
  ∀ k, F.write p = some k → content.length ≤ k

theorem written_eq_iff : written F p content = content ↔ WritesAll F p content := by
  unfold written WritesAll
  cases F.write p with
  | none => simp
  | some k => simp [List.take_eq_self_iff]

theorem createFile_cases (F : Faults) (p content : Str) (t : Tree) :
    (fileExists t p = false ∧ openOut F p t ≠ none ∧ (createFile F p content t).1 = true ∧
      fileContent (createFile F p content t).2 p = some (written F p content)) ∨
    ((fileExists t p = true ∨ openOut F p t = none) ∧ createFile F p content t = (false, t)) := by
  unfold createFile
  cases hexists : fileExists t p with
  | true => exact Or.inr ⟨Or.inl rfl, rfl⟩
  | false =>
    cases hopen : openOut F p t with
    | none => exact Or.inr ⟨Or.inr rfl, rfl⟩
    | some x => exact Or.inl ⟨rfl, by simp, rfl, fileContent_written hopen _⟩

theorem writeFile_cases (F : Faults) (p content : Str) (t : Tree) :
    (fileExists t p = true ∧ openOut F p t ≠ none ∧ (writeFile F p content t).1 = true ∧
      fileContent (writeFile F p content t).2 p = some (written F p content)) ∨
    ((fileExists t p = false ∨ openOut F p t = none) ∧ writeFile F p content t = (false, t)) := by
  unfold writeFile
  cases hexists : fileExists t p with
  | false => exact Or.inr ⟨Or.inl rfl, rfl⟩
  | true =>
    cases hopen : openOut F p t with
    | none => exact Or.inr ⟨Or.inr rfl, rfl⟩
    | some x => exact Or.inl ⟨rfl, by simp, rfl, fileContent_written hopen _⟩

/-- What the two results promise about the file. -/
structure StoresBody (F : Faults) (p content : Str) (t : Tree) : Prop where
  created : (createFile F p content t).1 = true →
    fileContent (createFile F p content t).2 p = some content
  rewritten : (writeFile F p content t).1 = true →
    fileContent (writeFile F p content t).2 p = some content
  kept : (writeFile F p content t).1 = false →
    fileContent (writeFile F p content t).2 p = fileContent t p

theorem storesBody_iff : StoresBody F p content t ↔
    (openOut F p t ≠ none → WritesAll F p content) := by
  have hwhole : some (written F p content) = some content ↔ WritesAll F p content := by
    rw [Option.some.injEq, written_eq_iff]
  constructor
  · intro h hopen
    rcases createFile_cases F p content t with ⟨_, _, htrue, hcontent⟩ | ⟨hnot, _⟩
    · exact hwhole.mp (hcontent.symm.trans (h.created htrue))
    · rcases writeFile_cases F p content t with ⟨_, _, htrue, hcontent⟩ | ⟨hnot', _⟩
      · exact hwhole.mp (hcontent.symm.trans (h.rewritten htrue))
      · simp_all
  · intro h
    constructor
    · intro htrue
      rcases createFile_cases F p content t with ⟨_, hopen, _, hcontent⟩ | ⟨_, he⟩
      · exact hcontent.trans (hwhole.mpr (h hopen))
      · rw [he] at htrue
        exact absurd htrue (by simp)
    · intro htrue
      rcases writeFile_cases F p content t with ⟨_, hopen, _, hcontent⟩ | ⟨_, he⟩
      · exact hcontent.trans (hwhole.mpr (h hopen))
      · rw [he] at htrue
        exact absurd htrue (by simp)
    · intro hfalse
      rcases writeFile_cases F p content t with ⟨_, _, htrue, _⟩ | ⟨_, he⟩
      · rw [htrue] at hfalse
        exact absurd hfalse (by decide)
      · rw [he]

end Disk

namespace CrudHandler
variable (H : Host) (F : Faults) (filePath : Str) (req : Request) (s : Store Tree) (res : Response)

/-- A POST that is answered with 200 has stored the body under its id. -/
def PostStores : Prop :=
  ∀ e id, parseTarget H filePath = .ok (e, -1) → getNextID s.ids e = .ok id →
    (handlePost H (Disk.manager H F) filePath req s res).status = .ok .ok →
    fileContent (handlePost H (Disk.manager H F) filePath req s res).store.disk
      (H.objectPath e id) = some req.body

/-- A PUT that is answered with 200 has stored the body. -/
def PutStores : Prop :=
  ∀ e id, parseTarget H filePath = .ok (e, id) →
    (handlePut H (Disk.manager H F) filePath req s res).status = .ok .ok →
    fileContent (handlePut H (Disk.manager H F) filePath req s res).store.disk
      (H.objectPath e id) = some req.body

theorem postStores_iff : PostStores H F filePath req s res ↔
    ∀ e id disk, parseTarget H filePath = .ok (e, -1) → getNextID s.ids e = .ok id →
      Disk.createDir F (H.fromCwd e) s.disk = (true, disk) →
      Disk.fileExists disk (H.objectPath e id) = false →
      Disk.openOut F (H.objectPath e id) disk ≠ none →
      Disk.WritesAll F (H.objectPath e id) req.body := by
  constructor
  · intro h e id disk hp hn hdir hnew hopen
    have hfile : (Disk.createFile F (H.objectPath e id) req.body disk).1 = true ∧
        fileContent (Disk.createFile F (H.objectPath e id) req.body disk).2 (H.objectPath e id) =
          some (Disk.written F (H.objectPath e id) req.body) := by
      rcases Disk.createFile_cases F (H.objectPath e id) req.body disk with
        ⟨_, _, htrue, hcontent⟩ | ⟨hnot, _⟩
      · exact ⟨htrue, hcontent⟩
      · simp_all
    have hpost : handlePost H (Disk.manager H F) filePath req s res =
        ⟨.ok .ok, ⟨(Disk.createFile F (H.objectPath e id) req.body disk).2, s.ids.insert e id⟩,
          res.write (idBody id)⟩ := by
      rcases hcreate : Disk.createFile F (H.objectPath e id) req.body disk with ⟨b, disk'⟩
      rw [hcreate] at hfile
      obtain rfl : b = true := hfile.1
      simp [handlePost, hp, hn, Disk.manager, hdir, hcreate]
    have hstored := h e id hp hn (by rw [hpost])
    rw [hpost] at hstored
    have hsame := Option.some.inj (hfile.2.symm.trans hstored)
    exact Disk.written_eq_iff.mp hsame
  · intro h e id hp hn hstatus
    rcases handlePost_cases H (Disk.manager H F) filePath req s res with
      ⟨_, _, hne, _, he⟩ | ⟨e', id', disk, disk', hp', hn', hdir, hcreate, he⟩
    · rw [he] at hstatus
      exact absurd hstatus hne
    · rw [hp] at hp'
      obtain ⟨rfl, _⟩ := Prod.mk.inj (Except.ok.inj hp')
      rw [hn] at hn'
      obtain rfl := Except.ok.inj hn'
      rw [he]
      replace hcreate : Disk.createFile F (H.objectPath e id) req.body disk = (true, disk') := hcreate
      rcases Disk.createFile_cases F (H.objectPath e id) req.body disk with
        ⟨hnew, hopen, _, hcontent⟩ | ⟨_, hfalse⟩
      · rw [hcreate, Disk.written_eq_iff.mpr (h e id disk hp hn hdir hnew hopen)] at hcontent
        exact hcontent
      · rw [hcreate] at hfalse
        exact absurd (Prod.mk.inj hfalse).1 (by decide)

theorem putStores_iff : PutStores H F filePath req s res ↔
    ∀ e id, parseTarget H filePath = .ok (e, id) → id ≠ -1 → s.ids.has e id = true →
      Disk.fileExists s.disk (H.objectPath e id) = true →
      Disk.openOut F (H.objectPath e id) s.disk ≠ none →
      Disk.WritesAll F (H.objectPath e id) req.body := by
  constructor
  · intro h e id hp hid hhas hold hopen
    have hfile : (Disk.writeFile F (H.objectPath e id) req.body s.disk).1 = true ∧
        fileContent (Disk.writeFile F (H.objectPath e id) req.body s.disk).2 (H.objectPath e id) =
          some (Disk.written F (H.objectPath e id) req.body) := by
      rcases Disk.writeFile_cases F (H.objectPath e id) req.body s.disk with
        ⟨_, _, htrue, hcontent⟩ | ⟨hnot, _⟩
      · exact ⟨htrue, hcontent⟩
      · simp_all
    have hput : handlePut H (Disk.manager H F) filePath req s res =
        ⟨.ok .ok, { s with disk := (Disk.writeFile F (H.objectPath e id) req.body s.disk).2 },
          res.write (idBody id)⟩ := by
      rcases hwrite : Disk.writeFile F (H.objectPath e id) req.body s.disk with ⟨b, disk'⟩
      rw [hwrite] at hfile
      obtain rfl : b = true := hfile.1
      simp [handlePut, hp, hid, hhas, Disk.manager, hwrite]
    have hstored := h e id hp (by rw [hput])
    rw [hput] at hstored
    have hsame := Option.some.inj (hfile.2.symm.trans hstored)
    exact Disk.written_eq_iff.mp hsame
  · intro h e id hp hstatus
    rcases handlePut_cases H (Disk.manager H F) filePath req s res with
      ⟨_, _, hne, _, he⟩ | ⟨e', id', disk, hp', hid, hhas, hwrite, he⟩
    · rw [he] at hstatus
      exact absurd hstatus hne
    · rw [hp] at hp'
      obtain ⟨rfl, rfl⟩ := Prod.mk.inj (Except.ok.inj hp')
      rw [he]
      replace hwrite : Disk.writeFile F (H.objectPath e id) req.body s.disk = (true, disk) := hwrite
      rcases Disk.writeFile_cases F (H.objectPath e id) req.body s.disk with
        ⟨hold, hopen, _, hcontent⟩ | ⟨_, hfalse⟩
      · rw [hwrite, Disk.written_eq_iff.mpr (h e id hp hid hhas hold hopen)] at hcontent
        exact hcontent
      · rw [hwrite] at hfalse
        exact absurd (Prod.mk.inj hfalse).1 (by decide)

end CrudHandler

/-- A reported success has stored the whole body exactly if no write to an opened file stops
early, for the two operations of the manager and for the two methods that call them. -/
theorem stores_body_iff (H : Host) (F : Faults) :
    (∀ p content t, Disk.StoresBody F p content t ↔
      (Disk.openOut F p t ≠ none → Disk.WritesAll F p content)) ∧
    (∀ filePath req s res, CrudHandler.PostStores H F filePath req s res ↔
      ∀ e id disk, CrudHandler.parseTarget H filePath = .ok (e, -1) →
        CrudHandler.getNextID s.ids e = .ok id →
        Disk.createDir F (H.fromCwd e) s.disk = (true, disk) →
        Disk.fileExists disk (H.objectPath e id) = false →
        Disk.openOut F (H.objectPath e id) disk ≠ none →
        Disk.WritesAll F (H.objectPath e id) req.body) ∧
    ∀ filePath req s res, CrudHandler.PutStores H F filePath req s res ↔
      ∀ e id, CrudHandler.parseTarget H filePath = .ok (e, id) → id ≠ -1 →
        s.ids.has e id = true → Disk.fileExists s.disk (H.objectPath e id) = true →
        Disk.openOut F (H.objectPath e id) s.disk ≠ none →
        Disk.WritesAll F (H.objectPath e id) req.body :=
  ⟨fun _ _ _ => Disk.storesBody_iff, CrudHandler.postStores_iff H F, CrudHandler.putStores_iff H F⟩

namespace Demo

/-- A disk that is full after two characters. -/
def cutShort : Faults := { Faults.none with write := fun _ => some 2 }

end Demo

theorem not_storesBody_cutShort : ¬ Disk.StoresBody Demo.cutShort "/1".toList "hello".toList bare := by
  intro h
  have hstored := fileContent_eq_some.mp (h.created (by decide +kernel))
  exact absurd hstored (by decide +kernel)

end Webserver

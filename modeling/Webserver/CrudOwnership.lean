import Webserver.CrudStore

/-!
# Who owns a file

Any number of locations over one disk, each with its own map, whose critical sections come in
any order and whose system calls may fail. No assumption is made on what the disk holds at
first, nor on how entities are spelled, except that `..` is not used.
-/

set_option autoImplicit false

namespace Webserver

open FileTree FileTree.Tree CrudHandler

universe u

/-- The maps of the locations and the disk they share. -/
structure World (ι : Type u) where
  disk : Tree
  ids : ι → IdMap

/-- The parts of a request that run without interruption: `InitRoot`, before the lock is taken,
and the rest. -/
inductive Part where
  | initRoot
  | method

structure Section (ι : Type u) where
  location : ι
  part : Part
  filePath : Str
  request : Request
  faults : Faults

namespace World
variable {ι : Type u} [DecidableEq ι]

def store (w : World ι) (i : ι) : Store Tree := ⟨w.disk, w.ids i⟩

def setStore (w : World ι) (i : ι) (s : Store Tree) : World ι :=
  ⟨s.disk, Function.update w.ids i s.ids⟩

@[simp] theorem setStore_disk (w : World ι) (i : ι) (s : Store Tree) :
    (w.setStore i s).disk = s.disk := rfl

theorem setStore_ids (w : World ι) (i j : ι) (s : Store Tree) :
    (w.setStore i s).ids j = if j = i then s.ids else w.ids j :=
  Function.update_apply ..

/-- The outcome of a section on the store of its location. -/
def outcome (H : Host) (w : World ι) (c : Section ι) : Outcome Tree :=
  match c.part with
  | .initRoot =>
    initRoot H (Disk.manager H c.faults) c.filePath c.request (w.store c.location) .fresh
  | .method =>
    handleMethod H (Disk.manager H c.faults) c.filePath c.request (w.store c.location)
      (started c.request)

def step (H : Host) (w : World ι) (c : Section ι) : Answer × World ι :=
  ((w.outcome H c).answer, w.setStore c.location (w.outcome H c).store)

end World

section Origins
variable {H : Host} {e : Str} {s s' : Store Tree} (h : Change H e s s')
include h

/-- A file goes only with the id that names it. -/
theorem CrudHandler.Change.file_origin {k : Loc} (hk : s.disk.isFile k = true) :
    s'.disk.isFile k = true ∨
      ∃ id, s.ids.has e id = true ∧ s'.ids.has e id = false ∧ k = Disk.objectLoc H e id := by
  obtain ⟨c, hc⟩ := isFile_iff.mp hk
  cases h with
  | nothing => exact Or.inl hk
  | madeDirs =>
    dsimp only
    rw [mkdirs_isFile]
    exact Or.inl hk
  | created id body hnext hdirs hfree =>
    have hd := mkdirs_isDir_self hdirs
    have hn := (mkdirs_node_objectLoc H id s.disk).trans hfree
    have hobj : k ≠ Disk.objectLoc H e id := fun heq => by simp [heq, hfree] at hc
    have hself : k ≠ H.locOf e := fun heq => by
      rw [← mkdirs_isFile (l := H.locOf e), heq, not_isFile_of_isDir hd] at hk
      exact absurd hk (by decide)
    refine Or.inl ?_
    rw [← mkdirs_isFile (l := H.locOf e)] at hk
    refine (isFile_congr ?_).trans hk
    dsimp only
    rw [put_file_node hd hn, if_neg hobj, if_neg hself]
  | rewritten id body hlive hfile =>
    refine Or.inl (isFile_iff.mpr ?_)
    dsimp only
    rw [write_node hfile]
    by_cases hobj : k = Disk.objectLoc H e id
    · exact ⟨body, if_pos hobj⟩
    · exact ⟨c, by rw [if_neg hobj, hc]⟩
  | deleted id hlive hleaf =>
    by_cases hobj : k = Disk.objectLoc H e id
    · exact Or.inr ⟨id, hlive, by simp [IdMap.has_erase], hobj⟩
    · exact Or.inl (isFile_of_node ((unlink_file_iff hleaf hobj c).mpr hc))
  | deletedLast id n l hlive hleaf hloc hempty =>
    by_cases hobj : k = Disk.objectLoc H e id
    · exact Or.inr ⟨id, hlive, by simp [IdMap.has_erase], hobj⟩
    · have hself : k ≠ n :: l := fun heq => by
        rw [heq, ← hloc, not_isFile_of_isDir (isDir_of_isLeaf hleaf)] at hk
        exact absurd hk (by decide)
      have hfile := (unlink_file_iff hempty hself c).mpr ((unlink_file_iff hleaf hobj c).mpr hc)
      exact Or.inl (isFile_of_node hfile)

end Origins

/-- An id of an entity in the map of a location. -/
structure Claimed (ι : Type u) where
  location : ι
  entity : Str
  id : Int

namespace World
variable {ι : Type u} [DecidableEq ι]

def live (w : World ι) (x : Claimed ι) : Prop := (w.ids x.location).has x.entity x.id = true

def loc (H : Host) (x : Claimed ι) : Loc := Disk.objectLoc H x.entity x.id

/-- The invariant: every live id has a file of its own. -/
structure Owned (H : Host) (w : World ι) : Prop where
  plain : ∀ x, w.live x → NoDotDot x.entity
  files : ∀ x, w.live x → w.disk.isFile (loc H x) = true
  apart : ∀ x y, w.live x → w.live y → loc H x = loc H y → x = y

variable {H : Host} {w : World ι}

theorem live_setStore {i : ι} {s : Store Tree} {x : Claimed ι} :
    (w.setStore i s).live x ↔
      if x.location = i then s.ids.has x.entity x.id = true else w.live x := by
  unfold live
  rw [setStore_ids]
  split <;> rfl

theorem live_setStore_same {i : ι} {t : Tree} {x : Claimed ι} :
    (w.setStore i ⟨t, w.ids i⟩).live x ↔ w.live x := by
  rw [live_setStore]
  split
  · rename_i hi
    unfold live
    rw [hi]
  · rfl

/-- What is live after a change was live before, or is new and so is its file. -/
theorem live_origin {i : ι} {e : Str} {s : Store Tree} (h : Change H e (w.store i) s)
    {x : Claimed ι} (hx : (w.setStore i s).live x) :
    w.live x ∨ (x.location = i ∧ x.entity = e ∧ w.disk.node (loc H x) = none ∧
      s.disk.isFile (loc H x) = true) := by
  rw [live_setStore] at hx
  split at hx
  · rename_i hi
    obtain ⟨j, k, id⟩ := x
    dsimp only at hi hx
    subst hi
    by_cases hk : k = e
    · subst hk
      rcases h.live_origin hx with hold | ⟨_, hnone, hfile⟩
      · exact Or.inl hold
      · exact Or.inr ⟨rfl, rfl, hnone, hfile⟩
    · rw [h.has_other hk] at hx
      exact Or.inl hx
  · exact Or.inl hx

theorem Owned.change (hw : Owned H w) {i : ι} {e : Str} {s : Store Tree} (he : NoDotDot e)
    (h : Change H e (w.store i) s) : Owned H (w.setStore i s) := by
  refine ⟨fun x hx => ?_, fun x hx => ?_, fun x y hx hy heq => ?_⟩
  · rcases live_origin h hx with hold | ⟨_, hxe, _⟩
    · exact hw.plain x hold
    · exact hxe ▸ he
  · rcases live_origin h hx with hold | ⟨_, _, _, hfile⟩
    · rcases h.file_origin (hw.files x hold) with hkept | ⟨id, hlive, hdead, hloc⟩
      · exact hkept
      · -- the file that went was named by a live id, and that id is dead now
        obtain rfl := hw.apart x ⟨i, e, id⟩ hold hlive hloc
        rw [live_setStore, if_pos rfl] at hx
        rw [hdead] at hx
        exact absurd hx (by decide)
    · exact hfile
  · rcases live_origin h hx with hold | ⟨hxi, hxe, hxnone, _⟩
    · rcases live_origin h hy with hold' | ⟨_, _, hynone, _⟩
      · exact hw.apart x y hold hold' heq
      · obtain ⟨c, hc⟩ := isFile_iff.mp (hw.files x hold)
        rw [heq, hynone] at hc
        exact absurd hc (by simp)
    · rcases live_origin h hy with hold' | ⟨hyi, hye, _, _⟩
      · obtain ⟨c, hc⟩ := isFile_iff.mp (hw.files y hold')
        rw [← heq, hxnone] at hc
        exact absurd hc (by simp)
      · obtain ⟨j, k, id⟩ := x
        obtain ⟨j', k', id'⟩ := y
        dsimp only at hxi hxe hyi hye
        subst hxi hxe hyi hye
        have hid : id = id' := intToString_injective (List.cons.inj heq).1
        rw [hid]

/-- `InitRoot` makes directories and nothing else. -/
theorem Owned.dirs (hw : Owned H w) {i : ι} {t : Tree}
    (hfiles : ∀ k, t.isFile k = w.disk.isFile k) : Owned H (w.setStore i ⟨t, w.ids i⟩) := by
  have hlive (x : Claimed ι) := live_setStore_same (i := i) (t := t) (w := w) (x := x)
  refine ⟨fun x hx => hw.plain x ((hlive x).mp hx), fun x hx => ?_, fun x y hx hy heq => ?_⟩
  · rw [setStore_disk, hfiles]
    exact hw.files x ((hlive x).mp hx)
  · exact hw.apart x y ((hlive x).mp hx) ((hlive y).mp hy) heq

end World

theorem createDir_isFile (F : Faults) (p : Str) (t : Tree) (k : Loc) :
    (Disk.createDir F p t).2.isFile k = t.isFile k := by
  unfold Disk.createDir
  split
  · rfl
  · split
    · rfl
    · exact makeDirs_isFile isDir_root

theorem initRoot_store (H : Host) (F : Faults) (filePath : Str) (req : Request) (s : Store Tree)
    (res : Response) :
    (initRoot H (Disk.manager H F) filePath req s res).store.ids = s.ids ∧
      ∀ k, (initRoot H (Disk.manager H F) filePath req s res).store.disk.isFile k =
        s.disk.isFile k := by
  unfold initRoot
  cases parseTarget H filePath with
  | error a => exact ⟨rfl, fun _ => rfl⟩
  | ok x =>
    dsimp only
    split
    · exact ⟨rfl, fun _ => rfl⟩
    · cases rootLoop H (filePath.length + 1) filePath with
      | none => exact ⟨rfl, fun _ => rfl⟩
      | some root =>
        have hfile := createDir_isFile F (H.fromCwd root) s.disk
        dsimp only [Disk.manager]
        rcases hc : Disk.createDir F (H.fromCwd root) s.disk with ⟨_ | _, t⟩ <;>
          · rw [hc] at hfile
            exact ⟨rfl, hfile⟩

/-- The entity of a target is spelled without `..` if the target is. -/
theorem noDotDot_of_parseTarget {H : Host} {filePath e : Str} {id : Int}
    (hp : parseTarget H filePath = .ok (e, id)) (h : NoDotDot filePath) : NoDotDot e := by
  unfold parseTarget at hp
  split at hp
  · cases hs : stoi (H.filename filePath) with
    | error a =>
      rw [hs] at hp
      exact absurd hp (by simp)
    | ok i =>
      rw [hs] at hp
      exact (Prod.mk.inj (Except.ok.inj hp)).1 ▸ h.parentPath H
  · exact (Prod.mk.inj (Except.ok.inj hp)).1 ▸ h

theorem handleMethod_of_error {H : Host} {filePath : Str} {a : Abort} (F : Faults)
    (hp : parseTarget H filePath = .error a) (req : Request) (s : Store Tree) (res : Response) :
    (handleMethod H (Disk.manager H F) filePath req s res).store = s := by
  unfold handleMethod
  cases req.method <;> simp [handlePost, handleGet, handlePut, handleDelete, hp]

section Runs
variable {ι : Type u} [DecidableEq ι] {H : Host} {w : World ι}

/-- One section, at any location and with any faults. -/
theorem World.Owned.step (hw : w.Owned H) {c : Section ι} (hc : NoDotDot c.filePath) :
    (w.step H c).2.Owned H := by
  obtain ⟨i, part, filePath, req, F⟩ := c
  cases part with
  | initRoot =>
    obtain ⟨hids, hfiles⟩ := initRoot_store H F filePath req (w.store i) .fresh
    have hdirs := hw.dirs (i := i) hfiles
    rw [show w.ids i = _ from hids.symm] at hdirs
    exact hdirs
  | method =>
    cases hp : parseTarget H filePath with
    | error a =>
      have hstore := handleMethod_of_error F hp req (w.store i) (started req)
      have hdirs := hw.dirs (i := i) (t := w.disk) fun _ => rfl
      rw [World.step, World.outcome]
      dsimp only
      rw [hstore]
      exact hdirs
    | ok x =>
      obtain ⟨e, id⟩ := x
      have he := noDotDot_of_parseTarget hp hc
      have hseen := seen_handleMethod H F hp he req (w.store i)
      have hchange := change_act H F (w.store i) he (Op.of id req)
      rw [← hseen, seen_store] at hchange
      exact hw.change he hchange

omit [DecidableEq ι] in
theorem World.Owned.isRegularFile (hw : w.Owned H) {x : Claimed ι} (hx : w.live x) :
    Disk.isRegularFile w.disk (H.objectPath x.entity x.id) = true := by
  rw [Disk.isRegularFile, Disk.lookup_objectPath H x.id w.disk (hw.plain x hx)]
  exact hw.files x hx

omit [DecidableEq ι] in
theorem World.Owned.walk_eq (hw : w.Owned H) {x : Claimed ι} (hx : w.live x) :
    w.disk.walk [] (steps (H.objectPath x.entity x.id)) = some (World.loc H x) := by
  obtain ⟨c, hc⟩ := isFile_iff.mp (hw.files x hx)
  have hd : w.disk.isDir (H.locOf x.entity) = true :=
    isDir_parent (n := intToString x.id) (by
      rw [World.loc] at hc
      simp [hc])
  rw [Disk.walk_objectPath H x.id w.disk (hw.plain x hx), if_pos hd]
  rfl

end Runs

/-- Fresh factories over some disk. -/
def World.initial {ι : Type u} (t : Tree) : World ι := ⟨t, fun _ => IdMap.empty⟩

theorem owned_initial {ι : Type u} {H : Host} (t : Tree) : (World.initial t : World ι).Owned H :=
  ⟨fun x hx => absurd hx (by simp [World.live, World.initial]),
    fun x hx => absurd hx (by simp [World.live, World.initial]),
    fun x y hx => absurd hx (by simp [World.live, World.initial])⟩

/-- In every reachable state every id names a regular file, and no two ids, of one location or
of two, of one spelling or of two, lead to the same file. -/
theorem live_ids_own_files {ι : Type u} [DecidableEq ι] (H : Host) (t : Tree)
    (cs : List (Section ι)) (hcs : ∀ c ∈ cs, NoDotDot c.filePath) :
    let w := Runs.final (World.step H) (World.initial t) cs
    (∀ x, w.live x → Disk.isRegularFile w.disk (H.objectPath x.entity x.id) = true) ∧
      ∀ x y l, w.live x → w.live y →
        w.disk.walk [] (steps (H.objectPath x.entity x.id)) = some l →
        w.disk.walk [] (steps (H.objectPath y.entity y.id)) = some l → x = y := by
  have hw : (Runs.final (World.step H) (World.initial t) cs).Owned H :=
    Runs.final_invariant (I := fun w : World ι => w.Owned H)
      (A := fun c : Section ι => NoDotDot c.filePath) (fun w c hc hw => hw.step hc)
      (owned_initial t) hcs
  refine ⟨fun x hx => hw.isRegularFile hx, fun x y l hx hy hlx hly => ?_⟩
  rw [hw.walk_eq hx] at hlx
  rw [hw.walk_eq hy] at hly
  exact hw.apart x y hx hy ((Option.some.inj hlx).trans (Option.some.inj hly).symm)

namespace Demo

/-- POSTs to one directory, through two locations and in two spellings. -/
def aliases : List (Section Bool) :=
  [⟨false, .initRoot, "/crud/x".toList, ⟨.post, 11, []⟩, Faults.none⟩,
   ⟨true, .initRoot, "/crud//./x".toList, ⟨.post, 11, []⟩, Faults.none⟩,
   ⟨false, .method, "/crud/x".toList, ⟨.post, 11, []⟩, Faults.none⟩,
   ⟨true, .method, "/crud//./x".toList, ⟨.post, 11, []⟩, Faults.none⟩]

end Demo

theorem live_ids_own_files_aliases :
    let w := Runs.final (World.step Demo.host) (World.initial Demo.disk) Demo.aliases
    (∀ x, w.live x → Disk.isRegularFile w.disk (Demo.host.objectPath x.entity x.id) = true) ∧
      ∀ x y l, w.live x → w.live y →
        w.disk.walk [] (steps (Demo.host.objectPath x.entity x.id)) = some l →
        w.disk.walk [] (steps (Demo.host.objectPath y.entity y.id)) = some l → x = y :=
  live_ids_own_files Demo.host Demo.disk Demo.aliases (by decide)

end Webserver

import Webserver.CrudOwnership
import Webserver.CrudTargets

/-!
# Targets that name one directory

Requests are dispatched to any number of CRUD locations over one disk. An entity is found in
the map of its location under its spelling, so two targets whose directories are one directory
of the disk share their objects only if location and spelling agree.
-/

set_option autoImplicit false

namespace Webserver

open FileTree FileTree.Tree CrudHandler

/-- A target that is dispatched to a CRUD location. -/
structure CrudTarget (T : HandlerFactories) where
  target : Str
  hit : RequestDispatcher.Match
  config : NginxConfig
  routed : RequestDispatcher.route T target = some hit
  crud : hit.factory = .crudHandler config

namespace CrudTarget
variable {T : HandlerFactories} (τ : CrudTarget T) (H : Host)

def location : Str := τ.hit.location

def filePath : Str := FileHandlerFactory.getCompleteFilePath τ.config τ.hit.path

/-- The spelling of the entity, its key in the map of the location. -/
def key : Str :=
  if onlyDigits (H.filename τ.filePath) then H.parentPath τ.filePath else τ.filePath

def dir : Loc := H.locOf (τ.key H)

/-- Where the loop of `InitRoot` ends. -/
def top : Loc := lexical H.cwdLoc (((components τ.filePath).take 1).map toStep)

variable {τ H}

theorem key_of_parsed {e : Str} {id : Int} (hp : parseTarget H τ.filePath = .ok (e, id)) :
    e = τ.key H := by
  unfold parseTarget at hp
  unfold key
  split at hp
  · rename_i hdigits
    rw [if_pos hdigits]
    cases hs : stoi (H.filename τ.filePath) with
    | error a =>
      rw [hs] at hp
      exact absurd hp (by simp)
    | ok i =>
      rw [hs] at hp
      exact (Prod.mk.inj (Except.ok.inj hp)).1.symm
  · rename_i hdigits
    rw [if_neg hdigits]
    exact (Prod.mk.inj (Except.ok.inj hp)).1.symm

theorem noDotDot_key (h : NoDotDot τ.filePath) : NoDotDot (τ.key H) := by
  unfold key
  split
  · exact h.parentPath H
  · exact h

end CrudTarget

/-- Equal after dropping empty components and `.`. -/
def SameDirectory (H : Host) {T : HandlerFactories} (τ υ : CrudTarget T) : Prop :=
  (components (τ.key H)).filter (· ≠ dot) = (components (υ.key H)).filter (· ≠ dot)

theorem lexical_filter_dot (l : Loc) (ns : List Name) :
    lexical l ((ns.filter (· ≠ dot)).map toStep) = lexical l (ns.map toStep) := by
  induction ns generalizing l with
  | nil => rfl
  | cons n ns ih =>
    by_cases hn : n = dot
    · subst hn
      exact ih l
    · rw [List.filter_cons_of_pos (by simpa using hn)]
      exact ih _

/-- Without `..` the directory on the disk is the spelling without its dots. -/
theorem locOf_of_noDotDot (H : Host) {p : Str} (h : NoDotDot p) :
    H.locOf p = ((components p).filter (· ≠ dot)).reverse ++ H.cwdLoc := by
  have hdown : ((components p).filter (· ≠ dot)).map toStep =
      ((components p).filter (· ≠ dot)).map .down := by
    refine map_toStep_of_isName fun n hn => ?_
    obtain ⟨hmem, hdot⟩ := List.mem_filter.mp hn
    exact ⟨Segments.mem_segments_isSegment hmem, by simpa using hdot, fun h' => h (h' ▸ hmem)⟩
  rw [Host.locOf, lexical_steps, ← lexical_filter_dot, hdown, lexical_down]

/-- A section of a request with one of the targets. -/
structure TargetSection (T : HandlerFactories) where
  target : CrudTarget T
  part : Part
  request : Request
  faults : Faults

/-- The server of all locations, whose requests overlap. -/
def targetStep (H : Host) {T : HandlerFactories} (w : World Str) (r : TargetSection T) :
    Answer × World Str :=
  w.step H ⟨r.target.location, r.part, r.target.filePath, r.request, r.faults⟩

/-- The answer to a request on a disk without faults. -/
def answerTo (H : Host) {T : HandlerFactories} (w : World Str) (τ : CrudTarget T)
    (req : Request) : Answer :=
  (serve H (Disk.manager H Faults.none) τ.filePath req (w.store τ.location)).1

def liveAt (H : Host) {T : HandlerFactories} (w : World Str) (τ : CrudTarget T) (id : Int) : Prop :=
  w.live ⟨τ.location, τ.key H, id⟩

/-- What is created through `τ` is found through `υ`, and POST through `υ` takes a free id. -/
structure OneEntity (H : Host) {T : HandlerFactories} (w : World Str) (τ υ : CrudTarget T) :
    Prop where
  get : ∀ id version body, parseTarget H υ.filePath = .ok (υ.key H, id) → id ≠ -1 →
    liveAt H w τ id → ∃ content, w.disk.node (Disk.objectLoc H (υ.key H) id) = some (.file content) ∧
      answerTo H w υ ⟨.get, version, body⟩ = .ok (.ok, content)
  put : ∀ id version body, parseTarget H υ.filePath = .ok (υ.key H, id) → id ≠ -1 →
    liveAt H w τ id → answerTo H w υ ⟨.put, version, body⟩ = idAnswer id
  delete : ∀ id version body, parseTarget H υ.filePath = .ok (υ.key H, id) → id ≠ -1 →
    liveAt H w τ id → answerTo H w υ ⟨.delete, version, body⟩ = idAnswer id
  post : ∀ version body, parseTarget H υ.filePath = .ok (υ.key H, -1) →
    (∃ id, w.disk.node (Disk.objectLoc H (υ.key H) id) = none ∧
      answerTo H w υ ⟨.post, version, body⟩ = idAnswer id) ∨
    ∀ id : Int, 1 ≤ id → id ≤ intMax → liveAt H w υ id

/-- One location and one spelling for each directory, absolute and without `..`; no id of a
directory is on the way to another one or to a directory of `InitRoot`; and on the disk `t`
there is neither such an id yet nor a file on the way. -/
structure Aligned (H : Host) {T : HandlerFactories} (U : Set (CrudTarget T)) (t : Tree) : Prop where
  absolute : ∀ τ ∈ U, IsTarget τ.filePath ∧ ¬ IsNet τ.filePath
  plain : ∀ τ ∈ U, NoDotDot τ.filePath
  one : ∀ τ ∈ U, ∀ υ ∈ U, SameDirectory H τ υ → τ.location = υ.location ∧ τ.key H = υ.key H
  apart : ∀ τ ∈ U, ∀ υ ∈ U, ∀ id : Int, 1 ≤ id → id ≤ intMax →
    ¬ intToString id :: τ.dir H <:+ υ.dir H ∧ ¬ intToString id :: τ.dir H <:+ υ.top H
  free : ∀ τ ∈ U, ∀ id : Int, 1 ≤ id → id ≤ intMax → t.node (intToString id :: τ.dir H) = none
  clear : ∀ τ ∈ U, ∀ k, k <:+ τ.dir H ∨ k <:+ τ.top H → t.isFile k = false

section Equation
variable {T : HandlerFactories} {τ : CrudTarget T} {H : Host} (htarget : IsTarget τ.filePath)
  (hnet : ¬ IsNet τ.filePath)
include htarget hnet

theorem CrudTarget.key_ne_nil : τ.key H ≠ [] := by
  obtain ⟨d, k, n, hn, hd, heq⟩ := htarget.exists_last
  unfold CrudTarget.key
  split
  · rcases htarget.parentPath_eq H hnet hn hd heq with ⟨_, h⟩ | ⟨hd', _, h⟩
    · simp [h]
    · rw [h]
      exact hd'.ne_nil
  · exact htarget.ne_nil

/-- `InitRoot` makes the top directory. -/
theorem initRoot_target (hplain : NoDotDot τ.filePath) {id : Int}
    (hp : parseTarget H τ.filePath = .ok (τ.key H, id)) (F : Faults) (req : Request)
    (s : Store Tree) :
    ∃ root, H.locOf root = τ.top H ∧
      initRoot H (Disk.manager H F) τ.filePath req s .fresh =
        match makeDirAt H F root s.disk with
        | (false, t) => ⟨.ok .internalServerError, { s with disk := t }, started req⟩
        | (true, t) => ⟨.ok .ok, { s with disk := t }, started req⟩ := by
  obtain ⟨root, hroot, hfirst⟩ := rootLoop_of_isTarget H _ htarget hnet (Nat.lt_succ_self _)
  have hrootPlain : NoDotDot root := by
    rw [NoDotDot, hfirst]
    exact fun hm => hplain (List.mem_of_mem_take hm)
  refine ⟨root, by rw [Host.locOf, lexical_steps, hfirst]; rfl, ?_⟩
  have hne := CrudTarget.key_ne_nil (H := H) htarget hnet
  simp only [initRoot, hp, if_neg hne, hroot, Disk.manager, createDir_entity H F hrootPlain]
  rcases makeDirAt H F root s.disk with ⟨_ | _, t⟩ <;> rfl

/-- The directories that `InitRoot` makes. -/
theorem initRoot_disk (hplain : NoDotDot τ.filePath) (F : Faults) (req : Request)
    (s : Store Tree) :
    ∃ t, (initRoot H (Disk.manager H F) τ.filePath req s .fresh).store = { s with disk := t } ∧
      (t = s.disk ∨ t = (s.disk.mkdirs (τ.top H)).1) := by
  cases hp : parseTarget H τ.filePath with
  | error a => exact ⟨s.disk, by simp only [initRoot, hp], Or.inl rfl⟩
  | ok x =>
    obtain ⟨e, id⟩ := x
    obtain rfl := CrudTarget.key_of_parsed hp
    obtain ⟨root, hroot, hinit⟩ := initRoot_target htarget hnet hplain hp F req s
    rw [hinit, ← hroot]
    rcases makeDirAt_cases H F (e := root) s.disk with h | h
    · rw [h]
      exact ⟨s.disk, rfl, Or.inl rfl⟩
    · rw [h]
      cases (s.disk.mkdirs (H.locOf root)).2 <;> exact ⟨_, rfl, Or.inr rfl⟩

/-- Where the top directory can be made the request runs its method. -/
theorem serve_target (hplain : NoDotDot τ.filePath) {id : Int}
    (hp : parseTarget H τ.filePath = .ok (τ.key H, id)) (req : Request) {s : Store Tree}
    (hclear : ∀ k, k <:+ τ.top H → s.disk.isFile k = false) :
    (serve H (Disk.manager H Faults.none) τ.filePath req s).1 =
      (act H Faults.none (τ.key H) (.of id req)
        { s with disk := (s.disk.mkdirs (τ.top H)).1 }).1 := by
  obtain ⟨root, hroot, hinit⟩ := initRoot_target htarget hnet hplain hp Faults.none req s
  have hok : (s.disk.mkdirs (H.locOf root)).2 = true := by
    rw [hroot]
    exact mkdirs_ok_iff.mpr hclear
  rw [makeDirAt_none, hok, hroot] at hinit
  have hseen := seen_handleMethod H Faults.none hp (CrudTarget.noDotDot_key hplain) req
    { s with disk := (s.disk.mkdirs (τ.top H)).1 }
  rw [← hseen]
  simp only [serve, handleRequest, hinit]
  rfl

end Equation

section Changes
variable {H : Host} {e : Str} {s s' : Store Tree} {id : Int} (h : Change H e s s')
include h

/-- What is found under an id of the entity belongs to it. -/
theorem CrudHandler.Change.kept
    (hkept : s.disk.node (Disk.objectLoc H e id) ≠ none → s.ids.has e id = true)
    (hnode : s'.disk.node (Disk.objectLoc H e id) ≠ none) : s'.ids.has e id = true := by
  have hself : Disk.objectLoc H e id ≠ H.locOf e := List.cons_ne_self _ _
  have hinj {i : Int} (hi : Disk.objectLoc H e id = Disk.objectLoc H e i) : id = i :=
    objectLoc_inj.mp hi
  cases h with
  | nothing => exact hkept hnode
  | madeDirs =>
    dsimp only at hnode
    rw [mkdirs_node_objectLoc] at hnode
    exact hkept hnode
  | created i body hnext hdirs hfree =>
    have hd := mkdirs_isDir_self hdirs
    have hn := (mkdirs_node_objectLoc H i s.disk).trans hfree
    rw [IdMap.has_insert, if_pos rfl, Bool.or_eq_true, decide_eq_true_eq]
    by_cases hi : id = i
    · exact Or.inl hi
    · dsimp only at hnode
      rw [put_file_node hd hn, if_neg fun heq => hi (hinj heq), if_neg hself,
        mkdirs_node_objectLoc] at hnode
      exact Or.inr (hkept hnode)
  | rewritten i body hlive hfile =>
    dsimp only at hnode
    rw [write_node hfile] at hnode
    split at hnode
    · rename_i heq
      rw [hinj heq]
      exact hlive
    · exact hkept hnode
  | deleted i hlive hleaf =>
    dsimp only at hnode
    rw [unlink_node hleaf, if_neg hself] at hnode
    rw [IdMap.has_erase, if_pos rfl, Bool.and_eq_true, decide_eq_true_eq]
    by_cases hi : id = i
    · exact absurd (if_pos (by rw [hi])) hnode
    · rw [if_neg fun heq => hi (hinj heq)] at hnode
      exact ⟨hi, hkept hnode⟩
  | deletedLast i n l hlive hleaf hloc hempty =>
    dsimp only at hnode
    have hl : Disk.objectLoc H e id ≠ l := by
      rw [Disk.objectLoc, hloc]
      exact cons_cons_ne_self _ _ _
    rw [unlink_node hempty, ← hloc, if_neg hself, if_neg hl, unlink_node hleaf,
      if_neg hself] at hnode
    rw [IdMap.has_erase, if_pos rfl, Bool.and_eq_true, decide_eq_true_eq]
    by_cases hi : id = i
    · exact absurd (if_pos (by rw [hi])) hnode
    · rw [if_neg fun heq => hi (hinj heq)] at hnode
      exact ⟨hi, hkept hnode⟩

end Changes

/-- What holds in every state of a run on aligned targets. -/
structure Serving (H : Host) {T : HandlerFactories} (U : Set (CrudTarget T)) (w : World Str) :
    Prop where
  owned : w.Owned H
  range : ∀ τ ∈ U, ∀ id, liveAt H w τ id → 1 ≤ id ∧ id ≤ intMax
  kept : ∀ τ ∈ U, ∀ id : Int, 1 ≤ id → id ≤ intMax →
    w.disk.node (Disk.objectLoc H (τ.key H) id) ≠ none → liveAt H w τ id
  clear : ∀ τ ∈ U, ∀ k, k <:+ τ.dir H ∨ k <:+ τ.top H → w.disk.isFile k = false

section Steps
variable {H : Host} {T : HandlerFactories} {U : Set (CrudTarget T)} {t : Tree} {w : World Str}
  (hU : Aligned H U t)
include hU

theorem serving_initial : Serving H U (World.initial t) := by
  refine ⟨owned_initial t, fun τ _ id hlive => ?_, fun τ hτ id hpos hmax hnode => ?_, hU.clear⟩
  · exact absurd hlive (by simp [liveAt, World.live, World.initial])
  · exact absurd (hU.free τ hτ id hpos hmax) hnode

/-- Different directories are disjoint as the disk has them. -/
theorem Aligned.same_of_dir {τ υ : CrudTarget T} (hτ : τ ∈ U) (hυ : υ ∈ U)
    (hdir : τ.dir H = υ.dir H) : τ.location = υ.location ∧ τ.key H = υ.key H := by
  refine hU.one τ hτ υ hυ ?_
  have hplain (σ : CrudTarget T) (hσ : σ ∈ U) := CrudTarget.noDotDot_key (H := H) (hU.plain σ hσ)
  unfold CrudTarget.dir at hdir
  rw [locOf_of_noDotDot H (hplain τ hτ), locOf_of_noDotDot H (hplain υ hυ)] at hdir
  exact List.reverse_injective (List.append_cancel_right hdir)

variable (hw : Serving H U w)
include hw

/-- Directories made on the way of `InitRoot`. -/
theorem Serving.dirs {υ : CrudTarget T} (hυ : υ ∈ U) {t' : Tree}
    (ht : t' = w.disk ∨ t' = (w.disk.mkdirs (υ.top H)).1) (i : Str) :
    Serving H U (w.setStore i ⟨t', w.ids i⟩) := by
  have hfiles (k : Loc) : t'.isFile k = w.disk.isFile k := by
    rcases ht with rfl | rfl
    · rfl
    · exact mkdirs_isFile
  refine ⟨hw.owned.dirs hfiles, fun τ hτ id hlive => ?_, fun τ hτ id hpos hmax hnode => ?_,
    fun τ hτ k hk => ?_⟩
  · exact hw.range τ hτ id (World.live_setStore_same.mp hlive)
  · refine World.live_setStore_same.mpr (hw.kept τ hτ id hpos hmax ?_)
    rw [World.setStore_disk] at hnode
    rcases ht with rfl | rfl
    · exact hnode
    · exact mkdirs_frame (t := w.disk) (hU.apart τ hτ υ hυ id hpos hmax).2 ▸ hnode
  · rw [World.setStore_disk, hfiles]
    exact hw.clear τ hτ k hk

/-- The method of a request. -/
theorem Serving.change {υ : CrudTarget T} (hυ : υ ∈ U) {s : Store Tree}
    (h : Change H (υ.key H) (w.store υ.location) s) :
    Serving H U (w.setStore υ.location s) := by
  have hnext {id : Int} (hid : getNextID (w.ids υ.location) (υ.key H) = .ok id ∨
      (w.ids υ.location).has (υ.key H) id = true) : 1 ≤ id ∧ id ≤ intMax := by
    rcases hid with hid | hid
    · exact ⟨(getNextID_ok_iff.mp hid).1, (getNextID_ok_iff.mp hid).2.1⟩
    · exact hw.range υ hυ id hid
  refine ⟨hw.owned.change (CrudTarget.noDotDot_key (hU.plain υ hυ)) h, fun τ hτ id hlive => ?_,
    fun τ hτ id hpos hmax hnode => ?_, fun τ hτ k hk => ?_⟩
  · unfold liveAt at hlive
    rw [World.live_setStore] at hlive
    dsimp only at hlive
    split at hlive
    · rename_i hloc
      by_cases hkey : τ.key H = υ.key H
      · rw [hkey] at hlive
        exact hnext ((h.live_origin hlive).symm.imp_left And.left)
      · rw [h.has_other hkey] at hlive
        exact hw.range τ hτ id (by unfold liveAt World.live; rw [hloc]; exact hlive)
    · exact hw.range τ hτ id hlive
  · unfold liveAt
    rw [World.live_setStore]
    dsimp only
    rw [World.setStore_disk] at hnode
    by_cases hdir : τ.dir H = υ.dir H
    · obtain ⟨hloc, hkey⟩ := hU.same_of_dir hτ hυ hdir
      rw [if_pos hloc]
      rw [hkey] at hnode ⊢
      refine h.kept (fun hold => ?_) hnode
      have hlive := hw.kept τ hτ id hpos hmax (by rw [hkey]; exact hold)
      unfold liveAt World.live at hlive
      rwa [hloc, hkey] at hlive
    · have hframe : s.disk.node (Disk.objectLoc H (τ.key H) id) =
          w.disk.node (Disk.objectLoc H (τ.key H) id) :=
        h.node_other (hU.apart τ hτ υ hυ id hpos hmax).1
          fun i _ heq => hdir (List.cons.inj heq).2
      rw [hframe] at hnode
      have hlive := hw.kept τ hτ id hpos hmax hnode
      split
      · rename_i hloc
        have hkey : τ.key H ≠ υ.key H := fun hkey => hdir (congrArg H.locOf hkey)
        rw [h.has_other hkey]
        unfold liveAt World.live at hlive
        rwa [hloc] at hlive
      · exact hlive
  · rw [World.setStore_disk, Bool.eq_false_iff]
    intro hfile
    obtain ⟨c, hc⟩ := isFile_iff.mp hfile
    rw [h.file_other (fun id hid heq => ?_)] at hc
    · have hold : w.disk.isFile k = true := isFile_of_node hc
      rw [hw.clear τ hτ k hk] at hold
      exact absurd hold (by decide)
    · obtain ⟨hpos, hmax⟩ := hnext hid
      obtain ⟨hdir, htop⟩ := hU.apart υ hυ τ hτ id hpos hmax
      rw [heq] at hk
      exact hk.elim hdir htop

/-- One section. -/
theorem Serving.step (r : TargetSection T) (hr : r.target ∈ U) :
    Serving H U (targetStep H w r).2 := by
  obtain ⟨υ, part, req, F⟩ := r
  dsimp only at hr
  obtain ⟨htarget, hnet⟩ := hU.absolute υ hr
  have hplain := hU.plain υ hr
  cases part with
  | initRoot =>
    obtain ⟨t', hstore, ht⟩ := initRoot_disk (H := H) htarget hnet hplain F req
      (w.store υ.location)
    have hstep : (targetStep H w ⟨υ, .initRoot, req, F⟩).2 =
        w.setStore υ.location ⟨t', w.ids υ.location⟩ := by
      rw [targetStep, World.step, World.outcome]
      dsimp only
      rw [hstore]
      rfl
    rw [hstep]
    exact hw.dirs hU hr ht υ.location
  | method =>
    cases hp : parseTarget H υ.filePath with
    | error a =>
      have hstep : (targetStep H w ⟨υ, .method, req, F⟩).2 =
          w.setStore υ.location ⟨w.disk, w.ids υ.location⟩ := by
        rw [targetStep, World.step, World.outcome]
        dsimp only
        rw [handleMethod_of_error F hp]
        rfl
      rw [hstep]
      exact hw.dirs hU hr (Or.inl rfl) υ.location
    | ok x =>
      obtain ⟨e, id⟩ := x
      obtain rfl := CrudTarget.key_of_parsed hp
      have he := CrudTarget.noDotDot_key (H := H) hplain
      have hchange := change_act H F (w.store υ.location) he (Op.of id req)
      rw [← seen_handleMethod H F hp he req, seen_store] at hchange
      exact hw.change hU hr hchange

end Steps

section Answers
variable {H : Host} {T : HandlerFactories} {U : Set (CrudTarget T)} {t : Tree} {w : World Str}
  (hU : Aligned H U t) (hw : Serving H U w) {τ : CrudTarget T} (hτ : τ ∈ U)
include hU hw hτ

theorem Serving.answerTo_eq {id : Int} (hp : parseTarget H τ.filePath = .ok (τ.key H, id))
    (req : Request) :
    answerTo H w τ req = (act H Faults.none (τ.key H) (.of id req)
      ⟨(w.disk.mkdirs (τ.top H)).1, w.ids τ.location⟩).1 :=
  serve_target (hU.absolute τ hτ).1 (hU.absolute τ hτ).2 (hU.plain τ hτ) hp req
    fun k hk => hw.clear τ hτ k (Or.inr hk)

omit hU hτ in
/-- A live object is a file, also behind `InitRoot`. -/
theorem Serving.file_of_live {id : Int} (hlive : liveAt H w τ id) :
    ∃ content, w.disk.node (Disk.objectLoc H (τ.key H) id) = some (.file content) ∧
      (w.disk.mkdirs (τ.top H)).1.node (Disk.objectLoc H (τ.key H) id) =
        some (.file content) := by
  obtain ⟨content, hfile⟩ := isFile_iff.mp (hw.owned.files _ hlive)
  exact ⟨content, hfile, mkdirs_file_iff.mpr hfile⟩

theorem Serving.get {id : Int} (hp : parseTarget H τ.filePath = .ok (τ.key H, id))
    (hid : id ≠ -1) (hlive : liveAt H w τ id) (version : ℕ) (body : Str) :
    ∃ content, w.disk.node (Disk.objectLoc H (τ.key H) id) = some (.file content) ∧
      answerTo H w τ ⟨.get, version, body⟩ = .ok (.ok, content) := by
  obtain ⟨content, hold, hnew⟩ := hw.file_of_live hlive
  have hhas : (w.ids τ.location).has (τ.key H) id = true := hlive
  refine ⟨content, hold, ?_⟩
  rw [hw.answerTo_eq hU hτ hp, Op.of, if_neg hid]
  simp only [Op.ofObject, act, getAt, hhas, Bool.not_true, Bool.false_eq_true, if_false]
  exact readAt_of_file hnew

theorem Serving.put {id : Int} (hp : parseTarget H τ.filePath = .ok (τ.key H, id))
    (hid : id ≠ -1) (hlive : liveAt H w τ id) (version : ℕ) (body : Str) :
    answerTo H w τ ⟨.put, version, body⟩ = idAnswer id := by
  obtain ⟨content, _, hnew⟩ := hw.file_of_live hlive
  have hhas : (w.ids τ.location).has (τ.key H) id = true := hlive
  rw [hw.answerTo_eq hU hτ hp, Op.of, if_neg hid]
  simp [Op.ofObject, act, putAt, hhas, isFile_of_node hnew]

theorem Serving.delete {id : Int} (hp : parseTarget H τ.filePath = .ok (τ.key H, id))
    (hid : id ≠ -1) (hlive : liveAt H w τ id) (version : ℕ) (body : Str) :
    answerTo H w τ ⟨.delete, version, body⟩ = idAnswer id := by
  obtain ⟨content, _, hnew⟩ := hw.file_of_live hlive
  have hhas : (w.ids τ.location).has (τ.key H) id = true := hlive
  rw [hw.answerTo_eq hU hτ hp, Op.of, if_neg hid]
  simp [Op.ofObject, act, deleteAt, hhas, hnew, Node.isLeaf]

/-- POST takes the id that `GetNextID` gives out, whose file is not there. -/
theorem Serving.post (hp : parseTarget H τ.filePath = .ok (τ.key H, -1)) (version : ℕ)
    (body : Str) :
    (∃ id, w.disk.node (Disk.objectLoc H (τ.key H) id) = none ∧
      answerTo H w τ ⟨.post, version, body⟩ = idAnswer id) ∨
    ∀ id : Int, 1 ≤ id → id ≤ intMax → liveAt H w τ id := by
  rcases getNextID_spec (w.ids τ.location) (τ.key H) with
    ⟨id, hnext, hpos, hmax, hdead, _⟩ | ⟨_, hall⟩
  · refine Or.inl ⟨id, ?_⟩
    have hfree : w.disk.node (Disk.objectLoc H (τ.key H) id) = none := by
      by_contra hnode
      have hlive : (w.ids τ.location).has (τ.key H) id = true := hw.kept τ hτ id hpos hmax hnode
      rw [hdead] at hlive
      exact absurd hlive (by decide)
    have htop : (w.disk.mkdirs (τ.top H)).1.node (Disk.objectLoc H (τ.key H) id) = none :=
      (mkdirs_frame (hU.apart τ hτ τ hτ id hpos hmax).2).trans hfree
    have hok : ((w.disk.mkdirs (τ.top H)).1.mkdirs (H.locOf (τ.key H))).2 = true := by
      refine mkdirs_ok_iff.mpr fun k hk => ?_
      rw [mkdirs_isFile]
      exact hw.clear τ hτ k (Or.inl hk)
    have hnode := (mkdirs_node_objectLoc H id (w.disk.mkdirs (τ.top H)).1).trans htop
    refine ⟨hfree, ?_⟩
    rw [hw.answerTo_eq hU hτ hp, Op.of, if_pos rfl]
    simp [Op.ofEntity, act, postAt, hnext, makeDirAt_none, hok, hnode, mkdirs_isDir_self hok]
  · exact Or.inr hall

end Answers

/-- Where each directory has one location and one spelling, and no id is in the way, all its
targets name one entity, in every state of every run. -/
theorem oneEntity_of_aligned (H : Host) (T : HandlerFactories) (t : Tree)
    (U : Set (CrudTarget T)) (hU : Aligned H U t) (rs : List (TargetSection T))
    (hrs : ∀ r ∈ rs, r.target ∈ U) (τ υ : CrudTarget T) (hτ : τ ∈ U) (hυ : υ ∈ U)
    (hsame : SameDirectory H τ υ) :
    OneEntity H (Runs.final (targetStep H) (World.initial t) rs) τ υ := by
  have hw : Serving H U (Runs.final (targetStep H) (World.initial t) rs) :=
    Runs.final_invariant (I := fun w => Serving H U w) (A := fun r => r.target ∈ U)
      (fun w r hr hw => hw.step hU r hr) (serving_initial hU) hrs
  obtain ⟨hloc, hkey⟩ := hU.one τ hτ υ hυ hsame
  have hlive (id : Int) (h : liveAt H (Runs.final (targetStep H) (World.initial t) rs) τ id) :
      liveAt H (Runs.final (targetStep H) (World.initial t) rs) υ id := by
    unfold liveAt at h ⊢
    rwa [← hloc, ← hkey]
  exact ⟨fun id version body hp hid h => hw.get hU hυ hp hid (hlive id h) version body,
    fun id version body hp hid h => hw.put hU hυ hp hid (hlive id h) version body,
    fun id version body hp hid h => hw.delete hU hυ hp hid (hlive id h) version body,
    fun version body hp => hw.post hU hυ hp version body⟩

namespace Demo

def entityTarget : CrudTarget factories :=
  ⟨"/api/x".toList, ⟨"/api".toList, .crudHandler crudConfig, "x".toList⟩, crudConfig, by rfl, rfl⟩

def objectTarget : CrudTarget factories :=
  ⟨"/api/x/1".toList, ⟨"/api".toList, .crudHandler crudConfig, "x/1".toList⟩, crudConfig, by rfl,
    rfl⟩

/-- The entity in another spelling. -/
def aliasTarget : CrudTarget factories :=
  ⟨"/api//x".toList, ⟨"/api".toList, .crudHandler crudConfig, "/x".toList⟩, crudConfig, by rfl,
    rfl⟩

/-- A whole POST. -/
def posted (τ : CrudTarget factories) : List (TargetSection factories) :=
  [⟨τ, .initRoot, ⟨.post, 11, []⟩, Faults.none⟩, ⟨τ, .method, ⟨.post, 11, []⟩, Faults.none⟩]

def targets : Set (CrudTarget factories) := {entityTarget, objectTarget}

theorem key_targets {τ : CrudTarget factories} (hτ : τ ∈ targets) :
    τ.location = "/api".toList ∧ τ.key host = "/crud/x".toList ∧ τ.dir host = x.name :: root.loc host ∧
      τ.top host = root.loc host := by
  rcases hτ with rfl | rfl <;> decide +kernel

theorem aligned_targets : Aligned host targets disk := by
  refine ⟨fun τ hτ => ?_, fun τ hτ => ?_, fun τ hτ υ hυ _ => ?_, fun τ hτ υ hυ id _ _ => ?_,
    fun τ hτ id _ _ => ?_, fun τ hτ k hk => ?_⟩
  · have habs : τ.filePath.take 2 = "/c".toList := by
      rcases hτ with rfl | rfl <;> decide
    refine ⟨by rcases hτ with rfl | rfl <;> exact ⟨by decide, by decide⟩, fun ⟨r, hr, _⟩ => ?_⟩
    rw [hr] at habs
    exact absurd habs (by simp)
  · rcases hτ with rfl | rfl <;> decide
  · obtain ⟨hloc, hkey, _⟩ := key_targets hτ
    obtain ⟨hloc', hkey', _⟩ := key_targets hυ
    exact ⟨hloc.trans hloc'.symm, hkey.trans hkey'.symm⟩
  · obtain ⟨_, _, hdir, _⟩ := key_targets hτ
    obtain ⟨_, _, hdir', htop⟩ := key_targets hυ
    rw [hdir, hdir', htop]
    refine ⟨fun h => ?_, fun h => ?_⟩ <;>
      · have hlen := h.length_le
        simp only [List.length_cons] at hlen
        omega
  · obtain ⟨_, _, hdir, _⟩ := key_targets hτ
    rw [hdir]
    refine node_eq_none_of_empty root_empty ?_ fun h => ?_
    · exact (List.suffix_cons _ _).trans (List.suffix_cons _ _)
    · have hlen := congrArg List.length h
      simp only [List.length_cons] at hlen
      omega
  · obtain ⟨_, _, hdir, htop⟩ := key_targets hτ
    rw [hdir, htop] at hk
    have hclear : ∀ k ∈ (x.name :: root.loc host).tails, disk.isFile k = false := by
      decide +kernel
    refine hclear k ((List.mem_tails _ _).mpr ?_)
    exact hk.elim id fun h => h.trans (List.suffix_cons _ _)

end Demo

theorem oneEntity_of_aligned_posted :
    OneEntity Demo.host (Runs.final (targetStep Demo.host) (World.initial Demo.disk)
      (Demo.posted Demo.entityTarget)) Demo.entityTarget Demo.objectTarget :=
  oneEntity_of_aligned Demo.host Demo.factories Demo.disk Demo.targets Demo.aligned_targets
    (Demo.posted Demo.entityTarget) (by simp [Demo.posted, Demo.targets])
    Demo.entityTarget Demo.objectTarget (Or.inl rfl) (Or.inr rfl)
    (by unfold SameDirectory; decide +kernel)

/-- After a POST to `/api/x` a POST to `/api//x` finds its file there already. -/
theorem not_oneEntity_twoSlashes :
    ¬ ∀ (rs : List (TargetSection Demo.factories)) (τ υ : CrudTarget Demo.factories),
      SameDirectory Demo.host τ υ →
        OneEntity Demo.host (Runs.final (targetStep Demo.host) (World.initial Demo.disk) rs)
          τ υ := by
  intro h
  have hone := h (Demo.posted Demo.entityTarget) Demo.entityTarget Demo.aliasTarget
    (by unfold SameDirectory; decide +kernel)
  have hanswer : answerTo Demo.host (Runs.final (targetStep Demo.host) (World.initial Demo.disk)
      (Demo.posted Demo.entityTarget)) Demo.aliasTarget ⟨.post, 11, []⟩ =
        page .internalServerError := by
    decide +kernel
  rcases hone.post 11 [] (by decide +kernel) with ⟨id, _, hid⟩ | hall
  · rw [hanswer] at hid
    exact idAnswer_ne_page (by decide) id hid
  · exact absurd (hall 1 (by decide) (by decide)) (by unfold liveAt World.live; decide +kernel)

end Webserver

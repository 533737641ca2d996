import Webserver.CrudOutcomes
import Webserver.CrudTargets

/-!
# Where the paths of a CRUD location lead

A manager that writes down every path it is given, and for which targets all these paths stay
at or below the root of the location once `.` and `..` are resolved.
-/

set_option autoImplicit false

namespace Webserver

open FileTree Segments CrudHandler

section Recording
variable {σ : Type}

/-- The manager `M` with a log of the paths it is given. -/
def recording (M : CrudFileSystemManager σ) : CrudFileSystemManager (σ × List Str) where
  createDir p s := ((M.createDir p s.1).1, (M.createDir p s.1).2, s.2 ++ [p])
  createFile p content s := ((M.createFile p content s.1).1, (M.createFile p content s.1).2, s.2 ++ [p])
  readFile p res s := ((M.readFile p res s.1).1, (M.readFile p res s.1).2, s.2 ++ [p])
  writeFile p content s := ((M.writeFile p content s.1).1, (M.writeFile p content s.1).2, s.2 ++ [p])
  deleteFile p s := ((M.deleteFile p s.1).1, (M.deleteFile p s.1).2, s.2 ++ [p])
  listFiles p s := ((M.listFiles p s.1).1, (M.listFiles p s.1).2, s.2 ++ [p])

/-- The store with an empty log. -/
def unlogged (s : Store σ) : Store (σ × List Str) := ⟨(s.disk, []), s.ids⟩

variable (H : Host) (M : CrudFileSystemManager σ) (filePath : Str) (req : Request) (s : Store σ)

/-- The paths that `InitRoot` passes to the manager. -/
def initRootPaths : List Str :=
  (initRoot H (recording M) filePath req (unlogged s) .fresh).store.disk.2

/-- The paths that the rest of `HandleRequest` passes to the manager. -/
def methodPaths : List Str :=
  (handleRequest H (recording M) filePath req (unlogged s) .fresh).store.disk.2.drop
    (initRootPaths H M filePath req s).length

end Recording

/-- At or below the root. -/
def Inside (H : Host) (root : Str) (l : Loc) : Prop := H.locOf root <:+ l

/-- At or below the root, or above it but still below the working directory. -/
def InsideOrAbove (H : Host) (root : Str) (l : Loc) : Prop :=
  Inside H root l ∨ (l <:+ H.locOf root ∧ H.cwdLoc <:+ l ∧ l ≠ H.cwdLoc)

/-- Every path of every request with this file path is contained in the root. -/
def Contained (H : Host) (root filePath : Str) : Prop :=
  ∀ (σ : Type) (M : CrudFileSystemManager σ) (s : Store σ) (req : Request),
    (∀ p ∈ initRootPaths H M filePath req s, InsideOrAbove H root (lexical [] (steps p))) ∧
      ∀ p ∈ methodPaths H M filePath req s, Inside H root (lexical [] (steps p))

/-- The name of an object in its directory; a number is rewritten without leading zeros. -/
def objectName (n : Name) : Name := if onlyDigits n then intToString (digitsValue n) else n

/-- What makes the components of a root and of a path behind it stay in the root: the first one
and all of them do, unless no path is passed to the manager at all. -/
def Stays (H : Host) (root path : Str) : Prop :=
  let names := components root ++ components path
  let last := names.getLast?.getD []
  IsNet (root ++ path) ∨ (onlyDigits last = true ∧ intMax < digitsValue last) ∨
    (InsideOrAbove H root (lexical H.cwdLoc ((names.take 1).map toStep)) ∧
      Inside H root (lexical H.cwdLoc ((names.dropLast ++ [objectName last]).map toStep)))

section Logs
variable {H : Host} {σ : Type} {M : CrudFileSystemManager σ} {filePath : Str} {req : Request}
  {s : Store σ} {e : Str} {id : Int}

/-- The paths a method may pass on: the directory of the entity and its objects, or the one
object of the request. -/
def Passable (H : Host) (e : Str) (id : Int) (p : Str) : Prop :=
  (id = -1 ∧ (p = H.fromCwd e ∨ ∃ i, p = H.objectPath e i)) ∨ (id ≠ -1 ∧ p = H.objectPath e id)

/-- What a method adds to the log. -/
theorem handleMethod_log (hp : parseTarget H filePath = .ok (e, id)) (s : Store (σ × List Str))
    (res : Response) :
    ∃ q, (handleMethod H (recording M) filePath req s res).store.disk.2 = s.disk.2 ++ q ∧
      ∀ p ∈ q, Passable H e id p := by
  obtain ⟨⟨d, l⟩, ids⟩ := s
  have hnone : ∃ q, l = l ++ q ∧ ∀ p ∈ q, Passable H e id p := ⟨[], by simp, by simp⟩
  have hone {p : Str} (h : Passable H e id p) :
      ∃ q, l ++ [p] = l ++ q ∧ ∀ p ∈ q, Passable H e id p := ⟨[p], rfl, by simpa using h⟩
  unfold handleMethod
  cases req.method with
  | post =>
    simp only [handlePost, hp]
    split
    · exact hnone
    · rename_i hid
      have hid : id = -1 := not_not.mp hid
      cases getNextID ids e with
      | error a => exact hnone
      | ok i =>
        rcases hM : M.createDir (H.fromCwd e) d with ⟨_ | _, d'⟩
        · simp only [recording, hM]
          exact hone (Or.inl ⟨hid, Or.inl rfl⟩)
        · rcases hM' : M.createFile (H.objectPath e i) req.body d' with ⟨_ | _, d''⟩ <;>
            simp only [recording, hM, hM', List.append_assoc, List.singleton_append] <;>
            refine ⟨_, rfl, fun p hp => ?_⟩ <;>
            rcases List.mem_pair.mp hp with rfl | rfl
          · exact Or.inl ⟨hid, Or.inl rfl⟩
          · exact Or.inl ⟨hid, Or.inr ⟨i, rfl⟩⟩
          · exact Or.inl ⟨hid, Or.inl rfl⟩
          · exact Or.inl ⟨hid, Or.inr ⟨i, rfl⟩⟩
  | get =>
    simp only [handleGet, hp]
    split
    · rename_i hid
      split
      · exact hnone
      · rcases hM : M.readFile (H.objectPath e id) res d with ⟨⟨_ | _, res'⟩, d'⟩ <;>
          simp only [readObject, recording, hM] <;>
          exact hone (Or.inr ⟨hid, rfl⟩)
    · rename_i hid
      split
      · exact hnone
      · rcases hM : M.listFiles (H.fromCwd e) d with ⟨⟨_ | _, files⟩, d'⟩ <;>
          simp only [listEntity, recording, hM] <;>
          exact hone (Or.inl ⟨not_not.mp hid, Or.inl rfl⟩)
  | put =>
    simp only [handlePut, hp]
    split
    · exact hnone
    · rename_i hid
      split
      · exact hnone
      · rcases hM : M.writeFile (H.objectPath e id) req.body d with ⟨_ | _, d'⟩ <;>
          simp only [recording, hM] <;>
          exact hone (Or.inr ⟨hid, rfl⟩)
  | delete =>
    simp only [handleDelete, hp]
    split
    · exact hnone
    · rename_i hid
      split
      · exact hnone
      · rcases hM : M.deleteFile (H.objectPath e id) d with ⟨_ | _, d'⟩ <;>
          simp only [recording, hM] <;>
          exact hone (Or.inr ⟨hid, rfl⟩)
  | other name => exact hnone

/-- `InitRoot` passes on its directory, if its loop ends and comes to one. -/
theorem initRoot_log (hp : parseTarget H filePath = .ok (e, id)) (hne : e ≠ []) {root : Str}
    (hroot : rootLoop H (filePath.length + 1) filePath = some root) :
    initRootPaths H M filePath req s = [H.fromCwd root] := by
  unfold initRootPaths initRoot unlogged
  simp only [hp, if_neg hne, hroot, recording]
  rcases M.createDir (H.fromCwd root) s.disk with ⟨_ | _, d⟩ <;> rfl

theorem methodPaths_eq {q : List Str}
    (h : (handleRequest H (recording M) filePath req (unlogged s) .fresh).store.disk.2 =
      initRootPaths H M filePath req s ++ q) : methodPaths H M filePath req s = q := by
  rw [methodPaths, h, List.drop_left]

theorem methodPaths_passable (hp : parseTarget H filePath = .ok (e, id)) :
    ∀ p ∈ methodPaths H M filePath req s, Passable H e id p := by
  by_cases hok : (initRoot H (recording M) filePath req (unlogged s) .fresh).status = .ok .ok
  · obtain ⟨q, hq, hpass⟩ := handleMethod_log hp
      (initRoot H (recording M) filePath req (unlogged s) .fresh).store
      (initRoot H (recording M) filePath req (unlogged s) .fresh).res
    rw [methodPaths_eq (q := q)]
    · exact hpass
    · rw [handleRequest, if_pos hok, finish_store, hq]
      rfl
  · rw [methodPaths_eq (q := [])]
    · simp
    · rw [handleRequest, if_neg hok, finish_store, List.append_nil]
      rfl

/-- A request that `InitRoot` does not let through passes on nothing. -/
theorem paths_of_stopped
    (h : (∃ a, parseTarget H filePath = .error a) ∨
      rootLoop H (filePath.length + 1) filePath = none) :
    initRootPaths H M filePath req s = [] ∧ methodPaths H M filePath req s = [] := by
  have hstop : (initRoot H (recording M) filePath req (unlogged s) .fresh).status ≠ .ok .ok ∧
      (initRoot H (recording M) filePath req (unlogged s) .fresh).store = unlogged s := by
    unfold initRoot
    rcases h with ⟨a, h⟩ | h
    · simp [h]
    · cases parseTarget H filePath with
      | error a => simp
      | ok x => by_cases hx : x.1 = [] <;> simp [hx, h]
  have hlog : initRootPaths H M filePath req s = [] := by
    rw [initRootPaths, hstop.2]
    rfl
  refine ⟨hlog, methodPaths_eq ?_⟩
  rw [handleRequest, if_neg hstop.1, finish_store, hstop.2, hlog]
  rfl

end Logs

section Reached
variable {H : Host} {filePath e root : Str}

/-- A manager without a disk, whose every call succeeds. -/
def agreeable : CrudFileSystemManager Unit where
  createDir _ s := (true, s)
  createFile _ _ s := (true, s)
  readFile _ res s := ((true, res), s)
  writeFile _ _ s := (true, s)
  deleteFile _ s := (true, s)
  listFiles _ s := ((true, []), s)

variable (hne : e ≠ []) (hroot : rootLoop H (filePath.length + 1) filePath = some root)
include hne hroot

/-- POST passes on the directory of the entity. -/
theorem mem_methodPaths_post (hp : parseTarget H filePath = .ok (e, -1)) :
    H.fromCwd e ∈ methodPaths H agreeable filePath ⟨.post, 11, []⟩ ⟨(), IdMap.empty⟩ := by
  rw [methodPaths_eq (q := [H.fromCwd e, H.objectPath e 1])]
  · simp
  · rw [initRoot_log hp hne hroot]
    simp [handleRequest, initRoot, hp, hne, hroot, recording, agreeable, unlogged, handleMethod,
      handlePost, getNextID, IdMap.empty, finish_store]

/-- PUT passes on the path of a live object. -/
theorem mem_methodPaths_put {id : Int} (hp : parseTarget H filePath = .ok (e, id)) (hid : id ≠ -1) :
    H.objectPath e id ∈ methodPaths H agreeable filePath ⟨.put, 11, []⟩
      ⟨(), IdMap.empty.insert e id⟩ := by
  rw [methodPaths_eq (q := [H.objectPath e id])]
  · simp
  · rw [initRoot_log hp hne hroot]
    simp [handleRequest, initRoot, hp, hne, hroot, recording, agreeable, unlogged, handleMethod,
      handlePut, IdMap.has, IdMap.insert, finish_store, hid]

omit hne hroot in
theorem contained_of_stopped (R : Str)
    (h : (∃ a, parseTarget H filePath = .error a) ∨
      rootLoop H (filePath.length + 1) filePath = none) : Contained H R filePath := by
  intro σ M s req
  obtain ⟨hinit, hmethod⟩ := paths_of_stopped h
  rw [hinit, hmethod]
  exact ⟨by simp, by simp⟩

/-- For a request that is let through, two locations decide: the one that `InitRoot` makes, and
the entity or the object of the request. -/
theorem contained_iff_of_parsed (R : Str) {id : Int} {l : Loc}
    (hp : parseTarget H filePath = .ok (e, id))
    (hl : l = if id = -1 then H.locOf e else intToString id :: H.locOf e) :
    Contained H R filePath ↔ InsideOrAbove H R (H.locOf root) ∧ Inside H R l := by
  constructor
  · intro h
    constructor
    · have hinit := (h Unit agreeable ⟨(), IdMap.empty⟩ ⟨.post, 11, []⟩).1 (H.fromCwd root) (by
        rw [initRoot_log hp hne hroot]
        exact List.mem_singleton_self _)
      rwa [H.lexical_fromCwd] at hinit
    · subst hl
      split
      · rename_i hid
        subst hid
        have hpost := (h _ _ _ _).2 _ (mem_methodPaths_post hne hroot hp)
        rwa [H.lexical_fromCwd] at hpost
      · rename_i hid
        have hput := (h _ _ _ _).2 _ (mem_methodPaths_put hne hroot hp hid)
        rwa [H.lexical_objectPath] at hput
  · rintro ⟨htop, hinside⟩ σ M s req
    constructor
    · intro p hmem
      rw [initRoot_log hp hne hroot, List.mem_singleton] at hmem
      rw [hmem, H.lexical_fromCwd]
      exact htop
    · intro p hmem
      subst hl
      rcases methodPaths_passable hp p hmem with ⟨hid, rfl | ⟨i, rfl⟩⟩ | ⟨hid, rfl⟩
      · rw [H.lexical_fromCwd]
        rwa [if_pos hid] at hinside
      · rw [H.lexical_objectPath]
        rw [if_pos hid] at hinside
        exact hinside.trans (List.suffix_cons _ _)
      · rw [H.lexical_objectPath]
        rwa [if_neg hid] at hinside

end Reached

theorem components_root {root : Str} (h : root.getLast? = some '/') (path : Str) :
    components (root ++ path) = components root ++ components path := by
  obtain ⟨r, rfl⟩ := List.getLast?_eq_some_iff.mp h
  unfold components
  rw [List.append_assoc, List.singleton_append, segments_append, segments_concat_sep]

theorem locOf_eq (H : Host) (p : Str) :
    H.locOf p = lexical H.cwdLoc ((components p).map toStep) := by
  rw [Host.locOf, lexical_steps]

/-- The file paths of a location. -/
theorem IsTarget.contained_iff {root path : Str} (hp : IsTarget (root ++ path))
    (hroot : root.getLast? = some '/') (H : Host) :
    Contained H root (root ++ path) ↔ Stays H root path := by
  by_cases hnet : IsNet (root ++ path)
  · exact iff_of_true (contained_of_stopped root (Or.inr (rootLoop_of_isNet H _ (Or.inr hnet))))
      (Or.inl hnet)
  obtain ⟨d, k, n, hn, hd, heq⟩ := hp.exists_last
  have hnames : components root ++ components path = components d ++ [n] := by
    rw [← components_root hroot, heq, components_slashes d k hn]
  obtain ⟨top, htop, hfirst⟩ := rootLoop_of_isTarget H _ hp hnet (Nat.lt_succ_self _)
  have hparse := parseTarget_slashes H hnet hn heq
  have htopLoc : H.locOf top =
      lexical H.cwdLoc (((components root ++ components path).take 1).map toStep) := by
    rw [locOf_eq, hfirst, components_root hroot]
  have hstays : Stays H root path ↔ (onlyDigits n = true ∧ intMax < digitsValue n) ∨
      (InsideOrAbove H root (H.locOf top) ∧
        Inside H root (lexical H.cwdLoc ((components d ++ [objectName n]).map toStep))) := by
    rw [Stays, htopLoc, hnames]
    simp [hnet]
  rw [hstays]
  cases hdigits : onlyDigits n with
  | true =>
    rw [hdigits, if_pos rfl] at hparse
    by_cases hmax : digitsValue n ≤ intMax
    · rw [if_pos hmax] at hparse
      have hne : H.parentPath (root ++ path) ≠ [] := by
        rcases hp.parentPath_eq H hnet hn hd heq with ⟨_, h⟩ | ⟨htarget, _, h⟩
        · simp [h]
        · rw [h]
          exact htarget.ne_nil
      have hid : (digitsValue n : Int) ≠ -1 := by omega
      have hl : lexical H.cwdLoc ((components d ++ [objectName n]).map toStep) =
          if (digitsValue n : Int) = -1 then H.locOf (H.parentPath (root ++ path))
          else intToString (digitsValue n) :: H.locOf (H.parentPath (root ++ path)) := by
        rw [if_neg hid, locOf_eq, components_parentPath_slashes H hn heq, objectName,
          if_pos hdigits, List.map_append, lexical_append, List.map_singleton,
          toStep_of_isName (isName_intToString _)]
        rfl
      rw [contained_iff_of_parsed hne htop root hparse hl]
      simp [hmax]
    · rw [if_neg hmax] at hparse
      exact iff_of_true (contained_of_stopped root (Or.inl ⟨_, hparse⟩))
        (Or.inl ⟨rfl, by omega⟩)
  | false =>
    rw [hdigits, if_neg Bool.false_ne_true] at hparse
    have hl : lexical H.cwdLoc ((components d ++ [objectName n]).map toStep) =
        if (-1 : Int) = -1 then H.locOf (root ++ path)
        else intToString (-1) :: H.locOf (root ++ path) := by
      rw [if_pos rfl, locOf_eq, components_root hroot, hnames, objectName, hdigits,
        if_neg Bool.false_ne_true]
    rw [contained_iff_of_parsed hp.ne_nil htop root hparse hl]
    simp

/-- Every path of every request on a target stays in the root of its location if and only if
its components do. -/
theorem contained_iff_stays (H : Host) (T : HandlerFactories) (target : Str)
    (m : RequestDispatcher.Match) (config : NginxConfig)
    (hroute : RequestDispatcher.route T target = some m) (hcrud : m.factory = .crudHandler config)
    (habs : (FileHandlerFactory.getRoot config).head? = some '/') :
    Contained H (FileHandlerFactory.getRoot config)
        (FileHandlerFactory.getCompleteFilePath config m.path) ↔
      Stays H (FileHandlerFactory.getRoot config) m.path := by
  have hp : IsTarget (FileHandlerFactory.getRoot config ++ m.path) :=
    isTarget_of_route hroute (by rw [hcrud]; simp) habs
  have hroot : (FileHandlerFactory.getRoot config).getLast? = some '/' := by
    rcases FileHandlerFactory.getRoot_eq_nil_or config with h | ⟨r, h⟩
    · rw [h] at habs
      exact absurd habs (by simp)
    · rw [h, List.getLast?_concat]
  exact hp.contained_iff hroot H

theorem contained_iff_stays_nested :
    Contained Demo.host "/crud/".toList "/crud/a/1".toList ↔
      Stays Demo.host "/crud/".toList "a/1".toList :=
  contained_iff_stays Demo.host Demo.factories "/api/a/1?q".toList
    ⟨"/api".toList, .crudHandler Demo.crudConfig, "a/1".toList⟩ Demo.crudConfig (by rfl) rfl
    (by decide)

/-- `/api/../../etc/x` is dispatched to the location, and POST creates files in `/etc/x`. -/
theorem not_contained_dotDot :
    RequestDispatcher.route Demo.factories "/api/../../etc/x".toList =
        some ⟨"/api".toList, .crudHandler Demo.crudConfig, "../../etc/x".toList⟩ ∧
      ¬ Contained Demo.host (FileHandlerFactory.getRoot Demo.crudConfig)
        (FileHandlerFactory.getCompleteFilePath Demo.crudConfig "../../etc/x".toList) := by
  refine ⟨by rfl, fun h => ?_⟩
  have hpost := (h Unit agreeable ⟨(), IdMap.empty⟩ ⟨.post, 11, []⟩).2
    "/srv/crud/../../etc/x/1".toList (by decide +kernel)
  revert hpost
  unfold Inside
  decide +kernel

end Webserver

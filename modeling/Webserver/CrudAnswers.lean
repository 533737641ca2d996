import Webserver.CrudIds
import Webserver.CrudOutcomes
import Webserver.CrudTargets

/-!
# Which CRUD targets are answered

`ParseTarget` throws on an id that is no `int`, and the loop of `InitRoot` comes to an end on
absolute file paths only. Every other request is answered with a status.
-/

set_option autoImplicit false

namespace Webserver

open Segments

namespace CrudHandler
variable {H : Host} {p : Str}

section Answers
variable {σ : Type} (M : CrudFileSystemManager σ) (req : Request) (s : Store σ) (res : Response)
  {e : Str} {id : Int}

/-- There is a status, or the counter of `GetNextID` overflows: every positive `int` is in use. -/
def Answered (s : Store σ) (e : Str) (o : Outcome σ) : Prop :=
  (∃ status, o.status = .ok status) ∨
    (o.status = .error .intOverflow ∧ ∀ j : Int, 1 ≤ j → j ≤ intMax → s.ids.has e j = true)

theorem handlePost_answered (hp : parseTarget H p = .ok (e, id)) :
    Answered s e (handlePost H M p req s res) := by
  simp only [handlePost, hp]
  by_cases hid : id ≠ -1
  · rw [if_pos hid]
    exact Or.inl ⟨_, rfl⟩
  · rw [if_neg hid]
    rcases getNextID_spec s.ids e with ⟨next, hn, _⟩ | ⟨hn, hall⟩
    · rw [hn]
      dsimp only
      split
      · exact Or.inl ⟨_, rfl⟩
      · split <;> exact Or.inl ⟨_, rfl⟩
    · rw [hn]
      exact Or.inr ⟨rfl, hall⟩

theorem handleMethod_answered (hp : parseTarget H p = .ok (e, id)) :
    Answered s e (handleMethod H M p req s res) := by
  unfold handleMethod
  split
  · exact handlePost_answered M req s res hp
  · simp only [handleGet, hp, readObject, listEntity]
    left
    repeat' split
    all_goals exact ⟨_, rfl⟩
  · simp only [handlePut, hp]
    left
    repeat' split
    all_goals exact ⟨_, rfl⟩
  · simp only [handleDelete, hp]
    left
    repeat' split
    all_goals exact ⟨_, rfl⟩
  · exact Or.inl ⟨_, rfl⟩

/-- A target that parses is answered unless the loop of `InitRoot` runs on. -/
theorem handleRequest_answered (hp : parseTarget H p = .ok (e, id))
    (hloop : e = [] ∨ rootLoop H (p.length + 1) p ≠ none) :
    Answered s e (handleRequest H M p req s res) := by
  by_cases he : e = []
  · have hinit : (initRoot H M p req s res).status = .ok .badRequest := by
      simp [initRoot, hp, he]
    rw [handleRequest, hinit]
    exact Or.inl ⟨.badRequest, by simp [finish_status, hinit]⟩
  · obtain ⟨root, hroot⟩ := Option.ne_none_iff_exists'.mp (hloop.resolve_left he)
    rcases hdir : M.createDir (H.fromCwd root) s.disk with ⟨_ | _, disk⟩
    · have hinit : (initRoot H M p req s res).status = .ok .internalServerError := by
        simp [initRoot, hp, he, hroot, hdir]
      rw [handleRequest, hinit]
      exact Or.inl ⟨.internalServerError, by simp [finish_status, hinit]⟩
    · have hadmits : Admits H M p s.disk e id root := ⟨hp, he, hroot, by rw [hdir]⟩
      rw [handleRequest_of_admits hadmits, Answered, finish_status]
      exact handleMethod_answered M req _ (greeted req res) hp

theorem handleRequest_diverges (hp : parseTarget H p = .ok (e, id)) (he : e ≠ [])
    (hloop : rootLoop H (p.length + 1) p = none) :
    (handleRequest H M p req s res).status = .error .diverges := by
  rw [handleRequest, initRoot]
  simp only [hp, if_neg he, hloop]
  rfl

end Answers

/-! ### The id of a target -/

/-- The file name of a lone root-name is the root-name. -/
def RootNameFile (H : Host) : Prop :=
  ∀ n, IsSegment '/' n → H.filename ('/' :: '/' :: n) = '/' :: '/' :: n

theorem filename_ne_nil (hnet : RootNameFile H) (hp : p ≠ []) (hlast : p.getLast? ≠ some '/') :
    H.filename p ≠ [] := by
  by_cases hslash : '/' ∈ p
  · obtain ⟨d, k, n, hn, _, rfl⟩ := exists_last_of_mem hslash hlast
    rw [append_replicate_sep]
    by_cases hd : d ++ List.replicate k '/' = ['/']
    · rw [hd, show ['/'] ++ '/' :: n = '/' :: '/' :: n from rfl, hnet n hn]
      exact List.cons_ne_nil _ _
    · rw [H.filename_snoc _ n hn hd]
      exact hn.1
  · rwa [H.filename_name p hslash]

/-- What is promised about the id of a target: a file name of digits is the id below the parent
path, anything else is no id, an id that is no `int` is answered with an error, and no conversion
throws. -/
structure ParsesSafely (H : Host) (p : Str) : Prop where
  parses : ∃ e id, parseTarget H p = .ok (e, id) ∧ id ≤ intMax ∧
    if onlyDigits (H.filename p) then
      H.filename p ≠ [] ∧ e = H.parentPath p ∧ id = digitsValue (H.filename p)
    else e = p ∧ id = -1
  tooLarge : onlyDigits (H.filename p) = true → intMax < digitsValue (H.filename p) →
    ∀ (σ : Type) (M : CrudFileSystemManager σ) req s res,
      (handleRequest H M p req s res).status = .ok .badRequest ∨
        (handleRequest H M p req s res).status = .ok .notFound
  caught : ∀ (σ : Type) (M : CrudFileSystemManager σ) req s res,
    (handleRequest H M p req s res).status ≠ .error .invalidArgument ∧
      (handleRequest H M p req s res).status ≠ .error .outOfRange

theorem parsesSafely_of_filename (hne : H.filename p ≠ []) :
    ParsesSafely H p ↔
      (onlyDigits (H.filename p) = true → digitsValue (H.filename p) ≤ intMax) := by
  constructor
  · intro h hdigits
    by_contra hlarge
    obtain ⟨e, id, hparse, _⟩ := h.parses
    rw [parseTarget, if_pos hdigits, stoi, if_neg hne, if_neg hlarge] at hparse
    exact absurd hparse (by simp)
  · intro h
    have hparse : ∃ e id, parseTarget H p = .ok (e, id) ∧ id ≤ intMax ∧
        if onlyDigits (H.filename p) then
          H.filename p ≠ [] ∧ e = H.parentPath p ∧ id = digitsValue (H.filename p)
        else e = p ∧ id = -1 := by
      cases hdigits : onlyDigits (H.filename p) with
      | true =>
        have hle := h hdigits
        refine ⟨H.parentPath p, digitsValue (H.filename p), ?_, by exact_mod_cast hle, ?_⟩
        · rw [parseTarget, if_pos hdigits, stoi, if_neg hne, if_pos hle]
        · exact ⟨hne, rfl, rfl⟩
      | false =>
        refine ⟨p, -1, ?_, by decide, ?_⟩
        · rw [parseTarget, hdigits]
          rfl
        · exact ⟨rfl, rfl⟩
    refine ⟨hparse, fun hdigits hlarge => absurd (h hdigits) (by omega), ?_⟩
    intro σ M req s res
    obtain ⟨e, id, hp, _⟩ := hparse
    by_cases hloop : e = [] ∨ rootLoop H (p.length + 1) p ≠ none
    · rcases handleRequest_answered M req s res hp hloop with ⟨status, hstatus⟩ | ⟨hstatus, _⟩
      · rw [hstatus]
        simp
      · rw [hstatus]
        simp
    · rw [not_or, not_not] at hloop
      rw [handleRequest_diverges M req s res hp hloop.1 hloop.2]
      simp

theorem completeFilePath_ended {T : HandlerFactories} {target : Str}
    {m : RequestDispatcher.Match} {config : NginxConfig}
    (hroute : RequestDispatcher.route T target = some m)
    (hcrud : m.factory = .crudHandler config) :
    FileHandlerFactory.getCompleteFilePath config m.path ≠ [] ∧
      (FileHandlerFactory.getCompleteFilePath config m.path).getLast? ≠ some '/' := by
  obtain ⟨hne, hlast⟩ := RequestDispatcher.route_path hroute (by rw [hcrud]; simp)
  rw [FileHandlerFactory.getCompleteFilePath, List.getLast?_append_of_ne_nil _ hne]
  exact ⟨fun h => hne (List.append_eq_nil_iff.mp h).2, hlast⟩

/-- A target of a CRUD location is parsed and answered without an exception exactly if its file
name is no number above the largest `int`. -/
theorem parsesSafely_iff (H : Host) (hnet : RootNameFile H) (T : HandlerFactories) (target : Str)
    (m : RequestDispatcher.Match) (config : NginxConfig)
    (hroute : RequestDispatcher.route T target = some m)
    (hcrud : m.factory = .crudHandler config) :
    let p := FileHandlerFactory.getCompleteFilePath config m.path
    ParsesSafely H p ↔
      (onlyDigits (H.filename p) = true → digitsValue (H.filename p) ≤ intMax) := by
  obtain ⟨hne, hlast⟩ := completeFilePath_ended hroute hcrud
  exact parsesSafely_of_filename (filename_ne_nil hnet hne hlast)

theorem rootNameFile_posix (cwd : List Name) (h : ∀ n ∈ cwd, IsName n) :
    RootNameFile (Host.posix cwd h) := by
  intro n hn
  have hsplit := PosixPath.splitLast_snoc ['/'] hn.2
  rw [List.singleton_append] at hsplit
  rw [show (Host.posix cwd h).filename = PosixPath.filename from rfl, PosixPath.filename, hsplit]
  rfl

theorem parsesSafely_iff_object :
    ParsesSafely Demo.host "/crud/a/7".toList ↔
      (onlyDigits (Demo.host.filename "/crud/a/7".toList) = true →
        digitsValue (Demo.host.filename "/crud/a/7".toList) ≤ intMax) :=
  parsesSafely_iff Demo.host (rootNameFile_posix _ _) Demo.factories "/api/a/7/".toList
    ⟨"/api".toList, .crudHandler Demo.crudConfig, "a/7".toList⟩ Demo.crudConfig (by rfl) rfl

/-- The id of `/api/a/2147483648` is dispatched to the location and thrown by `stoi`. -/
theorem not_parsesSafely_large :
    RequestDispatcher.route Demo.factories "/api/a/2147483648".toList =
        some ⟨"/api".toList, .crudHandler Demo.crudConfig, "a/2147483648".toList⟩ ∧
      ¬ ParsesSafely Demo.host
        (FileHandlerFactory.getCompleteFilePath Demo.crudConfig "a/2147483648".toList) := by
  refine ⟨by rfl, fun h => ?_⟩
  obtain ⟨e, id, hparse, _⟩ := h.parses
  have hthrown : parseTarget Demo.host (FileHandlerFactory.getCompleteFilePath Demo.crudConfig
      "a/2147483648".toList) = .error .outOfRange := by rfl
  rw [hthrown] at hparse
  exact absurd hparse (by simp)

/-! ### The loop of `InitRoot` -/

/-- From a relative path the loop comes to the empty path and stays there. -/
theorem rootLoop_of_relative (H : Host) (rounds : Nat) {p : Str} (hhead : p.head? ≠ some '/')
    (hlast : p.getLast? ≠ some '/') : rootLoop H rounds p = none := by
  induction rounds generalizing p with
  | zero => rfl
  | succ rounds ih =>
    have hparent : (H.parentPath p).head? ≠ some '/' ∧ (H.parentPath p).getLast? ≠ some '/' := by
      by_cases hslash : '/' ∈ p
      · obtain ⟨d, k, n, hn, hd, rfl⟩ := exists_last_of_mem hslash hlast
        have hdne : d ≠ [] := by
          rintro rfl
          exact hhead (by simp [List.replicate_succ])
        rw [List.append_assoc, List.head?_append_of_ne_nil _ hdne] at hhead
        have hnet : ¬ IsNet d := by
          rintro ⟨r, rfl, _⟩
          exact hhead rfl
        rw [H.parentPath_snoc d k n hn hdne hd hnet]
        exact ⟨hhead, hd⟩
      · rw [H.parentPath_name p hslash]
        simp
    have htop : H.parentPath p ≠ ['/'] := fun h => hparent.2 (by rw [h]; rfl)
    rw [rootLoop, if_neg htop]
    exact ih hparent.1 hparent.2

/-- It does not end on relative paths and on those with a root-name. -/
theorem rootLoop_eq_none_iff (hended : p.getLast? ≠ some '/') :
    rootLoop H (p.length + 1) p = none ↔ (p.head? = some '/' → IsNet p) := by
  constructor
  · intro hloop habs
    by_contra hnet
    obtain ⟨root, hroot, _⟩ := rootLoop_of_isTarget H (p.length + 1) ⟨habs, hended⟩ hnet
      (Nat.lt_succ_self _)
    rw [hroot] at hloop
    exact absurd hloop (by simp)
  · intro h
    by_cases habs : p.head? = some '/'
    · exact rootLoop_of_isNet H _ (Or.inr (h habs))
    · exact rootLoop_of_relative H _ habs hended

/-- From an absolute path without a root-name it stops within one round a component. -/
theorem rootLoop_components (H : Host) {p : Str} (hp : IsTarget p) (hnet : ¬ IsNet p) :
    ∃ root, rootLoop H (components p).length p = some root := by
  induction hlen : (components p).length generalizing p with
  | zero =>
    obtain ⟨d, j, n, hn, hd, heq⟩ := hp.exists_last
    rw [heq, components_slashes d j hn] at hlen
    simp at hlen
  | succ rounds ih =>
    obtain ⟨d, j, n, hn, hd, heq⟩ := hp.exists_last
    rw [rootLoop]
    rcases hp.parentPath_eq H hnet hn hd heq with ⟨_, hparent⟩ | ⟨htarget, hnet', hparent⟩
    · exact ⟨p, if_pos hparent⟩
    · have hne : d ≠ ['/'] := fun h => hd (by rw [h]; rfl)
      have hd' : (components d).length = rounds := by
        rw [heq, components_slashes d j hn, List.length_append, List.length_singleton] at hlen
        omega
      rw [hparent, if_neg hne]
      exact ih htarget hnet' hd'

/-- The loop stops within as many rounds as the file path has components, and the request is
answered. -/
structure Terminates (H : Host) (p : Str) : Prop where
  loop : ∀ e id, parseTarget H p = .ok (e, id) → e ≠ [] →
    ∃ root, rootLoop H (components p).length p = some root
  answers : ∀ (σ : Type) (M : CrudFileSystemManager σ) req s res e id,
    parseTarget H p = .ok (e, id) → Answered s e (handleRequest H M p req s res)

theorem terminates_iff_absolute (hlast : p.getLast? ≠ some '/') :
    Terminates H p ↔
      ((∃ e id, parseTarget H p = .ok (e, id) ∧ e ≠ []) → p.head? = some '/' ∧ ¬ IsNet p) := by
  constructor
  · rintro h ⟨e, id, hparse, he⟩
    obtain ⟨root, hroot⟩ := h.loop e id hparse he
    constructor
    · by_contra hhead
      rw [rootLoop_of_relative H _ hhead hlast] at hroot
      exact absurd hroot (by simp)
    · intro hnet
      rw [rootLoop_of_isNet H _ (Or.inr hnet)] at hroot
      exact absurd hroot (by simp)
  · intro h
    constructor
    · intro e id hparse he
      obtain ⟨habs, hnet⟩ := h ⟨e, id, hparse, he⟩
      exact rootLoop_components H ⟨habs, hlast⟩ hnet
    · intro σ M req s res e id hparse
      apply handleRequest_answered M req s res hparse
      by_cases he : e = []
      · exact Or.inl he
      · right
        obtain ⟨habs, hnet⟩ := h ⟨e, id, hparse, he⟩
        obtain ⟨root, hroot, _⟩ := rootLoop_of_isTarget H (p.length + 1) ⟨habs, hlast⟩ hnet
          (Nat.lt_succ_self _)
        rw [hroot]
        exact Option.some_ne_none root

/-- The loop of `InitRoot` ends for a target of a CRUD location exactly if it is not entered or
the file path is absolute and has no root-name. -/
theorem terminates_iff (H : Host) (T : HandlerFactories) (target : Str)
    (m : RequestDispatcher.Match) (config : NginxConfig)
    (hroute : RequestDispatcher.route T target = some m)
    (hcrud : m.factory = .crudHandler config) :
    let p := FileHandlerFactory.getCompleteFilePath config m.path
    Terminates H p ↔
      ((∃ e id, parseTarget H p = .ok (e, id) ∧ e ≠ []) → p.head? = some '/' ∧ ¬ IsNet p) :=
  terminates_iff_absolute (completeFilePath_ended hroute hcrud).2

theorem terminates_iff_object :
    Terminates Demo.host "/crud/a/7".toList ↔
      ((∃ e id, parseTarget Demo.host "/crud/a/7".toList = .ok (e, id) ∧ e ≠ []) →
        "/crud/a/7".toList.head? = some '/' ∧ ¬ IsNet "/crud/a/7".toList) :=
  terminates_iff Demo.host Demo.factories "/api/a/7".toList
    ⟨"/api".toList, .crudHandler Demo.crudConfig, "a/7".toList⟩ Demo.crudConfig (by rfl) rfl

namespace Demo

/-- `root crud;`, as the README writes roots. -/
def relativeConfig : NginxConfig := [.mk ["root".toList, "crud".toList] none]

/-- `location /api CrudHandler { root crud; }` -/
def relativeFactories : HandlerFactories where
  find path :=
    if path = "/api".toList then some (.crudHandler relativeConfig)
    else if path = ['/'] then some .notFoundHandler
    else none
  top := rfl

end Demo

/-- Below a relative root the loop never ends. -/
theorem not_terminates_relative :
    RequestDispatcher.route Demo.relativeFactories "/api/a".toList =
        some ⟨"/api".toList, .crudHandler Demo.relativeConfig, "a".toList⟩ ∧
      ¬ Terminates Webserver.Demo.host
        (FileHandlerFactory.getCompleteFilePath Demo.relativeConfig "a".toList) := by
  refine ⟨by rfl, fun h => ?_⟩
  obtain ⟨root, hroot⟩ := h.loop "crud/a".toList (-1) (by rfl) (by decide)
  have hnone := rootLoop_of_relative Webserver.Demo.host (components "crud/a".toList).length
    (p := "crud/a".toList) (by decide) (by decide)
  exact absurd (hnone.symm.trans hroot) (by simp)

end CrudHandler

end Webserver

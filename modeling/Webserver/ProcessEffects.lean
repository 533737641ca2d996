import Webserver.CrudAnswers
import Webserver.Process

/-!
# What a request leaves behind

One inversion for a request of any kind, at any location, with any faults: it changes the store
of one location at most, by the directory that `InitRoot` makes and by one operation on an entity
that is in the map of the location or enters it now.
-/

set_option autoImplicit false

namespace Webserver

open FileTree FileTree.Tree CrudHandler

universe u

/-- The disk behind `InitRoot`, which makes the directory of one component. -/
def MadeTop (H : Host) (t t' : Tree) : Prop :=
  t' = t ∨ ∃ (F : Faults) (root n : Str), components root = [n] ∧
    t' = (Disk.createDir F (H.fromCwd root) t).2

section InitRoot
variable {H : Host} {t t' : Tree} (h : MadeTop H t t')
include h

theorem MadeTop.file_iff {k : Loc} {c : Str} :
    t'.node k = some (.file c) ↔ t.node k = some (.file c) := by
  rcases h with rfl | ⟨F, root, n, _, rfl⟩
  · rfl
  · unfold Disk.createDir
    split
    · rfl
    · split
      · rfl
      · exact makeDirs_file_iff isDir_root

theorem MadeTop.isDir {k : Loc} (hk : t.isDir k = true) : t'.isDir k = true := by
  rcases h with rfl | ⟨F, root, n, _, rfl⟩
  · exact hk
  · unfold Disk.createDir
    split
    · exact hk
    · split
      · exact hk
      · exact makeDirs_isDir isDir_root hk

omit h in
/-- A path that leads to a directory is not made again. -/
theorem createDir_of_walk {F : Faults} {p : Str} {l : Loc} (hw : t.walk [] (steps p) = some l)
    (hd : t.isDir l = true) : Disk.createDir F p t = (true, t) := by
  have hlookup : t.lookup (steps p) = some (.dir (t.names l)) := by
    rw [Tree.lookup, hw, Option.bind_some, node_eq_dir hd]
  simp [Disk.createDir, Disk.fileExists, Disk.isDirectory, hlookup, Node.isDir]

omit h in
/-- The parent of the working directory is there. -/
theorem createDir_dotDot {F : Faults} {root : Str} (hroot : components root = [dotDot])
    (hcwd : t.isDir H.cwdLoc = true) : Disk.createDir F (H.fromCwd root) t = (true, t) := by
  have htail : t.isDir H.cwdLoc.tail = true := isDir_of_suffix hcwd (List.tail_suffix _)
  have hdown : t.walk [] (H.cwd.map toStep) = some H.cwdLoc := by
    have hup : NoUp (H.cwd.map toStep) := noUp_map_toStep.mpr H.noDotDot_cwd
    rw [walk_of_isDir hup (by rwa [H.lexical_cwd]), H.lexical_cwd]
  refine createDir_of_walk (l := H.cwdLoc.tail) ?_ htail
  rw [steps, H.components_fromCwd, hroot, List.map_append, List.append_assoc, walk_append, hdown]
  have hstep : toStep dotDot = .up := rfl
  rw [Option.bind_some, List.map_singleton, hstep, List.singleton_append, walk, if_pos hcwd]
  dsimp only [Step.apply]
  split
  · rw [walk, if_pos htail]
    rfl
  · rfl

omit h in
theorem locOf_component {root n : Str} (hroot : components root = [n]) (hn : n ≠ dotDot) :
    H.locOf root = H.cwdLoc ∨ H.locOf root = n :: H.cwdLoc := by
  rw [Host.locOf, lexical_steps, hroot, List.map_singleton, lexical_cons, lexical_nil]
  by_cases hdot : n = dot
  · exact Or.inl (by rw [toStep, if_pos hdot]; rfl)
  · exact Or.inr (by rw [toStep, if_neg hdot, if_neg hn]; rfl)

/-- At and below a directory that is itself below the working directory nothing moves. -/
theorem MadeTop.frame {l k : Loc} (hd : t.isDir l = true) (hcwd : H.cwdLoc <:+ l)
    (hne : l ≠ H.cwdLoc) (hk : l <:+ k) : t'.node k = t.node k := by
  rcases h with rfl | ⟨F, root, n, hroot, rfl⟩
  · rfl
  by_cases hn : n = dotDot
  · rw [hn] at hroot
    rw [createDir_dotDot hroot (isDir_of_suffix hd hcwd)]
  · have hplain : NoDotDot root := by
      rw [NoDotDot, hroot, List.mem_singleton]
      exact Ne.symm hn
    rw [createDir_entity H F hplain]
    rcases makeDirAt_cases H F (e := root) t with hm | hm
    · rw [hm]
    · rw [hm]
      by_cases hk' : k <:+ H.locOf root
      · -- what is made is the directory itself, which is there
        have hloc : l = H.locOf root := by
          have hl := hk.trans hk'
          rcases locOf_component hroot hn with heq | heq
          · rw [heq] at hl
            exact absurd (hl.eq_of_length_le hcwd.length_le) hne
          · rw [heq] at hl ⊢
            refine (List.suffix_cons_iff.mp hl).resolve_right fun hl => ?_
            exact hne (hl.eq_of_length_le hcwd.length_le)
        rw [← hloc, mkdirs_of_isDir hd]
      · exact mkdirs_frame hk'

end InitRoot

section Request
variable {H : Host} {F : Faults} {f : Str} {req : Request} {s : Store Tree}

/-- Where the loop of `InitRoot` ends it ends at one component. -/
theorem components_of_rootLoop (hended : f.getLast? ≠ some '/') {root : Str}
    (hroot : rootLoop H (f.length + 1) f = some root) : ∃ n, components root = [n] := by
  by_cases habs : f.head? = some '/'
  swap
  · rw [rootLoop_of_relative H _ habs hended] at hroot
    exact absurd hroot (by simp)
  by_cases hnet : IsNet f
  · rw [rootLoop_of_isNet H _ (Or.inr hnet)] at hroot
    exact absurd hroot (by simp)
  have htarget : IsTarget f := ⟨habs, hended⟩
  obtain ⟨root', hroot', hfirst⟩ := rootLoop_of_isTarget H _ htarget hnet (Nat.lt_succ_self _)
  obtain rfl := Option.some.inj (hroot.symm.trans hroot')
  obtain ⟨d, k, n, hn, _, heq⟩ := htarget.exists_last
  rw [heq, components_slashes d k hn] at hfirst
  rw [hfirst]
  cases components d with
  | nil => exact ⟨n, rfl⟩
  | cons m ns => exact ⟨m, rfl⟩

/-- A method that creates nothing, on an entity that is not in the map. -/
theorem handleMethod_of_none {e : Str} {id : Int} (hp : parseTarget H f = .ok (e, id))
    (hids : s.ids e = none) (hpost : req.method = .post → id ≠ -1) (res : Response) :
    (handleMethod H (Disk.manager H F) f req s res).store = s := by
  have hhas (i : Int) : s.ids.has e i = false := IdMap.has_of_none hids i
  unfold handleMethod
  cases hm : req.method with
  | post => simp [handlePost, hp, hpost hm]
  | get =>
    simp only [handleGet, hp, hhas, hids, Option.isNone_none, Bool.not_false, if_true]
    split <;> rfl
  | put =>
    simp only [handlePut, hp, hhas, Bool.not_false, if_true]
    split <;> rfl
  | delete =>
    simp only [handleDelete, hp, hhas, Bool.not_false, if_true]
    split <;> rfl
  | other name => rfl

/-- The request asks for a new object of the entity. -/
def Creates (H : Host) (f : Str) (req : Request) (e : Str) : Prop :=
  req.method = .post ∧ parseTarget H f = .ok (e, -1)

theorem initRoot_madeTop (req : Request) (s : Store Tree) (hended : f.getLast? ≠ some '/') :
    ∃ t, MadeTop H s.disk t ∧
      (initRoot H (Disk.manager H F) f req s .fresh).store = { s with disk := t } := by
  rw [initRoot]
  cases parseTarget H f with
  | error a => exact ⟨s.disk, Or.inl rfl, rfl⟩
  | ok x =>
    dsimp only
    by_cases he : x.1 = []
    · exact ⟨s.disk, Or.inl rfl, by rw [if_pos he]⟩
    · rw [if_neg he]
      cases hroot : rootLoop H (f.length + 1) f with
      | none => exact ⟨s.disk, Or.inl rfl, rfl⟩
      | some root =>
        obtain ⟨n, hn⟩ := components_of_rootLoop hended hroot
        refine ⟨_, Or.inr ⟨F, root, n, hn, rfl⟩, ?_⟩
        dsimp only [Disk.manager]
        rcases Disk.createDir F (H.fromCwd root) s.disk with ⟨_ | _, t⟩ <;> rfl

/-- The inversion for a CRUD request. -/
theorem handleRequest_effect (hended : f.getLast? ≠ some '/')
    (hnew : ∀ e, Creates H f req e → NoDotDot e) (hids : ∀ e, s.ids e ≠ none → NoDotDot e) :
    ∃ t, MadeTop H s.disk t ∧
      ((CrudHandler.handleRequest H (Disk.manager H F) f req s .fresh).store =
          { s with disk := t } ∨
        ∃ e, (s.ids e ≠ none ∨ Creates H f req e) ∧ Change H e { s with disk := t }
          (CrudHandler.handleRequest H (Disk.manager H F) f req s .fresh).store) := by
  obtain ⟨t, ht, hstore⟩ := initRoot_madeTop (H := H) (F := F) req s hended
  refine ⟨t, ht, ?_⟩
  rcases initRoot_cases H (Disk.manager H F) f req s .fresh with
    ⟨e, id, root, hadmits, hinit⟩ | ⟨status, disk, hstatus, _, hinit⟩
  · rw [CrudHandler.handleRequest, hinit]
    rw [hinit] at hstore
    dsimp only at hstore
    rw [if_pos rfl, finish_store, hstore]
    by_cases hkey : s.ids e ≠ none ∨ Creates H f req e
    · have hplain : NoDotDot e := hkey.elim (hids e) (hnew e)
      have hchange := change_act H F { s with disk := t } hplain (Op.of id req)
      rw [← seen_handleMethod H F hadmits.parse hplain req, seen_store] at hchange
      exact Or.inr ⟨e, hkey, hchange⟩
    · rw [not_or, not_not] at hkey
      refine Or.inl (handleMethod_of_none (s := { s with disk := t }) hadmits.parse hkey.1 ?_ _)
      rintro hpost rfl
      exact hkey.2 ⟨hpost, hadmits.parse⟩
  · left
    rw [CrudHandler.handleRequest, if_neg (by rw [hinit]; exact hstatus), finish_store, hstore]

end Request

namespace RequestDispatcher
variable {ι : Type u} (T : HandlerFactories)

/-- The location that a request gets to. -/
def matched (a : Arrival ι) : Option Match :=
  if a.request.method ∈ [Verb.get, Verb.put, Verb.post, Verb.delete] ∧ a.request.version = 11 then
    route T a.request.target
  else none

variable {T} {H : Host} {toText : ParsedRequest → Str} {a : Arrival ι} {w : World Str}
  {res : Response} {m : Match}

theorem answerRequest_of_matched (h : matched T a = some m) :
    answerRequest H toText T a w res = m.handle H toText a w res := by
  unfold matched at h
  split at h
  · rename_i hok
    rw [answerRequest, if_neg (not_not.mpr hok.1), if_neg (not_not.mpr hok.2), h]
  · exact absurd h (by simp)

/-- A request that gets to no location is answered 400. -/
theorem answerRequest_of_not_matched (h : matched T a = none) :
    answerRequest H toText T a w res = (.ok (badRequest res), w) := by
  rw [answerRequest]
  by_cases hmethod : a.request.method ∈ [Verb.get, Verb.put, Verb.post, Verb.delete]
  · by_cases hversion : a.request.version = 11
    · rw [matched, if_pos ⟨hmethod, hversion⟩] at h
      rw [if_neg (not_not.mpr hmethod), if_neg (not_not.mpr hversion), h, hversion]
      rfl
    · rw [if_neg (not_not.mpr hmethod), if_pos hversion]
  · rw [if_pos hmethod]

theorem route_of_matched (h : matched T a = some m) :
    route T a.request.target = some m ∧ a.request.version = 11 := by
  unfold matched at h
  split at h
  · rename_i hok
    exact ⟨h, hok.2⟩
  · exact absurd h (by simp)

/-- Only a CRUD handler touches what the handlers share. -/
theorem handle_world (hcrud : ∀ config, m.factory ≠ .crudHandler config) :
    (m.handle H toText a w res).2 = w := by
  unfold Match.handle
  split <;> first | rfl | exact absurd (by assumption) (hcrud _)

end RequestDispatcher

open RequestDispatcher

/-- The request is dispatched to a CRUD location, with this file path for its handler. -/
def Arrival.IsCrud {ι : Type u} (T : HandlerFactories) (a : Arrival ι) (i f : Str) : Prop :=
  ∃ m config, matched T a = some m ∧ m.factory = .crudHandler config ∧ m.location = i ∧
    f = FileHandlerFactory.getCompleteFilePath config m.path

/-- The request asks the location `i` for a new object of the entity `e`. -/
def Arrival.Creates {ι : Type u} (H : Host) (T : HandlerFactories) (a : Arrival ι) (i e : Str) :
    Prop :=
  ∃ f, a.IsCrud T i f ∧ Webserver.Creates H f a.request.toRequest e

namespace World

/-- Every entity in the map of a location has the property. -/
def Keyed (P : Str → Str → Prop) (w : World Str) : Prop := ∀ i e, w.ids i e ≠ none → P i e

/-- What a request may do at the location `i`, where the entities in the maps have the
property. -/
def Effect (H : Host) (P : Str → Str → Prop) (i : Str) (w w' : World Str) : Prop :=
  ∃ t s, MadeTop H w.disk t ∧
    (s = ⟨t, w.ids i⟩ ∨ ∃ e, P i e ∧ Change H e ⟨t, w.ids i⟩ s) ∧ w' = w.setStore i s

variable {H : Host} {P : Str → Str → Prop} {i : Str} {w w' : World Str}

theorem keyed_initial (t : Tree) : (World.initial t).Keyed P :=
  fun _ _ h => absurd rfl h

theorem Effect.keyed (h : Effect H P i w w') (hw : w.Keyed P) : w'.Keyed P := by
  obtain ⟨t, s, _, hs, rfl⟩ := h
  intro j k hk
  rw [setStore_ids] at hk
  split at hk
  · rename_i hj
    rcases hs with rfl | ⟨e, he, hchange⟩
    · exact hj ▸ hw i k hk
    · by_cases hke : k = e
      · exact hj ▸ hke ▸ he
      · rw [hchange.ids_other hke] at hk
        exact hj ▸ hw i k hk
  · exact hw j k hk

end World

section Arrivals
variable {ι : Type u} {H : Host} {T : HandlerFactories} {a : Arrival ι} {w : World Str}
  {P : Str → Str → Prop}

theorem ended_of_isCrud {i f : Str} (h : a.IsCrud T i f) : f.getLast? ≠ some '/' := by
  obtain ⟨m, config, hm, hcrud, _, rfl⟩ := h
  exact (completeFilePath_ended (route_of_matched hm).1 hcrud).2

/-- The inversion for any request. -/
theorem answerRequest_effect (toText : ParsedRequest → Str) (hP : ∀ i e, P i e → NoDotDot e)
    (hnew : ∀ i e, a.Creates H T i e → P i e) (hw : w.Keyed P) :
    (answerRequest H toText T a w .fresh).2 = w ∨
      ∃ i f, a.IsCrud T i f ∧ w.Effect H P i (answerRequest H toText T a w .fresh).2 := by
  cases hm : matched T a with
  | none =>
    rw [answerRequest_of_not_matched hm]
    exact Or.inl rfl
  | some m =>
    rw [answerRequest_of_matched hm]
    by_cases hcrud : ∃ config, m.factory = .crudHandler config
    · obtain ⟨config, hcrud⟩ := hcrud
      have his : a.IsCrud T m.location (FileHandlerFactory.getCompleteFilePath config m.path) :=
        ⟨m, config, hm, hcrud, rfl, rfl⟩
      have hkeys (e : Str) (he : (w.store m.location).ids e ≠ none ∨
          Creates H (FileHandlerFactory.getCompleteFilePath config m.path)
            a.request.toRequest e) : P m.location e :=
        he.elim (hw m.location e) fun he => hnew m.location e ⟨_, his, he⟩
      obtain ⟨t, ht, hstore⟩ := handleRequest_effect (F := a.faults) (s := w.store m.location)
        (ended_of_isCrud his) (fun e he => hP _ e (hkeys e (Or.inr he)))
        fun e he => hP _ e (hkeys e (Or.inl he))
      refine Or.inr ⟨_, _, his, t, _, ht,
        hstore.imp id fun ⟨e, he, hchange⟩ => ⟨e, hkeys e he, hchange⟩, ?_⟩
      rw [Match.handle, hcrud]
    · left
      exact handle_world fun config h => hcrud ⟨config, h⟩

end Arrivals

namespace Process
variable {ι : Type u} {H : Host} {toText : ParsedRequest → Str} {T : HandlerFactories}
  {s s' : Process} {a : Arrival ι}

/-- A request to a CRUD location. -/
theorem respond_of_isCrud (H : Host) (toText : ParsedRequest → Str) (s : Process) {i f : Str}
    (h : a.IsCrud T i f) :
    let o := CrudHandler.handleRequest H (Disk.manager H a.faults) f a.request.toRequest
      (s.world.store i) .fresh
    s.respond H toText T a = (o.status.map fun _ => o.res, s.world.setStore i o.store) := by
  obtain ⟨hit, config, hm, hcrud, rfl, rfl⟩ := h
  rw [respond, answerRequest_of_matched hm, Match.handle, hcrud]

theorem step_eq_some (h : s.step H toText T a = some s') :
    s.up = true ∧ s'.world = (s.respond H toText T a).2 := by
  unfold step at h
  split at h
  · rename_i hup
    rw [← Option.some.inj h]
    exact ⟨hup, rfl⟩
  · exact absurd h (by simp)

end Process

end Webserver

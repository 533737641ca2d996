import Mathlib.Logic.Relation
import Webserver.CrudHandler

/-!
# How CRUD requests end

One case distinction for `InitRoot` and for each method, over any manager: the ways they fail,
with the calls made on the disk by then, and what a success has done.
-/

set_option autoImplicit false

namespace Webserver

namespace CrudHandler
variable {H : Host} {σ : Type} {M : CrudFileSystemManager σ} {filePath : Str} {req : Request}
  {s : Store σ} {res : Response}

/-- A call that stores, changes and deletes nothing: a failed one, or one that only reads or
makes a directory. -/
inductive VainCall (M : CrudFileSystemManager σ) : σ → σ → Prop where
  | createDir (p : Str) (d : σ) : VainCall M d (M.createDir p d).2
  | createFile {p content : Str} {d d' : σ} (h : M.createFile p content d = (false, d')) :
      VainCall M d d'
  | readFile (p : Str) (res : Response) (d : σ) : VainCall M d (M.readFile p res d).2
  | writeFile {p content : Str} {d d' : σ} (h : M.writeFile p content d = (false, d')) :
      VainCall M d d'
  | deleteFile {p : Str} {d d' : σ} (h : M.deleteFile p d = (false, d')) : VainCall M d d'
  | listFiles (p : Str) (d : σ) : VainCall M d (M.listFiles p d).2

abbrev VainCalls (M : CrudFileSystemManager σ) : σ → σ → Prop := Relation.ReflTransGen (VainCall M)

theorem VainCall.of_createDir {p : Str} {d d' : σ} {b : Bool} (h : M.createDir p d = (b, d')) :
    VainCall M d d' := by
  rw [show d' = (M.createDir p d).2 from (congrArg Prod.snd h).symm]
  exact .createDir p d

/-- The response as `InitRoot` leaves it. -/
def greeted (req : Request) (res : Response) : Response :=
  { res with version := req.version, server := some "webserver".toList }

/-- `InitRoot` has made the root of the target and lets the method run. -/
structure Admits (H : Host) (M : CrudFileSystemManager σ) (filePath : Str) (disk : σ) (e : Str)
    (id : Int) (root : Str) : Prop where
  parse : parseTarget H filePath = .ok (e, id)
  entity : e ≠ []
  loop : rootLoop H (filePath.length + 1) filePath = some root
  created : (M.createDir (H.fromCwd root) disk).1 = true

theorem initRoot_cases (H : Host) (M : CrudFileSystemManager σ) (filePath : Str) (req : Request)
    (s : Store σ) (res : Response) :
    (∃ e id root, Admits H M filePath s.disk e id root ∧ initRoot H M filePath req s res =
      ⟨.ok .ok, { s with disk := (M.createDir (H.fromCwd root) s.disk).2 }, greeted req res⟩) ∨
    (∃ status disk, status ≠ .ok .ok ∧ VainCalls M s.disk disk ∧
      initRoot H M filePath req s res = ⟨status, { s with disk }, greeted req res⟩) := by
  rw [initRoot]
  cases hp : parseTarget H filePath with
  | error a => exact Or.inr ⟨_, s.disk, by simp, .refl, rfl⟩
  | ok x =>
    obtain ⟨e, id⟩ := x
    dsimp only
    by_cases he : e = []
    · exact Or.inr ⟨.ok .badRequest, s.disk, by simp, .refl, by rw [if_pos he]; rfl⟩
    · rw [if_neg he]
      cases hl : rootLoop H (filePath.length + 1) filePath with
      | none => exact Or.inr ⟨_, s.disk, by simp, .refl, rfl⟩
      | some root =>
        rcases hc : M.createDir (H.fromCwd root) s.disk with ⟨_ | _, disk⟩
        · exact Or.inr ⟨.ok .internalServerError, disk, by simp, .single (.of_createDir hc),
            by simp only [hc]; rfl⟩
        · exact Or.inl ⟨e, id, root, ⟨hp, he, hl, by rw [hc]⟩, by simp only [hc]; rfl⟩

theorem handleRequest_of_admits {e : Str} {id : Int} {root : Str} {s : Store σ}
    (h : Admits H M filePath s.disk e id root) (req : Request) (res : Response) :
    handleRequest H M filePath req s res =
      finish (handleMethod H M filePath req
        { s with disk := (M.createDir (H.fromCwd root) s.disk).2 } (greeted req res)) := by
  have hinit : initRoot H M filePath req s res =
      ⟨.ok .ok, { s with disk := (M.createDir (H.fromCwd root) s.disk).2 }, greeted req res⟩ := by
    rw [initRoot]
    simp only [h.parse, if_neg h.entity, h.loop]
    rcases hc : M.createDir (H.fromCwd root) s.disk with ⟨_ | _, disk⟩
    · exact absurd (hc ▸ h.created) (by simp)
    · rfl
  rw [handleRequest]
  simp only [hinit, if_true]

theorem finish_status (o : Outcome σ) : (finish o).status = o.status := by
  unfold finish
  split <;> simp_all

theorem finish_store (o : Outcome σ) : (finish o).store = o.store := by
  unfold finish
  split <;> rfl

/-- A request that is not admitted fails. -/
theorem handleRequest_cases (H : Host) (M : CrudFileSystemManager σ) (filePath : Str)
    (req : Request) (s : Store σ) (res : Response) :
    (∃ e id root, Admits H M filePath s.disk e id root ∧ handleRequest H M filePath req s res =
      finish (handleMethod H M filePath req
        { s with disk := (M.createDir (H.fromCwd root) s.disk).2 } (greeted req res))) ∨
    (∃ status disk, status ≠ .ok .ok ∧ VainCalls M s.disk disk ∧
      handleRequest H M filePath req s res =
        finish ⟨status, { s with disk }, greeted req res⟩) := by
  rcases initRoot_cases H M filePath req s res with ⟨e, id, root, hadmits, _⟩ |
    ⟨status, disk, hstatus, hvain, he⟩
  · exact Or.inl ⟨e, id, root, hadmits, handleRequest_of_admits hadmits req res⟩
  · refine Or.inr ⟨status, disk, hstatus, hvain, ?_⟩
    rw [handleRequest, he]
    simp only [if_neg hstatus]

/-- The end of a method that fails and leaves the response alone. -/
def Fails (M : CrudFileSystemManager σ) (s : Store σ) (res : Response) (o : Outcome σ) : Prop :=
  ∃ status disk, status ≠ .ok .ok ∧ VainCalls M s.disk disk ∧ o = ⟨status, { s with disk }, res⟩

theorem Fails.of_status {status : Except Abort StatusCode} (h : status ≠ .ok .ok) :
    Fails M s res ⟨status, s, res⟩ := ⟨status, s.disk, h, .refl, rfl⟩

theorem handlePost_cases (H : Host) (M : CrudFileSystemManager σ) (filePath : Str)
    (req : Request) (s : Store σ) (res : Response) :
    Fails M s res (handlePost H M filePath req s res) ∨
    ∃ e id disk disk', parseTarget H filePath = .ok (e, -1) ∧ getNextID s.ids e = .ok id ∧
      M.createDir (H.fromCwd e) s.disk = (true, disk) ∧
      M.createFile (H.objectPath e id) req.body disk = (true, disk') ∧
      handlePost H M filePath req s res =
        ⟨.ok .ok, ⟨disk', s.ids.insert e id⟩, res.write (idBody id)⟩ := by
  rw [handlePost]
  cases hp : parseTarget H filePath with
  | error a => exact Or.inl (.of_status (by simp))
  | ok x =>
    obtain ⟨e, id⟩ := x
    dsimp only
    by_cases hid : id = -1
    · subst hid
      rw [if_neg (not_not.mpr rfl)]
      cases hn : getNextID s.ids e with
      | error a => exact Or.inl (.of_status (by simp))
      | ok next =>
        rcases hd : M.createDir (H.fromCwd e) s.disk with ⟨_ | _, disk⟩
        · exact Or.inl ⟨.ok .internalServerError, disk, by simp, .single (.of_createDir hd), rfl⟩
        · dsimp only
          rcases hf : M.createFile (H.objectPath e next) req.body disk with ⟨_ | _, disk'⟩
          · refine Or.inl ⟨.ok .internalServerError, disk', by simp, ?_, rfl⟩
            exact .tail (.single (.of_createDir hd)) (.createFile hf)
          · exact Or.inr ⟨e, next, disk, disk', rfl, hn, hd, hf, rfl⟩
    · rw [if_pos hid]
      exact Or.inl (.of_status (by simp))

/-- What a target names: nothing, a whole entity, an object not in use or one in use. -/
theorem target_cases (H : Host) (filePath : Str) (ids : IdMap) :
    (∃ a, parseTarget H filePath = .error a) ∨ (∃ e, parseTarget H filePath = .ok (e, -1)) ∨
    (∃ e id, parseTarget H filePath = .ok (e, id) ∧ id ≠ -1 ∧ ids.has e id = false) ∨
    ∃ e id, parseTarget H filePath = .ok (e, id) ∧ id ≠ -1 ∧ ids.has e id = true := by
  cases hp : parseTarget H filePath with
  | error a => exact Or.inl ⟨a, rfl⟩
  | ok x =>
    obtain ⟨e, id⟩ := x
    by_cases hid : id = -1
    · subst hid
      exact Or.inr (Or.inl ⟨e, rfl⟩)
    · cases hhas : ids.has e id with
      | false => exact Or.inr (Or.inr (Or.inl ⟨e, id, rfl, hid, hhas⟩))
      | true => exact Or.inr (Or.inr (Or.inr ⟨e, id, rfl, hid, hhas⟩))

theorem handlePut_cases (H : Host) (M : CrudFileSystemManager σ) (filePath : Str)
    (req : Request) (s : Store σ) (res : Response) :
    Fails M s res (handlePut H M filePath req s res) ∨
    ∃ e id disk, parseTarget H filePath = .ok (e, id) ∧ id ≠ -1 ∧ s.ids.has e id = true ∧
      M.writeFile (H.objectPath e id) req.body s.disk = (true, disk) ∧
      handlePut H M filePath req s res = ⟨.ok .ok, { s with disk }, res.write (idBody id)⟩ := by
  rw [handlePut]
  rcases target_cases H filePath s.ids with ⟨a, hp⟩ | ⟨e, hp⟩ | ⟨e, id, hp, hid, hhas⟩ |
    ⟨e, id, hp, hid, hhas⟩ <;> simp only [hp]
  · exact Or.inl (.of_status (by simp))
  · exact Or.inl (.of_status (by simp))
  · simp only [if_neg hid, hhas]
    exact Or.inl (.of_status (by simp))
  · simp only [if_neg hid, hhas]
    rcases hw : M.writeFile (H.objectPath e id) req.body s.disk with ⟨_ | _, disk⟩
    · exact Or.inl ⟨.ok .internalServerError, disk, by simp, .single (.writeFile hw), rfl⟩
    · exact Or.inr ⟨e, id, disk, rfl, hid, hhas, hw, rfl⟩

theorem handleDelete_cases (H : Host) (M : CrudFileSystemManager σ) (filePath : Str)
    (s : Store σ) (res : Response) :
    Fails M s res (handleDelete H M filePath s res) ∨
    ∃ e id disk, parseTarget H filePath = .ok (e, id) ∧ id ≠ -1 ∧ s.ids.has e id = true ∧
      M.deleteFile (H.objectPath e id) s.disk = (true, disk) ∧
      handleDelete H M filePath s res =
        ⟨.ok .ok, ⟨disk, s.ids.erase e id⟩, res.write (idBody id)⟩ := by
  rw [handleDelete]
  rcases target_cases H filePath s.ids with ⟨a, hp⟩ | ⟨e, hp⟩ | ⟨e, id, hp, hid, hhas⟩ |
    ⟨e, id, hp, hid, hhas⟩ <;> simp only [hp]
  · exact Or.inl (.of_status (by simp))
  · exact Or.inl (.of_status (by simp))
  · simp only [if_neg hid, hhas]
    exact Or.inl (.of_status (by simp))
  · simp only [if_neg hid, hhas]
    rcases hw : M.deleteFile (H.objectPath e id) s.disk with ⟨_ | _, disk⟩
    · exact Or.inl ⟨.ok .internalServerError, disk, by simp, .single (.deleteFile hw), rfl⟩
    · exact Or.inr ⟨e, id, disk, rfl, hid, hhas, hw, rfl⟩

/-- A GET fails like the other methods, or in a read, which may have changed the response. -/
theorem handleGet_cases (H : Host) (M : CrudFileSystemManager σ) (filePath : Str)
    (s : Store σ) (res : Response) :
    Fails M s res (handleGet H M filePath s res) ∨
    (∃ e id res' disk, parseTarget H filePath = .ok (e, id) ∧ id ≠ -1 ∧ s.ids.has e id = true ∧
      M.readFile (H.objectPath e id) res s.disk = ((false, res'), disk) ∧
      handleGet H M filePath s res = ⟨.ok .internalServerError, { s with disk }, res'⟩) ∨
    (handleGet H M filePath s res).status = .ok .ok := by
  rw [handleGet]
  cases hp : parseTarget H filePath with
  | error a => exact Or.inl (.of_status (by simp))
  | ok x =>
    obtain ⟨e, id⟩ := x
    dsimp only
    by_cases hid : id = -1
    · rw [if_neg (not_not.mpr hid)]
      by_cases hnone : (s.ids e).isNone = true
      · rw [if_pos hnone]
        exact Or.inr (Or.inr rfl)
      · rw [if_neg hnone, listEntity]
        rcases hl : M.listFiles (H.fromCwd e) s.disk with ⟨⟨_ | _, files⟩, disk⟩
        · refine Or.inl ⟨.ok .internalServerError, disk, by simp, ?_, rfl⟩
          have hcall := VainCall.listFiles (M := M) (H.fromCwd e) s.disk
          rw [hl] at hcall
          exact .single hcall
        · exact Or.inr (Or.inr rfl)
    · rw [if_pos hid]
      cases hhas : s.ids.has e id with
      | false => exact Or.inl (.of_status (by simp))
      | true =>
        simp only [Bool.not_true, Bool.false_eq_true, if_false, readObject]
        rcases hr : M.readFile (H.objectPath e id) res s.disk with ⟨⟨_ | _, res'⟩, disk⟩
        · exact Or.inr (Or.inl ⟨e, id, res', disk, rfl, hid, hhas, hr, rfl⟩)
        · exact Or.inr (Or.inr rfl)

end CrudHandler

end Webserver

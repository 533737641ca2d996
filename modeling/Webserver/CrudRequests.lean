import Webserver.CrudDisk
import Webserver.CrudOutcomes

/-!
# Requests as operations on an entity

What the methods do to the map and to the tree, once the target is parsed and with the faults
of the system calls free: one operation for each branch, and the equation that takes
`HandleMethod` to it. The operations speak of the key of an entity and of its location.
-/

set_option autoImplicit false

namespace Webserver

open FileTree FileTree.Tree Segments

abbrev Answer := Except Abort (StatusCode × Str)

/-- The answer with an error page. -/
def page (status : StatusCode) : Answer :=
  .ok (status, statusString status ++ "\n\n".toList)

def idAnswer (id : Int) : Answer := .ok (.ok, CrudHandler.idBody id)

theorem idAnswer_injective {i j : Int} (h : idAnswer i = idAnswer j) : i = j := by
  have hbody := (Prod.mk.inj (Except.ok.inj h)).2
  exact intToString_injective (List.append_cancel_left (List.append_cancel_right hbody))

theorem idAnswer_ne_page {status : StatusCode} (h : status ≠ .ok) (id : Int) :
    page status ≠ idAnswer id :=
  fun heq => h (Prod.mk.inj (Except.ok.inj heq)).1

/-- The branches of a request, by what it names and its method. -/
inductive Op where
  | post (body : Str)
  | put (id : Int) (body : Str)
  | delete (id : Int)
  | get (id : Int)
  | list
  /-- No branch of the method takes the target: the answer is 400. -/
  | refused
  /-- The target does not parse. -/
  | thrown (a : Abort)

namespace Op

def ofObject (id : Int) (req : Request) : Op :=
  match req.method with
  | .put => .put id req.body
  | .delete => .delete id
  | .get => .get id
  | .post => .refused
  | .other _ => .refused

def ofEntity (req : Request) : Op :=
  match req.method with
  | .post => .post req.body
  | .get => .list
  | .put => .refused
  | .delete => .refused
  | .other _ => .refused

/-- `-1` stands for no id. -/
def of (id : Int) (req : Request) : Op := if id = -1 then ofEntity req else ofObject id req

end Op

namespace CrudHandler

section AtEntity
variable (H : Host) (F : Faults) (e : Str)

/-- The files a directory iterator finds. -/
def filesAt (t : Tree) : List Name :=
  (H.readdir (t.names (H.locOf e))).filter fun n => t.isFile (n :: H.locOf e)

/-- `CreateDir` on the entity. -/
def makeDirAt (t : Tree) : Bool × Tree :=
  if t.isDir (H.locOf e) then (true, t)
  else if F.createDirectories (H.fromCwd e) then (false, t)
  else ((t.mkdirs (H.locOf e)).2, (t.mkdirs (H.locOf e)).1)

def postAt (body : Str) (s : Store Tree) : Answer × Store Tree :=
  match getNextID s.ids e with
  | .error a => (.error a, s)
  | .ok id =>
    match makeDirAt H F e s.disk with
    | (false, t) => (page .internalServerError, { s with disk := t })
    | (true, t) =>
      if (t.node (Disk.objectLoc H e id)).isNone && t.isDir (H.locOf e) &&
          !F.openOut (H.objectPath e id) then
        (idAnswer id, ⟨t.put (intToString id) (H.locOf e)
          (.file (Disk.written F (H.objectPath e id) body)), s.ids.insert e id⟩)
      else (page .internalServerError, { s with disk := t })

def putAt (id : Int) (body : Str) (s : Store Tree) : Answer × Store Tree :=
  if !s.ids.has e id then (page .notFound, s)
  else if s.disk.isFile (Disk.objectLoc H e id) && !F.openOut (H.objectPath e id) then
    (idAnswer id, { s with
      disk := s.disk.write (Disk.objectLoc H e id)
        (Disk.written F (H.objectPath e id) body) })
  else (page .internalServerError, s)

def deleteAt (id : Int) (s : Store Tree) : Answer × Store Tree :=
  if !s.ids.has e id then (page .notFound, s)
  else if (s.disk.node (Disk.objectLoc H e id)).any Node.isLeaf &&
      !F.remove (H.objectPath e id) then
    (idAnswer id, ⟨Disk.dropDir H F e id (s.disk.unlink (intToString id) (H.locOf e)),
      s.ids.erase e id⟩)
  else (page .internalServerError, s)

/-- The answer of `ReadFile` on an opened file. -/
def readAnswer (id : Int) (content : Str) : Answer :=
  match readChunks (F.read (H.objectPath e id)) 0 (IfStream.opened content) [] with
  | (true, body) => .ok (.ok, body)
  | (false, body) =>
    .ok (.internalServerError, body ++ (statusString .internalServerError ++ "\n\n".toList))

def readAt (id : Int) (t : Tree) : Answer :=
  if F.openIn (H.objectPath e id) then page .internalServerError
  else
    match t.node (Disk.objectLoc H e id) with
    | some (.file content) => readAnswer H F e id content
    | _ => page .internalServerError

def getAt (id : Int) (s : Store Tree) : Answer :=
  if !s.ids.has e id then page .notFound else readAt H F e id s.disk

/-- The listing behind the check for an unknown entity. -/
def scanAt (t : Tree) : Answer :=
  if t.isDir (H.locOf e) then .ok (.ok, listBody (filesAt H e t)) else page .internalServerError

def listAt (s : Store Tree) : Answer :=
  if (s.ids e).isNone then .ok (.ok, "[]\n\n".toList) else scanAt H e s.disk

def act : Op → Store Tree → Answer × Store Tree
  | .post body, s => postAt H F e body s
  | .put id body, s => putAt H F e id body s
  | .delete id, s => deleteAt H F e id s
  | .get id, s => (getAt H F e id s, s)
  | .list, s => (listAt H e s, s)
  | .refused, s => (page .badRequest, s)
  | .thrown a, s => (.error a, s)

end AtEntity

/-- An outcome as the client sees it. -/
def seen (o : Outcome Tree) : Answer × Store Tree := ((finish o).answer, (finish o).store)

theorem seen_store (o : Outcome Tree) : (seen o).2 = o.store := finish_store o

/-- A fresh response as `InitRoot` leaves it. -/
def started (req : Request) : Response := greeted req .fresh

theorem seen_page {status : StatusCode} (h : status ≠ .ok) (s : Store Tree) (req : Request) :
    seen ⟨.ok status, s, started req⟩ = (page status, s) := by
  cases status <;> first | exact absurd rfl h | rfl

section Methods
variable (H : Host) (F : Faults) {filePath e : Str} {id : Int}
  (hp : parseTarget H filePath = .ok (e, id)) (he : NoDotDot e) (req : Request) (s : Store Tree)

include he in
theorem createDir_entity (t : Tree) :
    Disk.createDir F (H.fromCwd e) t = makeDirAt H F e t := by
  rw [Disk.createDir_eq F t (H.noDotDot_fromCwd he), H.lexical_fromCwd, makeDirAt]

include he in
theorem listFiles_entity (t : Tree) :
    Disk.listFiles H (H.fromCwd e) t =
      if t.isDir (H.locOf e) then (true, filesAt H e t) else (false, []) := by
  rw [Disk.listFiles_eq H t (H.noDotDot_fromCwd he), H.lexical_fromCwd, filesAt]

include hp he

theorem seen_handlePost (hid : id = -1) :
    seen (handlePost H (Disk.manager H F) filePath req s (started req)) =
      postAt H F e req.body s := by
  simp only [handlePost, hp, hid, ne_eq, not_true_eq_false, if_false, Disk.manager,
    createDir_entity H F he, postAt]
  cases getNextID s.ids e with
  | error a => rfl
  | ok id =>
    rcases makeDirAt H F e s.disk with ⟨_ | _, t⟩
    · rfl
    · simp only [Disk.createFile_eq H F id req.body t he]
      cases (t.node (Disk.objectLoc H e id)).isNone && t.isDir (H.locOf e) &&
        !F.openOut (H.objectPath e id) <;> rfl

theorem seen_handlePut (hid : id ≠ -1) :
    seen (handlePut H (Disk.manager H F) filePath req s (started req)) =
      putAt H F e id req.body s := by
  simp only [handlePut, hp, if_neg hid, Disk.manager, Disk.writeFile_eq H F id req.body s.disk he,
    putAt]
  cases s.ids.has e id with
  | false => rfl
  | true =>
    cases s.disk.isFile (Disk.objectLoc H e id) && !F.openOut (H.objectPath e id) <;> rfl

theorem seen_handleDelete (hid : id ≠ -1) :
    seen (handleDelete H (Disk.manager H F) filePath s (started req)) =
      deleteAt H F e id s := by
  simp only [handleDelete, hp, if_neg hid, Disk.manager, Disk.deleteFile_eq H F id s.disk he,
    deleteAt]
  cases s.ids.has e id with
  | false => rfl
  | true =>
    cases (s.disk.node (Disk.objectLoc H e id)).any Node.isLeaf &&
      !F.remove (H.objectPath e id) <;> rfl

omit hp in
theorem seen_readObject :
    seen (readObject H (Disk.manager H F) e id s (started req)) =
      (readAt H F e id s.disk, s) := by
  simp only [readObject, Disk.manager, Disk.readFile_eq H F id s.disk he, readAt, readAnswer]
  cases F.openIn (H.objectPath e id) with
  | true => rfl
  | false =>
    rcases s.disk.node (Disk.objectLoc H e id) with _ | ⟨ns | content⟩
    · rfl
    · rfl
    · simp only [started, greeted, Response.fresh]
      rcases readChunks (F.read (H.objectPath e id)) 0 (IfStream.opened content) []
        with ⟨_ | _, body⟩ <;> rfl

omit hp in
theorem seen_listEntity :
    seen (listEntity H (Disk.manager H F) e s (started req)) = (scanAt H e s.disk, s) := by
  simp only [listEntity, Disk.manager, listFiles_entity H he, scanAt]
  cases s.disk.isDir (H.locOf e) <;> rfl

theorem seen_handleGet :
    seen (handleGet H (Disk.manager H F) filePath s (started req)) =
      (if id = -1 then listAt H e s else getAt H F e id s, s) := by
  simp only [handleGet, hp, getAt, listAt]
  by_cases hid : id = -1
  · rw [if_neg (not_not_intro hid), if_pos hid]
    cases h : (s.ids e).isNone with
    | true => rfl
    | false => exact seen_listEntity H F he req s
  · rw [if_pos hid, if_neg hid]
    cases h : s.ids.has e id with
    | false => rfl
    | true => exact seen_readObject H F he req s

/-- The equation of the methods. -/
theorem seen_handleMethod :
    seen (handleMethod H (Disk.manager H F) filePath req s (started req)) =
      act H F e (Op.of id req) s := by
  unfold handleMethod Op.of
  by_cases hid : id = -1
  · rw [if_pos hid, Op.ofEntity]
    cases req.method with
    | post => exact seen_handlePost H F hp he req s hid
    | get =>
      have hget := seen_handleGet H F hp he req s
      rwa [if_pos hid] at hget
    | put =>
      simp only [handlePut, hp, if_pos hid]
      exact seen_page (by decide) s req
    | delete =>
      simp only [handleDelete, hp, if_pos hid]
      exact seen_page (by decide) s req
    | other name => exact seen_page (by decide) s req
  · rw [if_neg hid, Op.ofObject]
    cases req.method with
    | put => exact seen_handlePut H F hp he req s hid
    | delete => exact seen_handleDelete H F hp he req s hid
    | get =>
      have hget := seen_handleGet H F hp he req s
      rwa [if_neg hid] at hget
    | post =>
      simp only [handlePost, hp, ne_eq, hid, not_false_eq_true, if_true]
      exact seen_page (by decide) s req
    | other name => exact seen_page (by decide) s req

end Methods

end CrudHandler

end Webserver

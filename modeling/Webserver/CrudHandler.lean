import Mathlib.Data.Finset.Card
import Mathlib.Data.Finset.Erase
import Webserver.CrudFileSystemManager

/-!
# CrudHandler

One definition for each method of the class, over any manager. The state they share is the
disk and the map from entities to the ids in use; `HandleGet` is cut where the source takes
and releases no lock, so that its parts can also run apart.
-/

set_option autoImplicit false

namespace Webserver

/-- `entity_to_id_`. -/
abbrev IdMap := Str → Option (Finset Int)

namespace IdMap

def has (ids : IdMap) (entity : Str) (id : Int) : Bool := (ids entity).any fun s => id ∈ s

def insert (ids : IdMap) (entity : Str) (id : Int) : IdMap :=
  Function.update ids entity (some (Insert.insert id ((ids entity).getD ∅)))

def erase (ids : IdMap) (entity : Str) (id : Int) : IdMap :=
  Function.update ids entity (some (((ids entity).getD ∅).erase id))

def empty : IdMap := fun _ => none

theorem has_iff {ids : IdMap} {entity : Str} {id : Int} :
    ids.has entity id = true ↔ ∃ s, ids entity = some s ∧ id ∈ s := by
  cases h : ids entity <;> simp [has, h]

end IdMap

structure Store (σ : Type) where
  disk : σ
  ids : IdMap

/-- What a method leaves: its status or what escaped from it, the state and the response. -/
structure Outcome (σ : Type) where
  status : Except Abort StatusCode
  store : Store σ
  res : Response

namespace Outcome
variable {σ : Type}

/-- What the client sees. -/
def answer (o : Outcome σ) : Except Abort (StatusCode × Str) :=
  o.status.map fun _ => (o.res.result, o.res.body)

end Outcome

namespace CrudHandler

/-- `ReturnError`. -/
def returnError (status : StatusCode) (res : Response) : Response :=
  { ({ res with result := status }.write (statusString status ++ "\n\n".toList)).preparePayload with
    contentType := some "text/HTML".toList }

/-- The loop of `GetNextID`; the first argument counts the values of `next_id` up to `size()`. -/
def nextIdLoop (s : Finset Int) : Nat → Int → Except Abort Int
  | 0, nextId => .ok nextId
  | k + 1, nextId =>
    if nextId ∉ s then .ok nextId
    else if nextId = intMax then .error .intOverflow
    else nextIdLoop s k (nextId + 1)

def getNextID (ids : IdMap) (entity : Str) : Except Abort Int :=
  match ids entity with
  | none => .ok 1
  | some s => nextIdLoop s s.card 1

def idBody (id : Int) : Str := "\x7b\"id\": ".toList ++ intToString id ++ "\x7d\n\n".toList

/-- The JSON list: the names with ", " behind each, and the last two characters cut off. -/
def listBody (files : List Str) : Str :=
  let body := files.foldl (fun body file => body ++ (file ++ ", ".toList)) "[".toList
  (if body.length > 1 then body.take (body.length - 2) else body) ++ "]\n\n".toList

section Methods
variable (H : Host) {σ : Type} (M : CrudFileSystemManager σ)

/-- The entity and the id of a request, `-1` for no id. -/
def parseTarget (filePath : Str) : Except Abort (Str × Int) :=
  if onlyDigits (H.filename filePath) then
    match stoi (H.filename filePath) with
    | .ok id => .ok (H.parentPath filePath, id)
    | .error a => .error a
  else .ok (filePath, -1)

def handlePost (filePath : Str) (req : Request) (s : Store σ) (res : Response) : Outcome σ :=
  match parseTarget H filePath with
  | .error a => ⟨.error a, s, res⟩
  | .ok (entity, id) =>
    if id ≠ -1 then ⟨.ok .badRequest, s, res⟩
    else
      match getNextID s.ids entity with
      | .error a => ⟨.error a, s, res⟩
      | .ok id =>
        match M.createDir (H.fromCwd entity) s.disk with
        | (false, disk) => ⟨.ok .internalServerError, { s with disk }, res⟩
        | (true, disk) =>
          match M.createFile (H.objectPath entity id) req.body disk with
          | (false, disk) => ⟨.ok .internalServerError, { s with disk }, res⟩
          | (true, disk) => ⟨.ok .ok, ⟨disk, s.ids.insert entity id⟩, res.write (idBody id)⟩

def handlePut (filePath : Str) (req : Request) (s : Store σ) (res : Response) : Outcome σ :=
  match parseTarget H filePath with
  | .error a => ⟨.error a, s, res⟩
  | .ok (entity, id) =>
    if id = -1 then ⟨.ok .badRequest, s, res⟩
    else if !s.ids.has entity id then ⟨.ok .notFound, s, res⟩
    else
      match M.writeFile (H.objectPath entity id) req.body s.disk with
      | (false, disk) => ⟨.ok .internalServerError, { s with disk }, res⟩
      | (true, disk) => ⟨.ok .ok, { s with disk }, res.write (idBody id)⟩

def handleDelete (filePath : Str) (s : Store σ) (res : Response) : Outcome σ :=
  match parseTarget H filePath with
  | .error a => ⟨.error a, s, res⟩
  | .ok (entity, id) =>
    if id = -1 then ⟨.ok .badRequest, s, res⟩
    else if !s.ids.has entity id then ⟨.ok .notFound, s, res⟩
    else
      match M.deleteFile (H.objectPath entity id) s.disk with
      | (false, disk) => ⟨.ok .internalServerError, { s with disk }, res⟩
      | (true, disk) => ⟨.ok .ok, ⟨disk, s.ids.erase entity id⟩, res.write (idBody id)⟩

/-- The part of `HandleGet` under the shared lock. -/
def readObject (entity : Str) (id : Int) (s : Store σ) (res : Response) : Outcome σ :=
  match M.readFile (H.objectPath entity id) res s.disk with
  | ((false, res), disk) => ⟨.ok .internalServerError, { s with disk }, res⟩
  | ((true, res), disk) => ⟨.ok .ok, { s with disk }, res⟩

/-- The part of `HandleGet` behind the check for an unknown entity. -/
def listEntity (entity : Str) (s : Store σ) (res : Response) : Outcome σ :=
  match M.listFiles (H.fromCwd entity) s.disk with
  | ((false, _), disk) => ⟨.ok .internalServerError, { s with disk }, res⟩
  | ((true, files), disk) => ⟨.ok .ok, { s with disk }, res.write (listBody files)⟩

def handleGet (filePath : Str) (s : Store σ) (res : Response) : Outcome σ :=
  match parseTarget H filePath with
  | .error a => ⟨.error a, s, res⟩
  | .ok (entity, id) =>
    if id ≠ -1 then
      if !s.ids.has entity id then ⟨.ok .notFound, s, res⟩
      else readObject H M entity id s res
    else if (s.ids entity).isNone then ⟨.ok .ok, s, res.write "[]\n\n".toList⟩
    else listEntity H M entity s res

/-- `HandleGet` up to where it waits for the lock, or turns to the directory: what it answers
without either, if it does. -/
def getLookup (filePath : Str) (s : Store σ) (res : Response) : Option (Outcome σ) :=
  match parseTarget H filePath with
  | .error a => some ⟨.error a, s, res⟩
  | .ok (entity, id) =>
    if id ≠ -1 then if !s.ids.has entity id then some ⟨.ok .notFound, s, res⟩ else none
    else if (s.ids entity).isNone then some ⟨.ok .ok, s, res.write "[]\n\n".toList⟩ else none

/-- The rest of `HandleGet`, which does not look at the map again. -/
def getAccess (filePath : Str) (s : Store σ) (res : Response) : Outcome σ :=
  match parseTarget H filePath with
  | .error a => ⟨.error a, s, res⟩
  | .ok (entity, id) =>
    if id ≠ -1 then readObject H M entity id s res else listEntity H M entity s res

/-- With nothing in between the two parts are `HandleGet`. -/
theorem handleGet_eq (filePath : Str) (s : Store σ) (res : Response) :
    handleGet H M filePath s res =
      (getLookup H filePath s res).getD (getAccess H M filePath s res) := by
  unfold handleGet getLookup getAccess
  cases parseTarget H filePath with
  | error a => rfl
  | ok x =>
    obtain ⟨entity, id⟩ := x
    dsimp only
    split
    · split <;> rfl
    · split <;> rfl

def handleMethod (filePath : Str) (req : Request) (s : Store σ) (res : Response) : Outcome σ :=
  match req.method with
  | .post => handlePost H M filePath req s res
  | .get => handleGet H M filePath s res
  | .put => handlePut H M filePath req s res
  | .delete => handleDelete H M filePath s res
  | .other _ => ⟨.ok .badRequest, s, res⟩

/-- The loop of `InitRoot`. Every round but those at the empty path shortens the path, so with
as many rounds as the path has characters `none` means that the loop never ends. -/
def rootLoop : Nat → Str → Option Str
  | 0, _ => none
  | k + 1, root =>
    if H.parentPath root = ['/'] then some root else rootLoop k (H.parentPath root)

def initRoot (filePath : Str) (req : Request) (s : Store σ) (res : Response) : Outcome σ :=
  let res := { res with version := req.version, server := some "webserver".toList }
  match parseTarget H filePath with
  | .error a => ⟨.error a, s, res⟩
  | .ok (entity, _) =>
    if entity = [] then ⟨.ok .badRequest, s, res⟩
    else
      match rootLoop H (filePath.length + 1) filePath with
      | none => ⟨.error .diverges, s, res⟩
      | some root =>
        match M.createDir (H.fromCwd root) s.disk with
        | (false, disk) => ⟨.ok .internalServerError, { s with disk }, res⟩
        | (true, disk) => ⟨.ok .ok, { s with disk }, res⟩

/-- The end of `HandleRequest`: the error page, or the headers of a success. -/
def finish (o : Outcome σ) : Outcome σ :=
  match o.status with
  | .error _ => o
  | .ok .ok =>
    { o with res := { { o.res with result := .ok }.preparePayload with
        contentType := some "application/json".toList } }
  | .ok status => { o with res := returnError status o.res }

def handleRequest (filePath : Str) (req : Request) (s : Store σ) (res : Response) : Outcome σ :=
  let o := initRoot H M filePath req s res
  if o.status = .ok .ok then finish (handleMethod H M filePath req o.store o.res) else finish o

/-- What the client is sent, and what is left behind, when a handler runs from its creation to
its end with nothing in between. -/
def serve (filePath : Str) (req : Request) (s : Store σ) : Except Abort (StatusCode × Str) × Store σ :=
  ((handleRequest H M filePath req s .fresh).answer, (handleRequest H M filePath req s .fresh).store)

end Methods

end CrudHandler

end Webserver

import Webserver.BoostFilesystem
import Webserver.Http

/-!
# CrudFileSystemManager

The virtual class is a record of operations over some disk state, so that the handler can be
given the manager of the disk below, a mock, or one that records its calls. On the disk every
call of the system may be told to fail: it then reports failure and has no effect, except
that a failing write keeps a prefix.
-/

set_option autoImplicit false

namespace Webserver

open FileTree

structure CrudFileSystemManager (σ : Type) where
  createDir : Str → σ → Bool × σ
  createFile : Str → Str → σ → Bool × σ
  readFile : Str → Response → σ → (Bool × Response) × σ
  writeFile : Str → Str → σ → Bool × σ
  deleteFile : Str → σ → Bool × σ
  listFiles : Str → σ → (Bool × List Str) × σ

/-- Which system calls fail, by path. The overloads without an `error_code`, `exists`,
`is_directory`, `is_regular_file`, `file_size` and `directory_iterator`, do not throw. -/
structure Faults where
  createDirectories : Str → Bool
  openOut : Str → Bool
  /-- The number of characters written before `badbit`. -/
  write : Str → Option Nat
  openIn : Str → Bool
  /-- The outcome of the `i`-th read. -/
  read : Str → Nat → Option Nat
  remove : Str → Bool

def Faults.none : Faults where
  createDirectories _ := false
  openOut _ := false
  write _ := Option.none
  openIn _ := false
  read _ _ := Option.none
  remove _ := false

@[simp] theorem Faults.none_openOut (p : Str) : Faults.none.openOut p = false := rfl

@[simp] theorem Faults.none_openIn (p : Str) : Faults.none.openIn p = false := rfl

@[simp] theorem Faults.none_remove (p : Str) : Faults.none.remove p = false := rfl

namespace Disk

def fileExists (t : Tree) (p : Str) : Bool := (t.lookup (steps p)).isSome

def isDirectory (t : Tree) (p : Str) : Bool := (t.lookup (steps p)).any Node.isDir

def isRegularFile (t : Tree) (p : Str) : Bool := (t.lookup (steps p)).any Node.isFile

/-- Opening an `ofstream`: the file is created or truncated. -/
def openOut (F : Faults) (p : Str) (t : Tree) : Option (Tree × Loc) :=
  if F.openOut p then none
  else
    match t.walk [] (steps p) with
    | none => none
    | some l =>
      match t.node l, l with
      | some (.file _), _ => some (t.write l [], l)
      | none, n :: k => some (t.put n k (.file []), l)
      | _, _ => none

/-- What reaches the file of `file << content; file.close()`. -/
def written (F : Faults) (p content : Str) : Str :=
  match F.write p with
  | none => content
  | some k => content.take k

@[simp] theorem written_none (p content : Str) : written Faults.none p content = content := rfl

/-- `remove(p, ec)`; the second part tells that no error was set. -/
def removePath (F : Faults) (p : Str) (t : Tree) : Tree × Bool :=
  if F.remove p then (t, false) else t.remove ((components p).map toStep)

def createDir (F : Faults) (p : Str) (t : Tree) : Bool × Tree :=
  if fileExists t p && isDirectory t p then (true, t)
  else if F.createDirectories p then (false, t)
  else ((t.makeDirs [] (steps p)).2, (t.makeDirs [] (steps p)).1)

def createFile (F : Faults) (p content : Str) (t : Tree) : Bool × Tree :=
  if fileExists t p then (false, t)
  else
    match openOut F p t with
    | some (t', l) => (true, t'.write l (written F p content))
    | none => (false, t)

/-- A directory can be opened but not read. -/
def readFile (F : Faults) (p : Str) (res : Response) (t : Tree) : Bool × Response :=
  if F.openIn p then (false, res)
  else
    match t.lookup (steps p) with
    | none => (false, res)
    | some (.dir _) => (false, res)
    | some (.file content) =>
      ((readChunks (F.read p) 0 (IfStream.opened content) res.body).1,
        { res with body := (readChunks (F.read p) 0 (IfStream.opened content) res.body).2 })

def writeFile (F : Faults) (p content : Str) (t : Tree) : Bool × Tree :=
  if !fileExists t p then (false, t)
  else
    match openOut F p t with
    | some (t', l) => (true, t'.write l (written F p content))
    | none => (false, t)

def listFiles (H : Host) (p : Str) (t : Tree) : Bool × List Str :=
  match t.walk [] (steps p) with
  | none => (false, [])
  | some l =>
    if t.isDir l then (true, (H.readdir (t.names l)).filter fun n => t.isFile (n :: l))
    else (false, [])

def deleteFile (H : Host) (F : Faults) (p : Str) (t : Tree) : Bool × Tree :=
  if !fileExists t p then (false, t)
  else
    if (removePath F p t).2 &&
        (listFiles H (H.parentPath p) (removePath F p t).1).2.length == 0 then
      -- the last file of the entity is gone: its directory goes too, if it can
      (true, (removePath F (H.parentPath p) (removePath F p t).1).1)
    else ((removePath F p t).2, (removePath F p t).1)

/-- The manager of the server's disk. -/
def manager (H : Host) (F : Faults) : CrudFileSystemManager Tree where
  createDir := createDir F
  createFile := createFile F
  readFile p res t := (readFile F p res t, t)
  writeFile := writeFile F
  deleteFile := deleteFile H F
  listFiles p t := (listFiles H p t, t)

end Disk

end Webserver

import Webserver.CrudFileSystemManager

/-!
# StaticHandler

The guard on privileged directories, the headers and the body. The guard compares the
components of the path as it is spelled; the file is opened by what the spelling leads to.
-/

set_option autoImplicit false

namespace Webserver

open FileTree

/-- `privileged_dirs.h`. -/
def privilegedDirs : List Str := ["/etc".toList, "/usr/bin".toList]

namespace StaticHandler

def maxFileSize : Nat := 10485760

/-- The loop that compares the paths level by level until the parent is exhausted. -/
def sameLevels : List Str → List Str → Bool
  | [], _ => true
  | _ :: _, [] => false
  | p :: ps, c :: cs => if p ≠ c then false else sameLevels ps cs

section Guard
variable (H : Host)

def isParentDir (parentPath childPath : Str) : Bool :=
  if (H.elements parentPath).length > (H.elements childPath).length then false
  else sameLevels (H.elements parentPath) (H.elements childPath)

def isInPrivilegedDirectory (filePath : Str) : Bool :=
  privilegedDirs.any fun dir => isParentDir H (H.absolute dir) (H.absolute filePath)

end Guard

/-- The content type by extension. -/
def contentType (extension : Str) : Str :=
  if extension = ".txt".toList then "text/plain".toList
  else if extension = ".jpg".toList ∨ extension = ".jpeg".toList then "image/jpeg".toList
  else if extension = ".png".toList then "image/png".toList
  else if extension = ".pdf".toList then "application/pdf".toList
  else if extension = ".html".toList ∨ extension = ".htm".toList then "text/html".toList
  else if extension = ".zip".toList then "application/zip".toList
  else "application/octet-stream".toList

/-- The content of the file a path leads to. -/
def fileContent (t : Tree) (p : Str) : Option Str :=
  match t.lookup (steps p) with
  | some (.file content) => some content
  | _ => none

/-- `file_size` of a regular file. -/
def fileSize (t : Tree) (p : Str) : Nat := ((fileContent t p).getD []).length

section Methods
variable (H : Host) (F : Faults) (t : Tree) (filePath : Str) (req : Request) (res : Response)

def setHeaders : StatusCode × Response :=
  let res := { res with version := req.version }
  if isInPrivilegedDirectory H filePath then (.forbidden, { res with result := .forbidden })
  else if !Disk.isRegularFile t filePath then (.notFound, { res with result := .notFound })
  else if fileSize t filePath > maxFileSize - 1 then (.badRequest, { res with result := .badRequest })
  else
    (.ok, { res with
      result := .ok
      contentType := some (contentType (H.extension filePath))
      server := some "webserver".toList })

/-- The stream of a file that is opened; a file that is refused leaves one that is not good. -/
def openStream (filePath : Str) : IfStream :=
  match if F.openIn filePath then none else fileContent t filePath with
  | some content => IfStream.opened content
  | none => ⟨[], false, true, false⟩

def handleRequest : StatusCode × Response :=
  let filePath := H.fromCwd filePath
  match setHeaders H t filePath req res with
  | (.ok, res) =>
    match readChunks (F.read filePath) 0 (openStream F t filePath) res.body with
    | (true, body) => (.ok, { res with body }.preparePayload)
    | (false, body) => (.internalServerError, { res with body })
  | (status, res) =>
    (status, { (res.write (statusString status)).preparePayload with
      contentType := some "text/HTML".toList })

end Methods

section Equations
variable {H : Host} {F : Faults} {t : Tree} {filePath : Str} {req : Request} {res : Response}

theorem sameLevels_iff {ps cs : List Str} : sameLevels ps cs = true ↔ ps <+: cs := by
  induction ps generalizing cs with
  | nil => simp [sameLevels]
  | cons p ps ih =>
    cases cs with
    | nil => simp [sameLevels]
    | cons c cs =>
      rw [sameLevels, List.cons_prefix_cons]
      by_cases h : p = c
      · simp [h, ih]
      · simp [h]

theorem isParentDir_iff {parent child : Str} :
    isParentDir H parent child = true ↔ H.elements parent <+: H.elements child := by
  unfold isParentDir
  split
  · rename_i hlen
    refine iff_of_false Bool.false_ne_true fun h => ?_
    have hle := h.length_le
    omega
  · exact sameLevels_iff

theorem fileContent_eq_some {p content : Str} :
    fileContent t p = some content ↔ t.lookup (steps p) = some (.file content) := by
  unfold fileContent
  rcases t.lookup (steps p) with _ | ⟨ns | c⟩ <;> simp

theorem isRegularFile_eq (p : Str) : Disk.isRegularFile t p = (fileContent t p).isSome := by
  unfold Disk.isRegularFile fileContent
  rcases t.lookup (steps p) with _ | ⟨ns | c⟩ <;> rfl

/-- What passes the checks is a regular file, not too large, outside the guard. -/
theorem setHeaders_ok_iff : (setHeaders H t filePath req res).1 = .ok ↔
    isInPrivilegedDirectory H filePath = false ∧
      ∃ content, fileContent t filePath = some content ∧ content.length ≤ maxFileSize - 1 := by
  unfold setHeaders
  rw [isRegularFile_eq, fileSize]
  dsimp only
  cases isInPrivilegedDirectory H filePath with
  | true => simp
  | false =>
    cases fileContent t filePath with
    | none => simp
    | some content =>
      by_cases hlen : content.length > maxFileSize - 1
      · simp [hlen]
      · simp [hlen, Nat.le_of_not_gt hlen]

theorem setHeaders_of_handleRequest (h : (handleRequest H F t filePath req res).1 = .ok) :
    (setHeaders H t (H.fromCwd filePath) req res).1 = .ok := by
  unfold handleRequest at h
  dsimp only at h
  rcases hs : setHeaders H t (H.fromCwd filePath) req res with ⟨_ | _ | _ | _ | _, res'⟩ <;>
    simp_all

/-- On a disk without faults the whole file is served. -/
theorem handleRequest_served (h : (setHeaders H t (H.fromCwd filePath) req res).1 = .ok)
    {content : Str} (hcontent : fileContent t (H.fromCwd filePath) = some content) :
    (handleRequest H Faults.none t filePath req res).1 = .ok ∧
      (handleRequest H Faults.none t filePath req res).2.body =
        (setHeaders H t (H.fromCwd filePath) req res).2.body ++ content := by
  unfold handleRequest
  dsimp only
  rcases hs : setHeaders H t (H.fromCwd filePath) req res with ⟨status, res'⟩
  rw [hs] at h
  obtain rfl : status = .ok := h
  have hread := readChunks_none 0 content res'.body
  simp only [openStream, Faults.none_openIn, hcontent]
  rw [show Faults.none.read (H.fromCwd filePath) = fun _ => none from rfl]
  simp [hread]

theorem setHeaders_body : (setHeaders H t filePath req res).2.body = res.body := by
  unfold setHeaders
  dsimp only
  split
  · rfl
  · split
    · rfl
    · split <;> rfl

end Equations

end StaticHandler

end Webserver

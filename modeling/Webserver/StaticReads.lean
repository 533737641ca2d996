import Webserver.PosixHost
import Webserver.StaticHandler

/-!
# What a static response carries

The status, the headers and the body that a static handler leaves, for every outcome of opening
and reading the file. A file that is refused is answered like an empty one, and a read that sets
`badbit` leaves the status 200 that was set before the file was opened.
-/

set_option autoImplicit false

namespace Webserver

open FileTree FileTree.Tree

namespace StaticHandler
variable {H : Host} {F : Faults} {t : Tree} {filePath p : Str} {req : Request} {res : Response}

/-- The file passes the checks that are made before it is opened. -/
def Passes (H : Host) (t : Tree) (p content : Str) : Prop :=
  isInPrivilegedDirectory H p = false ∧ fileContent t p = some content ∧
    content.length ≤ maxFileSize - 1

theorem setHeaders_result : (setHeaders H t p req res).2.result = (setHeaders H t p req res).1 := by
  unfold setHeaders
  dsimp only
  split
  · rfl
  · split
    · rfl
    · split <;> rfl

/-- The four ways a request ends. -/
theorem handleRequest_cases (H : Host) (F : Faults) (t : Tree) (filePath : Str) (req : Request)
    (res : Response) :
    ((∀ content, ¬ Passes H t (H.fromCwd filePath) content) ∧ ∃ status res', status ≠ .ok ∧
      handleRequest H F t filePath req res = (status, res') ∧ res'.result = status ∧
      res'.body = res.body ++ statusString status ∧
      res'.contentLength = some res'.body.length) ∨
    (∃ content, Passes H t (H.fromCwd filePath) content ∧
      ((F.openIn (H.fromCwd filePath) = true ∧ ∃ res',
          handleRequest H F t filePath req res = (.ok, res') ∧ res'.result = .ok ∧
          res'.body = res.body ∧ res'.contentLength = some res'.body.length) ∨
        (F.openIn (H.fromCwd filePath) = false ∧
          (∀ d, ¬ Torn (F.read (H.fromCwd filePath)) content d) ∧ ∃ res',
          handleRequest H F t filePath req res = (.ok, res') ∧ res'.result = .ok ∧
          res'.body = res.body ++ content ∧ res'.contentLength = some res'.body.length) ∨
        (F.openIn (H.fromCwd filePath) = false ∧
          ∃ d, Torn (F.read (H.fromCwd filePath)) content d ∧ ∃ res',
          handleRequest H F t filePath req res = (.internalServerError, res') ∧
          res'.result = .ok ∧ res'.body = res.body ++ d))) := by
  have hbody : (setHeaders H t (H.fromCwd filePath) req res).2.body = res.body := setHeaders_body
  have hresult : (setHeaders H t (H.fromCwd filePath) req res).2.result =
      (setHeaders H t (H.fromCwd filePath) req res).1 := setHeaders_result
  have hok : (setHeaders H t (H.fromCwd filePath) req res).1 = .ok ↔
      isInPrivilegedDirectory H (H.fromCwd filePath) = false ∧
        ∃ content, fileContent t (H.fromCwd filePath) = some content ∧
          content.length ≤ maxFileSize - 1 := setHeaders_ok_iff
  rw [handleRequest]
  dsimp only
  rcases hs : setHeaders H t (H.fromCwd filePath) req res with ⟨status, res'⟩
  rw [hs] at hbody hresult hok
  dsimp only at hbody hresult hok
  by_cases hstatus : status = .ok
  · right
    subst hstatus
    obtain ⟨hguard, content, hcontent, hlen⟩ := hok.mp rfl
    refine ⟨content, ⟨hguard, hcontent, hlen⟩, ?_⟩
    cases hopen : F.openIn (H.fromCwd filePath) with
    | true =>
      have hread (faults : Nat → Option Nat) (body : Str) :
          readChunks faults 0 ⟨[], false, true, false⟩ body = (true, body) := by
        rw [readChunks]
        rfl
      refine Or.inl ⟨rfl, res'.preparePayload, ?_, hresult, hbody, rfl⟩
      simp only [openStream, hopen, if_true, hread]
    | false =>
      have hstream : openStream F t (H.fromCwd filePath) = IfStream.opened content := by
        simp [openStream, hopen, hcontent]
      rw [hstream]
      right
      rcases readChunks_cases (F.read (H.fromCwd filePath)) content res'.body with
        ⟨hnone, hread⟩ | ⟨d, hd, hread⟩
      · refine Or.inl ⟨rfl, hnone, { res' with body := res'.body ++ content }.preparePayload,
          ?_, hresult, ?_, rfl⟩
        · simp only [hread]
        · rw [Response.preparePayload_body, hbody]
      · refine Or.inr ⟨rfl, d, hd, { res' with body := res'.body ++ d }, ?_, hresult, ?_⟩
        · simp only [hread]
        · rw [hbody]
  · left
    constructor
    · rintro content ⟨hguard, hcontent, hlen⟩
      exact hstatus (hok.mpr ⟨hguard, content, hcontent, hlen⟩)
    · refine ⟨status, { (res'.write (statusString status)).preparePayload with
        contentType := some "text/HTML".toList }, hstatus, ?_, hresult, ?_, rfl⟩
      · cases status <;> first | rfl | exact absurd rfl hstatus
      · rw [← hbody]
        rfl

/-- What a status promises about the body: a success carries the whole file, and a file that
cannot be opened or read to its end is no success. -/
structure ServesWhole (F : Faults) (t : Tree) (p : Str) (res : Response) (status : StatusCode)
    (body : Str) : Prop where
  whole : status = .ok → ∃ content, fileContent t p = some content ∧ body = res.body ++ content
  failed : (F.openIn p = true ∨ ∃ content d, fileContent t p = some content ∧
    Torn (F.read p) content d) → status ≠ .ok

/-- The status that is returned keeps its promise exactly if a file that passes the checks is
opened, the status in the response exactly if it is also read to its end. -/
theorem servesWhole_iff (H : Host) (F : Faults) (t : Tree) (filePath : Str) (req : Request)
    (res : Response) :
    (ServesWhole F t (H.fromCwd filePath) res (handleRequest H F t filePath req res).1
        (handleRequest H F t filePath req res).2.body ↔
      ∀ content, Passes H t (H.fromCwd filePath) content →
        F.openIn (H.fromCwd filePath) = false) ∧
    (ServesWhole F t (H.fromCwd filePath) res (handleRequest H F t filePath req res).2.result
        (handleRequest H F t filePath req res).2.body ↔
      ∀ content, Passes H t (H.fromCwd filePath) content →
        F.openIn (H.fromCwd filePath) = false ∧
          ∀ d, ¬ Torn (F.read (H.fromCwd filePath)) content d) := by
  rcases handleRequest_cases H F t filePath req res with
    ⟨hnot, status, res', hstatus, he, hresult, _⟩ | ⟨content, hpass, h⟩
  · have hserves : ServesWhole F t (H.fromCwd filePath) res status res'.body :=
      ⟨fun h => absurd h hstatus, fun _ => hstatus⟩
    rw [he]
    dsimp only
    rw [hresult]
    exact ⟨iff_of_true hserves fun content h => absurd h (hnot content),
      iff_of_true hserves fun content h => absurd h (hnot content)⟩
  · have hsame (content' : Str) (h : Passes H t (H.fromCwd filePath) content') :
        content' = content := Option.some.inj (h.2.1.symm.trans hpass.2.1)
    rcases h with ⟨hopen, res', he, hresult, _⟩ | ⟨hopen, hnone, res', he, hresult, hbody, _⟩ |
      ⟨hopen, d, hd, res', he, hresult, hbody⟩
    · have hserves : ¬ ServesWhole F t (H.fromCwd filePath) res .ok res'.body :=
        fun h => h.failed (Or.inl hopen) rfl
      rw [he]
      dsimp only
      rw [hresult]
      refine ⟨iff_of_false hserves fun h => ?_, iff_of_false hserves fun h => ?_⟩
      · rw [h content hpass] at hopen
        exact absurd hopen (by decide)
      · rw [(h content hpass).1] at hopen
        exact absurd hopen (by decide)
    · have hserves : ServesWhole F t (H.fromCwd filePath) res .ok res'.body := by
        refine ⟨fun _ => ⟨content, hpass.2.1, hbody⟩, ?_⟩
        rintro (h | ⟨content', d, hcontent, hd⟩)
        · rw [hopen] at h
          exact absurd h (by decide)
        · obtain rfl : content' = content := Option.some.inj (hcontent.symm.trans hpass.2.1)
          exact absurd hd (hnone d)
      rw [he]
      dsimp only
      rw [hresult]
      refine ⟨iff_of_true hserves fun _ _ => hopen, iff_of_true hserves fun content' h => ?_⟩
      rw [hsame content' h]
      exact ⟨hopen, hnone⟩
    · have hserves : ServesWhole F t (H.fromCwd filePath) res .internalServerError res'.body :=
        ⟨fun h => absurd h (by decide), fun _ => by decide⟩
      rw [he]
      dsimp only
      rw [hresult]
      refine ⟨iff_of_true hserves fun _ _ => hopen,
        iff_of_false (fun h => ?_) fun h => (h content hpass).2 d hd⟩
      exact h.failed (Or.inr ⟨content, d, hpass.2.1, hd⟩) rfl

theorem agrees_iff (H : Host) (F : Faults) (t : Tree) (filePath : Str) (req : Request)
    (res : Response) :
    Response.Agrees res statusString (handleRequest H F t filePath req res).1
        (handleRequest H F t filePath req res).2 ↔
      ∀ content, Passes H t (H.fromCwd filePath) content →
        F.openIn (H.fromCwd filePath) = true ∨
          ∀ d, ¬ Torn (F.read (H.fromCwd filePath)) content d := by
  rcases handleRequest_cases H F t filePath req res with
    ⟨hnot, status, res', _, he, hresult, hbody, hlength⟩ | ⟨content, hpass, h⟩
  · rw [he]
    exact iff_of_true ⟨hresult, hlength, fun _ => hbody⟩ fun content h => absurd h (hnot content)
  · have hsame (content' : Str) (h : Passes H t (H.fromCwd filePath) content') :
        content' = content := Option.some.inj (h.2.1.symm.trans hpass.2.1)
    rcases h with ⟨hopen, res', he, hresult, _, hlength⟩ |
      ⟨_, hnone, res', he, hresult, _, hlength⟩ | ⟨hopen, d, hd, res', he, hresult, _⟩
    · rw [he]
      exact iff_of_true ⟨hresult, hlength, fun h => absurd rfl h⟩ fun _ _ => Or.inl hopen
    · rw [he]
      refine iff_of_true ⟨hresult, hlength, fun h => absurd rfl h⟩ fun content' h => Or.inr ?_
      rw [hsame content' h]
      exact hnone
    · rw [he]
      refine iff_of_false (fun h => ?_) fun h => ?_
      · have hne : StatusCode.internalServerError = .ok := h.result.symm.trans hresult
        exact absurd hne (by decide)
      · rcases h content hpass with h | h
        · rw [hopen] at h
          exact absurd h (by decide)
        · exact h d hd

namespace Demo

/-- A file `note` in the working directory. -/
def noteDisk : Tree :=
  (bare.mkdirs ["srv".toList]).1.put "note".toList ["srv".toList] (.file "hello".toList)

def refusing : Faults := { Faults.none with openIn := fun _ => true }

def tearing : Faults := { Faults.none with read := fun _ _ => some 0 }

theorem passes_note :
    Passes Webserver.Demo.host noteDisk (Webserver.Demo.host.fromCwd "note".toList)
      "hello".toList := by
  refine ⟨by decide +kernel, fileContent_eq_some.mpr (by decide +kernel), by decide⟩

end Demo

/-- A regular file that cannot be opened is answered with 200 and no body. -/
theorem not_servesWhole_refusing :
    ¬ ServesWhole Demo.refusing Demo.noteDisk (Webserver.Demo.host.fromCwd "note".toList) .fresh
      (handleRequest Webserver.Demo.host Demo.refusing Demo.noteDisk "note".toList ⟨.get, 11, []⟩
        .fresh).1
      (handleRequest Webserver.Demo.host Demo.refusing Demo.noteDisk "note".toList ⟨.get, 11, []⟩
        .fresh).2.body := by
  intro h
  rcases handleRequest_cases Webserver.Demo.host Demo.refusing Demo.noteDisk "note".toList
      ⟨.get, 11, []⟩ .fresh with
    ⟨hnot, _⟩ | ⟨_, _, ⟨_, res', he, _⟩ | ⟨hopen, _⟩ | ⟨hopen, _⟩⟩
  · exact hnot _ Demo.passes_note
  · rw [he] at h
    exact h.failed (Or.inl rfl) rfl
  · exact absurd hopen (by decide)
  · exact absurd hopen (by decide)

end StaticHandler

end Webserver

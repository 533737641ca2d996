import Mathlib.Data.Nat.Find
import Webserver.Strings

/-!
# Requests, responses and file streams

The parts of `http::request` and `http::response` that the handlers read and write, the
status codes of `I_request_handler.h`, and the chunked reading of a file into a body.
-/

set_option autoImplicit false

namespace Webserver

inductive StatusCode where
  | ok
  | badRequest
  | forbidden
  | notFound
  | internalServerError
deriving DecidableEq

namespace StatusCode

def code : StatusCode → Nat
  | .ok => 200
  | .badRequest => 400
  | .forbidden => 403
  | .notFound => 404
  | .internalServerError => 500

end StatusCode

/-- `status_code_map_`, the names only. -/
def statusCodeMap : StatusCode → Option Str
  | .ok => some "OK".toList
  | .badRequest => some "Bad Request".toList
  | .forbidden => some "Forbidden".toList
  | .notFound => some "Not Found".toList
  | .internalServerError => some "Internal Server Error".toList

/-- The code, a blank and the name found in the map. -/
def statusString (status : StatusCode) : Str :=
  intToString status.code ++ " ".toList ++
    (statusCodeMap status).getD "Unknown Status Code".toList

inductive Verb where
  | get
  | put
  | post
  | delete
  | other (name : Str)
deriving DecidableEq

structure Request where
  method : Verb
  version : Nat
  body : Str

structure Response where
  version : Nat
  result : StatusCode
  server : Option Str
  contentType : Option Str
  contentLength : Option Nat
  body : Str
deriving DecidableEq

namespace Response

/-- The response object as a session creates it. -/
def fresh : Response := ⟨11, .ok, none, none, none, []⟩

/-- `boost::beast::ostream(res.body()) << s`. -/
def write (res : Response) (s : Str) : Response := { res with body := res.body ++ s }

def preparePayload (res : Response) : Response :=
  { res with contentLength := some res.body.length }

@[simp] theorem write_body (res : Response) (s : Str) : (res.write s).body = res.body ++ s := rfl

@[simp] theorem preparePayload_body (res : Response) : res.preparePayload.body = res.body := rfl

/-- Status, headers and body agree: one status, a length that counts the whole body, and for an
error the text of the status behind what was there. -/
structure Agrees (res : Response) (text : StatusCode → Str) (status : StatusCode)
    (res' : Response) : Prop where
  result : res'.result = status
  length : res'.contentLength = some res'.body.length
  text : status ≠ .ok → res'.body = res.body ++ text status

end Response

/-- An `std::ifstream`: what is left to read and the state bits. -/
structure IfStream where
  rest : Str
  eofbit : Bool
  failbit : Bool
  badbit : Bool

namespace IfStream

def opened (content : Str) : IfStream := ⟨content, false, false, false⟩

def good (s : IfStream) : Bool := !s.eofbit && !s.failbit && !s.badbit

/-- `read(buf, n)` with the characters it delivers; a fault delivers some and sets `badbit`. -/
def read (s : IfStream) (n : Nat) : Option Nat → Str × IfStream
  | some k => (s.rest.take (min k n), { s with rest := s.rest.drop (min k n), badbit := true })
  | none =>
    if s.rest.length < n then (s.rest, { s with rest := [], eofbit := true, failbit := true })
    else (s.rest.take n, { s with rest := s.rest.drop n })

theorem read_good_length {s : IfStream} {n : Nat} {fault : Option Nat} (hn : 0 < n)
    (h : (s.read n fault).2.good = true) : (s.read n fault).2.rest.length < s.rest.length := by
  cases fault with
  | some k => simp [read, good] at h
  | none =>
    simp only [read] at h ⊢
    split
    · rename_i hlt
      simp [if_pos hlt, good] at h
    · simp only [List.length_drop]
      omega

end IfStream

/-- The loop that copies a stream to the body in chunks of 1024; it ends early on `badbit`.
`faults i` is the outcome of the `i`-th read. -/
def readChunks (faults : Nat → Option Nat) (i : Nat) (s : IfStream) (body : Str) : Bool × Str :=
  if !s.eofbit && s.good then
    if (s.read 1024 (faults i)).2.badbit then (false, body ++ (s.read 1024 (faults i)).1)
    else
      readChunks faults (i + 1) (s.read 1024 (faults i)).2 (body ++ (s.read 1024 (faults i)).1)
  else (true, body)
termination_by bif s.good then s.rest.length + 1 else 0
decreasing_by
  have hs : s.good = true := by simp_all
  cases hg : (s.read 1024 (faults i)).2.good with
  | true => simpa [hs] using IfStream.read_good_length (by decide) hg
  | false => simp [hs]

/-- One round of the loop on a file that is open. -/
theorem readChunks_opened (faults : Nat → Option Nat) (i : Nat) (content body : Str) :
    readChunks faults i (IfStream.opened content) body =
      match faults i with
      | some k => (false, body ++ content.take (min k 1024))
      | none =>
        if content.length < 1024 then (true, body ++ content)
        else readChunks faults (i + 1) (IfStream.opened (content.drop 1024))
          (body ++ content.take 1024) := by
  rw [readChunks]
  cases hi : faults i with
  | some k => simp [IfStream.opened, IfStream.good, IfStream.read]
  | none =>
    by_cases hlt : content.length < 1024
    · rw [readChunks]
      simp [IfStream.opened, IfStream.good, IfStream.read, hlt]
    · simp [IfStream.opened, IfStream.good, IfStream.read, hlt]

/-- The read that sets `badbit` while a file is copied, with what has been delivered by then. -/
structure Torn (faults : Nat → Option Nat) (content delivered : Str) : Prop where
  fault : ∃ i k, i ≤ content.length / 1024 ∧ (∀ j < i, faults j = none) ∧ faults i = some k ∧
    delivered = content.take (1024 * i + min k 1024)

theorem readChunks_of_none {faults : Nat → Option Nat} {i : Nat} {content : Str} (body : Str)
    (h : ∀ j ≤ content.length / 1024, faults (i + j) = none) :
    readChunks faults i (IfStream.opened content) body = (true, body ++ content) := by
  induction hlen : content.length using Nat.strong_induction_on generalizing i content body with
  | _ len ih =>
    have hi : faults i = none := h 0 (Nat.zero_le _)
    rw [readChunks_opened, hi]
    by_cases hlt : content.length < 1024
    · simp only [if_pos hlt]
    · simp only [if_neg hlt]
      have hdrop : (content.drop 1024).length / 1024 + 1 = content.length / 1024 := by
        rw [List.length_drop]
        omega
      rw [ih (content.drop 1024).length (by simp; omega) _ _ rfl]
      · rw [List.append_assoc, List.take_append_drop]
      · intro j hj
        have hnext := h (j + 1) (by omega)
        rwa [← Nat.add_assoc, Nat.add_right_comm] at hnext

theorem readChunks_of_some {faults : Nat → Option Nat} {i j k : Nat} {content : Str} (body : Str)
    (hj : j ≤ content.length / 1024) (hnone : ∀ j' < j, faults (i + j') = none)
    (hfault : faults (i + j) = some k) :
    readChunks faults i (IfStream.opened content) body =
      (false, body ++ content.take (1024 * j + min k 1024)) := by
  induction j generalizing i content body with
  | zero =>
    rw [readChunks_opened, show faults i = some k from hfault]
    simp
  | succ j ih =>
    have hi : faults i = none := hnone 0 (Nat.succ_pos j)
    have hlt : ¬ content.length < 1024 := by omega
    rw [readChunks_opened, hi]
    simp only [if_neg hlt]
    rw [ih]
    · have htake : content.take (1024 * (j + 1) + min k 1024) =
          content.take 1024 ++ (content.drop 1024).take (1024 * j + min k 1024) := by
        rw [show 1024 * (j + 1) + min k 1024 = 1024 + (1024 * j + min k 1024) by omega,
          List.take_add]
      rw [List.append_assoc, htake]
    · rw [List.length_drop]
      omega
    · intro j' hj'
      have hnext := hnone (j' + 1) (by omega)
      rwa [← Nat.add_assoc, Nat.add_right_comm] at hnext
    · rwa [← Nat.add_assoc, Nat.add_right_comm] at hfault

/-- A file is copied as a whole, or up to the read that sets `badbit`. -/
theorem readChunks_cases (faults : Nat → Option Nat) (content body : Str) :
    ((∀ d, ¬ Torn faults content d) ∧
      readChunks faults 0 (IfStream.opened content) body = (true, body ++ content)) ∨
    ∃ d, Torn faults content d ∧
      readChunks faults 0 (IfStream.opened content) body = (false, body ++ d) := by
  by_cases h : ∃ i, i ≤ content.length / 1024 ∧ faults i ≠ none
  · right
    have hspec := Nat.find_spec h
    obtain ⟨k, hk⟩ := Option.ne_none_iff_exists'.mp hspec.2
    have hbefore (j : Nat) (hj : j < Nat.find h) : faults j = none := by
      by_contra hne
      exact Nat.find_min h hj ⟨by omega, hne⟩
    refine ⟨_, ⟨_, k, hspec.1, hbefore, hk, rfl⟩, ?_⟩
    apply readChunks_of_some body hspec.1
    · exact fun j hj => by rw [Nat.zero_add]; exact hbefore j hj
    · rwa [Nat.zero_add]
  · left
    push Not at h
    refine ⟨?_, readChunks_of_none body fun j hj => by rw [Nat.zero_add]; exact h j hj⟩
    rintro d ⟨i, k, hi, _, hk, _⟩
    rw [h i hi] at hk
    exact absurd hk (by simp)

theorem readChunks_of_torn {faults : Nat → Option Nat} {content d : Str}
    (h : Torn faults content d) (body : Str) :
    readChunks faults 0 (IfStream.opened content) body = (false, body ++ d) := by
  obtain ⟨i, k, hi, hnone, hk, rfl⟩ := h
  apply readChunks_of_some body hi
  · exact fun j hj => by rw [Nat.zero_add]; exact hnone j hj
  · rwa [Nat.zero_add]

/-- Without faults the whole rest of the file is copied. -/
theorem readChunks_none (i : Nat) (content body : Str) :
    readChunks (fun _ => none) i (IfStream.opened content) body = (true, body ++ content) :=
  readChunks_of_none body fun _ _ => rfl

end Webserver

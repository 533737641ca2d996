import Mathlib.Data.Int.Basic
import Webserver.Library.Segments

/-!
# Strings and numbers of the standard library

A `std::string` is the list of its characters. `int` values are integers; the two places
where a value may leave the range of `int` (`stoi` and the id counter) say so.
-/

set_option autoImplicit false

namespace Webserver

abbrev Str := List Char

def intMax : Nat := 2147483647

/-- What leaves a handler instead of a status: an exception of `stoi`, an overflowing `int`
(undefined behaviour), or a loop that never ends. -/
inductive Abort where
  | invalidArgument
  | outOfRange
  | intOverflow
  | diverges
deriving DecidableEq

/-- `strspn(s, "0123456789") == s.length()`. -/
def onlyDigits (s : Str) : Bool := s.all Char.isDigit

def digitsValue (s : Str) : Nat := Nat.ofDigitChars 10 s 0

/-- `stoi` of a string of digits. -/
def stoi (s : Str) : Except Abort Int :=
  if s = [] then .error .invalidArgument
  else if digitsValue s ≤ intMax then .ok (digitsValue s)
  else .error .outOfRange

/-- `to_string` of an `int`. -/
def intToString : Int → Str
  | .ofNat n => Nat.toDigits 10 n
  | .negSucc n => '-' :: Nat.toDigits 10 (n + 1)

@[simp] theorem intToString_natCast (n : Nat) : intToString (n : Int) = Nat.toDigits 10 n := rfl

@[simp] theorem digitsValue_toDigits (n : Nat) : digitsValue (Nat.toDigits 10 n) = n :=
  Nat.ofDigitChars_ten_toDigits

theorem toDigits_injective {n m : Nat} (h : Nat.toDigits 10 n = Nat.toDigits 10 m) : n = m := by
  rw [← digitsValue_toDigits n, ← digitsValue_toDigits m, h]

theorem onlyDigits_toDigits (n : Nat) : onlyDigits (Nat.toDigits 10 n) = true := by
  rw [onlyDigits, List.all_eq_true]
  exact fun c hc => Nat.isDigit_of_mem_toDigits (by decide) (by decide) hc

theorem not_mem_of_onlyDigits {s : Str} (h : onlyDigits s = true) {c : Char}
    (hc : c.isDigit = false) : c ∉ s := by
  intro hm
  rw [List.all_eq_true.mp h c hm] at hc
  exact absurd hc (by decide)

theorem intToString_isSegment (id : Int) : Segments.IsSegment '/' (intToString id) := by
  cases id with
  | ofNat n =>
    exact ⟨Nat.toDigits_ne_nil, not_mem_of_onlyDigits (onlyDigits_toDigits n) (by decide)⟩
  | negSucc n =>
    refine ⟨by simp [intToString], ?_⟩
    have h := not_mem_of_onlyDigits (c := '/') (onlyDigits_toDigits (n + 1)) (by decide)
    simp [intToString, h]

theorem intToString_injective {i j : Int} (h : intToString i = intToString j) : i = j := by
  have hminus (n : Nat) (s : Str) : Nat.toDigits 10 n ≠ '-' :: s := by
    intro heq
    have hm := not_mem_of_onlyDigits (c := '-') (onlyDigits_toDigits n) (by decide)
    rw [heq] at hm
    exact hm List.mem_cons_self
  cases i with
  | ofNat n =>
    cases j with
    | ofNat m => exact congrArg Int.ofNat (toDigits_injective h)
    | negSucc m => exact absurd h (hminus n _)
  | negSucc n =>
    cases j with
    | ofNat m => exact absurd h.symm (hminus m _)
    | negSucc m =>
      have := toDigits_injective (List.cons.inj h).2
      omega

end Webserver

import Mathlib.Data.List.Basic

/-!
# JSON texts of strings

The productions for strings, arrays and objects, over the octets of a UTF-8 text. An octet is a
character below 256, and a string is decoded to its UTF-16 code units. Arrays and objects are
over any production for what is in them.
-/

set_option autoImplicit false

namespace Json

universe u

/-- The octets of a code point. -/
def utf8 (c : Char) : List Char := (String.utf8EncodeChar c).map fun o => Char.ofNat o.toNat

def utf16 (c : Char) : List Nat :=
  if c.toNat < 0x10000 then [c.toNat]
  else [0xd800 + (c.toNat - 0x10000) / 0x400, 0xdc00 + (c.toNat - 0x10000) % 0x400]

/-- The letters behind a backslash, but for `u`. -/
def escapes : List (Char × Nat) :=
  [('"', 0x22), ('\\', 0x5c), ('/', 0x2f), ('b', 8), ('f', 12), ('n', 10), ('r', 13), ('t', 9)]

def isHexDigit (c : Char) : Bool := c.isDigit || ('a' ≤ c && c ≤ 'f') || ('A' ≤ c && c ≤ 'F')

def hexValue (c : Char) : Nat :=
  if c.isDigit then c.toNat - '0'.toNat
  else if 'a' ≤ c then c.toNat - 'a'.toNat + 10
  else c.toNat - 'A'.toNat + 10

/-- One character of a string and the code units it stands for. -/
inductive StringChar : List Char → List Nat → Prop
  | unescaped (c : Char) (hcontrol : 0x20 ≤ c.toNat) (hquote : c ≠ '"') (hbackslash : c ≠ '\\') :
      StringChar (utf8 c) (utf16 c)
  | escaped (c : Char) (n : Nat) (h : (c, n) ∈ escapes) : StringChar ['\\', c] [n]
  | unicode (a b c d : Char) (h : [a, b, c, d].all isHexDigit = true) :
      StringChar ['\\', 'u', a, b, c, d]
        [hexValue a * 0x1000 + hexValue b * 0x100 + hexValue c * 0x10 + hexValue d]

/-- What stands between the quotation marks. -/
inductive StringChars : List Char → List Nat → Prop
  | nil : StringChars [] []
  | cons {w ws : List Char} {n ns : List Nat} (h : StringChar w n) (hs : StringChars ws ns) :
      StringChars (w ++ ws) (n ++ ns)

def StringText (w : List Char) (n : List Nat) : Prop :=
  ∃ inner, w = '"' :: inner ++ ['"'] ∧ StringChars inner n

def isWhitespace (c : Char) : Bool := c = ' ' || c = '\t' || c = '\n' || c = '\r'

def Whitespace (w : List Char) : Prop := ∀ c ∈ w, isWhitespace c = true

section Productions
variable {α : Type u}

/-- A text between whitespace. -/
def Element (P : List Char → α → Prop) (w : List Char) (a : α) : Prop :=
  ∃ before inner behind, w = before ++ inner ++ behind ∧ Whitespace before ∧ Whitespace behind ∧
    P inner a

inductive CommaSeparated (P : List Char → α → Prop) : List Char → List α → Prop
  | single {w : List Char} {a : α} (h : P w a) : CommaSeparated P w [a]
  | cons {w ws : List Char} {a : α} {as : List α} (h : P w a) (hs : CommaSeparated P ws as) :
      CommaSeparated P (w ++ ',' :: ws) (a :: as)

/-- The elements of an array or the members of an object, in their brackets. -/
def Bracketed (left right : Char) (P : List Char → α → Prop) (w : List Char) (as : List α) : Prop :=
  ∃ inner, w = left :: inner ++ [right] ∧ (CommaSeparated P inner as ∨ Whitespace inner ∧ as = [])

def ArrayText (P : List Char → α → Prop) : List Char → List α → Prop :=
  Bracketed '[' ']' (Element P)

def Member (P : List Char → α → Prop) (w : List Char) (m : List Nat × α) : Prop :=
  ∃ key value, w = key ++ ':' :: value ∧ Element StringText key m.1 ∧ Element P value m.2

def ObjectText (P : List Char → α → Prop) : List Char → List (List Nat × α) → Prop :=
  Bracketed '{' '}' (Member P)

end Productions

/-! ### One text, one string -/

theorem utf8_ne_nil (c : Char) : utf8 c ≠ [] := by
  simp [utf8]

theorem octet_toNat {n : Nat} (hn : n < 0x100) : (Char.ofNat n).toNat = n := by
  rw [Char.ofNat, dif_pos (Or.inl (by omega))]
  rfl

theorem octet_injective {a b : UInt8} (h : Char.ofNat a.toNat = Char.ofNat b.toNat) : a = b := by
  rw [← UInt8.toNat_inj, ← octet_toNat a.toNat_lt, ← octet_toNat b.toNat_lt, h]

theorem utf8_ascii {c : Char} (h : c.toNat < 0x80) : utf8 c = [c] := by
  have hc : c.val.toNat ≤ 0x7f := Nat.lt_succ_iff.mp h
  have hlt : c.toNat % 0x100 = c.toNat := Nat.mod_eq_of_lt (by omega)
  rw [utf8, String.utf8EncodeChar, if_pos hc]
  simp [hlt]

/-- A code point is one octet with its value, or has no octet below 128. -/
theorem utf8_cases (c : Char) : utf8 c = [c] ∨ ∀ o ∈ utf8 c, 0x80 ≤ o.toNat := by
  by_cases hc : c.toNat < 0x80
  · exact Or.inl (utf8_ascii hc)
  · right
    intro o ho
    have hbig : ¬ c.val.toNat ≤ 0x7f := by
      intro h
      exact hc (Nat.lt_succ_iff.mpr h)
    rw [utf8, String.utf8EncodeChar, if_neg hbig] at ho
    split at ho
    · simp at ho
      rcases ho with rfl | rfl <;> rw [octet_toNat (by omega)] <;> omega
    · split at ho
      · simp at ho
        rcases ho with rfl | rfl | rfl <;> rw [octet_toNat (by omega)] <;> omega
      · simp at ho
        rcases ho with rfl | rfl | rfl | rfl <;> rw [octet_toNat (by omega)] <;> omega

theorem eq_of_utf8_append {c d : Char} {r s : List Char} (h : utf8 c ++ r = utf8 d ++ s) :
    c = d := by
  have hextends (c d : Char) (t : List Char) (h : utf8 d = utf8 c ++ t) : c = d := by
    obtain ⟨v, u, hd, hv, _⟩ := List.map_eq_append_iff.mp h
    have hcv : v = String.utf8EncodeChar c :=
      List.map_injective_iff.mpr (fun _ _ => octet_injective) hv
    have hc := @ByteArray.utf8DecodeChar?_utf8EncodeChar_append u.toByteArray c
    have hd' := @ByteArray.utf8DecodeChar?_utf8EncodeChar_append ByteArray.empty d
    rw [hd, hcv, List.toByteArray_append, ByteArray.append_empty, hc] at hd'
    exact Option.some.inj hd'
  rcases List.append_eq_append_iff.mp h with ⟨t, ht, _⟩ | ⟨t, ht, _⟩
  · exact hextends c d t ht
  · exact (hextends d c t ht).symm

theorem utf8_no_backslash {c : Char} (hbackslash : c ≠ '\\') {r : List Char} {o : Char}
    (h : utf8 c = o :: r) : o ≠ '\\' := by
  rintro rfl
  rcases utf8_cases c with hone | hhigh
  · exact hbackslash (List.cons.inj (hone.symm.trans h)).1
  · exact absurd (hhigh '\\' (by simp [h])) (by decide)

/-- What a string character is can be read off its first octets. -/
theorem StringChar.unique {w w' r r' : List Char} {n n' : List Nat} (h : StringChar w n)
    (h' : StringChar w' n') (heq : w ++ r = w' ++ r') : w = w' ∧ n = n' := by
  have hfirst {c d : Char} {r s : List Char} (hc : c ≠ '\\') (h : utf8 c ++ r = '\\' :: d :: s) :
      False := by
    obtain ⟨o, t, ho⟩ := List.exists_cons_of_ne_nil (utf8_ne_nil c)
    rw [ho] at h
    exact utf8_no_backslash hc ho (List.cons.inj h).1
  cases h with
  | unescaped c hcontrol hquote hbackslash =>
    cases h' with
    | unescaped d _ _ _ =>
      obtain rfl := eq_of_utf8_append heq
      exact ⟨rfl, rfl⟩
    | escaped d m hm => exact (hfirst hbackslash heq).elim
    | unicode a b c d hhex => exact (hfirst hbackslash heq).elim
  | escaped c n hn =>
    cases h' with
    | unescaped d _ _ hbackslash => exact (hfirst hbackslash heq.symm).elim
    | escaped d m hm =>
      obtain rfl : c = d := (List.cons.inj (List.cons.inj heq).2).1
      refine ⟨rfl, ?_⟩
      simp only [escapes, List.mem_cons, Prod.mk.injEq, List.not_mem_nil, or_false] at hn hm
      rcases hn with ⟨rfl, rfl⟩ | ⟨rfl, rfl⟩ | ⟨rfl, rfl⟩ | ⟨rfl, rfl⟩ | ⟨rfl, rfl⟩ | ⟨rfl, rfl⟩ |
        ⟨rfl, rfl⟩ | ⟨rfl, rfl⟩ <;> simp at hm <;> rw [hm]
    | unicode a b c' d hhex =>
      obtain rfl : c = 'u' := (List.cons.inj (List.cons.inj heq).2).1
      exact absurd hn (by simp [escapes])
  | unicode a b c d hhex =>
    cases h' with
    | unescaped d _ _ hbackslash => exact (hfirst hbackslash heq.symm).elim
    | escaped d m hm =>
      obtain rfl : 'u' = d := (List.cons.inj (List.cons.inj heq).2).1
      exact absurd hm (by simp [escapes])
    | unicode a' b' c' d' hhex' =>
      simp only [List.cons_append, List.cons.injEq, true_and] at heq
      obtain ⟨rfl, rfl, rfl, rfl, _⟩ := heq
      exact ⟨rfl, rfl⟩

theorem StringChar.ne_nil {w : List Char} {n : List Nat} (h : StringChar w n) : w ≠ [] := by
  cases h with
  | unescaped c _ _ _ => exact utf8_ne_nil c
  | escaped c n h => exact List.cons_ne_nil _ _
  | unicode a b c d h => exact List.cons_ne_nil _ _

theorem stringChars_ascii {w : List Char}
    (h : w.all (fun c => 0x20 ≤ c.toNat && c.toNat < 0x80 && c ≠ '"' && c ≠ '\\') = true) :
    StringChars w (w.map Char.toNat) := by
  induction w with
  | nil => exact StringChars.nil
  | cons c w ih =>
    simp only [List.all_cons, Bool.and_eq_true, decide_eq_true_eq] at h
    obtain ⟨⟨⟨⟨hcontrol, hascii⟩, hquote⟩, hbackslash⟩, hw⟩ := h
    have hc := StringChar.unescaped c hcontrol hquote hbackslash
    rw [utf8_ascii hascii, utf16, if_pos (by omega)] at hc
    exact StringChars.cons hc (ih hw)

theorem StringChars.unique {w : List Char} {n n' : List Nat} (h : StringChars w n)
    (h' : StringChars w n') : n = n' := by
  have hall {w w' : List Char} (heq : w = w') {n n' : List Nat} (h : StringChars w n)
      (h' : StringChars w' n') : n = n' := by
    induction h generalizing w' n' with
    | nil =>
      cases h' with
      | nil => rfl
      | cons h' _ => exact absurd (List.append_eq_nil_iff.mp heq.symm).1 h'.ne_nil
    | @cons w ws n ns h hs ih =>
      cases h' with
      | nil => exact absurd (List.append_eq_nil_iff.mp heq).1 h.ne_nil
      | cons h' hs' =>
        obtain ⟨rfl, rfl⟩ := h.unique h' heq
        rw [ih (List.append_cancel_left heq) hs']
  exact hall rfl h h'

end Json

import Webserver.ConfigTokens

/-!
# Quoted strings

What `ParseToken` makes of an input that begins with a quote. A string between quotes is a
sequence of units, and `ProcessEsc`, which runs over the whole token, undoes the escape of each.
-/

set_option autoImplicit false

namespace Webserver

namespace NginxConfigParser

/-- A character between quotes, alone or behind a backslash. -/
inductive QuoteUnit (quote : Char) where
  | plain (c : Char) (hc : c ≠ '\\') (hq : c ≠ quote)
  | escaped (c : Char) (hc : c = '\\' ∨ c = quote)

namespace QuoteUnit
variable {quote : Char}

def text : QuoteUnit quote → Str
  | plain c _ _ => [c]
  | escaped c _ => ['\\', c]

def char : QuoteUnit quote → Char
  | plain c _ _ => c
  | escaped c _ => c

/-- How a character is written between quotes. -/
def ofChar (quote c : Char) : QuoteUnit quote :=
  if h : c = '\\' ∨ c = quote then escaped c h
  else plain c (fun hc => h (Or.inl hc)) (fun hq => h (Or.inr hq))

@[simp] theorem char_ofChar (c : Char) : (ofChar quote c).char = c := by
  unfold ofChar
  split <;> rfl

end QuoteUnit

/-- Each backslash and each quote preceded by a backslash. -/
def escape (quote : Char) (s : Str) : Str :=
  s.flatMap fun c => if c = '\\' ∨ c = quote then ['\\', c] else [c]

section Units
variable {quote : Char}

theorem quoteBody_iff {body : Str} :
    QuoteBody quote body ↔ ∃ units : List (QuoteUnit quote), body = units.flatMap QuoteUnit.text := by
  constructor
  · intro h
    induction h with
    | nil => exact ⟨[], rfl⟩
    | @plain c body hc hq h ih =>
      obtain ⟨units, rfl⟩ := ih
      exact ⟨.plain c hc hq :: units, rfl⟩
    | @escape c body hc h ih =>
      obtain ⟨units, rfl⟩ := ih
      exact ⟨.escaped c hc :: units, rfl⟩
  · rintro ⟨units, rfl⟩
    induction units with
    | nil => exact .nil
    | cons u units ih =>
      cases u with
      | plain c hc hq => exact .plain hc hq ih
      | escaped c hc => exact .escape hc ih

theorem processEscLoop_units (units : List (QuoteUnit quote)) (s : Str) :
    processEscLoop false (units.flatMap QuoteUnit.text ++ s) =
      units.map QuoteUnit.char ++ processEscLoop false s := by
  induction units with
  | nil => rfl
  | cons u units ih =>
    rw [List.flatMap_cons, List.append_assoc, List.map_cons, List.cons_append]
    cases u with
    | plain c hc hq => simp [QuoteUnit.text, QuoteUnit.char, processEscLoop, hc, ih]
    | escaped c hc => simp [QuoteUnit.text, QuoteUnit.char, processEscLoop, ih]

/-- The quotes around the units are no escapes. -/
theorem processEsc_units (hquote : isQuote quote = true) (units : List (QuoteUnit quote)) :
    processEsc (quote :: units.flatMap QuoteUnit.text ++ [quote]) =
      quote :: units.map QuoteUnit.char ++ [quote] := by
  have hne := not_isQuote_backslash hquote
  rw [processEsc, List.cons_append, processEscLoop, if_neg fun h => hne h.1, processEscLoop_units,
    processEscLoop, if_neg fun h => hne h.1]
  rfl

theorem escape_eq (s : Str) :
    escape quote s = (s.map (QuoteUnit.ofChar quote)).flatMap QuoteUnit.text := by
  unfold escape
  rw [List.flatMap_map]
  apply List.flatMap_congr
  intro c _
  unfold QuoteUnit.ofChar
  split <;> rfl

end Units

theorem scanFrom_blanks (seen : Bool) {blanks : Str} (h : ∀ c ∈ blanks, isBlank c = true)
    (input : Str) :
    scanFrom seen (blanks ++ input) = scanFrom (seen || blanks.any (· = ' ')) input := by
  induction blanks generalizing seen with
  | nil => simp
  | cons c blanks ih =>
    have hblanks := fun d hd => h d (List.mem_cons_of_mem c hd)
    have hc := h c List.mem_cons_self
    by_cases hspace : c = ' '
    · subst hspace
      rw [List.cons_append, scanFrom_space, ih true hblanks]
      simp
    · have hother : c = '\t' ∨ c = '\n' ∨ c = '\r' := by
        simpa [isBlank, hspace, or_assoc] using hc
      rw [List.cons_append, scanFrom_blank seen _ hother, ih seen hblanks]
      simp [hspace]

/-- An input that begins with a quote is a quoted string exactly if units and the quote follow,
and an error otherwise; every string is read back from between quotes. -/
theorem parseToken_quoted {quote : Char} (hquote : isQuote quote = true) {blanks : Str}
    (hblanks : ∀ c ∈ blanks, isBlank c = true) :
    (∀ input, (parseToken (blanks ++ quote :: input)).1.type = .quotedString ↔
      ∃ (units : List (QuoteUnit quote)) (rest : Str),
        input = units.flatMap QuoteUnit.text ++ quote :: rest) ∧
    (∀ (units : List (QuoteUnit quote)) (rest : Str),
      parseToken (blanks ++ quote :: (units.flatMap QuoteUnit.text ++ quote :: rest)) =
        (⟨.quotedString, quote :: units.map QuoteUnit.char ++ [quote], blanks.any (· = ' ')⟩,
          rest)) ∧
    (∀ s rest, parseToken (blanks ++ quote :: (escape quote s ++ quote :: rest)) =
      (⟨.quotedString, quote :: s ++ [quote], blanks.any (· = ' ')⟩, rest)) ∧
    (∀ input, (parseToken (blanks ++ quote :: input)).1.type ≠ .quotedString →
      (parseToken (blanks ++ quote :: input)).1.type = .error) := by
  have hskip (input : Str) : parseToken (blanks ++ quote :: input) =
      scanFrom (blanks.any (· = ' ')) (quote :: input) := by
    have hscan := scanFrom_blanks false hblanks (quote :: input)
    rwa [Bool.false_or] at hscan
  have hunits (units : List (QuoteUnit quote)) (rest : Str) :
      parseToken (blanks ++ quote :: (units.flatMap QuoteUnit.text ++ quote :: rest)) =
        (⟨.quotedString, quote :: units.map QuoteUnit.char ++ [quote], blanks.any (· = ' ')⟩,
          rest) := by
    have hbody := quoteBody_iff.mpr ⟨units, rfl⟩
    rw [hskip, ← processEsc_units hquote]
    exact scanFrom_quote hquote _ hbody rest
  have hcases (input : Str) :
      (∃ (units : List (QuoteUnit quote)) (rest : Str),
        input = units.flatMap QuoteUnit.text ++ quote :: rest) ∨
      (parseToken (blanks ++ quote :: input)).1.type = .error := by
    rw [hskip, scanFrom_quote_start hquote]
    rcases scan_quote_cases hquote _ input.length [quote] input le_rfl with
      ⟨body, rest, hbody, rfl⟩ | herror
    · obtain ⟨units, rfl⟩ := quoteBody_iff.mp hbody
      exact Or.inl ⟨units, rest, rfl⟩
    · exact Or.inr herror
  refine ⟨?_, hunits, ?_, ?_⟩
  · intro input
    constructor
    · intro htype
      apply (hcases input).resolve_right
      rw [htype]
      decide
    · rintro ⟨units, rest, rfl⟩
      rw [hunits]
  · intro s rest
    have hs := hunits (s.map (QuoteUnit.ofChar quote)) rest
    rwa [← escape_eq, List.map_map, List.map_congr_left (g := id) (by simp), List.map_id] at hs
  · intro input hne
    rcases hcases input with ⟨units, rest, rfl⟩ | herror
    · exact absurd (by rw [hunits]) hne
    · exact herror

theorem parseToken_quoted_backslash :
    parseToken (" ".toList ++ '\'' :: (escape '\'' "it's \\".toList ++ '\'' :: ";".toList)) =
      (⟨.quotedString, '\'' :: "it's \\".toList ++ ['\''], true⟩, ";".toList) :=
  (@parseToken_quoted '\'' rfl " ".toList (List.all_eq_true.mp rfl)).2.2.1 _ _

end NginxConfigParser

end Webserver

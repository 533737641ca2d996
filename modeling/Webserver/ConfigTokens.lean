import Webserver.ConfigParser

/-!
# The tokens of a text

What repeated calls of `ParseToken` deliver: the tokens up to the end of the input or the first
error. `Parse` is its driver on these tokens.
-/

set_option autoImplicit false

namespace Webserver

namespace NginxConfigParser

/-- `ParseToken` where `seenWhitespace` is `seen` already. -/
def scanFrom (seen : Bool) (input : Str) : Token × Str :=
  scan ⟨.initialWhitespace, false, [], seen⟩ input

def tokensLoop : ℕ → Bool → Str → List Token
  | 0, _, _ => []
  | k + 1, seen, input =>
    let (t, input) := scanFrom seen input
    if t.type = .eof then []
    else if t.type = .error then [t]
    else t :: tokensLoop k false input

def tokensFrom (seen : Bool) (input : Str) : List Token :=
  tokensLoop (input.length + 1) seen input

def tokens (input : Str) : List Token := tokensFrom false input

theorem scan_length (s : Scanner) (input : Str) : (scan s input).2.length ≤ input.length := by
  induction input generalizing s with
  | nil =>
    unfold scan
    split <;> exact Nat.le_refl _
  | cons c input ih =>
    rw [scan]
    split
    · exact Nat.le_succ_of_le (ih _)
    · exact Nat.le_succ _
    · exact Nat.le_refl _

def Scanned.isUnget : Scanned → Bool
  | .more _ => false
  | .token _ _ => false
  | .unget _ => true

theorem isUnget_scanInitialWhitespace (s : Scanner) (c : Char) :
    (scanInitialWhitespace s c).isUnget = false := by
  simp only [scanInitialWhitespace, apply_ite Scanned.isUnget]
  simp only [Scanned.isUnget, ite_self]

/-- A token takes at least its first character. -/
theorem scanFrom_length (seen : Bool) (input : Str) :
    (scanFrom seen input).1.type = .eof ∨ (scanFrom seen input).2.length < input.length := by
  cases input with
  | nil => exact Or.inl rfl
  | cons c input =>
    right
    rw [scanFrom, scan]
    split
    · exact Nat.lt_succ_of_le (scan_length _ _)
    · exact Nat.lt_succ_self _
    · rename_i value hscan
      have hunget := congrArg Scanned.isUnget hscan
      exact absurd (hunget.symm.trans (isUnget_scanInitialWhitespace _ c)) (by simp [Scanned.isUnget])

theorem tokensLoop_eq (k : ℕ) {seen : Bool} {input : Str} (hk : input.length < k) :
    tokensLoop k seen input = tokensFrom seen input := by
  induction k using Nat.strong_induction_on generalizing seen input with
  | _ k ih =>
    obtain ⟨k, rfl⟩ : ∃ j, k = j + 1 := ⟨k - 1, by omega⟩
    rw [tokensFrom, tokensLoop, tokensLoop]
    dsimp only
    split_ifs with heof herror
    · rfl
    · rfl
    · have hlen := (scanFrom_length seen input).resolve_left heof
      rw [ih k (by omega) (by omega)]
      rw [ih input.length (by omega) hlen]

theorem tokensFrom_eq (seen : Bool) (input : Str) :
    tokensFrom seen input =
      if (scanFrom seen input).1.type = .eof then []
      else if (scanFrom seen input).1.type = .error then [(scanFrom seen input).1]
      else (scanFrom seen input).1 :: tokensFrom false (scanFrom seen input).2 := by
  rw [tokensFrom, tokensLoop]
  dsimp only
  split_ifs with heof herror
  · rfl
  · rfl
  · rw [tokensLoop_eq _ ((scanFrom_length seen input).resolve_left heof)]

/-! The driver on a list of tokens, behind which the input ends. -/

def drive : ParseState → List Token → Outcome
  | s, [] => takeEof s
  | s, t :: ts =>
    match take s t with
    | .running s => drive s ts
    | .stopped o => o

theorem parseLoop_eq (k : ℕ) (s : ParseState) (input : Str) (hk : input.length < k) :
    parseLoop k s input = some (drive s (tokens input)) := by
  induction k generalizing s input with
  | zero => omega
  | succ k ih =>
    rw [parseLoop, tokens, tokensFrom_eq]
    have hscan : parseToken input = scanFrom false input := rfl
    rw [hscan]
    dsimp only
    split_ifs with heof herror
    · simp only [take, heof, drive]
    · simp only [take, herror, drive, ParseState.fail]
    · rw [drive]
      have hlen := (scanFrom_length false input).resolve_left heof
      cases htake : take s (scanFrom false input).1 with
      | running s' => exact ih s' _ (by omega)
      | stopped o => rfl

/-- `Parse` ends, and is the driver on the tokens of the text. -/
theorem parse_eq (configFile : Str) (config : NginxConfig) :
    parse configFile config = some (drive (.initial config) (tokens configFile)) :=
  parseLoop_eq _ _ _ (Nat.lt_succ_self _)

/-! The pieces of a text. -/

def isBlank (c : Char) : Bool := c = ' ' || c = '\t' || c = '\n' || c = '\r'

def isLineEnd (c : Char) : Bool := c = '\n' || c = '\r'

def isQuote (c : Char) : Bool := c = '\'' || c = '"'

def punctType (c : Char) : Option TokenType :=
  if c = ';' then some .statementEnd
  else if c = '{' then some .startBlock
  else if c = '}' then some .endBlock
  else none

theorem punctType_cases {c : Char} {type : TokenType} (hc : punctType c = some type) :
    type ≠ .eof ∧ type ≠ .error ∧ type ≠ .comment := by
  unfold punctType at hc
  split_ifs at hc <;> obtain rfl := Option.some.inj hc <;> exact ⟨by decide, by decide, by decide⟩

/-- The text of a normal token. -/
structure IsNormal (w : Str) : Prop where
  ordinary : ∀ c ∈ w, endsNormal c = false
  first : ∃ c w', w = c :: w' ∧ c ≠ '#' ∧ c ≠ '\r'

theorem isNormal_singleton {c : Char} (hc : endsNormal c = false) (hhash : c ≠ '#')
    (hreturn : c ≠ '\r') : IsNormal [c] :=
  ⟨List.forall_mem_singleton.mpr hc, c, [], rfl, hhash, hreturn⟩

/-- What may stand between two quotes. -/
inductive QuoteBody (quote : Char) : Str → Prop
  | nil : QuoteBody quote []
  | plain {c : Char} {body : Str} (hc : c ≠ '\\') (hq : c ≠ quote) (h : QuoteBody quote body) :
      QuoteBody quote (c :: body)
  | escape {c : Char} {body : Str} (hc : c = '\\' ∨ c = quote) (h : QuoteBody quote body) :
      QuoteBody quote ('\\' :: c :: body)

section Scans
variable (seen : Bool) (input : Str)

theorem scanFrom_space : scanFrom seen (' ' :: input) = scanFrom true input := rfl

theorem scanFrom_blank {c : Char} (hc : c = '\t' ∨ c = '\n' ∨ c = '\r') :
    scanFrom seen (c :: input) = scanFrom seen input := by
  rcases hc with rfl | rfl | rfl <;> rfl

theorem scanFrom_punct {c : Char} {type : TokenType} (hc : punctType c = some type) :
    scanFrom seen (c :: input) = (⟨type, [c], seen⟩, input) := by
  unfold punctType at hc
  split_ifs at hc with h₁ h₂ h₃ <;> obtain rfl := Option.some.inj hc
  · subst h₁
    rfl
  · subst h₂
    rfl
  · subst h₃
    rfl

theorem scan_comment {body : Str} (hbody : ∀ c ∈ body, isLineEnd c = false) (value : Str) :
    scan ⟨.tokenTypeComment, false, value, seen⟩ (body ++ input) =
      scan ⟨.tokenTypeComment, false, value ++ body, seen⟩ input := by
  induction body generalizing value with
  | nil => rw [List.nil_append, List.append_nil]
  | cons c body ih =>
    have hc : ¬ (c = '\n' ∨ c = '\r') := by
      have h := hbody c List.mem_cons_self
      simpa [isLineEnd] using h
    rw [List.cons_append, scan]
    simp only [scanChar, scanComment, if_neg hc]
    rw [ih (fun d hd => hbody d (List.mem_cons_of_mem c hd)), List.append_assoc,
      List.singleton_append]

theorem scanFrom_comment {body : Str} (hbody : ∀ c ∈ body, isLineEnd c = false) {c : Char}
    (hc : isLineEnd c = true) :
    scanFrom seen ('#' :: body ++ c :: input) = (⟨.comment, '#' :: body, seen⟩, input) := by
  have hc' : c = '\n' ∨ c = '\r' := by simpa [isLineEnd] using hc
  have hbody' := scan_comment seen (c :: input) hbody ['#']
  rw [scan, scanChar, scanComment, if_pos hc'] at hbody'
  exact hbody'

theorem scanFrom_comment_eof {body : Str} (hbody : ∀ c ∈ body, isLineEnd c = false) :
    (scanFrom seen ('#' :: body)).1.type = .eof := by
  have hbody' := scan_comment seen [] hbody ['#']
  rw [List.append_nil] at hbody'
  exact congrArg (fun x => x.1.type) hbody'

theorem scan_normal {w : Str} (hw : ∀ c ∈ w, endsNormal c = false) (value : Str) :
    scan ⟨.tokenTypeNormal, false, value, seen⟩ (w ++ input) =
      scan ⟨.tokenTypeNormal, false, value ++ w, seen⟩ input := by
  induction w generalizing value with
  | nil => rw [List.nil_append, List.append_nil]
  | cons c w ih =>
    have hc : ¬ endsNormal c = true := by rw [hw c List.mem_cons_self]; decide
    rw [List.cons_append, scan]
    simp only [scanChar, scanNormal, if_neg hc]
    rw [ih (fun d hd => hw d (List.mem_cons_of_mem c hd)), List.append_assoc,
      List.singleton_append]

theorem scanFrom_normal_start {w : Str} (hw : IsNormal w) :
    scanFrom seen (w ++ input) = scan ⟨.tokenTypeNormal, false, w, seen⟩ input := by
  obtain ⟨hordinary, c, w', rfl, hhash, hreturn⟩ := hw
  have hc := hordinary c List.mem_cons_self
  simp only [endsNormal, Bool.or_eq_false_iff, decide_eq_false_iff_not] at hc
  rw [← List.singleton_append, List.append_assoc,
    ← scan_normal seen input (fun d hd => hordinary d (List.mem_cons_of_mem c hd)) [c]]
  rw [scanFrom, List.singleton_append, scan]
  simp [scanChar, scanInitialWhitespace, hc, hhash, hreturn]

theorem scanFrom_normal {w : Str} (hw : IsNormal w) {c : Char} (hc : endsNormal c = true) :
    scanFrom seen (w ++ c :: input) = (⟨.normal, w, seen⟩, c :: input) := by
  rw [scanFrom_normal_start seen (c :: input) hw, scan]
  simp only [scanChar, scanNormal, if_pos hc]

theorem scanFrom_normal_eof {w : Str} (hw : IsNormal w) :
    (scanFrom seen w).1.type = .eof := by
  have hstart := scanFrom_normal_start seen [] hw
  rw [List.append_nil] at hstart
  rw [hstart]
  rfl

end Scans

section Quotes
variable {quote : Char} (hquote : isQuote quote = true) (seen : Bool)

def quoteState (quote : Char) : TokenParserState :=
  if quote = '\'' then .singleQuote else .doubleQuote

theorem not_isQuote_backslash {quote : Char} (h : isQuote quote = true) : quote ≠ '\\' := by
  rintro rfl
  exact absurd h (by decide)

include hquote

theorem scanChar_quote {s : Scanner} (hs : s.state = quoteState quote) (c : Char) :
    scanChar s c = scanQuote quote s c := by
  have hq : quote = '\'' ∨ quote = '"' := by simpa [isQuote] using hquote
  rcases hq with rfl | rfl
  · have hs' : s.state = .singleQuote := hs
    simp only [scanChar, hs']
  · have hs' : s.state = .doubleQuote := hs
    simp only [scanChar, hs']

theorem scan_quote_cons {c : Char} (hc : c ≠ '\\') (hq : c ≠ quote) (value input : Str) :
    scan ⟨quoteState quote, false, value, seen⟩ (c :: input) =
      scan ⟨quoteState quote, false, value ++ [c], seen⟩ input := by
  rw [scan, scanChar_quote hquote rfl]
  simp [scanQuote, hc, hq]

theorem scan_quote_escape {c : Char} (hc : c = '\\' ∨ c = quote) (value input : Str) :
    scan ⟨quoteState quote, false, value, seen⟩ ('\\' :: c :: input) =
      scan ⟨quoteState quote, false, value ++ ['\\', c], seen⟩ input := by
  rw [scan, scanChar_quote hquote rfl]
  simp only [scanQuote, Bool.false_eq_true, if_false, if_true]
  rw [scan, scanChar_quote hquote rfl]
  have hc' : ¬ (c ≠ '\\' ∧ c ≠ quote) := by
    rintro ⟨h₁, h₂⟩
    exact hc.elim h₁ h₂
  simp [scanQuote, hc']

theorem scan_quote_end (value input : Str) :
    scan ⟨quoteState quote, false, value, seen⟩ (quote :: input) =
      (⟨.quotedString, processEsc (value ++ [quote]), seen⟩, input) := by
  rw [scan, scanChar_quote hquote rfl]
  simp [scanQuote, not_isQuote_backslash hquote]

theorem scan_quote {body : Str} (hbody : QuoteBody quote body) (value input : Str) :
    scan ⟨quoteState quote, false, value, seen⟩ (body ++ quote :: input) =
      (⟨.quotedString, processEsc (value ++ body ++ [quote]), seen⟩, input) := by
  induction hbody generalizing value with
  | nil =>
    rw [List.append_nil]
    exact scan_quote_end hquote seen value input
  | plain hc hq hbody ih =>
    rw [List.cons_append, scan_quote_cons hquote seen hc hq, ih]
    simp
  | escape hc hbody ih =>
    rw [List.cons_append, List.cons_append, scan_quote_escape hquote seen hc, ih]
    simp

theorem scanFrom_quote_start (input : Str) :
    scanFrom seen (quote :: input) = scan ⟨quoteState quote, false, [quote], seen⟩ input := by
  have hq : quote = '\'' ∨ quote = '"' := by simpa [isQuote] using hquote
  rcases hq with rfl | rfl <;> rfl

/-- A quoted string is delivered with its escapes processed. -/
theorem scanFrom_quote {body : Str} (hbody : QuoteBody quote body) (input : Str) :
    scanFrom seen (quote :: body ++ quote :: input) =
      (⟨.quotedString, processEsc (quote :: body ++ [quote]), seen⟩, input) := by
  rw [List.cons_append, scanFrom_quote_start hquote seen, scan_quote hquote seen hbody]
  rfl

omit hquote in
theorem scan_quote_eof (inEscapeSeq : Bool) (value : Str) :
    (scan ⟨quoteState quote, inEscapeSeq, value, seen⟩ []).1.type = .error := by
  have hstate : quoteState quote = .singleQuote ∨ quoteState quote = .doubleQuote := by
    unfold quoteState
    split
    · exact Or.inl rfl
    · exact Or.inr rfl
  rw [scan, if_pos hstate]

theorem scan_quote_bad_escape (value input : Str)
    (hbad : ∀ c rest, input = c :: rest → c ≠ '\\' ∧ c ≠ quote) :
    (scan ⟨quoteState quote, false, value, seen⟩ ('\\' :: input)).1.type = .error := by
  rw [scan, scanChar_quote hquote rfl]
  simp only [scanQuote, Bool.false_eq_true, if_false, if_true]
  cases input with
  | nil => exact scan_quote_eof seen true _
  | cons c rest =>
    rw [scan, scanChar_quote hquote rfl]
    simp [scanQuote, hbad c rest rfl]

/-- A quote is closed, or the token is an error. -/
theorem scan_quote_cases (n : ℕ) (value input : Str) (hn : input.length ≤ n) :
    (∃ body rest, QuoteBody quote body ∧ input = body ++ quote :: rest) ∨
      (scan ⟨quoteState quote, false, value, seen⟩ input).1.type = .error := by
  induction n generalizing value input with
  | zero =>
    obtain rfl := List.eq_nil_of_length_eq_zero (Nat.le_zero.mp hn)
    exact Or.inr (scan_quote_eof seen false value)
  | succ n ih =>
    cases input with
    | nil => exact Or.inr (scan_quote_eof seen false value)
    | cons c input =>
      rw [List.length_cons] at hn
      by_cases hq : c = quote
      · subst hq
        exact Or.inl ⟨[], input, .nil, rfl⟩
      by_cases hc : c = '\\'
      · subst hc
        by_cases hbad : ∀ d rest, input = d :: rest → d ≠ '\\' ∧ d ≠ quote
        · exact Or.inr (scan_quote_bad_escape hquote seen value input hbad)
        · push Not at hbad
          obtain ⟨d, rest, rfl, hd⟩ := hbad
          have hd' : d = '\\' ∨ d = quote := by
            by_cases h : d = '\\'
            · exact Or.inl h
            · exact Or.inr (hd h)
          rw [List.length_cons] at hn
          rw [scan_quote_escape hquote seen hd']
          rcases ih _ rest (by omega) with ⟨body, rest', hbody, rfl⟩ | herror
          · exact Or.inl ⟨'\\' :: d :: body, rest', .escape hd' hbody, rfl⟩
          · exact Or.inr herror
      · rw [scan_quote_cons hquote seen hc hq]
        rcases ih _ input (by omega) with ⟨body, rest', hbody, rfl⟩ | herror
        · exact Or.inl ⟨c :: body, rest', .plain hc hq hbody, rfl⟩
        · exact Or.inr herror

end Quotes

/-! What is delivered, piece by piece. -/

section Delivered
variable (seen : Bool)

theorem tokensFrom_nil : tokensFrom seen [] = [] := rfl

theorem tokensFrom_space (input : Str) : tokensFrom seen (' ' :: input) = tokensFrom true input := by
  rw [tokensFrom_eq, tokensFrom_eq true input, scanFrom_space]

theorem tokensFrom_blank {c : Char} (hc : c = '\t' ∨ c = '\n' ∨ c = '\r') (input : Str) :
    tokensFrom seen (c :: input) = tokensFrom seen input := by
  rw [tokensFrom_eq, tokensFrom_eq seen input, scanFrom_blank seen input hc]

theorem tokensFrom_of_scan {input rest : Str} {t : Token} (hscan : scanFrom seen input = (t, rest))
    (heof : t.type ≠ .eof) (herror : t.type ≠ .error) :
    tokensFrom seen input = t :: tokensFrom false rest := by
  rw [tokensFrom_eq, hscan, if_neg heof, if_neg herror]

theorem tokensFrom_eof {input : Str} (h : (scanFrom seen input).1.type = .eof) :
    tokensFrom seen input = [] := by
  rw [tokensFrom_eq, if_pos h]

theorem tokensFrom_error {input : Str} (h : (scanFrom seen input).1.type = .error) :
    tokensFrom seen input = [(scanFrom seen input).1] := by
  rw [tokensFrom_eq, if_neg (by rw [h]; decide), if_pos h]

theorem tokensFrom_punct {c : Char} {type : TokenType} (hc : punctType c = some type)
    (input : Str) :
    tokensFrom seen (c :: input) = ⟨type, [c], seen⟩ :: tokensFrom false input := by
  apply tokensFrom_of_scan seen (scanFrom_punct seen input hc)
  · exact (punctType_cases hc).1
  · exact (punctType_cases hc).2.1

theorem tokensFrom_comment {body : Str} (hbody : ∀ c ∈ body, isLineEnd c = false) {c : Char}
    (hc : isLineEnd c = true) (input : Str) :
    tokensFrom seen ('#' :: body ++ c :: input) =
      ⟨.comment, '#' :: body, seen⟩ :: tokensFrom false input :=
  tokensFrom_of_scan seen (scanFrom_comment seen input hbody hc) (by simp) (by simp)

theorem tokensFrom_normal {w : Str} (hw : IsNormal w) {c : Char} (hc : endsNormal c = true)
    (input : Str) :
    tokensFrom seen (w ++ c :: input) = ⟨.normal, w, seen⟩ :: tokensFrom false (c :: input) :=
  tokensFrom_of_scan seen (scanFrom_normal seen input hw hc) (by simp) (by simp)

theorem tokensFrom_quote {quote : Char} (hquote : isQuote quote = true) {body : Str}
    (hbody : QuoteBody quote body) (input : Str) :
    tokensFrom seen (quote :: body ++ quote :: input) =
      ⟨.quotedString, processEsc (quote :: body ++ [quote]), seen⟩ :: tokensFrom false input :=
  tokensFrom_of_scan seen (scanFrom_quote hquote seen hbody input) (by simp) (by simp)

end Delivered

end NginxConfigParser

end Webserver

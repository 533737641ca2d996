import Mathlib.Data.List.TakeWhile
import Webserver.ConfigStack

/-!
# The pieces of a config text

A text without lexical errors is a sequence of blanks, comments, brackets and semicolons, quoted
strings and normal words, each as long as it can be. `ParseToken` delivers the tokens among them,
except for a word that ends with the input.
-/

set_option autoImplicit false

namespace Webserver

namespace NginxConfigParser

inductive Piece where
  | blank (c : Char)
  | comment (body : Str)
  | punct (c : Char) (type : TokenType)
  | quoted (quote : Char) (body : Str)
  | normal (word : Str)
deriving DecidableEq

/-- The next character, if there is one, is of this kind. -/
def Ends (kind : Char → Bool) (s : Str) : Prop := ∀ c s', s = c :: s' → kind c = true

/-- The pieces of a text, in order. -/
inductive Lexes : Str → List Piece → Prop
  | nil : Lexes [] []
  | blank {c : Char} {s : Str} {ps : List Piece} (hc : isBlank c = true) (h : Lexes s ps) :
      Lexes (c :: s) (.blank c :: ps)
  | comment {body s : Str} {ps : List Piece} (hbody : ∀ c ∈ body, isLineEnd c = false)
      (hend : Ends isLineEnd s) (h : Lexes s ps) :
      Lexes ('#' :: body ++ s) (.comment body :: ps)
  | punct {c : Char} {type : TokenType} {s : Str} {ps : List Piece}
      (hc : punctType c = some type) (h : Lexes s ps) : Lexes (c :: s) (.punct c type :: ps)
  | quoted {quote : Char} {body s : Str} {ps : List Piece} (hquote : isQuote quote = true)
      (hbody : QuoteBody quote body) (h : Lexes s ps) :
      Lexes (quote :: body ++ quote :: s) (.quoted quote body :: ps)
  | normal {word s : Str} {ps : List Piece} (hword : IsNormal word) (hend : Ends endsNormal s)
      (h : Lexes s ps) : Lexes (word ++ s) (.normal word :: ps)

theorem Lexes.letter {c : Char} {s : Str} {ps : List Piece} (hc : IsNormal [c])
    (hend : Ends endsNormal s) (h : Lexes s ps) : Lexes (c :: s) (.normal [c] :: ps) := by
  rw [← List.singleton_append]
  exact .normal hc hend h

/-- The tokens that `ParseToken` delivers for the pieces. -/
def deliver : Bool → List Piece → List Token
  | _, [] => []
  | seen, .blank c :: ps => deliver (seen || c = ' ') ps
  | seen, .comment body :: ps =>
    if ps.isEmpty then [] else ⟨.comment, '#' :: body, seen⟩ :: deliver false ps
  | seen, .punct c type :: ps => ⟨type, [c], seen⟩ :: deliver false ps
  | seen, .quoted quote body :: ps =>
    ⟨.quotedString, processEsc (quote :: body ++ [quote]), seen⟩ :: deliver false ps
  | seen, .normal word :: ps =>
    if ps.isEmpty then [] else ⟨.normal, word, seen⟩ :: deliver false ps

/-- What a piece may be made of. -/
def Piece.Valid : Piece → Prop
  | .blank c => isBlank c = true
  | .comment body => ∀ c ∈ body, isLineEnd c = false
  | .punct c type => punctType c = some type
  | .quoted quote body => isQuote quote = true ∧ QuoteBody quote body
  | .normal word => IsNormal word

theorem Lexes.valid {s : Str} {ps : List Piece} (h : Lexes s ps) : ∀ p ∈ ps, p.Valid := by
  induction h with
  | nil => exact fun p hp => absurd hp List.not_mem_nil
  | blank hc h ih => exact List.forall_mem_cons.mpr ⟨hc, ih⟩
  | comment hbody hend h ih => exact List.forall_mem_cons.mpr ⟨hbody, ih⟩
  | punct hc h ih => exact List.forall_mem_cons.mpr ⟨hc, ih⟩
  | quoted hquote hbody h ih => exact List.forall_mem_cons.mpr ⟨⟨hquote, hbody⟩, ih⟩
  | normal hword hend h ih => exact List.forall_mem_cons.mpr ⟨hword, ih⟩

theorem isBlank_cases {c : Char} (hc : isBlank c = true) :
    c = ' ' ∨ (c ≠ ' ' ∧ (c = '\t' ∨ c = '\n' ∨ c = '\r')) := by
  simp only [isBlank, Bool.or_eq_true, decide_eq_true_eq] at hc
  by_cases h : c = ' '
  · exact Or.inl h
  · exact Or.inr ⟨h, by tauto⟩

theorem Lexes.ne_nil {s : Str} {ps : List Piece} (h : Lexes s ps) : s = [] ↔ ps = [] := by
  cases h with
  | nil => simp
  | blank | comment | punct | quoted => simp
  | normal hword =>
    obtain ⟨_, c, w', rfl, _⟩ := hword
    simp

theorem Lexes.isEmpty {c : Char} {s : Str} {ps : List Piece} (h : Lexes (c :: s) ps) :
    ps.isEmpty = false := by
  cases hps : ps with
  | nil => exact absurd (h.ne_nil.mpr hps) (by simp)
  | cons p ps => rfl

theorem Ends.append {kind : Char → Bool} {s : Str} (h : Ends kind s) (hne : s ≠ []) (rest : Str) :
    Ends kind (s ++ rest) := by
  obtain ⟨c, s, rfl⟩ := List.exists_cons_of_ne_nil hne
  rintro d s' heq
  obtain ⟨rfl, _⟩ := List.cons.inj heq
  exact h c s rfl

section Ends
variable (seen : Bool)

theorem tokensFrom_comment_ends {body s : Str} (hbody : ∀ c ∈ body, isLineEnd c = false)
    (hend : Ends isLineEnd s) (hne : s ≠ []) :
    tokensFrom seen ('#' :: body ++ s) = ⟨.comment, '#' :: body, seen⟩ :: tokensFrom false s := by
  obtain ⟨c, s, rfl⟩ := List.exists_cons_of_ne_nil hne
  have hc := hend c s rfl
  have hblank : c = '\t' ∨ c = '\n' ∨ c = '\r' := by
    simp only [isLineEnd, Bool.or_eq_true, decide_eq_true_eq] at hc
    exact Or.inr hc
  rw [tokensFrom_comment seen hbody hc, tokensFrom_blank false hblank]

theorem tokensFrom_normal_ends {word s : Str} (hword : IsNormal word) (hend : Ends endsNormal s)
    (hne : s ≠ []) :
    tokensFrom seen (word ++ s) = ⟨.normal, word, seen⟩ :: tokensFrom false s := by
  obtain ⟨c, s, rfl⟩ := List.exists_cons_of_ne_nil hne
  exact tokensFrom_normal seen hword (hend c s rfl) s

end Ends

theorem Lexes.tokensFrom_eq {s : Str} {ps : List Piece} (h : Lexes s ps) (seen : Bool) :
    tokensFrom seen s = deliver seen ps := by
  induction h generalizing seen with
  | nil => rfl
  | @blank c s ps hc h ih =>
    rw [deliver, ← ih]
    rcases isBlank_cases hc with rfl | ⟨hne, hc⟩
    · rw [tokensFrom_space, decide_eq_true rfl, Bool.or_true]
    · rw [tokensFrom_blank seen hc, decide_eq_false hne, Bool.or_false]
  | @comment body s ps hbody hend h ih =>
    rw [deliver]
    cases s with
    | nil =>
      rw [h.ne_nil.mp rfl, List.append_nil]
      exact tokensFrom_eof seen (scanFrom_comment_eof seen hbody)
    | cons c s =>
      rw [h.isEmpty, if_neg Bool.false_ne_true, ← ih,
        tokensFrom_comment_ends seen hbody hend (List.cons_ne_nil c s)]
  | punct hc h ih => rw [deliver, ← ih, tokensFrom_punct seen hc]
  | quoted hquote hbody h ih => rw [deliver, ← ih, tokensFrom_quote seen hquote hbody]
  | @normal word s ps hword hend h ih =>
    rw [deliver]
    cases s with
    | nil =>
      rw [h.ne_nil.mp rfl, List.append_nil]
      exact tokensFrom_eof seen (scanFrom_normal_eof seen hword)
    | cons c s =>
      rw [h.isEmpty, if_neg Bool.false_ne_true, ← ih,
        tokensFrom_normal_ends seen hword hend (List.cons_ne_nil c s)]

/-! Every text has pieces, up to its first error. -/

theorem exists_run (stop : Char → Bool) (s : Str) :
    ∃ run rest, s = run ++ rest ∧ (∀ c ∈ run, stop c = false) ∧ Ends stop rest := by
  refine ⟨s.takeWhile (fun c => !stop c), s.dropWhile (fun c => !stop c),
    List.takeWhile_append_dropWhile.symm, fun c hc => ?_, fun c s' hs => ?_⟩
  · simpa using List.mem_takeWhile_imp hc
  · have hne : s.dropWhile (fun c => !stop c) ≠ [] := by rw [hs]; simp
    have hhead := List.head_dropWhile_not (fun c => !stop c) hne
    simp only [hs, List.head_cons] at hhead
    simpa using hhead

/-- A character of no other kind may begin a normal word. -/
theorem first_of_other {c : Char} (hblank : isBlank c = false) (hpunct : punctType c = none)
    (hquote : isQuote c = false) : endsNormal c = false ∧ c ≠ '\r' := by
  simp only [punctType] at hpunct
  split_ifs at hpunct with h₁ h₂ h₃
  simp only [isBlank, isQuote, Bool.or_eq_false_iff, decide_eq_false_iff_not] at hblank hquote
  simp only [endsNormal, Bool.or_eq_false_iff, decide_eq_false_iff_not]
  tauto

theorem lexes_or_error (n : ℕ) (s : Str) (hn : s.length ≤ n) (seen : Bool) :
    (∃ ps, Lexes s ps) ∨ ∃ t ∈ tokensFrom seen s, t.type = .error := by
  induction n generalizing s seen with
  | zero =>
    obtain rfl := List.eq_nil_of_length_eq_zero (Nat.le_zero.mp hn)
    exact Or.inl ⟨[], .nil⟩
  | succ n ih =>
    cases s with
    | nil => exact Or.inl ⟨[], .nil⟩
    | cons c s =>
      rw [List.length_cons] at hn
      by_cases hblank : isBlank c = true
      · rcases isBlank_cases hblank with rfl | ⟨hne, hc⟩
        · rw [tokensFrom_space]
          rcases ih s (by omega) true with ⟨ps, hps⟩ | herror
          · exact Or.inl ⟨_, .blank hblank hps⟩
          · exact Or.inr herror
        · rw [tokensFrom_blank seen hc]
          rcases ih s (by omega) seen with ⟨ps, hps⟩ | herror
          · exact Or.inl ⟨_, .blank hblank hps⟩
          · exact Or.inr herror
      by_cases hhash : c = '#'
      · subst hhash
        obtain ⟨body, rest, rfl, hbody, hend⟩ := exists_run isLineEnd s
        rw [List.length_append] at hn
        rcases ih rest (by omega) false with ⟨ps, hps⟩ | ⟨t, ht, herror⟩
        · exact Or.inl ⟨_, .comment hbody hend hps⟩
        · refine Or.inr ⟨t, ?_, herror⟩
          have hne : rest ≠ [] := by
            rintro rfl
            exact absurd ht List.not_mem_nil
          rw [← List.cons_append, tokensFrom_comment_ends seen hbody hend hne]
          exact List.mem_cons_of_mem _ ht
      cases hpunct : punctType c with
      | some type =>
        rw [tokensFrom_punct seen hpunct]
        rcases ih s (by omega) false with ⟨ps, hps⟩ | ⟨t, ht, herror⟩
        · exact Or.inl ⟨_, .punct hpunct hps⟩
        · exact Or.inr ⟨t, List.mem_cons_of_mem _ ht, herror⟩
      | none =>
        by_cases hquote : isQuote c = true
        · rcases scan_quote_cases hquote seen s.length [c] s le_rfl with
            ⟨body, rest, hbody, rfl⟩ | herror
          · rw [List.length_append, List.length_cons] at hn
            rw [← List.cons_append, tokensFrom_quote seen hquote hbody]
            rcases ih rest (by omega) false with ⟨ps, hps⟩ | ⟨t, ht, herror⟩
            · exact Or.inl ⟨_, .quoted hquote hbody hps⟩
            · exact Or.inr ⟨t, List.mem_cons_of_mem _ ht, herror⟩
          · rw [← scanFrom_quote_start hquote seen] at herror
            rw [tokensFrom_error seen herror]
            exact Or.inr ⟨_, List.mem_cons_self, herror⟩
        · -- the first character of a normal word
          obtain ⟨hnormal, hreturn⟩ := first_of_other (Bool.not_eq_true _ ▸ hblank) hpunct
            (Bool.not_eq_true _ ▸ hquote)
          obtain ⟨word, rest, rfl, hword, hend⟩ := exists_run endsNormal s
          have hisNormal : IsNormal (c :: word) :=
            ⟨List.forall_mem_cons.mpr ⟨hnormal, hword⟩, c, word, rfl, hhash, hreturn⟩
          rw [List.length_append] at hn
          rcases ih rest (by omega) false with ⟨ps, hps⟩ | ⟨t, ht, herror⟩
          · exact Or.inl ⟨_, .normal hisNormal hend hps⟩
          · refine Or.inr ⟨t, ?_, herror⟩
            have hne : rest ≠ [] := by
              rintro rfl
              exact absurd ht List.not_mem_nil
            rw [← List.cons_append, tokensFrom_normal_ends seen hisNormal hend hne]
            exact List.mem_cons_of_mem _ ht

/-! Which pieces are delivered. -/

/-- The lexical token that a piece is, if it is one. -/
def Piece.lexeme : Piece → Option (TokenType × Str)
  | .blank _ => none
  | .comment _ => none
  | .punct c type => some (type, [c])
  | .quoted quote body => some (.quotedString, processEsc (quote :: body ++ [quote]))
  | .normal word => some (.normal, word)

def lexemes (ps : List Piece) : List (TokenType × Str) := ps.filterMap Piece.lexeme

def delivered (ts : List Token) : List (TokenType × Str) :=
  (uncommented ts).map fun t => (t.type, t.value)

theorem delivered_cons (t : Token) (ts : List Token) :
    delivered (t :: ts) =
      if t.type = .comment then delivered ts else (t.type, t.value) :: delivered ts := by
  unfold delivered uncommented
  by_cases ht : t.type = .comment <;> simp [ht]

/-- All pieces but a word at the end of the input. -/
theorem delivered_deliver {ps : List Piece} (seen : Bool)
    (hps : ∀ p ∈ ps, p.Valid) :
    (∀ qs w, ps = qs ++ [.normal w] → delivered (deliver seen ps) = lexemes qs) ∧
      ((∀ qs w, ps ≠ qs ++ [.normal w]) → delivered (deliver seen ps) = lexemes ps) := by
  induction ps generalizing seen with
  | nil =>
    refine ⟨fun qs w h => absurd h (by simp), fun _ => rfl⟩
  | cons p ps ih =>
    have htail (seen : Bool) := ih seen fun q hq => hps q (List.mem_cons_of_mem p hq)
    have hsplit {qs : List Piece} {w : Str} (h : p :: ps = qs ++ [.normal w]) (hne : ps ≠ []) :
        ∃ qs', qs = p :: qs' ∧ ps = qs' ++ [.normal w] := by
      cases qs with
      | nil => exact absurd (List.cons.inj h).2 hne
      | cons q qs =>
        obtain ⟨rfl, hps⟩ := List.cons.inj h
        exact ⟨qs, rfl, hps⟩
    -- the first piece is delivered as its lexeme, and the others follow
    have hfirst (t : Option (TokenType × Str)) (seen' : Bool) (ht : p.lexeme = t)
        (hone : ps = [] → ∀ w, p ≠ .normal w)
        (hcons : delivered (deliver seen (p :: ps)) =
          t.toList ++ delivered (deliver seen' ps)) :
        (∀ qs w, p :: ps = qs ++ [.normal w] → delivered (deliver seen (p :: ps)) = lexemes qs) ∧
          ((∀ qs w, p :: ps ≠ qs ++ [.normal w]) →
            delivered (deliver seen (p :: ps)) = lexemes (p :: ps)) := by
      have hlexemes (qs : List Piece) : lexemes (p :: qs) = t.toList ++ lexemes qs := by
        unfold lexemes
        rw [List.filterMap_cons, ht]
        cases t <;> rfl
      constructor
      · intro qs w h
        by_cases hnil : ps = []
        · subst hnil
          cases qs with
          | nil => exact absurd (List.cons.inj h).1 (hone rfl w)
          | cons q qs => exact absurd (List.cons.inj h).2 (by simp)
        · obtain ⟨qs', rfl, hps'⟩ := hsplit h hnil
          rw [hcons, (htail seen').1 qs' w hps', hlexemes]
      · intro h
        have hps' (qs : List Piece) (w : Str) : ps ≠ qs ++ [.normal w] := by
          rintro rfl
          exact h (p :: qs) w rfl
        rw [hcons, (htail seen').2 hps', hlexemes]
    cases p with
    | blank c => exact hfirst none (seen || c = ' ') rfl (by simp) rfl
    | comment body =>
      cases ps with
      | nil => exact hfirst none false rfl (by simp) rfl
      | cons q ps =>
        refine hfirst none false rfl (by simp) ?_
        rw [deliver, if_neg (by simp), delivered_cons, if_pos rfl]
        rfl
    | punct c type =>
      refine hfirst (some (type, [c])) false rfl (by simp) ?_
      have hne := (punctType_cases (hps _ List.mem_cons_self)).2.2
      rw [deliver, delivered_cons, if_neg hne]
      rfl
    | quoted quote body =>
      refine hfirst _ false rfl (by simp) ?_
      rw [deliver, delivered_cons, if_neg (by simp)]
      rfl
    | normal word =>
      cases ps with
      | nil =>
        constructor
        · intro qs w h
          cases qs with
          | nil => rfl
          | cons q qs => exact absurd (List.cons.inj h).2 (by simp)
        · exact fun h => absurd rfl (h [] word)
      | cons q ps =>
        refine hfirst (some (.normal, word)) false rfl (by simp) ?_
        rw [deliver, if_neg (by simp), delivered_cons, if_neg (by simp)]
        rfl

/-- The text has pieces, its tokens are delivered as they are, and the tree is made of them. -/
structure Kept (text : Str) (config : NginxConfig) : Prop where
  pieces : ∃ ps, Lexes text ps
  delivered : ∀ ps, Lexes text ps → delivered (tokens text) = lexemes ps
  represented : Derives (uncommented (tokens text)) config

/-- The last piece of the text is a normal word. -/
def EndsInWord (text : Str) : Prop := ∃ ps w, Lexes text (ps ++ [.normal w])

theorem mem_of_advance {s s' : ParseState} {ts : List Token} (h : advance s ts = some s') :
    ∀ t ∈ ts, t.type ≠ .error := by
  induction ts generalizing s with
  | nil => exact fun t ht => absurd ht List.not_mem_nil
  | cons t ts ih =>
    intro u hu
    rw [advance] at h
    cases htake : take s t with
    | running s₁ =>
      rw [htake] at h
      rcases List.mem_cons.mp hu with rfl | hu
      · intro htype
        rw [take, htype] at htake
        exact absurd htake (by simp [ParseState.fail])
      · exact ih h u hu
    | stopped o =>
      rw [htake] at h
      exact absurd h (by simp)

theorem lexes_of_accepted {text : Str} {config : NginxConfig}
    (h : parse text [] = some (.returned true config)) : ∃ ps, Lexes text ps := by
  rw [parse_eq] at h
  obtain ⟨s, hs, _⟩ := advance_of_accepted (tokens_ne_eof text) (Option.some.inj h)
  rcases lexes_or_error text.length text le_rfl false with hps | ⟨t, ht, herror⟩
  · exact hps
  · exact absurd herror (mem_of_advance hs t ht)

/-- An accepted text is kept as a whole if and only if it does not end in a normal word. -/
theorem kept_iff_not_endsInWord (text : Str) (config : NginxConfig)
    (h : parse text [] = some (.returned true config)) :
    Kept text config ↔ ¬ EndsInWord text := by
  have hdelivered {ps : List Piece} (hps : Lexes text ps) :=
    delivered_deliver false hps.valid
  constructor
  · rintro hkept ⟨ps, w, hps⟩
    have hall := hkept.delivered _ hps
    rw [tokens, hps.tokensFrom_eq, (hdelivered hps).1 ps w rfl, lexemes, lexemes,
      List.filterMap_append] at hall
    have hlen := congrArg List.length hall
    simp [Piece.lexeme] at hlen
  · intro hword
    refine ⟨lexes_of_accepted h, fun ps hps => ?_, derives_of_accepted h⟩
    rw [tokens, hps.tokensFrom_eq]
    refine (hdelivered hps).2 fun qs w heq => ?_
    subst heq
    exact hword ⟨qs, w, hps⟩

theorem kept_iff_not_endsInWord_statement :
    Kept "a b;".toList [.mk ["a".toList, "b".toList] none] ↔ ¬ EndsInWord "a b;".toList :=
  kept_iff_not_endsInWord _ _ rfl

/-- `a; b` is accepted, and `b` is nowhere. -/
theorem not_kept_lastWord :
    parse "a; b".toList [] = some (.returned true [.mk ["a".toList] none]) ∧
      ¬ Kept "a; b".toList [.mk ["a".toList] none] := by
  refine ⟨rfl, fun h => ?_⟩
  have hlexes : Lexes "a; b".toList
      [.normal ['a'], .punct ';' .statementEnd, .blank ' ', .normal ['b']] := by
    refine .letter (isNormal_singleton rfl (by decide) (by decide)) ?_ (.punct rfl (.blank rfl
      (.letter (isNormal_singleton rfl (by decide) (by decide)) ?_ .nil)))
    · rintro c s' heq
      exact (List.cons.inj heq).1 ▸ rfl
    · rintro c s' heq
      exact absurd heq (by simp)
  have hall := h.delivered _ hlexes
  exact absurd hall (by decide)

end NginxConfigParser

end Webserver

import Mathlib.Data.List.Forall2
import Webserver.ConfigPrinter

/-!
# A word of a text and its place in the tree

A normal word that is put between quotes, with blanks around it, is another token at the same
place. The flags of the tokens can only be raised by that, so that what was accepted still is,
with the one word of the tree replaced.
-/

set_option autoImplicit false

namespace Webserver

/-- A place for one word in a configuration: in a statement of it, or in the block of one. -/
inductive Spot where
  | here (before : NginxConfig) (ws vs : List Str) (block : Option NginxConfig)
      (behind : NginxConfig)
  | inside (before : NginxConfig) (tokens : List Str) (spot : Spot) (behind : NginxConfig)

namespace Spot

/-- The statements in front of the one with the place. -/
def before : Spot → NginxConfig
  | here before _ _ _ _ => before
  | inside before _ _ _ => before

def behind : Spot → NginxConfig
  | here _ _ _ _ behind => behind
  | inside _ _ _ behind => behind

def fill (word : Str) : Spot → NginxConfig
  | here before ws vs block behind => before ++ .mk (ws ++ word :: vs) block :: behind
  | inside before tokens spot behind => before ++ .mk tokens (some (spot.fill word)) :: behind

/-- The statement that has the word. -/
def statement (word : Str) : Spot → NginxConfigStatement
  | here _ ws vs block _ => .mk (ws ++ word :: vs) block
  | inside _ tokens spot _ => .mk tokens (some (spot.fill word))

theorem fill_eq (spot : Spot) (word : Str) :
    spot.fill word = spot.before ++ spot.statement word :: spot.behind := by
  cases spot with
  | here => rfl
  | inside => rfl

/-- The place behind one more statement. -/
def cons (first : NginxConfigStatement) : Spot → Spot
  | here before ws vs block behind => here (first :: before) ws vs block behind
  | inside before tokens spot behind => inside (first :: before) tokens spot behind

theorem fill_cons (first : NginxConfigStatement) (spot : Spot) (word : Str) :
    (spot.cons first).fill word = first :: spot.fill word := by
  cases spot with
  | here => rfl
  | inside => rfl

end Spot

namespace NginxConfigParser

/-- The same token, with a flag that may have been raised. -/
structure Raises (t t' : Token) : Prop where
  type : t'.type = t.type
  value : t'.value = t.value
  seen : t.seenWhitespace = true → t'.seenWhitespace = true

theorem Raises.refl (t : Token) : Raises t t := ⟨rfl, rfl, id⟩

theorem raises_self (ts : List Token) : List.Forall₂ Raises ts ts :=
  List.forall₂_same.mpr fun t _ => .refl t

/-- One normal word becomes a quoted string that stands apart. -/
inductive Quotes (w w' : Str) : List Token → List Token → Prop
  | here {t : Token} {ts ts' : List Token} (htype : t.type = .normal) (hvalue : t.value = w)
      (h : List.Forall₂ Raises ts ts') : Quotes w w' (t :: ts) (⟨.quotedString, w', true⟩ :: ts')
  | there {t : Token} {ts ts' : List Token} (h : Quotes w w' ts ts') :
      Quotes w w' (t :: ts) (t :: ts')

section Grammar
variable {w w' : Str} {ts us vs : List Token}

theorem raises_append (h : List.Forall₂ Raises (ts ++ us) vs) :
    ∃ ts' us', vs = ts' ++ us' ∧ List.Forall₂ Raises ts ts' ∧ List.Forall₂ Raises us us' := by
  induction ts generalizing vs with
  | nil => exact ⟨[], vs, rfl, .nil, h⟩
  | cons t ts ih =>
    cases h with
    | @cons _ t' _ vs ht hrest =>
      obtain ⟨ts', us', rfl, hts, hus⟩ := ih hrest
      exact ⟨t' :: ts', us', rfl, .cons ht hts, hus⟩

theorem quotes_append (h : Quotes w w' (ts ++ us) vs) :
    (∃ ts' us', vs = ts' ++ us' ∧ Quotes w w' ts ts' ∧ List.Forall₂ Raises us us') ∨
      ∃ us', vs = ts ++ us' ∧ Quotes w w' us us' := by
  induction ts generalizing vs with
  | nil => exact Or.inr ⟨vs, rfl, h⟩
  | cons t ts ih =>
    cases h with
    | here htype hvalue hrest =>
      obtain ⟨ts', us', rfl, hts, hus⟩ := raises_append hrest
      exact Or.inl ⟨_ :: ts', us', rfl, .here htype hvalue hts, hus⟩
    | there hrest =>
      rcases ih hrest with ⟨ts', us', rfl, hts, hus⟩ | ⟨us', rfl, hus⟩
      · exact Or.inl ⟨t :: ts', us', rfl, .there hts, hus⟩
      · exact Or.inr ⟨us', rfl, hus⟩

theorem quotes_cons {t : Token} (ht : t.type ≠ .normal) (h : Quotes w w' (t :: ts) vs) :
    ∃ ts', vs = t :: ts' ∧ Quotes w w' ts ts' := by
  cases h with
  | here htype _ _ => exact absurd htype ht
  | there hrest => exact ⟨_, rfl, hrest⟩

theorem raises_values (h : List.Forall₂ Raises ts us) :
    us.map (·.value) = ts.map (·.value) := by
  induction h with
  | nil => rfl
  | cons ht _ ih => rw [List.map_cons, List.map_cons, ht.value, ih]

theorem raises_words (h : List.Forall₂ Raises ts us) (hts : ∀ t ∈ ts, t.type.isWord = true) :
    ∀ u ∈ us, u.type.isWord = true := by
  induction h with
  | nil => exact fun u hu => absurd hu List.not_mem_nil
  | cons ht _ ih =>
    rw [List.forall_mem_cons] at hts ⊢
    exact ⟨ht.type ▸ hts.1, ih hts.2⟩

theorem raises_separated (h : List.Forall₂ Raises ts us)
    (hts : ∀ t ∈ ts, t.seenWhitespace = true) : ∀ u ∈ us, u.seenWhitespace = true := by
  induction h with
  | nil => exact fun u hu => absurd hu List.not_mem_nil
  | cons ht _ ih =>
    rw [List.forall_mem_cons] at hts ⊢
    exact ⟨ht.seen hts.1, ih hts.2⟩

theorem Words.raised (hwords : Words ts) (h : List.Forall₂ Raises ts us) : Words us := by
  refine ⟨raises_words h hwords.words, ?_, ?_⟩
  · rintro rfl
    cases h
    exact hwords.nonempty rfl
  · cases h with
    | nil => exact fun u hu => absurd hu List.not_mem_nil
    | cons _ hrest => exact raises_separated hrest hwords.separated

theorem Derives.raised {config : NginxConfig} (hd : Derives ts config)
    (h : List.Forall₂ Raises ts us) : Derives us config := by
  induction hd generalizing us with
  | nil =>
    cases h
    exact .nil
  | simple hwords hclose _ ih =>
    obtain ⟨words', rest, rfl, hwords', hrest⟩ := raises_append h
    cases hrest with
    | cons hclose' hrest =>
      rw [← raises_values hwords']
      exact .simple (hwords.raised hwords') (hclose'.type.trans hclose) (ih hrest)
  | block hwords hopen _ hclose _ ihinner ih =>
    obtain ⟨front, rest, rfl, hfront, hrest⟩ := raises_append h
    obtain ⟨words', inner, rfl, hwords', hinner⟩ := raises_append hfront
    cases hrest with
    | cons hclose' hrest =>
      cases hinner with
      | cons hopen' hinner =>
        rw [← raises_values hwords']
        exact .block (hwords.raised hwords') (hopen'.type.trans hopen) (ihinner hinner)
          (hclose'.type.trans hclose) (ih hrest)

theorem quotes_values (h : Quotes w w' ts us) :
    ∃ xs ys, ts.map (·.value) = xs ++ w :: ys ∧ us.map (·.value) = xs ++ w' :: ys := by
  induction h with
  | here htype hvalue hrest =>
    exact ⟨[], _, by rw [List.map_cons, hvalue]; rfl, by rw [List.map_cons, raises_values hrest]; rfl⟩
  | @there t ts us _ ih =>
    obtain ⟨xs, ys, hts, hus⟩ := ih
    exact ⟨t.value :: xs, ys, by rw [List.map_cons, hts]; rfl, by rw [List.map_cons, hus]; rfl⟩

theorem quotes_words (h : Quotes w w' ts us) (hts : ∀ t ∈ ts, t.type.isWord = true) :
    ∀ u ∈ us, u.type.isWord = true := by
  induction h with
  | here _ _ hrest =>
    rw [List.forall_mem_cons] at hts ⊢
    exact ⟨rfl, raises_words hrest hts.2⟩
  | there _ ih =>
    rw [List.forall_mem_cons] at hts ⊢
    exact ⟨hts.1, ih hts.2⟩

theorem quotes_separated (h : Quotes w w' ts us) (hts : ∀ t ∈ ts, t.seenWhitespace = true) :
    ∀ u ∈ us, u.seenWhitespace = true := by
  induction h with
  | here _ _ hrest =>
    rw [List.forall_mem_cons] at hts ⊢
    exact ⟨rfl, raises_separated hrest hts.2⟩
  | there _ ih =>
    rw [List.forall_mem_cons] at hts ⊢
    exact ⟨hts.1, ih hts.2⟩

theorem Words.quoted (hwords : Words ts) (h : Quotes w w' ts us) : Words us := by
  refine ⟨quotes_words h hwords.words, ?_, ?_⟩
  · rintro rfl
    cases h
  · cases h with
    | here _ _ hrest => exact raises_separated hrest hwords.separated
    | there hrest => exact quotes_separated hrest hwords.separated

/-- The derivation with the one word replaced where it stands. -/
theorem Derives.quoted {config : NginxConfig} (hd : Derives ts config) (h : Quotes w w' ts us) :
    ∃ spot : Spot, config = spot.fill w ∧ Derives us (spot.fill w') := by
  induction hd generalizing us with
  | nil => cases h
  | @simple words rest close config hwords hclose hrest ih =>
    rcases quotes_append h with ⟨words', back, rfl, hwords', hback⟩ | ⟨back, rfl, hback⟩
    · obtain ⟨xs, ys, hxs, hys⟩ := quotes_values hwords'
      cases hback with
      | cons hclose' hback =>
        refine ⟨.here [] xs ys none config, by rw [hxs]; rfl, ?_⟩
        have hsimple := Derives.simple (hwords.quoted hwords') (hclose'.type.trans hclose)
          (hrest.raised hback)
        rwa [hys] at hsimple
    · obtain ⟨rest', rfl, hrest'⟩ := quotes_cons (by rw [hclose]; decide) hback
      obtain ⟨spot, rfl, hspot⟩ := ih hrest'
      refine ⟨spot.cons _, (spot.fill_cons _ w).symm, ?_⟩
      rw [spot.fill_cons]
      exact .simple hwords hclose hspot
  | @block words inner rest openBlock close block config hwords hopen hinner hclose hrest ihinner ih =>
    rcases quotes_append h with ⟨front, back, rfl, hfront, hback⟩ | ⟨back, rfl, hback⟩
    · cases hback with
      | cons hclose' hback =>
        have hrest' := hrest.raised hback
        rcases quotes_append hfront with ⟨words', inner', rfl, hwords', hinner'⟩ |
          ⟨inner', rfl, hinner'⟩
        · -- in the words in front of the block
          obtain ⟨xs, ys, hxs, hys⟩ := quotes_values hwords'
          cases hinner' with
          | cons hopen' hinner' =>
            refine ⟨.here [] xs ys (some block) config, by rw [hxs]; rfl, ?_⟩
            have hblock := Derives.block (hwords.quoted hwords') (hopen'.type.trans hopen)
              (hinner.raised hinner') (hclose'.type.trans hclose) hrest'
            rwa [hys] at hblock
        · obtain ⟨back', rfl, hback'⟩ := quotes_cons (by rw [hopen]; decide) hinner'
          obtain ⟨spot, rfl, hspot⟩ := ihinner hback'
          exact ⟨.inside [] (words.map fun t : Token => t.value) spot config, rfl,
            .block hwords hopen hspot (hclose'.type.trans hclose) hrest'⟩
    · obtain ⟨rest', rfl, hrest'⟩ := quotes_cons (by rw [hclose]; decide) hback
      obtain ⟨spot, rfl, hspot⟩ := ih hrest'
      refine ⟨spot.cons _, (spot.fill_cons _ w).symm, ?_⟩
      rw [spot.fill_cons]
      exact .block hwords hopen hinner hclose hspot

theorem raises_uncommented (h : List.Forall₂ Raises ts us) :
    List.Forall₂ Raises (uncommented ts) (uncommented us) := by
  induction h with
  | nil => exact .nil
  | @cons t u ts us ht _ ih =>
    by_cases hcomment : t.type = .comment
    · rw [uncommented, uncommented, List.filter_cons_of_neg (by simp [hcomment]),
        List.filter_cons_of_neg (by simp [ht.type, hcomment])]
      exact ih
    · rw [uncommented, uncommented, List.filter_cons_of_pos (by simp [hcomment]),
        List.filter_cons_of_pos (by simp [ht.type, hcomment])]
      exact .cons ht ih

theorem quotes_uncommented (h : Quotes w w' ts us) :
    Quotes w w' (uncommented ts) (uncommented us) := by
  induction h with
  | here htype hvalue hrest =>
    rw [uncommented, uncommented, List.filter_cons_of_pos (by simp [htype]),
      List.filter_cons_of_pos (by simp)]
    exact .here htype hvalue (raises_uncommented hrest)
  | @there t ts us _ ih =>
    by_cases hcomment : t.type = .comment
    · rw [uncommented, uncommented, List.filter_cons_of_neg (by simp [hcomment]),
        List.filter_cons_of_neg (by simp [hcomment])]
      exact ih
    · rw [uncommented, uncommented, List.filter_cons_of_pos (by simp [hcomment]),
        List.filter_cons_of_pos (by simp [hcomment])]
      exact .there ih

end Grammar

/-! The two texts. -/

/-- A normal word that is delivered as a token: where it begins a token may begin, and it ends
in front of the end of the text. -/
structure WordIn (pre w post : Str) : Prop where
  front : ∃ ps, Lexes pre ps ∧ ∀ p, ps.getLast? = some p →
    (∀ v, p ≠ .normal v) ∧ ∀ body, p ≠ .comment body
  word : IsNormal w
  ends : ∃ c rest, post = c :: rest ∧ endsNormal c = true

def quoted (quote : Char) (w : Str) : Str := quote :: w ++ [quote]

/-- The word between quotes, with blanks around them. -/
def quoteAt (pre w post : Str) (quote : Char) : Str := pre ++ ' ' :: (quoted quote w ++ ' ' :: post)

/-- What comes in front of a place where a token may begin is delivered on its own. -/
theorem Lexes.complete {s : Str} {ps : List Piece} (h : Lexes s ps)
    (hlast : ∀ p, ps.getLast? = some p → (∀ v, p ≠ .normal v) ∧ ∀ body, p ≠ .comment body)
    (seen : Bool) :
    ∃ front seen', ∀ rest, tokensFrom seen (s ++ rest) = front ++ tokensFrom seen' rest := by
  have htail {p : Piece} {ps : List Piece}
      (hlast : ∀ q, (p :: ps).getLast? = some q → (∀ v, q ≠ .normal v) ∧ ∀ body, q ≠ .comment body) :
      ∀ q, ps.getLast? = some q → (∀ v, q ≠ .normal v) ∧ ∀ body, q ≠ .comment body := by
    intro q hq
    apply hlast q
    rw [List.getLast?_cons, hq]
    rfl
  induction h generalizing seen with
  | nil => exact ⟨[], seen, fun rest => rfl⟩
  | @blank c s ps hc h ih =>
    obtain ⟨front, seen', hfront⟩ := ih (htail hlast) (seen || c = ' ')
    refine ⟨front, seen', fun rest => ?_⟩
    rw [← hfront, List.cons_append]
    rcases isBlank_cases hc with rfl | ⟨hne, hc⟩
    · rw [tokensFrom_space, decide_eq_true rfl, Bool.or_true]
    · rw [tokensFrom_blank seen hc, decide_eq_false hne, Bool.or_false]
  | @comment body s ps hbody hend h ih =>
    obtain ⟨front, seen', hfront⟩ := ih (htail hlast) false
    have hne : s ≠ [] := by
      intro hs
      rw [h.ne_nil.mp hs] at hlast
      exact (hlast _ rfl).2 body rfl
    refine ⟨⟨.comment, '#' :: body, seen⟩ :: front, seen', fun rest => ?_⟩
    rw [List.append_assoc, tokensFrom_comment_ends seen hbody (hend.append hne rest) (by simp [hne]),
      hfront, List.cons_append]
  | @punct c type s ps hc h ih =>
    obtain ⟨front, seen', hfront⟩ := ih (htail hlast) false
    refine ⟨⟨type, [c], seen⟩ :: front, seen', fun rest => ?_⟩
    rw [List.cons_append, tokensFrom_punct seen hc, hfront, List.cons_append]
  | @quoted quote body s ps hquote hbody h ih =>
    obtain ⟨front, seen', hfront⟩ := ih (htail hlast) false
    refine ⟨⟨.quotedString, processEsc (quote :: body ++ [quote]), seen⟩ :: front, seen',
      fun rest => ?_⟩
    have hsplit : quote :: body ++ quote :: s ++ rest = quote :: body ++ quote :: (s ++ rest) := by
      simp
    rw [hsplit, tokensFrom_quote seen hquote hbody, hfront]
    rfl
  | @normal word s ps hword hend h ih =>
    obtain ⟨front, seen', hfront⟩ := ih (htail hlast) false
    have hne : s ≠ [] := by
      intro hs
      rw [h.ne_nil.mp hs] at hlast
      exact (hlast _ rfl).1 word rfl
    refine ⟨⟨.normal, word, seen⟩ :: front, seen', fun rest => ?_⟩
    rw [List.append_assoc, tokensFrom_normal_ends seen hword (hend.append hne rest) (by simp [hne]),
      hfront, List.cons_append]

/-- What a character does to a scanner whose flag is raised. -/
def Scanned.raised : Scanned → Scanned
  | .more s => .more { s with seenWhitespace := true }
  | .token type value => .token type value
  | .unget value => .unget value

/-- `seenWhitespace` is carried along and looked at nowhere in `ParseToken`. -/
theorem scanChar_raised (s : Scanner) (c : Char) :
    scanChar { s with seenWhitespace := true } c = (scanChar s c).raised := by
  obtain ⟨state, inEscapeSeq, value, seen⟩ := s
  cases state with
  | initialWhitespace =>
    simp only [scanChar, scanInitialWhitespace, apply_ite Scanned.raised]
    rfl
  | singleQuote | doubleQuote =>
    simp only [scanChar, scanQuote]
    split_ifs <;> rfl
  | tokenTypeComment =>
    simp only [scanChar, scanComment]
    split_ifs <;> rfl
  | tokenTypeNormal =>
    simp only [scanChar, scanNormal]
    split_ifs <;> rfl

theorem scan_raised (s : Scanner) (input : Str) :
    scan { s with seenWhitespace := true } input =
      ({ (scan s input).1 with seenWhitespace := true }, (scan s input).2) := by
  induction input generalizing s with
  | nil =>
    rw [scan, scan]
    split_ifs <;> rfl
  | cons c input ih =>
    rw [scan, scan, scanChar_raised]
    cases scanChar s c with
    | more s' => exact ih s'
    | token type value => rfl
    | unget value => rfl

theorem tokensFrom_raised (seen : Bool) (input : Str) :
    List.Forall₂ Raises (tokensFrom seen input) (tokensFrom true input) := by
  have hscan : scanFrom true input =
      ({ (scanFrom seen input).1 with seenWhitespace := true }, (scanFrom seen input).2) :=
    scan_raised ⟨.initialWhitespace, false, [], seen⟩ input
  have hone : Raises (scanFrom seen input).1
      { (scanFrom seen input).1 with seenWhitespace := true } := ⟨rfl, rfl, fun _ => rfl⟩
  rw [tokensFrom_eq, tokensFrom_eq true, hscan]
  dsimp only
  split_ifs with heof herror
  · exact .nil
  · exact .cons hone .nil
  · exact .cons hone (raises_self _)

theorem WordIn.quotes {pre w post : Str} (h : WordIn pre w post) (hescape : '\\' ∉ w)
    {quote : Char} (hquote : isQuote quote = true) :
    Quotes w (NginxConfigParser.quoted quote w) (tokens (pre ++ w ++ post))
      (tokens (quoteAt pre w post quote)) := by
  obtain ⟨⟨ps, hps, hlast⟩, hword, c, rest, rfl, hc⟩ := h
  obtain ⟨front, seen, hfront⟩ := hps.complete hlast false
  have hinner : quote ∉ w := by
    intro hmem
    have hordinary := hword.ordinary quote hmem
    have hq : quote = '\'' ∨ quote = '"' := by simpa [isQuote] using hquote
    rcases hq with rfl | rfl <;> exact absurd hordinary (by decide)
  have hvalue : processEsc (quote :: w ++ [quote]) = NginxConfigParser.quoted quote w := by
    apply processEsc_plain
    have hne := not_isQuote_backslash hquote
    simp [hescape, Ne.symm hne]
  have hread := tokensFrom_quote true hquote (.of_plain hinner hescape) (' ' :: c :: rest)
  have hplain : tokens (pre ++ w ++ c :: rest) =
      front ++ ⟨.normal, w, seen⟩ :: tokensFrom false (c :: rest) := by
    rw [tokens, List.append_assoc, hfront, tokensFrom_normal seen hword hc]
  have hquoted : tokens (quoteAt pre w (c :: rest) quote) =
      front ++ ⟨.quotedString, NginxConfigParser.quoted quote w, true⟩ ::
        tokensFrom true (c :: rest) := by
    have hsplit : NginxConfigParser.quoted quote w ++ ' ' :: c :: rest =
        quote :: w ++ quote :: ' ' :: c :: rest := by simp [NginxConfigParser.quoted]
    rw [tokens, quoteAt, hfront, tokensFrom_space, hsplit, hread, hvalue, tokensFrom_space]
  rw [hplain, hquoted]
  have hbehind (front : List Token) : Quotes w (NginxConfigParser.quoted quote w)
      (front ++ ⟨.normal, w, seen⟩ :: tokensFrom false (c :: rest))
      (front ++ ⟨.quotedString, NginxConfigParser.quoted quote w, true⟩ ::
        tokensFrom true (c :: rest)) := by
    induction front with
    | nil => exact .here rfl rfl (tokensFrom_raised false _)
    | cons t front ih => exact .there ih
  exact hbehind front

/-- The text with the word quoted is accepted as well, and its tree is the old one with the
quoted word in the place of the word. -/
theorem parse_quoteAt {pre w post : Str} (h : WordIn pre w post) (hescape : '\\' ∉ w)
    {quote : Char} (hquote : isQuote quote = true) {config : NginxConfig}
    (hparse : parse (pre ++ w ++ post) [] = some (.returned true config)) :
    ∃ spot : Spot, config = spot.fill w ∧ parse (quoteAt pre w post quote) [] =
      some (.returned true (spot.fill (NginxConfigParser.quoted quote w))) := by
  obtain ⟨spot, hconfig, hspot⟩ :=
    (derives_of_accepted hparse).quoted (quotes_uncommented (h.quotes hescape hquote))
  refine ⟨spot, hconfig, ?_⟩
  rw [parse_eq, ← drive_uncommented]
  exact congrArg some (accepted_of_derives hspot)

end NginxConfigParser

end Webserver

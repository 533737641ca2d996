import Webserver.ConfigLexemes

/-!
# White space and comments between two tokens

A separator reaches the driver as one flag of the token behind it, and the flag is set by a blank
`' '` alone and lost at every comment. A word that stands in front of `'\r'` goes on.
-/

set_option autoImplicit false

namespace Webserver

namespace NginxConfigParser

def Piece.text : Piece → Str
  | .blank c => [c]
  | .comment body => '#' :: body
  | .punct c _ => [c]
  | .quoted quote body => quote :: body ++ [quote]
  | .normal word => word

/-- White space and complete comments, white space first. -/
structure Separator (sep : Str) (ps : List Piece) : Prop where
  lexes : Lexes sep ps
  layout : ∀ p ∈ ps, p.lexeme = none
  first : ∃ c ps', ps = .blank c :: ps'
  complete : ∃ ps' c, ps = ps' ++ [.blank c]

/-- What `seenWhitespace` is behind the pieces. -/
def seenBehind : Bool → List Piece → Bool
  | seen, [] => seen
  | seen, .blank c :: ps => seenBehind (seen || c = ' ') ps
  | _, _ :: ps => seenBehind false ps

def Piece.isWord (p : Piece) : Bool :=
  match p with
  | .quoted _ _ | .normal _ => true
  | _ => false

/-- The text begins with a word that `ParseToken` delivers. -/
inductive WordAhead : Str → Prop
  | quoted {quote : Char} {body : Str} (hquote : isQuote quote = true)
      (hbody : QuoteBody quote body) (rest : Str) : WordAhead (quote :: body ++ quote :: rest)
  | normal {word : Str} (hword : IsNormal word) {c : Char} (hc : endsNormal c = true)
      (rest : Str) : WordAhead (word ++ c :: rest)

/-- What the separators are to `Parse` between the piece and the text behind: it has given up, or
the piece is delivered as it is, and a word behind it is seen to stand apart or not. -/
def Alike (pre : Str) (p : Piece) (ps₁ ps₂ : List Piece) (post : Str) : Prop :=
  advance (.initial []) (tokens (pre ++ [' '])) = none ∨
    ((∀ w, p = .normal w → ps₁.head? ≠ some (.blank '\r') ∧ ps₂.head? ≠ some (.blank '\r')) ∧
      (p.isWord = true → WordAhead post → seenBehind false ps₁ = seenBehind false ps₂))

/-- `Parse` returns the same from both texts. -/
def Unchanged (text₁ text₂ : Str) : Prop :=
  ∃ verdict config, parse text₁ [] = some (.returned verdict config) ∧
    parse text₂ [] = some (.returned verdict config)

/-! What is delivered in front of a separator, and behind it. -/

theorem Lexes.ends {s : Str} {p : Piece} (h : Lexes s [p]) : s = p.text := by
  cases h with
  | blank hc h => rw [h.ne_nil.mpr rfl]; rfl
  | comment hbody hend h => rw [h.ne_nil.mpr rfl, List.append_nil]; rfl
  | punct hc h => rw [h.ne_nil.mpr rfl]; rfl
  | quoted hquote hbody h => rw [h.ne_nil.mpr rfl]; rfl
  | normal hword hend h => rw [h.ne_nil.mpr rfl, List.append_nil]; rfl

/-- The pieces in front of the last one are delivered whatever comes behind it. -/
theorem Lexes.front {s : Str} {ps qs : List Piece} {p : Piece} (h : Lexes s ps)
    (hps : ps = qs ++ [p]) (seen : Bool) :
    ∃ front seen', ∀ rest, tokensFrom seen (s ++ rest) = front ++ tokensFrom seen' (p.text ++ rest) := by
  induction h generalizing qs seen with
  | nil => exact absurd hps (by simp)
  | @blank c s ps hc h ih =>
    rcases List.cons_eq_append_iff.mp hps with ⟨rfl, hlast⟩ | ⟨qs, rfl, hps'⟩
    · obtain ⟨rfl, rfl⟩ := List.cons.inj hlast
      exact ⟨[], seen, fun rest => by rw [h.ne_nil.mpr rfl]; rfl⟩
    · rcases isBlank_cases hc with rfl | ⟨_, hc⟩
      · obtain ⟨front, seen', hfront⟩ := ih hps' true
        exact ⟨front, seen', fun rest => by rw [List.cons_append, tokensFrom_space, hfront]⟩
      · obtain ⟨front, seen', hfront⟩ := ih hps' seen
        exact ⟨front, seen', fun rest => by rw [List.cons_append, tokensFrom_blank seen hc, hfront]⟩
  | @comment body s ps hbody hend h ih =>
    rcases List.cons_eq_append_iff.mp hps with ⟨rfl, hlast⟩ | ⟨qs, rfl, hps'⟩
    · obtain ⟨rfl, rfl⟩ := List.cons.inj hlast
      exact ⟨[], seen, fun rest => by rw [h.ne_nil.mpr rfl, List.append_nil]; rfl⟩
    · obtain ⟨front, seen', hfront⟩ := ih hps' false
      have hne : s ≠ [] := fun hs => absurd (h.ne_nil.mp hs) (by simp [hps'])
      refine ⟨⟨.comment, '#' :: body, seen⟩ :: front, seen', fun rest => ?_⟩
      rw [List.append_assoc, tokensFrom_comment_ends seen hbody (hend.append hne rest) (by simp [hne]),
        hfront, List.cons_append]
  | @punct c type s ps hc h ih =>
    rcases List.cons_eq_append_iff.mp hps with ⟨rfl, hlast⟩ | ⟨qs, rfl, hps'⟩
    · obtain ⟨rfl, rfl⟩ := List.cons.inj hlast
      exact ⟨[], seen, fun rest => by rw [h.ne_nil.mpr rfl]; rfl⟩
    · obtain ⟨front, seen', hfront⟩ := ih hps' false
      refine ⟨⟨type, [c], seen⟩ :: front, seen', fun rest => ?_⟩
      rw [List.cons_append, List.cons_append, tokensFrom_punct seen hc, hfront]
  | @quoted quote body s ps hquote hbody h ih =>
    rcases List.cons_eq_append_iff.mp hps with ⟨rfl, hlast⟩ | ⟨qs, rfl, hps'⟩
    · obtain ⟨rfl, rfl⟩ := List.cons.inj hlast
      exact ⟨[], seen, fun rest => by rw [h.ne_nil.mpr rfl]; rfl⟩
    · obtain ⟨front, seen', hfront⟩ := ih hps' false
      refine ⟨⟨.quotedString, processEsc (quote :: body ++ [quote]), seen⟩ :: front, seen',
        fun rest => ?_⟩
      have hsplit : quote :: body ++ quote :: s ++ rest = quote :: body ++ quote :: (s ++ rest) := by
        simp
      rw [hsplit, tokensFrom_quote seen hquote hbody, hfront]
      rfl
  | @normal word s ps hword hend h ih =>
    rcases List.cons_eq_append_iff.mp hps with ⟨rfl, hlast⟩ | ⟨qs, rfl, hps'⟩
    · obtain ⟨rfl, rfl⟩ := List.cons.inj hlast
      exact ⟨[], seen, fun rest => by rw [h.ne_nil.mpr rfl, List.append_nil]; rfl⟩
    · obtain ⟨front, seen', hfront⟩ := ih hps' false
      have hne : s ≠ [] := fun hs => absurd (h.ne_nil.mp hs) (by simp [hps'])
      refine ⟨⟨.normal, word, seen⟩ :: front, seen', fun rest => ?_⟩
      rw [List.append_assoc, tokensFrom_normal_ends seen hword (hend.append hne rest) (by simp [hne]),
        hfront, List.cons_append]

/-- Comments are all that is delivered of a separator. -/
theorem tokensFrom_layout {s : Str} {ps : List Piece} (h : Lexes s ps)
    (hlayout : ∀ p ∈ ps, p.lexeme = none) (hcomplete : ∀ body, ps.getLast? ≠ some (.comment body))
    (seen : Bool) :
    ∃ comments : List Token, (∀ t ∈ comments, t.type = .comment) ∧ ∀ rest,
      tokensFrom seen (s ++ rest) = comments ++ tokensFrom (seenBehind seen ps) rest := by
  have hcomplete' {p : Piece} {ps : List Piece}
      (h : ∀ body, (p :: ps).getLast? ≠ some (.comment body)) (body : Str) :
      ps.getLast? ≠ some (.comment body) := by
    intro hlast
    apply h body
    rw [List.getLast?_cons, hlast]
    rfl
  induction h generalizing seen with
  | nil => exact ⟨[], by simp, fun rest => rfl⟩
  | @blank c s ps hc h ih =>
    obtain ⟨comments, hcomments, hread⟩ :=
      ih (fun p hp => hlayout p (List.mem_cons_of_mem _ hp)) (hcomplete' hcomplete) (seen || c = ' ')
    refine ⟨comments, hcomments, fun rest => ?_⟩
    rw [seenBehind, ← hread rest, List.cons_append]
    rcases isBlank_cases hc with rfl | ⟨hne, hc⟩
    · rw [tokensFrom_space, decide_eq_true rfl, Bool.or_true]
    · rw [tokensFrom_blank seen hc, decide_eq_false hne, Bool.or_false]
  | @comment body s ps hbody hend h ih =>
    have hne : s ≠ [] := by
      intro hs
      rw [h.ne_nil.mp hs] at hcomplete
      exact hcomplete body rfl
    obtain ⟨comments, hcomments, hread⟩ :=
      ih (fun p hp => hlayout p (List.mem_cons_of_mem _ hp)) (hcomplete' hcomplete) false
    refine ⟨⟨.comment, '#' :: body, seen⟩ :: comments,
      List.forall_mem_cons.mpr ⟨rfl, hcomments⟩, fun rest => ?_⟩
    rw [seenBehind, List.append_assoc,
      tokensFrom_comment_ends seen hbody (hend.append hne rest) (by simp [hne]), hread rest,
      List.cons_append]
    exact fun _ h => absurd h (by simp)
  | punct hc h ih => exact absurd (hlayout _ List.mem_cons_self) (by simp [Piece.lexeme])
  | quoted hquote hbody h ih => exact absurd (hlayout _ List.mem_cons_self) (by simp [Piece.lexeme])
  | normal hword hend h ih => exact absurd (hlayout _ List.mem_cons_self) (by simp [Piece.lexeme])

/-! The words of a tree, in the order in which they come. -/

mutual

def statementWords : NginxConfigStatement → List Str
  | .mk tokens childBlock => tokens ++ blockWords childBlock

def blockWords : Option (List NginxConfigStatement) → List Str
  | none => []
  | some config => configWords config

def configWords : List NginxConfigStatement → List Str
  | [] => []
  | statement :: config => statementWords statement ++ configWords config

end

theorem configWords_append (config config' : NginxConfig) :
    configWords (config ++ config') = configWords config ++ configWords config' := by
  induction config with
  | nil => rfl
  | cons statement config ih => rw [List.cons_append, configWords, configWords, ih, List.append_assoc]

theorem configWords_concat (config : NginxConfig) (words : List Str) (block : Option NginxConfig) :
    configWords (config ++ [.mk words block]) = configWords config ++ (words ++ blockWords block) := by
  rw [configWords_append, configWords, configWords, List.append_nil, statementWords]

def frameWords : List Frame → List Str
  | [] => []
  | (before, words) :: frames => frameWords frames ++ (configWords before ++ words)

theorem configWords_plug (frames : List Frame) (config : NginxConfig) :
    configWords (plug frames config) = frameWords frames ++ configWords config := by
  induction frames generalizing config with
  | nil => rfl
  | cons frame frames ih =>
    obtain ⟨before, words⟩ := frame
    rw [plug, ih, configWords_concat, blockWords, frameWords]
    simp

/-- A statement that words are added to has no block yet. -/
def Growing (config : NginxConfig) (last : TokenType) : Prop :=
  last.isWord = true → ∃ before words, config = before ++ [.mk words none]

/-- The states that `Parse` gets to. -/
inductive Reached : ParseState → Prop
  | within {frames : List Frame} {config : NginxConfig} {last : TokenType}
      (hshaped : Shaped config last) (hgrowing : Growing config last) :
      Reached (within frames config last)
  | overrun (config : NginxConfig) : Reached (overrun config)

def Token.words (t : Token) : List Str := if t.type.isWord then [t.value] else []

theorem Token.words_eq {t : Token} (ht : t.type.isWord = true) : t.words = [t.value] := if_pos ht

theorem Moved.grows {frames : List Frame} {config : NginxConfig} {last : TokenType} {t : Token}
    {s : ParseState} (h : Moved frames config last t s) (hshaped : Shaped config last)
    (hgrowing : Growing config last) :
    Reached s ∧ configWords s.config = configWords (plug frames config) ++ t.words := by
  have hnone {before : NginxConfig} {words : List Str} {block : Option NginxConfig}
      (hgrowing : Growing (before ++ [.mk words block]) last) (hlast : last.isWord = true) :
      block = none := by
    obtain ⟨before', words', heq⟩ := hgrowing hlast
    have hlast := (List.append_inj' heq rfl).2
    injection hlast with hstatement
    injection hstatement
  have hother {type : TokenType} (ht : t.type = type) (htype : type.isWord = false) :
      t.words = [] := by
    rw [Token.words, ht, htype]
    rfl
  have hboundary (config : NginxConfig) (type : TokenType) (htype : type.isBoundary = true)
      (hnot : type.isWord = false) : Shaped config type ∧ Growing config type :=
    ⟨⟨Or.inl htype, fun h => absurd (hnot.symm.trans h) Bool.false_ne_true⟩,
      fun h => absurd (hnot.symm.trans h) Bool.false_ne_true⟩
  cases h with
  | comment ht => exact ⟨.within hshaped hgrowing, by rw [hother ht rfl, List.append_nil]; rfl⟩
  | firstWord ht hlast =>
    refine ⟨.within ⟨Or.inr ht, fun _ => ⟨_, _, _, rfl⟩⟩ fun _ => ⟨_, _, rfl⟩, ?_⟩
    simp only [within, configWords_plug, configWords_concat, blockWords, Token.words_eq ht]
    simp
  | nextWord ht hlast hseen =>
    obtain rfl := hnone hgrowing hlast
    refine ⟨.within ⟨Or.inr ht, fun _ => ⟨_, _, _, rfl⟩⟩ fun _ => ⟨_, _, rfl⟩, ?_⟩
    simp only [within, configWords_plug, configWords_concat, blockWords, Token.words_eq ht]
    simp
  | statementEnd ht hlast =>
    obtain ⟨hshaped', hgrowing'⟩ := hboundary config .statementEnd rfl rfl
    exact ⟨.within hshaped' hgrowing', by rw [hother ht rfl, List.append_nil]; rfl⟩
  | startBlock ht hlast =>
    obtain rfl := hnone hgrowing hlast
    obtain ⟨hshaped', hgrowing'⟩ := hboundary [] .startBlock rfl rfl
    refine ⟨.within hshaped' hgrowing', ?_⟩
    simp only [within, configWords_plug, configWords_concat, blockWords, hother ht rfl, frameWords]
    simp [configWords]
  | endBlock ht hlast hstart =>
    obtain ⟨hshaped', hgrowing'⟩ := hboundary _ .endBlock rfl rfl
    exact ⟨.within hshaped' hgrowing', by rw [hother ht rfl, List.append_nil]; rfl⟩
  | unmatched ht hlast hstart =>
    exact ⟨.overrun config, by rw [hother ht rfl, List.append_nil]; rfl⟩

theorem Reached.step {s s' : ParseState} {t : Token} (h : Reached s) (htake : take s t = .running s') :
    Reached s' ∧ configWords s'.config = configWords s.config ++ t.words := by
  cases h with
  | @within frames config last hshaped hgrowing =>
    rcases take_within hshaped frames t with ⟨s₁, hs₁, hmoved⟩ | ⟨_, verdict, result, hstop, _⟩
    · rw [htake] at hs₁
      obtain rfl := Progress.running.inj hs₁
      exact hmoved.grows hshaped hgrowing
    · rw [htake] at hstop
      exact absurd hstop (by simp)
  | overrun config =>
    by_cases ht : t.type = .comment
    · rw [take_comment ht] at htake
      obtain rfl := Progress.running.inj htake
      have hwords : t.words = [] := by rw [Token.words, ht]; rfl
      exact ⟨.overrun config, by rw [hwords, List.append_nil]⟩
    · exact absurd htake (next_of_overrun ht)

theorem Reached.advance {s s' : ParseState} {ts : List Token} (h : Reached s)
    (hs : advance s ts = some s') : Reached s' := by
  induction ts generalizing s with
  | nil => exact Option.some.inj hs ▸ h
  | cons t ts ih =>
    rw [NginxConfigParser.advance] at hs
    cases htake : take s t with
    | running s₁ =>
      rw [htake] at hs
      exact ih (h.step htake).1 hs
    | stopped o =>
      rw [htake] at hs
      exact absurd hs (by simp)

theorem reached_initial : Reached (.initial []) := by
  show Reached (NginxConfigParser.within [] [] .start)
  apply Reached.within
  · exact ⟨Or.inl rfl, fun h => absurd h (by decide)⟩
  · intro h
    exact absurd h (by decide)

/-- `Parse` returns the tree as it is when the loop ends. -/
theorem takeEof_config {s : ParseState} {verdict : Bool} {config : NginxConfig}
    (h : takeEof s = .returned verdict config) : config = s.config := by
  unfold takeEof at h
  dsimp only at h
  split_ifs at h <;> exact (Outcome.returned.inj h).2.symm

theorem take_stopped_config {s : ParseState} {t : Token} {verdict : Bool} {config : NginxConfig}
    (h : take s t = .stopped (.returned verdict config)) : config = s.config := by
  have hround := round_of_take s t
  rw [h] at hround
  generalize hp : Progress.stopped (.returned verdict config) = p at hround
  cases hround with
  | eof ht => exact takeEof_config (Progress.stopped.inj hp).symm
  | failed => exact (Outcome.returned.inj (Progress.stopped.inj hp)).2
  | _ => exact absurd hp (by simp)

/-- Words that have been taken stay in front. -/
theorem Reached.words_prefix {s : ParseState} {ts : List Token} {verdict : Bool}
    {config : NginxConfig} (h : Reached s) (hdrive : drive s ts = .returned verdict config) :
    configWords s.config <+: configWords config := by
  induction ts generalizing s with
  | nil => rw [takeEof_config hdrive]
  | cons t ts ih =>
    rw [drive] at hdrive
    cases htake : take s t with
    | running s₁ =>
      rw [htake] at hdrive
      obtain ⟨hreached, hwords⟩ := h.step htake
      have hprefix := ih hreached hdrive
      rw [hwords] at hprefix
      exact (List.prefix_append _ _).trans hprefix
    | stopped o =>
      rw [htake] at hdrive
      have hstop : o = .returned verdict config := hdrive
      rw [hstop] at htake
      rw [take_stopped_config htake]

/-! The token in front of a separator and the one behind it. -/

theorem drive_give_up {s : ParseState} {ts : List Token} (h : advance s ts = none) :
    ∃ o, ∀ us, drive s (ts ++ us) = o := by
  induction ts generalizing s with
  | nil => exact absurd h (by simp [advance])
  | cons t ts ih =>
    rw [advance] at h
    cases htake : take s t with
    | running s₁ =>
      rw [htake] at h
      obtain ⟨o, ho⟩ := ih h
      refine ⟨o, fun us => ?_⟩
      rw [List.cons_append, drive, htake]
      exact ho us
    | stopped o =>
      refine ⟨o, fun us => ?_⟩
      rw [List.cons_append, drive, htake]

theorem drive_comments {comments : List Token} (h : ∀ t ∈ comments, t.type = .comment)
    (s : ParseState) (ts : List Token) : drive s (comments ++ ts) = drive s ts := by
  induction comments with
  | nil => rfl
  | cons t comments ih =>
    rw [List.forall_mem_cons] at h
    rw [List.cons_append, drive, take_comment h.1]
    exact ih h.2

theorem lexeme_type {p : Piece} (hvalid : p.Valid) {type : TokenType} {value : Str}
    (hp : p.lexeme = some (type, value)) : type ≠ .comment ∧ p.isWord = type.isWord := by
  cases p with
  | blank | comment => exact absurd hp (by simp [Piece.lexeme])
  | quoted quote body =>
    obtain ⟨rfl, rfl⟩ := Prod.mk.inj (Option.some.inj hp)
    exact ⟨by simp, rfl⟩
  | normal word =>
    obtain ⟨rfl, rfl⟩ := Prod.mk.inj (Option.some.inj hp)
    exact ⟨by simp, rfl⟩
  | punct c type' =>
    obtain ⟨rfl, rfl⟩ := Prod.mk.inj (Option.some.inj hp)
    refine ⟨(punctType_cases hvalid).2.2, ?_⟩
    have hc : punctType c = some type' := hvalid
    unfold punctType at hc
    split_ifs at hc <;> obtain rfl := Option.some.inj hc <;> rfl

/-- The last token of the text in front is delivered as it is, unless it is a normal word that
goes on with `'\r'`. -/
theorem tokens_left {pre : Str} {qs : List Piece} {p : Piece} (h : Lexes pre (qs ++ [p]))
    {type : TokenType} {value : Str} (hp : p.lexeme = some (type, value)) :
    ∃ front seen, tokens (pre ++ [' ']) = front ++ [⟨type, value, seen⟩] ∧
      (∀ c rest, isBlank c = true → (∀ w, p = .normal w → c ≠ '\r') →
        tokens (pre ++ c :: rest) = front ++ ⟨type, value, seen⟩ :: tokensFrom false (c :: rest)) ∧
      (∀ w rest, p = .normal w → tokens (pre ++ '\r' :: rest) = front ∨
        ∃ a more, tokens (pre ++ '\r' :: rest) =
          front ++ ⟨.normal, w ++ '\r' :: a, seen⟩ :: more) := by
  obtain ⟨front, seen, hfront⟩ := h.front rfl false
  have hvalid := h.valid p (List.mem_append_right qs List.mem_cons_self)
  have hplain (c : Char) (rest : Str) (hc : isBlank c = true)
      (hreturn : ∀ w, p = .normal w → c ≠ '\r') : tokens (pre ++ c :: rest) =
        front ++ ⟨type, value, seen⟩ :: tokensFrom false (c :: rest) := by
    rw [tokens, hfront]
    cases p with
    | blank | comment => exact absurd hp (by simp [Piece.lexeme])
    | punct c' type' =>
      obtain ⟨rfl, rfl⟩ := Prod.mk.inj (Option.some.inj hp)
      rw [Piece.text, List.singleton_append, tokensFrom_punct seen hvalid]
    | quoted quote body =>
      obtain ⟨rfl, rfl⟩ := Prod.mk.inj (Option.some.inj hp)
      rw [Piece.text, List.append_assoc, List.singleton_append,
        tokensFrom_quote seen hvalid.1 hvalid.2]
    | normal word =>
      obtain ⟨rfl, rfl⟩ := Prod.mk.inj (Option.some.inj hp)
      have hends : endsNormal c = true := by
        have hne := hreturn word rfl
        simp only [isBlank, Bool.or_eq_true, decide_eq_true_eq] at hc
        simp only [endsNormal, Bool.or_eq_true, decide_eq_true_eq]
        tauto
      rw [Piece.text, tokensFrom_normal seen hvalid hends]
  refine ⟨front, seen, ?_, hplain, ?_⟩
  · rw [hplain ' ' [] rfl fun w _ => by decide, tokensFrom_space]
    rfl
  · rintro w rest rfl
    have hword : IsNormal w := hvalid
    obtain ⟨a, rest', rfl, ha, hend⟩ := exists_run endsNormal rest
    have hlonger : IsNormal (w ++ '\r' :: a) := by
      obtain ⟨hordinary, c, w', rfl, hfirst⟩ := hword
      refine ⟨fun d hd => ?_, c, w' ++ '\r' :: a, rfl, hfirst⟩
      rcases List.mem_append.mp hd with hd | hd
      · exact hordinary d hd
      · rcases List.mem_cons.mp hd with rfl | hd
        · rfl
        · exact ha d hd
    have htext : w ++ '\r' :: (a ++ rest') = (w ++ '\r' :: a) ++ rest' := by simp
    rw [tokens, hfront, Piece.text, htext]
    cases rest' with
    | nil =>
      left
      rw [List.append_nil, tokensFrom_eof seen (scanFrom_normal_eof seen hlonger), List.append_nil]
    | cons d rest' =>
      exact Or.inr ⟨a, _, by rw [tokensFrom_normal seen hlonger (hend d rest' rfl)]⟩

/-- The words that are delivered apart or not, as the flag says. -/
theorem WordAhead.tokens {post : Str} (h : WordAhead post) :
    ∃ type value rest, TokenType.isWord type = true ∧
      ∀ seen, tokensFrom seen post = ⟨type, value, seen⟩ :: tokensFrom false rest := by
  cases h with
  | quoted hquote hbody rest =>
    exact ⟨.quotedString, _, rest, rfl, fun seen => tokensFrom_quote seen hquote hbody rest⟩
  | normal hword hc rest =>
    exact ⟨.normal, _, _, rfl, fun seen => tokensFrom_normal seen hword hc rest⟩

/-- The flag of a token that is no word, or that begins a statement, is not looked at. -/
theorem take_flag (s : ParseState) (type : TokenType) (value : Str) (seen seen' : Bool)
    (h : type.isWord = true → s.lastTokenType.isWord = false) :
    take s ⟨type, value, seen⟩ = take s ⟨type, value, seen'⟩ := by
  cases type with
  | normal | quotedString => simp [take, takeWord, h rfl]
  | _ => rfl

theorem drive_flag (s : ParseState) {post : Str}
    (hpost : ∃ c rest, post = c :: rest ∧ isBlank c = false ∧ c ≠ '#')
    (h : WordAhead post → s.lastTokenType.isWord = false) (seen seen' : Bool) :
    drive s (tokensFrom seen post) = drive s (tokensFrom seen' post) := by
  by_cases hahead : WordAhead post
  · obtain ⟨type, value, rest, _, htokens⟩ := hahead.tokens
    rw [htokens, htokens, drive, drive, take_flag s type value seen seen' fun _ => h hahead]
  obtain ⟨c, rest, rfl, hblank, hhash⟩ := hpost
  cases hpunct : punctType c with
  | some type =>
    have htype : type.isWord = false := by
      unfold punctType at hpunct
      split_ifs at hpunct <;> obtain rfl := Option.some.inj hpunct <;> rfl
    rw [tokensFrom_punct seen hpunct, tokensFrom_punct seen' hpunct, drive, drive,
      take_flag s type [c] seen seen' fun hword => absurd (htype.symm.trans hword) Bool.false_ne_true]
  | none =>
    by_cases hquote : isQuote c = true
    · -- a string without an end is an error, whatever the flag
      have herror (seen : Bool) : ∃ t, tokensFrom seen (c :: rest) = [t] ∧ t.type = .error := by
        rcases scan_quote_cases hquote seen rest.length [c] rest le_rfl with
          ⟨body, rest', hbody, rfl⟩ | herror
        · exact absurd (.quoted hquote hbody rest') hahead
        · rw [← scanFrom_quote_start hquote seen] at herror
          exact ⟨_, tokensFrom_error seen herror, herror⟩
      have hdrive {t : Token} (ht : t.type = .error) : drive s [t] = .returned false s.config := by
        rw [drive, take, ht]
        rfl
      obtain ⟨t, ht, htype⟩ := herror seen
      obtain ⟨t', ht', htype'⟩ := herror seen'
      rw [ht, ht', hdrive htype, hdrive htype']
    · -- a word that the input ends in is not delivered
      obtain ⟨hnormal, hreturn⟩ := first_of_other hblank hpunct (Bool.not_eq_true _ ▸ hquote)
      obtain ⟨word, rest, rfl, hword, hend⟩ := exists_run endsNormal rest
      have hisNormal : IsNormal (c :: word) :=
        ⟨List.forall_mem_cons.mpr ⟨hnormal, hword⟩, c, word, rfl, hhash, hreturn⟩
      cases rest with
      | nil =>
        rw [List.append_nil, tokensFrom_eof seen (scanFrom_normal_eof seen hisNormal),
          tokensFrom_eof seen' (scanFrom_normal_eof seen' hisNormal)]
      | cons d rest => exact absurd (.normal hisNormal (hend d rest rfl) rest) hahead

/-- Words with one flag are all taken, all run off the stack, or all end the loop. -/
theorem word_cases {s : ParseState} (h : Reached s) (seen : Bool) :
    (∀ t : Token, t.type.isWord = true → t.seenWhitespace = seen → ∃ s', take s t = .running s') ∨
      (∀ t : Token, t.type.isWord = true → t.seenWhitespace = seen →
        take s t = .stopped .undefined) ∨
      (takeEof s = .returned false s.config ∧ ∀ t : Token, t.type.isWord = true →
        t.seenWhitespace = seen → take s t = .stopped (.returned false s.config)) := by
  cases h with
  | overrun config => exact Or.inr (Or.inl fun t ht _ => take_overrun_word ht)
  | @within frames config last hshaped hgrowing =>
    rcases hshaped.kind with hlast | hlast
    · exact Or.inl fun t ht _ => ⟨_, take_first_word ht hlast⟩
    · cases seen with
      | true =>
        obtain ⟨before, words, block, rfl⟩ := hshaped.underway hlast
        exact Or.inl fun t ht hseen => ⟨_, take_next_word ht hlast hseen words block⟩
      | false =>
        refine Or.inr (Or.inr ⟨?_, fun t ht hseen => take_touching ht hlast hseen⟩)
        have hend : ¬ ((last = .statementEnd ∨ last = .endBlock ∨ last = .start) ∧ frames = []) := by
          rintro ⟨rfl | rfl | rfl, _⟩ <;> exact absurd hlast Bool.false_ne_true
        rw [takeEof_within, if_neg hend]
        rfl

theorem Reached.moved {s s' : ParseState} {t : Token} (h : Reached s)
    (hcomment : t.type ≠ .comment) (htake : take s t = .running s') :
    s'.lastTokenType = t.type ∧ (t.type.isWord = true →
      ∃ frames config, s' = NginxConfigParser.within frames config t.type ∧ Shaped config t.type) := by
  cases h with
  | overrun config => exact absurd htake (next_of_overrun hcomment)
  | @within frames config last hshaped hgrowing =>
    rcases take_within hshaped frames t with ⟨s₁, hs₁, hmoved⟩ | ⟨_, verdict, result, hstop, _⟩
    · rw [htake] at hs₁
      obtain rfl := Progress.running.inj hs₁
      rcases hmoved.shaped hshaped hcomment with ⟨frames', config', rfl, hshaped'⟩ | ⟨rfl, _, ht⟩
      · exact ⟨rfl, fun _ => ⟨frames', config', rfl, hshaped'⟩⟩
      · refine ⟨ht.symm, fun hword => ?_⟩
        rw [ht] at hword
        exact absurd hword Bool.false_ne_true
    · rw [htake] at hstop
      exact absurd hstop (by simp)

/-- A word behind a word is taken if it stands apart, and ends the loop if it does not. -/
theorem word_behind_word {s s' : ParseState} {t u : Token} (h : Reached s)
    (ht : t.type.isWord = true) (htake : take s t = .running s') (hu : u.type.isWord = true) :
    (u.seenWhitespace = true → ∃ s₂, take s' u = .running s₂) ∧
      (u.seenWhitespace = false → take s' u = .stopped (.returned false s'.config)) := by
  have hcomment : t.type ≠ .comment := by
    intro htype
    rw [htype] at ht
    exact absurd ht Bool.false_ne_true
  obtain ⟨frames, config, rfl, hshaped⟩ := (h.moved hcomment htake).2 ht
  refine ⟨fun hseen => ?_, fun hseen => take_touching hu ht hseen⟩
  obtain ⟨before, words, block, rfl⟩ := hshaped.underway ht
  exact ⟨_, take_next_word hu ht hseen words block⟩

/-- What may become of the token in front of a separator. -/
inductive Reading (front : List Token) (t : Token) (ts : List Token) : Prop
  | plain {more : List Token} (hts : ts = front ++ t :: more)
  | longer {value : Str} {more : List Token} (ht : t.type.isWord = true) (hvalue : value ≠ t.value)
      (hts : ts = front ++ ⟨.normal, value, t.seenWhitespace⟩ :: more)
  | lost (ht : t.type.isWord = true) (hts : ts = front)

section Readings
variable {front : List Token} {t : Token}

/-- If the token is not taken, all that is read instead of it comes to the same. -/
theorem drive_not_taken (hnone : advance (.initial []) (front ++ [t]) = none) :
    ∃ o, ∀ ts, Reading front t ts → drive (.initial []) ts ≠ .undefined →
      drive (.initial []) ts = o := by
  cases hfront : advance (.initial []) front with
  | none =>
    obtain ⟨o, ho⟩ := drive_give_up hfront
    refine ⟨o, fun ts hts _ => ?_⟩
    cases hts with
    | plain hts => rw [hts, ho]
    | longer ht hvalue hts => rw [hts, ho]
    | lost ht hts =>
      have hempty := ho []
      rw [List.append_nil] at hempty
      rw [hts, hempty]
  | some s =>
    have hreached := reached_initial.advance hfront
    have hdrive (us : List Token) : drive (.initial []) (front ++ us) = drive s us :=
      drive_of_advance hfront us
    have hdrive_nil : drive (.initial []) front = takeEof s := by
      have hempty := hdrive []
      rwa [List.append_nil] at hempty
    rw [advance_append, hfront, Option.bind_some, advance] at hnone
    cases htake : take s t with
    | running s' =>
      rw [htake] at hnone
      exact absurd hnone (by simp [advance])
    | stopped o =>
      by_cases ht : t.type.isWord = true
      · rcases word_cases hreached t.seenWhitespace with hrun | hundefined | ⟨heof, hstop⟩
        · obtain ⟨s', hs'⟩ := hrun t ht rfl
          rw [htake] at hs'
          exact absurd hs' (by simp)
        · refine ⟨takeEof s, fun ts hts hdefined => ?_⟩
          cases hts with
          | plain hts =>
            rw [hts, hdrive, drive, hundefined t ht rfl] at hdefined
            exact absurd rfl hdefined
          | @longer value more _ _ hts =>
            rw [hts, hdrive, drive, hundefined ⟨.normal, value, t.seenWhitespace⟩ rfl rfl] at hdefined
            exact absurd rfl hdefined
          | lost _ hts => rw [hts, hdrive_nil]
        · refine ⟨.returned false s.config, fun ts hts _ => ?_⟩
          cases hts with
          | plain hts => rw [hts, hdrive, drive, hstop t ht rfl]
          | @longer value more _ _ hts =>
            rw [hts, hdrive, drive, hstop ⟨.normal, value, t.seenWhitespace⟩ rfl rfl]
          | lost _ hts => rw [hts, hdrive_nil, heof]
      · refine ⟨o, fun ts hts _ => ?_⟩
        cases hts with
        | plain hts => rw [hts, hdrive, drive, htake]
        | longer ht' _ _ => exact absurd ht' ht
        | lost ht' _ => exact absurd ht' ht

/-- If it is taken, another word in its place is there to be seen. -/
theorem drive_taken_ne {s' : ParseState} (hsome : advance (.initial []) (front ++ [t]) = some s')
    (ht : t.type.isWord = true) {more ts : List Token} (hts : Reading front t ts)
    (hplain : ∀ more, ts ≠ front ++ t :: more) {verdict : Bool} {config : NginxConfig}
    (h₁ : drive (.initial []) (front ++ t :: more) = .returned verdict config)
    (h₂ : drive (.initial []) ts = .returned verdict config) : False := by
  obtain ⟨s, hfront, htake⟩ := advance_snoc hsome
  have hreached := reached_initial.advance hfront
  rw [drive_of_advance hfront, drive, htake] at h₁
  obtain ⟨hreached', hwords⟩ := hreached.step htake
  have hprefix := hreached'.words_prefix h₁
  rw [hwords, Token.words_eq ht] at hprefix
  cases hts with
  | plain hts => exact hplain _ hts
  | lost _ hts =>
    have hempty := drive_of_advance hfront []
    rw [List.append_nil] at hempty
    rw [hts, hempty] at h₂
    rw [takeEof_config h₂] at hprefix
    have hlen := hprefix.length_le
    rw [List.length_append, List.length_singleton] at hlen
    omega
  | @longer value more' _ hvalue hts =>
    have hrun : ∃ s₂, take s ⟨.normal, value, t.seenWhitespace⟩ = .running s₂ := by
      rcases word_cases hreached t.seenWhitespace with hrun | hundefined | ⟨_, hstop⟩
      · exact hrun _ rfl rfl
      · rw [hundefined t ht rfl] at htake
        exact absurd htake (by simp)
      · rw [hstop t ht rfl] at htake
        exact absurd htake (by simp)
    obtain ⟨s₂, hs₂⟩ := hrun
    rw [hts, drive_of_advance hfront, drive, hs₂] at h₂
    obtain ⟨hreached₂, hwords₂⟩ := hreached.step hs₂
    have hprefix₂ := hreached₂.words_prefix h₂
    rw [hwords₂, Token.words_eq rfl] at hprefix₂
    -- two words at one place
    have heq := List.prefix_of_prefix_length_le hprefix₂ hprefix (by simp)
    have heq' := heq.eq_of_length (by simp)
    exact hvalue (List.cons.inj (List.append_cancel_left heq')).1

end Readings

/-- A token ends in front, and the text behind begins with one. -/
structure Between (pre : Str) (p : Piece) (post : Str) : Prop where
  left : ∃ ps, Lexes pre (ps ++ [p])
  token : p.lexeme ≠ none
  right : ∃ c rest, post = c :: rest ∧ isBlank c = false ∧ c ≠ '#'

theorem Separator.cons {sep : Str} {ps : List Piece} (h : Separator sep ps) :
    ∃ c s, sep = c :: s ∧ isBlank c = true ∧ ps.head? = some (.blank c) := by
  obtain ⟨c, ps', rfl⟩ := h.first
  cases h.lexes with
  | blank hc hrest => exact ⟨c, _, rfl, hc, rfl⟩

theorem Separator.tokensFrom {sep : Str} {ps : List Piece} (h : Separator sep ps) (post : Str) :
    ∃ comments : List Token, (∀ t ∈ comments, t.type = .comment) ∧
      NginxConfigParser.tokensFrom false (sep ++ post) =
        comments ++ NginxConfigParser.tokensFrom (seenBehind false ps) post := by
  obtain ⟨ps', c, hlast⟩ := h.complete
  have hcomplete (body : Str) : ps.getLast? ≠ some (.comment body) := by
    rw [hlast, List.getLast?_concat]
    simp
  obtain ⟨comments, hcomments, hread⟩ := tokensFrom_layout h.lexes h.layout hcomplete false
  exact ⟨comments, hcomments, hread post⟩

/-- What the driver is given of the two texts. -/
theorem Between.readings {pre post : Str} {p : Piece} (h : Between pre p post) :
    ∃ front t, tokens (pre ++ [' ']) = front ++ [t] ∧ t.type ≠ .comment ∧
      p.isWord = t.type.isWord ∧ ∀ sep ps, Separator sep ps →
        Reading front t (tokens (pre ++ sep ++ post)) ∧
          (((∀ w, p = .normal w → ps.head? ≠ some (.blank '\r')) ∧
            ∀ s, drive s (tokens (pre ++ sep ++ post)) =
              drive s (front ++ t :: tokensFrom (seenBehind false ps) post)) ∨
          ((∃ w, p = .normal w) ∧ ps.head? = some (.blank '\r') ∧
            ∀ more, tokens (pre ++ sep ++ post) ≠ front ++ t :: more)) := by
  obtain ⟨qs, hqs⟩ := h.left
  have hvalid := hqs.valid p (List.mem_append_right qs List.mem_cons_self)
  obtain ⟨⟨type, value⟩, hlexeme⟩ := Option.ne_none_iff_exists'.mp h.token
  obtain ⟨front, seen, hend, hplain, hreturn⟩ := tokens_left hqs hlexeme
  obtain ⟨hcomment, hword⟩ := lexeme_type hvalid hlexeme
  refine ⟨front, ⟨type, value, seen⟩, hend, hcomment, hword, fun sep ps hsep => ?_⟩
  obtain ⟨c, s, rfl, hc, hhead⟩ := hsep.cons
  obtain ⟨comments, hcomments, hcommented⟩ := hsep.tokensFrom post
  by_cases hdelivered : ∀ w, p = .normal w → c ≠ '\r'
  · have htokens := hplain c (s ++ post) hc hdelivered
    rw [← List.cons_append, ← List.append_assoc, hcommented] at htokens
    refine ⟨.plain htokens, Or.inl ⟨fun w hw heq => ?_, fun s' => ?_⟩⟩
    · rw [hhead] at heq
      exact hdelivered w hw (Piece.blank.inj (Option.some.inj heq))
    · rw [htokens]
      have hskip : front ++ (⟨type, value, seen⟩ : Token) :: (comments ++
          NginxConfigParser.tokensFrom (seenBehind false ps) post) =
            (front ++ [⟨type, value, seen⟩]) ++ (comments ++
              NginxConfigParser.tokensFrom (seenBehind false ps) post) := by
        simp
      have hkeep : front ++ (⟨type, value, seen⟩ : Token) ::
          NginxConfigParser.tokensFrom (seenBehind false ps) post =
            (front ++ [⟨type, value, seen⟩]) ++
              NginxConfigParser.tokensFrom (seenBehind false ps) post := by
        simp
      rw [hskip, hkeep]
      cases hadvance : advance s' (front ++ [⟨type, value, seen⟩]) with
      | none =>
        obtain ⟨o, ho⟩ := drive_give_up hadvance
        rw [ho, ho]
      | some s₁ =>
        rw [drive_of_advance hadvance, drive_of_advance hadvance, drive_comments hcomments]
  · push Not at hdelivered
    obtain ⟨w, rfl, rfl⟩ := hdelivered
    obtain ⟨rfl, rfl⟩ := Prod.mk.inj (Option.some.inj hlexeme)
    have htext : pre ++ '\r' :: s ++ post = pre ++ '\r' :: (s ++ post) := by simp
    rcases hreturn w (s ++ post) rfl with hlost | ⟨a, more, hlonger⟩
    · rw [← htext] at hlost
      refine ⟨.lost rfl hlost, Or.inr ⟨⟨w, rfl⟩, hhead, fun more heq => ?_⟩⟩
      rw [hlost] at heq
      exact absurd heq (by simp)
    · rw [← htext] at hlonger
      refine ⟨.longer rfl (by simp) hlonger, Or.inr ⟨⟨w, rfl⟩, hhead, fun more' heq => ?_⟩⟩
      rw [hlonger] at heq
      have hvalue := (List.cons.inj (List.append_cancel_left heq)).1
      simp at hvalue

/-- A word behind a word is taken or not, and it shows. -/
theorem word_apart_ne {front : List Token} {t : Token} {s : ParseState}
    (hsome : advance (.initial []) (front ++ [t]) = some s) (ht : t.type.isWord = true)
    {type : TokenType} (htype : type.isWord = true) {value : Str} {us us' : List Token}
    {verdict : Bool} {config : NginxConfig}
    (h : drive s (⟨type, value, true⟩ :: us) = .returned verdict config)
    (h' : drive s (⟨type, value, false⟩ :: us') = .returned verdict config) : False := by
  obtain ⟨s₀, hfront, htake⟩ := advance_snoc hsome
  have hreached := reached_initial.advance hfront
  have hbehind (seen : Bool) := word_behind_word (u := ⟨type, value, seen⟩) hreached ht htake htype
  obtain ⟨s', hs'⟩ := (hbehind true).1 rfl
  rw [drive, hs'] at h
  rw [drive, (hbehind false).2 rfl] at h'
  obtain ⟨hreached', hwords⟩ := (hreached.step htake).1.step hs'
  have hprefix := hreached'.words_prefix h
  rw [hwords, Token.words_eq htype, ← (Outcome.returned.inj h').2] at hprefix
  have hlen := hprefix.length_le
  rw [List.length_append, List.length_singleton] at hlen
  omega

theorem word_flags_ne {front : List Token} {t : Token} {s : ParseState}
    (hsome : advance (.initial []) (front ++ [t]) = some s) (hword : t.type.isWord = true)
    {type : TokenType} (htype : type.isWord = true) {value : Str} {rest : List Token}
    {seen seen' : Bool} (hne : seen ≠ seen') {verdict : Bool} {config : NginxConfig}
    (h : drive s (⟨type, value, seen⟩ :: rest) = .returned verdict config)
    (h' : drive s (⟨type, value, seen'⟩ :: rest) = .returned verdict config) : False := by
  cases seen with
  | true =>
    obtain rfl : seen' = false := by simpa using hne.symm
    exact word_apart_ne hsome hword htype h h'
  | false =>
    obtain rfl : seen' = true := by simpa using hne.symm
    exact word_apart_ne hsome hword htype h' h

/-- Behind a token that is delivered as it is, only the flag of a word behind a word counts. -/
theorem drive_behind_eq {front : List Token} {t : Token} {post : Str} (hcomment : t.type ≠ .comment)
    (hpost : ∃ c rest, post = c :: rest ∧ isBlank c = false ∧ c ≠ '#') {seen seen' : Bool}
    (hflag : t.type.isWord = true → WordAhead post → seen = seen') :
    drive (.initial []) (front ++ t :: tokensFrom seen post) =
      drive (.initial []) (front ++ t :: tokensFrom seen' post) := by
  have hsplit (ts : List Token) : front ++ t :: ts = (front ++ [t]) ++ ts := by simp
  rw [hsplit (tokensFrom seen post), hsplit (tokensFrom seen' post)]
  cases hadvance : advance (.initial []) (front ++ [t]) with
  | none =>
    obtain ⟨o, ho⟩ := drive_give_up hadvance
    rw [ho, ho]
  | some s =>
    rw [drive_of_advance hadvance, drive_of_advance hadvance]
    obtain ⟨s₀, hfront, htake⟩ := advance_snoc hadvance
    have hlast := ((reached_initial.advance hfront).moved hcomment htake).1
    cases ht : t.type.isWord with
    | false => exact drive_flag s hpost (fun _ => hlast ▸ ht) _ _
    | true =>
      by_cases hahead : WordAhead post
      · rw [hflag ht hahead]
      · exact drive_flag s hpost (fun hword => absurd hword hahead) _ _

/-- Another separator changes nothing if the separators are alike and `Parse` stays on its stack.
Unless both of them go into the word in front, nothing else leaves the result as it is. -/
theorem unchanged_iff_alike (pre post sep₁ sep₂ : Str) (p : Piece) (ps₁ ps₂ : List Piece)
    (h : Between pre p post) (h₁ : Separator sep₁ ps₁) (h₂ : Separator sep₂ ps₂) :
    (Alike pre p ps₁ ps₂ post ∧ ¬ Overruns (uncommented (tokens (pre ++ sep₁ ++ post))) ∧
        ¬ Overruns (uncommented (tokens (pre ++ sep₂ ++ post))) →
      Unchanged (pre ++ sep₁ ++ post) (pre ++ sep₂ ++ post)) ∧
    (Unchanged (pre ++ sep₁ ++ post) (pre ++ sep₂ ++ post) →
      (Alike pre p ps₁ ps₂ post ∧ ¬ Overruns (uncommented (tokens (pre ++ sep₁ ++ post))) ∧
        ¬ Overruns (uncommented (tokens (pre ++ sep₂ ++ post)))) ∨
      ((∃ w, p = .normal w) ∧ ps₁.head? = some (.blank '\r') ∧
        ps₂.head? = some (.blank '\r'))) := by
  obtain ⟨front, t, hend, hcomment, hword, hreadings⟩ := h.readings
  obtain ⟨hreading₁, hcases₁⟩ := hreadings sep₁ ps₁ h₁
  obtain ⟨hreading₂, hcases₂⟩ := hreadings sep₂ ps₂ h₂
  have hdefined (text : Str) : ¬ Overruns (uncommented (tokens text)) ↔
      drive (.initial []) (tokens text) ≠ .undefined := by
    rw [← parse_undefined_iff text [], parse_eq, Ne, Option.some.injEq]
  rw [hdefined, hdefined]
  constructor
  · rintro ⟨halike, hdefined₁, hdefined₂⟩
    have hsame : drive (.initial []) (tokens (pre ++ sep₁ ++ post)) =
        drive (.initial []) (tokens (pre ++ sep₂ ++ post)) := by
      rcases halike with hnone | ⟨hreturn, hflag⟩
      · rw [hend] at hnone
        obtain ⟨o, ho⟩ := drive_not_taken hnone
        rw [ho _ hreading₁ hdefined₁, ho _ hreading₂ hdefined₂]
      · rcases hcases₁ with ⟨_, hdrive₁⟩ | ⟨⟨w, hw⟩, hhead₁, _⟩
        · rcases hcases₂ with ⟨_, hdrive₂⟩ | ⟨⟨w, hw⟩, hhead₂, _⟩
          · rw [hdrive₁, hdrive₂]
            exact drive_behind_eq hcomment h.right fun ht => hflag (hword.trans ht)
          · exact absurd hhead₂ (hreturn w hw).2
        · exact absurd hhead₁ (hreturn w hw).1
    cases hdrive : drive (.initial []) (tokens (pre ++ sep₁ ++ post)) with
    | undefined => exact absurd hdrive hdefined₁
    | returned verdict config =>
      refine ⟨verdict, config, by rw [parse_eq, hdrive], ?_⟩
      rw [parse_eq, ← hsame, hdrive]
  · rintro ⟨verdict, config, hparse₁, hparse₂⟩
    rw [parse_eq, Option.some.injEq] at hparse₁ hparse₂
    by_cases hboth : (∃ w, p = .normal w) ∧ ps₁.head? = some (.blank '\r') ∧
        ps₂.head? = some (.blank '\r')
    · exact Or.inr hboth
    refine Or.inl ⟨?_, by rw [hparse₁]; simp, by rw [hparse₂]; simp⟩
    by_contra halike
    rw [Alike, not_or, hend] at halike
    obtain ⟨s, hsome⟩ := Option.ne_none_iff_exists'.mp halike.1
    have hisWord {w : Str} (hw : p = .normal w) : t.type.isWord = true := by
      rw [← hword, hw]
      rfl
    rcases hcases₁ with ⟨hne₁, hdrive₁⟩ | ⟨⟨w, hw⟩, hhead₁, hlonger₁⟩
    · rw [hdrive₁] at hparse₁
      rcases hcases₂ with ⟨hne₂, hdrive₂⟩ | ⟨⟨w, hw⟩, hhead₂, hlonger₂⟩
      · -- both words are delivered, and the second stands apart in one of the texts
        rw [hdrive₂] at hparse₂
        have hflags : ¬ (p.isWord = true → WordAhead post →
            seenBehind false ps₁ = seenBehind false ps₂) :=
          fun hflag => halike.2 ⟨fun w hw => ⟨hne₁ w hw, hne₂ w hw⟩, hflag⟩
        push Not at hflags
        obtain ⟨hp, hahead, hflags⟩ := hflags
        obtain ⟨type, value, rest, htype, htokens⟩ := hahead.tokens
        have hsplit (ts : List Token) : front ++ t :: ts = (front ++ [t]) ++ ts := by simp
        rw [htokens, hsplit, drive_of_advance hsome] at hparse₁ hparse₂
        exact word_flags_ne hsome (hword ▸ hp) htype hflags hparse₁ hparse₂
      · exact drive_taken_ne hsome (hisWord hw) hreading₂ hlonger₂ hparse₁ hparse₂
    · rcases hcases₂ with ⟨hne₂, hdrive₂⟩ | ⟨_, hhead₂, _⟩
      · rw [hdrive₂] at hparse₂
        exact drive_taken_ne hsome (hisWord hw) hreading₁ hlonger₁ hparse₂ hparse₁
      · exact hboth ⟨⟨w, hw⟩, hhead₁, hhead₂⟩

theorem between_letters : Between "a".toList (.normal "a".toList) "b;".toList where
  left := ⟨[], .letter (isNormal_singleton rfl (by decide) (by decide))
    (fun _ _ h => absurd h (by simp)) .nil⟩
  token := by simp [Piece.lexeme]
  right := ⟨'b', [';'], rfl, rfl, by decide⟩

theorem separator_blank {c : Char} (hc : isBlank c = true) : Separator [c] [.blank c] where
  lexes := .blank hc .nil
  layout := by simp [Piece.lexeme]
  first := ⟨c, [], rfl⟩
  complete := ⟨[], c, rfl⟩

theorem unchanged_iff_alike_comment : Unchanged "a b;".toList "a\t#\n b;".toList := by
  have hbody : Lexes ('#' :: [] ++ "\n ".toList) [.comment [], .blank '\n', .blank ' '] :=
    .comment (by simp) (fun c s h => (List.cons.inj h).1 ▸ rfl) (.blank rfl (.blank rfl .nil))
  have hcomment : Separator "\t#\n ".toList [.blank '\t', .comment [], .blank '\n', .blank ' '] :=
    { lexes := .blank rfl hbody
      layout := by simp [Piece.lexeme]
      first := ⟨_, _, rfl⟩
      complete := ⟨[.blank '\t', .comment [], .blank '\n'], ' ', rfl⟩ }
  apply (unchanged_iff_alike "a".toList "b;".toList " ".toList "\t#\n ".toList _ _ _ between_letters
    (separator_blank rfl) hcomment).1
  refine ⟨Or.inr ⟨fun w _ => ⟨by decide, by decide⟩, fun _ _ => rfl⟩, ?_, ?_⟩
  · intro h
    exact absurd ((parse_undefined_iff _ []).mpr h)
      (show some (Outcome.returned true [.mk ["a".toList, "b".toList] none]) ≠ _ by simp)
  · intro h
    exact absurd ((parse_undefined_iff _ []).mpr h)
      (show some (Outcome.returned true [.mk ["a".toList, "b".toList] none]) ≠ _ by simp)

/-- `a b;` is accepted, and with a tab for the blank it is not. -/
theorem not_unchanged_tab :
    Between "a".toList (.normal "a".toList) "b;".toList ∧ Separator " ".toList [.blank ' '] ∧
      Separator "\t".toList [.blank '\t'] ∧
      ¬ Unchanged ("a".toList ++ " ".toList ++ "b;".toList)
        ("a".toList ++ "\t".toList ++ "b;".toList) := by
  refine ⟨between_letters, separator_blank rfl, separator_blank rfl, ?_⟩
  rintro ⟨verdict, config, h₁, h₂⟩
  have haccepted : parse "a b;".toList [] =
      some (.returned true [.mk ["a".toList, "b".toList] none]) := rfl
  have hrefused : parse "a\tb;".toList [] = some (.returned false [.mk ["a".toList] none]) := rfl
  obtain ⟨rfl, _⟩ := Outcome.returned.inj (Option.some.inj (haccepted.symm.trans h₁))
  exact absurd (Outcome.returned.inj (Option.some.inj (hrefused.symm.trans h₂))).1 (by decide)

end NginxConfigParser

end Webserver

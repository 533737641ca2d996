import Webserver.ConfigLexemes

/-!
# The printer of the config parser

The text of a tree lexes back to its words, with the blank that `ToString` writes before every
word but the first, so `Parse` undoes it. Quoted strings are printed without their escapes, and a
quote inside one may look like its end.
-/

set_option autoImplicit false

namespace Webserver

namespace NginxConfigParser

/-- Every statement has a token, and every token is of this kind. -/
inductive AllTokens (P : Str → Prop) : NginxConfig → Prop
  | nil : AllTokens P []
  | simple {words : List Str} {config : NginxConfig} (hne : words ≠ []) (hwords : ∀ w ∈ words, P w)
      (hrest : AllTokens P config) : AllTokens P (.mk words none :: config)
  | block {words : List Str} {block config : NginxConfig} (hne : words ≠ [])
      (hwords : ∀ w ∈ words, P w) (hblock : AllTokens P block) (hrest : AllTokens P config) :
      AllTokens P (.mk words (some block) :: config)

theorem AllTokens.and {P Q : Str → Prop} {config : NginxConfig} (hP : AllTokens P config)
    (hQ : AllTokens Q config) : AllTokens (fun w => P w ∧ Q w) config := by
  induction hP with
  | nil => exact .nil
  | simple hne hwords hrest ih =>
    cases hQ with
    | simple _ hwords' hrest' =>
      exact .simple hne (fun w hw => ⟨hwords w hw, hwords' w hw⟩) (ih hrest')
  | block hne hwords hblock hrest ihblock ih =>
    cases hQ with
    | block _ hwords' hblock' hrest' =>
      exact .block hne (fun w hw => ⟨hwords w hw, hwords' w hw⟩) (ihblock hblock') (ih hrest')

/-- A normal word, or a quoted string without quotes of its kind and without escapes. -/
inductive Plain : Str → Prop
  | normal {w : Str} (hw : IsNormal w) : Plain w
  | quoted {quote : Char} {body : Str} (hquote : isQuote quote = true) (hinner : quote ∉ body)
      (hescape : '\\' ∉ body) : Plain (quote :: body ++ [quote])

theorem processEsc_plain {w : Str} (h : '\\' ∉ w) : processEsc w = w := by
  unfold processEsc
  induction w with
  | nil => rfl
  | cons c w ih =>
    have hc : ¬ (c = '\\' ∧ false = false) := by
      rintro ⟨rfl, _⟩
      exact h List.mem_cons_self
    rw [processEscLoop, if_neg hc, ih fun hw => h (List.mem_cons_of_mem c hw)]

theorem QuoteBody.of_plain {quote : Char} {body : Str} (hinner : quote ∉ body)
    (hescape : '\\' ∉ body) : QuoteBody quote body := by
  induction body with
  | nil => exact .nil
  | cons c body ih =>
    rw [List.mem_cons, not_or] at hinner hescape
    exact .plain (Ne.symm hescape.1) (Ne.symm hinner.1) (ih hinner.2 hescape.2)

section Lexing
variable (seen : Bool)

/-- A plain token is read back before a character that ends words. -/
theorem tokensFrom_plain {w : Str} (hw : Plain w) {c : Char} (hc : endsNormal c = true)
    (input : Str) :
    ∃ t : Token, t.type.isWord = true ∧ t.value = w ∧ t.seenWhitespace = seen ∧
      tokensFrom seen (w ++ c :: input) = t :: tokensFrom false (c :: input) := by
  cases hw with
  | normal hw => exact ⟨⟨.normal, w, seen⟩, rfl, rfl, rfl, tokensFrom_normal seen hw hc input⟩
  | @quoted quote body hquote hinner hescape =>
    have hplain : processEsc (quote :: body ++ [quote]) = quote :: body ++ [quote] := by
      apply processEsc_plain
      have hne := not_isQuote_backslash hquote
      simp [hescape, Ne.symm hne]
    have hread := tokensFrom_quote seen hquote (.of_plain hinner hescape) (c :: input)
    rw [hplain] at hread
    refine ⟨⟨.quotedString, quote :: body ++ [quote], seen⟩, rfl, rfl, rfl, ?_⟩
    rw [← hread, List.append_assoc, List.singleton_append]

/-- The words of a statement are read back, each of them but the first apart. -/
theorem tokensFrom_words {words : List Str} (hne : words ≠ []) (hwords : ∀ w ∈ words, Plain w)
    {c : Char} (hc : endsNormal c = true) (input : Str) :
    ∃ ts : List Token, Words ts ∧ ts.map (·.value) = words ∧
      (∀ t ∈ ts.head?, t.seenWhitespace = seen) ∧
      tokensFrom seen (List.intercalate [' '] words ++ c :: input) =
        ts ++ tokensFrom false (c :: input) := by
  induction words generalizing seen with
  | nil => exact absurd rfl hne
  | cons w words ih =>
    have hw := hwords w List.mem_cons_self
    cases words with
    | nil =>
      obtain ⟨t, ht, hvalue, hseen, hread⟩ := tokensFrom_plain seen hw hc input
      refine ⟨[t], ⟨by simpa using ht, by simp, by simp⟩, by simp [hvalue], by simpa using hseen, ?_⟩
      rw [List.intercalate_singleton, hread, List.singleton_append]
    | cons w' words =>
      obtain ⟨t, ht, hvalue, hseen, hread⟩ := tokensFrom_plain seen hw (c := ' ') rfl
        (List.intercalate [' '] (w' :: words) ++ c :: input)
      obtain ⟨ts, hts, hvalues, hfirst, hrest⟩ := ih true (by simp)
        fun v hv => hwords v (List.mem_cons_of_mem w hv)
      refine ⟨t :: ts, ⟨?_, by simp, ?_⟩, by rw [List.map_cons, hvalue, hvalues], ?_, ?_⟩
      · exact List.forall_mem_cons.mpr ⟨ht, hts.words⟩
      · obtain ⟨u, us, rfl⟩ := List.exists_cons_of_ne_nil hts.nonempty
        exact List.forall_mem_cons.mpr ⟨hfirst u rfl, hts.separated⟩
      · simpa using hseen
      · rw [tokensFrom_space, hrest] at hread
        rw [List.intercalate_cons_cons, List.append_assoc, List.append_assoc,
          List.singleton_append, hread, List.cons_append]

theorem tokensFrom_indent (depth : ℕ) (input : Str) :
    ∃ seen', tokensFrom seen (indent depth ++ input) = tokensFrom seen' input := by
  induction depth generalizing seen with
  | zero => exact ⟨seen, rfl⟩
  | succ depth ih =>
    obtain ⟨seen', h⟩ := ih true
    refine ⟨seen', ?_⟩
    rw [← h, indent, List.replicate_succ, List.flatten_cons, List.append_assoc]
    show tokensFrom seen (' ' :: ' ' :: (indent depth ++ input)) = _
    rw [tokensFrom_space, tokensFrom_space]

/-- The text of a tree lexes to tokens that derive it. -/
theorem tokensFrom_toString {config : NginxConfig} (h : AllTokens Plain config) (depth : ℕ)
    (input : Str) :
    ∃ ts seen', tokensFrom seen (NginxConfig.toString config depth ++ input) =
      ts ++ tokensFrom seen' input ∧ Derives ts config := by
  induction h generalizing seen depth input with
  | nil => exact ⟨[], seen, rfl, .nil⟩
  | @simple words config hne hwords hrest ih =>
    obtain ⟨ts, seen', hconfig, hts⟩ := ih false depth input
    obtain ⟨seen₁, hindent⟩ := tokensFrom_indent seen depth (List.intercalate [' '] words ++
      ';' :: '\n' :: (NginxConfig.toString config depth ++ input))
    obtain ⟨us, hus, hvalues, _, hread⟩ := tokensFrom_words seen₁ hne hwords (c := ';') rfl
      ('\n' :: (NginxConfig.toString config depth ++ input))
    refine ⟨us ++ ⟨.statementEnd, [';'], false⟩ :: ts, seen', ?_, hvalues ▸ .simple hus rfl hts⟩
    rw [tokensFrom_punct false (c := ';') rfl, tokensFrom_blank false (by simp), hconfig] at hread
    rw [hread] at hindent
    rw [NginxConfig.toString, NginxConfigStatement.toString, NginxConfigStatement.blockToString]
    simpa using hindent
  | @block words block config hne hwords hblock hrest ihblock ih =>
    obtain ⟨ts, seen', hconfig, hts⟩ := ih false depth input
    -- what stands behind the inner block
    obtain ⟨inner, seen₂, hinner, hderives⟩ := ihblock false (depth + 1) (indent depth ++
      '}' :: '\n' :: (NginxConfig.toString config depth ++ input))
    obtain ⟨seen₃, hclose⟩ := tokensFrom_indent seen₂ depth
      ('}' :: '\n' :: (NginxConfig.toString config depth ++ input))
    rw [hclose, tokensFrom_punct seen₃ (c := '}') rfl, tokensFrom_blank false (by simp),
      hconfig] at hinner
    obtain ⟨seen₁, hindent⟩ := tokensFrom_indent seen depth (List.intercalate [' '] words ++
      ' ' :: '{' :: '\n' :: (NginxConfig.toString block (depth + 1) ++ (indent depth ++
        '}' :: '\n' :: (NginxConfig.toString config depth ++ input))))
    obtain ⟨us, hus, hvalues, _, hread⟩ := tokensFrom_words seen₁ hne hwords (c := ' ') rfl
      ('{' :: '\n' :: (NginxConfig.toString block (depth + 1) ++ (indent depth ++
        '}' :: '\n' :: (NginxConfig.toString config depth ++ input))))
    refine ⟨us ++ ⟨.startBlock, ['{'], true⟩ :: inner ++ ⟨.endBlock, ['}'], seen₃⟩ :: ts, seen',
      ?_, hvalues ▸ .block hus rfl hderives rfl hts⟩
    rw [tokensFrom_space, tokensFrom_punct true (c := '{') rfl, tokensFrom_blank false (by simp),
      hinner] at hread
    rw [hread] at hindent
    rw [NginxConfig.toString, NginxConfigStatement.toString, NginxConfigStatement.blockToString]
    simpa using hindent

end Lexing

/-- `Parse` undoes `ToString`. -/
theorem parse_toString (config : NginxConfig) (h : AllTokens Plain config) (depth : ℕ) :
    parse (NginxConfig.toString config depth) [] = some (.returned true config) := by
  obtain ⟨ts, seen', htokens, hderives⟩ := tokensFrom_toString false h depth []
  rw [List.append_nil, tokensFrom_nil, List.append_nil] at htokens
  rw [parse_eq, tokens, htokens, accepted_of_derives hderives]

theorem parse_toString_block :
    parse (NginxConfig.toString
      [.mk ["a".toList, "'b c'".toList] (some [.mk ["d".toList] none])] 1) [] =
        some (.returned true [.mk ["a".toList, "'b c'".toList] (some [.mk ["d".toList] none])]) := by
  apply parse_toString
  apply AllTokens.block (by simp) _ (.simple (by simp) _ .nil) .nil
  · intro w hw
    rcases List.mem_cons.mp hw with rfl | hw
    · exact .normal (isNormal_singleton rfl (by decide) (by decide))
    · obtain rfl := List.mem_singleton.mp hw
      have hquoted : Plain ('\'' :: "b c".toList ++ ['\'']) :=
        .quoted rfl (by decide) (by decide)
      exact hquoted
  · intro w hw
    obtain rfl := List.mem_singleton.mp hw
    exact .normal (isNormal_singleton rfl (by decide) (by decide))

/-! Two trees with one text. -/

/-- The last token of a statement is followed by its end, the others by a blank. -/
def EndsWord (s : Str) : Prop := (∃ s', s = ' ' :: s') ∨ ∃ s', s = ';' :: '\n' :: s'

/-- What the tokens of an accepted text look like. -/
inductive IsToken : Str → Prop
  | normal {w : Str} (hw : IsNormal w) : IsToken w
  | quoted {quote : Char} (body : Str) (hquote : isQuote quote = true) :
      IsToken (quote :: body ++ [quote])

/-- No quote inside the token looks like the one at its end. -/
def Unmistakable (w : Str) : Prop :=
  ∀ quote s, w = quote :: s → isQuote quote = true →
    ¬ [quote, ' '] <:+: s.dropLast ∧ ¬ [quote, ';', '\n'] <:+: s.dropLast

theorem processEscLoop_append (body : Str) {quote : Char} (h : QuoteBody quote body) (s : Str) :
    processEscLoop false (body ++ s) = processEscLoop false body ++ processEscLoop false s := by
  induction h with
  | nil => rfl
  | @plain c body hc hq h ih => simp [processEscLoop, hc, ih]
  | @escape c body hc h ih => simp [processEscLoop, ih]

theorem isToken_processEsc {quote : Char} {body : Str} (hquote : isQuote quote = true)
    (hbody : QuoteBody quote body) : IsToken (processEsc (quote :: body ++ [quote])) := by
  have hne := not_isQuote_backslash hquote
  have hesc : processEsc (quote :: body ++ [quote]) =
      quote :: processEscLoop false body ++ [quote] := by
    rw [processEsc, List.cons_append, processEscLoop, if_neg (fun h => hne h.1),
      processEscLoop_append body hbody]
    simp [processEscLoop, hne]
  exact hesc ▸ .quoted _ hquote

theorem isToken_deliver {text : Str} {ps : List Piece} (h : Lexes text ps) (seen : Bool) :
    ∀ t ∈ deliver seen ps, t.type.isWord = true → IsToken t.value := by
  induction h generalizing seen with
  | nil => exact fun t ht => absurd ht List.not_mem_nil
  | blank hc h ih => exact ih _
  | @comment body s ps hbody hend h ih =>
    intro t ht hword
    rw [deliver] at ht
    split_ifs at ht
    · exact absurd ht List.not_mem_nil
    · rcases List.mem_cons.mp ht with rfl | ht
      · exact absurd hword (by simp [TokenType.isWord])
      · exact ih false t ht hword
  | @punct c type s ps hc h ih =>
    intro t ht hword
    rcases List.mem_cons.mp ht with rfl | ht
    · unfold punctType at hc
      split_ifs at hc <;> obtain rfl := Option.some.inj hc <;> exact absurd hword Bool.false_ne_true
    · exact ih false t ht hword
  | quoted hquote hbody h ih =>
    intro t ht hword
    rcases List.mem_cons.mp ht with rfl | ht
    · exact isToken_processEsc hquote hbody
    · exact ih false t ht hword
  | @normal word s ps hword' hend h ih =>
    intro t ht hword
    rw [deliver] at ht
    split_ifs at ht
    · exact absurd ht List.not_mem_nil
    · rcases List.mem_cons.mp ht with rfl | ht
      · exact .normal hword'
      · exact ih false t ht hword

theorem Derives.allTokens {P : Str → Prop} {ts : List Token} {config : NginxConfig}
    (h : Derives ts config) (hP : ∀ t ∈ ts, t.type.isWord = true → P t.value) :
    AllTokens P config := by
  have hmap {words : List Token} (hwords : Words words)
      (hP : ∀ t ∈ words, t.type.isWord = true → P t.value) :
      words.map (·.value) ≠ [] ∧ ∀ w ∈ words.map (·.value), P w := by
    refine ⟨by simpa using hwords.nonempty, fun w hw => ?_⟩
    obtain ⟨t, ht, rfl⟩ := List.mem_map.mp hw
    exact hP t ht (hwords.words t ht)
  induction h with
  | nil => exact .nil
  | simple hwords hclose hrest ih =>
    obtain ⟨hne, hall⟩ := hmap hwords fun t ht => hP t (by simp [ht])
    exact .simple hne hall (ih fun t ht => hP t (by simp [ht]))
  | block hwords hopen hinner hclose hrest ihinner ih =>
    obtain ⟨hne, hall⟩ := hmap hwords fun t ht => hP t (by simp [ht])
    exact .block hne hall (ihinner fun t ht => hP t (by simp [ht]))
      (ih fun t ht => hP t (by simp [ht]))

theorem isToken_of_accepted {text : Str} {config : NginxConfig}
    (h : parse text [] = some (.returned true config)) : AllTokens IsToken config := by
  obtain ⟨ps, hps⟩ := lexes_of_accepted h
  refine (derives_of_accepted h).allTokens fun t ht => ?_
  rw [tokens, hps.tokensFrom_eq] at ht
  exact isToken_deliver hps false t (List.mem_of_mem_filter ht)

theorem IsToken.first {w : Str} (h : IsToken w) :
    ∃ c w', w = c :: w' ∧ c ≠ ' ' ∧ c ≠ '{' ∧ c ≠ '}' := by
  cases h with
  | normal hw =>
    obtain ⟨hordinary, c, w', rfl, _⟩ := hw
    have hc := hordinary c List.mem_cons_self
    simp only [endsNormal, Bool.or_eq_false_iff, decide_eq_false_iff_not] at hc
    exact ⟨c, w', rfl, by tauto⟩
  | @quoted quote body hquote =>
    have hq : quote = '\'' ∨ quote = '"' := by simpa [isQuote] using hquote
    refine ⟨quote, body ++ [quote], rfl, ?_⟩
    rcases hq with rfl | rfl <;> exact ⟨by decide, by decide, by decide⟩

theorem EndsWord.first {s : Str} (h : EndsWord s) : ∃ c s', s = c :: s' ∧ endsNormal c = true := by
  rcases h with ⟨s', rfl⟩ | ⟨s', rfl⟩
  · exact ⟨' ', s', rfl, rfl⟩
  · exact ⟨';', '\n' :: s', rfl, rfl⟩

/-- The closing quote of the shorter string would stand inside the longer one. -/
theorem quoted_not_longer {quote : Char} {b l s₁ s₂ : Str} (hquote : isQuote quote = true)
    (hs : EndsWord s₁) (hwild : Unmistakable (quote :: (b ++ l) ++ [quote]))
    (hl : quote :: s₁ = l ++ quote :: s₂) : l = [] := by
  cases l with
  | nil => rfl
  | cons x l =>
    exfalso
    obtain ⟨rfl, htail⟩ := List.cons.inj hl
    have hinner := hwild quote (b ++ quote :: l ++ [quote]) rfl hquote
    rw [List.dropLast_concat] at hinner
    have hquote_ne {c : Char} (hc : isQuote c = false) : c ≠ quote := by
      rintro rfl
      rw [hquote] at hc
      exact Bool.false_ne_true hc.symm
    rcases hs with ⟨s', rfl⟩ | ⟨s', rfl⟩
    · rcases l with _ | ⟨y, l⟩
      · exact hquote_ne rfl (List.cons.inj htail).1
      · obtain rfl := (List.cons.inj htail).1
        exact hinner.1 ⟨b, l, by simp⟩
    · rcases l with _ | ⟨y, _ | ⟨z, l⟩⟩
      · exact hquote_ne rfl (List.cons.inj htail).1
      · exact hquote_ne rfl (List.cons.inj (List.cons.inj htail).2).1
      · obtain rfl := (List.cons.inj htail).1
        obtain rfl := (List.cons.inj (List.cons.inj htail).2).1
        exact hinner.2 ⟨b, l, by simp⟩

/-- Where a token ends in a text can be told if it is unmistakable. -/
theorem token_split {w₁ w₂ s₁ s₂ : Str} (h₁ : IsToken w₁ ∧ Unmistakable w₁)
    (h₂ : IsToken w₂ ∧ Unmistakable w₂) (hs₁ : EndsWord s₁) (hs₂ : EndsWord s₂)
    (heq : w₁ ++ s₁ = w₂ ++ s₂) : w₁ = w₂ ∧ s₁ = s₂ := by
  -- a normal word does not go on over the end of another
  have hnormal {v l s s' : Str} (hv : IsNormal (v ++ l)) (hs : EndsWord s) (h : s = l ++ s') :
      l = [] := by
    cases l with
    | nil => rfl
    | cons x l =>
      obtain ⟨c, s'', rfl, hc⟩ := hs.first
      obtain ⟨rfl, _⟩ := List.cons.inj h
      rw [hv.ordinary c (by simp)] at hc
      exact absurd hc Bool.false_ne_true
  -- nor does it begin with a quote
  have hmixed {w s s' : Str} {quote : Char} (hw : IsNormal w) (hquote : isQuote quote = true) :
      w ++ s ≠ quote :: s' := by
    intro h
    obtain ⟨hordinary, c, w', rfl, _⟩ := hw
    obtain ⟨rfl, _⟩ := List.cons.inj h
    have hc := hordinary c List.mem_cons_self
    have hq : c = '\'' ∨ c = '"' := by simpa [isQuote] using hquote
    rcases hq with rfl | rfl <;> exact absurd hc (by decide)
  obtain ⟨ht₁, hu₁⟩ := h₁
  obtain ⟨ht₂, hu₂⟩ := h₂
  cases ht₁ with
  | normal hw₁ =>
    cases ht₂ with
    | normal hw₂ =>
      rcases List.append_eq_append_iff.mp heq with ⟨l, rfl, hl⟩ | ⟨l, rfl, hl⟩
      · obtain rfl := hnormal hw₂ hs₁ hl
        exact ⟨(List.append_nil _).symm, hl⟩
      · obtain rfl := hnormal hw₁ hs₂ hl
        exact ⟨List.append_nil _, hl.symm⟩
    | quoted body hquote => exact absurd heq (hmixed hw₁ hquote)
  | @quoted quote body₁ hquote =>
    cases ht₂ with
    | normal hw₂ => exact absurd heq.symm (hmixed hw₂ hquote)
    | quoted body₂ _ =>
      rw [List.append_assoc, List.append_assoc, List.cons_append, List.cons_append] at heq
      obtain ⟨rfl, heq⟩ := List.cons.inj heq
      rcases List.append_eq_append_iff.mp heq with ⟨l, rfl, hl⟩ | ⟨l, rfl, hl⟩
      · obtain rfl := quoted_not_longer hquote hs₁ hu₂ hl
        exact ⟨by rw [List.append_nil], (List.cons.inj hl).2⟩
      · obtain rfl := quoted_not_longer hquote hs₂ hu₁ hl
        exact ⟨by rw [List.append_nil], (List.cons.inj hl).2.symm⟩

def EndsWords (s : Str) : Prop :=
  (∃ s', s = ' ' :: '{' :: s') ∨ ∃ s', s = ';' :: '\n' :: s'

theorem EndsWords.endsWord {s : Str} (h : EndsWords s) : EndsWord s := by
  rcases h with ⟨s', rfl⟩ | ⟨s', rfl⟩
  · exact Or.inl ⟨_, rfl⟩
  · exact Or.inr ⟨_, rfl⟩

/-- Behind the last word there is no further one. -/
theorem EndsWords.no_word {s s' w : Str} (h : EndsWords s) (hw : IsToken w) :
    s ≠ ' ' :: (w ++ s') := by
  rintro rfl
  obtain ⟨c, w', rfl, hspace, hopen, _⟩ := hw.first
  rcases h with ⟨s'', heq⟩ | ⟨s'', heq⟩
  · exact hopen (List.cons.inj (List.cons.inj heq).2).1
  · exact absurd (List.cons.inj heq).1 (by decide)

theorem words_split {words₁ words₂ : List Str} {s₁ s₂ : Str} (hne₁ : words₁ ≠ [])
    (h₁ : ∀ w ∈ words₁, IsToken w ∧ Unmistakable w) (hne₂ : words₂ ≠ [])
    (h₂ : ∀ w ∈ words₂, IsToken w ∧ Unmistakable w) (hs₁ : EndsWords s₁) (hs₂ : EndsWords s₂)
    (heq : List.intercalate [' '] words₁ ++ s₁ = List.intercalate [' '] words₂ ++ s₂) :
    words₁ = words₂ ∧ s₁ = s₂ := by
  induction words₁ generalizing words₂ with
  | nil => exact absurd rfl hne₁
  | cons w₁ words₁ ih =>
    cases words₂ with
    | nil => exact absurd rfl hne₂
    | cons w₂ words₂ =>
      have hw₁ := h₁ w₁ List.mem_cons_self
      have hw₂ := h₂ w₂ List.mem_cons_self
      -- the text behind the first word
      have hrest (w : Str) (words : List Str) {s : Str} (hs : EndsWords s) :
          ∃ r, List.intercalate [' '] (w :: words) ++ s = w ++ r ∧ EndsWord r ∧
            ((words = [] ∧ r = s) ∨
              (words ≠ [] ∧ r = ' ' :: (List.intercalate [' '] words ++ s))) := by
        cases words with
        | nil => exact ⟨s, by rw [List.intercalate_singleton], hs.endsWord, Or.inl ⟨rfl, rfl⟩⟩
        | cons w' words =>
          refine ⟨_, ?_, Or.inl ⟨_, rfl⟩, Or.inr ⟨by simp, rfl⟩⟩
          rw [List.intercalate_cons_cons, List.append_assoc, List.append_assoc,
            List.singleton_append]
      obtain ⟨r₁, hr₁, hend₁, hcases₁⟩ := hrest w₁ words₁ hs₁
      obtain ⟨r₂, hr₂, hend₂, hcases₂⟩ := hrest w₂ words₂ hs₂
      rw [hr₁, hr₂] at heq
      obtain ⟨rfl, rfl⟩ := token_split hw₁ hw₂ hend₁ hend₂ heq
      have hfirst {words : List Str} {s : Str} (hne : words ≠ [])
          (h : ∀ w ∈ words, IsToken w ∧ Unmistakable w) :
          ∃ w s', IsToken w ∧ List.intercalate [' '] words ++ s = w ++ s' := by
        obtain ⟨w, words, rfl⟩ := List.exists_cons_of_ne_nil hne
        refine ⟨w, (List.intersperse [' '] (w :: words)).tail.flatten ++ s,
          (h w List.mem_cons_self).1, ?_⟩
        rw [← List.append_assoc]
        cases words <;> simp [List.intercalate]
      rcases hcases₁ with ⟨rfl, rfl⟩ | ⟨hne₁, hr₁'⟩
      · rcases hcases₂ with ⟨rfl, rfl⟩ | ⟨hne₂, hr₂'⟩
        · exact ⟨rfl, rfl⟩
        · obtain ⟨w, s', hw, hsplit⟩ := hfirst (s := s₂) hne₂
            fun w hw => h₂ w (List.mem_cons_of_mem _ hw)
          rw [hsplit] at hr₂'
          exact absurd hr₂' (hs₁.no_word hw)
      · rcases hcases₂ with ⟨rfl, rfl⟩ | ⟨hne₂, hr₂'⟩
        · obtain ⟨w, s', hw, hsplit⟩ := hfirst (s := s₁) hne₁
            fun w hw => h₁ w (List.mem_cons_of_mem _ hw)
          rw [hsplit] at hr₁'
          exact absurd hr₁' (hs₂.no_word hw)
        · have htail := (List.cons.inj (hr₁'.symm.trans hr₂')).2
          obtain ⟨rfl, rfl⟩ := ih hne₁ (fun w hw => h₁ w (List.mem_cons_of_mem _ hw)) hne₂
            (fun w hw => h₂ w (List.mem_cons_of_mem _ hw)) htail
          exact ⟨rfl, rfl⟩

/-- Behind its blanks the text is over, or a bracket closes a block. -/
def Stop (s : Str) : Prop := ∀ c, (s.dropWhile (· = ' ')).head? = some c → c = '}'

theorem dropWhile_indent (depth : ℕ) (s : Str) :
    (indent depth ++ s).dropWhile (· = ' ') = s.dropWhile (· = ' ') := by
  induction depth with
  | zero => rfl
  | succ depth ih =>
    rw [← ih, indent, List.replicate_succ, List.flatten_cons, List.append_assoc]
    rfl

theorem stop_close (depth : ℕ) (s : Str) : Stop (indent depth ++ '}' :: s) := by
  intro c hc
  rw [dropWhile_indent, List.dropWhile_cons_of_neg (by decide)] at hc
  exact (Option.some.inj hc).symm

/-- A statement begins with its first token. -/
theorem not_stop_words (depth : ℕ) {words : List Str} (hne : words ≠ [])
    (hwords : ∀ w ∈ words, IsToken w) (s : Str) :
    ¬ Stop (indent depth ++ (List.intercalate [' '] words ++ s)) := by
  obtain ⟨w, words, rfl⟩ := List.exists_cons_of_ne_nil hne
  obtain ⟨c, w', rfl, hspace, _, hclose⟩ := (hwords w List.mem_cons_self).first
  obtain ⟨s', hs'⟩ : ∃ s', List.intercalate [' '] ((c :: w') :: words) ++ s = c :: s' := by
    cases words with
    | nil => exact ⟨w' ++ s, by rw [List.intercalate_singleton, List.cons_append]⟩
    | cons v words => exact ⟨_, by rw [List.intercalate_cons_cons, List.cons_append]; rfl⟩
  intro hstop
  apply hclose
  apply hstop
  rw [dropWhile_indent, hs', List.dropWhile_cons_of_neg (by simpa using hspace), List.head?_cons]

theorem toString_cons_append (words : List Str) (block : Option NginxConfig) (config : NginxConfig)
    (depth : ℕ) (r : Str) :
    NginxConfig.toString (.mk words block :: config) depth ++ r =
      indent depth ++ (List.intercalate [' '] words ++
        (NginxConfigStatement.blockToString block depth ++
          '\n' :: (NginxConfig.toString config depth ++ r))) := by
  rw [NginxConfig.toString, NginxConfigStatement.toString]
  simp

theorem endsWords_block (block : Option NginxConfig) (depth : ℕ) (r : Str) :
    EndsWords (NginxConfigStatement.blockToString block depth ++ '\n' :: r) := by
  cases block with
  | none => exact Or.inr ⟨r, rfl⟩
  | some config => exact Or.inl ⟨_, rfl⟩

theorem toString_split {T₁ T₂ : NginxConfig}
    (h₁ : AllTokens (fun w => IsToken w ∧ Unmistakable w) T₁)
    (h₂ : AllTokens (fun w => IsToken w ∧ Unmistakable w) T₂) (depth : ℕ) {r₁ r₂ : Str}
    (hr₁ : Stop r₁) (hr₂ : Stop r₂)
    (heq : NginxConfig.toString T₁ depth ++ r₁ = NginxConfig.toString T₂ depth ++ r₂) :
    T₁ = T₂ ∧ r₁ = r₂ := by
  -- one statement on both sides
  have hstatement {words₁ words₂ : List Str} {block₁ block₂ : Option NginxConfig}
      {config₁ config₂ : NginxConfig} {depth : ℕ} {r₁ r₂ : Str} (hne₁ : words₁ ≠ [])
      (hwords₁ : ∀ w ∈ words₁, IsToken w ∧ Unmistakable w) (hne₂ : words₂ ≠ [])
      (hwords₂ : ∀ w ∈ words₂, IsToken w ∧ Unmistakable w)
      (heq : NginxConfig.toString (.mk words₁ block₁ :: config₁) depth ++ r₁ =
        NginxConfig.toString (.mk words₂ block₂ :: config₂) depth ++ r₂) :
      words₁ = words₂ ∧ NginxConfigStatement.blockToString block₁ depth ++
          '\n' :: (NginxConfig.toString config₁ depth ++ r₁) =
        NginxConfigStatement.blockToString block₂ depth ++
          '\n' :: (NginxConfig.toString config₂ depth ++ r₂) := by
    rw [toString_cons_append, toString_cons_append] at heq
    exact words_split hne₁ hwords₁ hne₂ hwords₂ (endsWords_block _ _ _) (endsWords_block _ _ _)
      (List.append_cancel_left heq)
  have hempty {words : List Str} {block : Option NginxConfig} {config : NginxConfig} {depth : ℕ}
      {r r' : Str} (hne : words ≠ []) (hwords : ∀ w ∈ words, IsToken w ∧ Unmistakable w)
      (hstop : Stop r) : r ≠ NginxConfig.toString (.mk words block :: config) depth ++ r' := by
    rintro rfl
    rw [toString_cons_append] at hstop
    exact not_stop_words depth hne (fun w hw => (hwords w hw).1) _ hstop
  induction h₁ generalizing T₂ depth r₁ r₂ with
  | nil =>
    cases h₂ with
    | nil => exact ⟨rfl, heq⟩
    | simple hne hwords hrest => exact absurd heq (hempty hne hwords hr₁)
    | block hne hwords hblock hrest => exact absurd heq (hempty hne hwords hr₁)
  | simple hne₁ hwords₁ hrest₁ ih =>
    cases h₂ with
    | nil => exact absurd heq.symm (hempty hne₁ hwords₁ hr₂)
    | simple hne₂ hwords₂ hrest₂ =>
      obtain ⟨rfl, htail⟩ := hstatement hne₁ hwords₁ hne₂ hwords₂ heq
      have htexts := (List.cons.inj (List.cons.inj htail).2).2
      obtain ⟨rfl, rfl⟩ := ih hrest₂ depth hr₁ hr₂ htexts
      exact ⟨rfl, rfl⟩
    | block hne₂ hwords₂ hblock₂ hrest₂ =>
      obtain ⟨_, htail⟩ := hstatement hne₁ hwords₁ hne₂ hwords₂ heq
      exact absurd (List.cons.inj htail).1 (by decide)
  | block hne₁ hwords₁ hblock₁ hrest₁ ihblock ih =>
    cases h₂ with
    | nil => exact absurd heq.symm (hempty hne₁ hwords₁ hr₂)
    | simple hne₂ hwords₂ hrest₂ =>
      obtain ⟨_, htail⟩ := hstatement hne₁ hwords₁ hne₂ hwords₂ heq
      exact absurd (List.cons.inj htail).1 (by decide)
    | block hne₂ hwords₂ hblock₂ hrest₂ =>
      obtain ⟨rfl, htail⟩ := hstatement hne₁ hwords₁ hne₂ hwords₂ heq
      simp only [NginxConfigStatement.blockToString, List.append_assoc] at htail
      have hinner := List.append_cancel_left htail
      obtain ⟨rfl, hclose⟩ := ihblock hblock₂ (depth + 1) (stop_close depth _) (stop_close depth _)
        hinner
      obtain ⟨rfl, rfl⟩ := ih hrest₂ depth hr₁ hr₂
        (List.cons.inj (List.cons.inj (List.append_cancel_left hclose)).2).2
      exact ⟨rfl, rfl⟩

/-- Accepted texts with one text of their trees have one tree, if no quoted string contains what
looks like its end. -/
theorem eq_of_toString_eq (text₁ text₂ : Str) (T₁ T₂ : NginxConfig) (depth : ℕ)
    (h₁ : parse text₁ [] = some (.returned true T₁)) (h₂ : parse text₂ [] = some (.returned true T₂))
    (hquotes₁ : AllTokens Unmistakable T₁) (hquotes₂ : AllTokens Unmistakable T₂)
    (heq : NginxConfig.toString T₁ depth = NginxConfig.toString T₂ depth) : T₁ = T₂ := by
  have hstop : Stop [] := fun c hc => absurd hc (by simp)
  refine (toString_split ((isToken_of_accepted h₁).and hquotes₁)
    ((isToken_of_accepted h₂).and hquotes₂) depth hstop hstop ?_).1
  rw [heq]

theorem eq_of_toString_eq_escapes :
    ([.mk ["'it's'".toList] none] : NginxConfig) = [.mk ["'it's'".toList] none] := by
  have hquotes : AllTokens Unmistakable [.mk ["'it's'".toList] none] := by
    refine .simple (by simp) (fun w hw => ?_) .nil
    obtain rfl := List.mem_singleton.mp hw
    intro quote s heq _
    obtain ⟨rfl, rfl⟩ := List.cons.inj heq
    decide
  exact eq_of_toString_eq "'it\\'s';".toList " 'it\\'s' ;".toList _ _ 0 rfl rfl hquotes hquotes rfl

/-- `'a\' \'b';` and `'a' 'b';` are accepted, their trees differ, and both print the latter. -/
theorem toString_not_injective :
    parse "'a\\' \\'b';".toList [] = some (.returned true [.mk ["'a' 'b'".toList] none]) ∧
      parse "'a' 'b';".toList [] = some (.returned true [.mk ["'a'".toList, "'b'".toList] none]) ∧
      NginxConfig.toString [.mk ["'a' 'b'".toList] none] 0 =
        NginxConfig.toString [.mk ["'a'".toList, "'b'".toList] none] 0 ∧
      ([.mk ["'a' 'b'".toList] none] : NginxConfig) ≠ [.mk ["'a'".toList, "'b'".toList] none] := by
  refine ⟨rfl, rfl, rfl, fun h => ?_⟩
  injection h with hstatement
  injection hstatement with hwords
  exact absurd hwords (by decide)

end NginxConfigParser

end Webserver

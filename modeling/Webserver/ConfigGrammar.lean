import Mathlib.Data.List.Infix
import Webserver.ConfigTokens

/-!
# The driver of the config parser and the block grammar

The pointers on the stack are the open blocks, so a state of `Parse` is a list of open statements
around the config that is being filled. What has been read up to such a state derives it, and
what derives a config drives `Parse` to it.
-/

set_option autoImplicit false

namespace Webserver

namespace NginxConfigParser

/-- An open block: the statements before it and the tokens in front of its bracket. -/
abbrev Frame := NginxConfig × List Str

/-- The tree around the config in the innermost block. -/
def plug : List Frame → NginxConfig → NginxConfig
  | [], config => config
  | (before, words) :: frames, config => plug frames (before ++ [.mk words (some config)])

/-- The pointers to the open blocks. -/
def pointers : ℕ → List ℕ
  | 0 => [0]
  | n + 1 => (n + 1) :: pointers n

theorem pointers_eq (n : ℕ) : ∃ ps, pointers n = n :: ps := by
  cases n with
  | zero => exact ⟨[], rfl⟩
  | succ n => exact ⟨pointers n, rfl⟩

theorem length_pointers (n : ℕ) : (pointers n).length = n + 1 := by
  induction n with
  | zero => rfl
  | succ n ih => rw [pointers, List.length_cons, ih]

/-- The state inside the open blocks. -/
def within (frames : List Frame) (config : NginxConfig) (last : TokenType) : ParseState :=
  ⟨plug frames config, pointers frames.length, last, frames.length⟩

/-- The state behind a bracket that closes no block. -/
def overrun (config : NginxConfig) : ParseState := ⟨config, [], .endBlock, -1⟩

theorem onBack_concat (f : NginxConfigStatement → Option NginxConfigStatement)
    (config : NginxConfig) (statement : NginxConfigStatement) :
    onBack f (config ++ [statement]) = (f statement).map fun s => config ++ [s] := by
  induction config with
  | nil => rfl
  | cons s config ih =>
    have hne : config ++ [statement] ≠ [] := by simp
    obtain ⟨s', config', h⟩ := List.exists_cons_of_ne_nil hne
    rw [List.cons_append, h, onBack, ← h, ih]
    · cases f statement <;> rfl
    · simp

theorem onConfig_plug (f : NginxConfig → Option NginxConfig) (frames : List Frame)
    (config : NginxConfig) :
    onConfig f frames.length (plug frames config) = (f config).map (plug frames) := by
  induction frames generalizing f config with
  | nil => simp [onConfig, plug]
  | cons frame frames ih =>
    obtain ⟨before, words⟩ := frame
    rw [List.length_cons, onConfig, plug, ih, onChildBlock, onBack_concat]
    cases h : f config with
    | none => simp [NginxConfigStatement.childBlock, h]
    | some config' =>
      simp [NginxConfigStatement.childBlock, NginxConfigStatement.tokens, h, plug]

theorem onTop_plug (f : NginxConfig → Option NginxConfig) (frames : List Frame)
    (config : NginxConfig) :
    onTop (pointers frames.length) f (plug frames config) = (f config).map (plug frames) := by
  obtain ⟨ps, hps⟩ := pointers_eq frames.length
  rw [hps]
  exact onConfig_plug f frames config

def TokenType.isBoundary (type : TokenType) : Bool :=
  type = .start || type = .statementEnd || type = .startBlock || type = .endBlock

theorem TokenType.not_isBoundary {type : TokenType} (h : type.isWord = true) :
    type.isBoundary = false := by
  cases type <;> first | rfl | exact absurd h (by decide)

section Steps
variable {frames : List Frame} {config : NginxConfig} {last : TokenType} {t : Token}

theorem take_word (ht : t.type.isWord = true) (s : ParseState) : take s t = takeWord s t := by
  unfold take
  cases h : t.type <;> first | rfl | exact absurd ht (by rw [h]; decide)

theorem addWord_first (hlast : last.isWord = false) (token : Str) :
    addWord (within frames config last) token =
      some (plug frames (config ++ [.mk [token] none])) := by
  have hemplace : onTop (pointers frames.length) emplaceStatement (plug frames config) =
      some (plug frames (config ++ [.mk [] none])) := by
    rw [onTop_plug]
    rfl
  simp only [addWord, within, hlast, Bool.false_eq_true, if_false, hemplace, Option.bind_some]
  rw [onTop_plug, pushToken, onBack_concat]
  rfl

theorem addWord_next (hlast : last.isWord = true) (words : List Str) (block : Option NginxConfig)
    (token : Str) :
    addWord (within frames (config ++ [.mk words block]) last) token =
      some (plug frames (config ++ [.mk (words ++ [token]) block])) := by
  simp only [addWord, within, hlast, if_true]
  rw [onTop_plug, pushToken, onBack_concat]
  rfl

theorem take_first_word (ht : t.type.isWord = true) (hlast : last.isBoundary = true) :
    take (within frames config last) t =
      .running (within frames (config ++ [.mk [t.value] none]) t.type) := by
  have hword : last.isWord = false := by
    cases last <;> first | rfl | exact absurd hlast (by decide)
  have hcond : last = .start ∨ last = .statementEnd ∨ last = .startBlock ∨ last = .endBlock ∨
      (t.seenWhitespace ∧ last.isWord) := by
    simp only [TokenType.isBoundary, Bool.or_eq_true, decide_eq_true_eq] at hlast
    tauto
  rw [take_word ht, takeWord, addWord_first hword]
  exact if_pos hcond

theorem take_next_word (ht : t.type.isWord = true) (hlast : last.isWord = true)
    (hseen : t.seenWhitespace = true) (words : List Str) (block : Option NginxConfig) :
    take (within frames (config ++ [.mk words block]) last) t =
      .running (within frames (config ++ [.mk (words ++ [t.value]) block]) t.type) := by
  have hcond : last = .start ∨ last = .statementEnd ∨ last = .startBlock ∨ last = .endBlock ∨
      (t.seenWhitespace ∧ last.isWord) := by
    tauto
  rw [take_word ht, takeWord, addWord_next hlast]
  exact if_pos hcond

theorem take_touching (ht : t.type.isWord = true) (hlast : last.isWord = true)
    (hseen : t.seenWhitespace = false) :
    take (within frames config last) t = .stopped (.returned false (plug frames config)) := by
  have hb := TokenType.not_isBoundary hlast
  simp only [TokenType.isBoundary, Bool.or_eq_false_iff, decide_eq_false_iff_not] at hb
  have hcond : ¬ (last = .start ∨ last = .statementEnd ∨ last = .startBlock ∨ last = .endBlock ∨
      (t.seenWhitespace ∧ last.isWord)) := by
    rw [hseen]
    tauto
  rw [take_word ht, takeWord]
  exact if_neg hcond

theorem take_statementEnd (ht : t.type = .statementEnd) :
    take (within frames config last) t =
      if last.isWord then .running (within frames config .statementEnd)
      else .stopped (.returned false (plug frames config)) := by
  simp only [take, ht, takeStatementEnd]
  rfl

theorem take_startBlock (ht : t.type = .startBlock) (hlast : last.isWord = true)
    (words : List Str) (block : Option NginxConfig) :
    take (within frames (config ++ [.mk words block]) last) t =
      .running (within ((config, words) :: frames) [] .startBlock) := by
  have hreset : onTop (pointers frames.length) resetChildBlock
      (plug frames (config ++ [.mk words block])) =
        some (plug frames (config ++ [.mk words (some [])])) := by
    rw [onTop_plug, resetChildBlock, onBack_concat]
    rfl
  obtain ⟨ps, hps⟩ := pointers_eq frames.length
  rw [hps] at hreset
  simp only [take, ht, takeStartBlock, within, hlast, if_true, hps, hreset, plug, List.length_cons,
    pointers]
  rfl

theorem take_startBlock_fail (ht : t.type = .startBlock) (hlast : last.isWord = false) :
    take (within frames config last) t = .stopped (.returned false (plug frames config)) := by
  simp [take, ht, takeStartBlock, within, hlast, ParseState.fail]

theorem take_endBlock (ht : t.type = .endBlock) (hlast : last.isBoundary = true)
    (hstart : last ≠ .start) (words : List Str) (inner : NginxConfig) :
    take (within ((config, words) :: frames) inner last) t =
      .running (within frames (config ++ [.mk words (some inner)]) .endBlock) := by
  have hcond : last = .statementEnd ∨ last = .startBlock ∨ last = .endBlock := by
    simp only [TokenType.isBoundary, Bool.or_eq_true, decide_eq_true_eq] at hlast
    tauto
  simp only [take, ht, takeEndBlock, within, if_pos hcond, List.length_cons, pointers, plug]
  simp

/-- A bracket that closes no block takes the last pointer off the stack. -/
theorem take_endBlock_overrun (ht : t.type = .endBlock) (hlast : last.isBoundary = true)
    (hstart : last ≠ .start) :
    take (within [] config last) t = .running (overrun config) := by
  have hcond : last = .statementEnd ∨ last = .startBlock ∨ last = .endBlock := by
    simp only [TokenType.isBoundary, Bool.or_eq_true, decide_eq_true_eq] at hlast
    tauto
  simp only [take, ht, takeEndBlock, within, if_pos hcond, List.length_nil, pointers, plug, overrun]
  rfl

theorem take_endBlock_fail (ht : t.type = .endBlock)
    (hlast : last.isBoundary = false ∨ last = .start) :
    take (within frames config last) t = .stopped (.returned false (plug frames config)) := by
  have hcond : ¬ (last = .statementEnd ∨ last = .startBlock ∨ last = .endBlock) := by
    rcases hlast with hlast | rfl
    · simp only [TokenType.isBoundary, Bool.or_eq_false_iff, decide_eq_false_iff_not] at hlast
      tauto
    · simp
  simp only [take, ht, takeEndBlock]
  exact if_neg hcond

theorem takeEof_within :
    takeEof (within frames config last) =
      if (last = .statementEnd ∨ last = .endBlock ∨ last = .start) ∧ frames = [] then
        .returned true config
      else .returned false (plug frames config) := by
  cases frames with
  | nil => simp [takeEof, within, plug]
  | cons frame frames =>
    have hbalance : ((frames.length : ℤ) + 1) ≠ 0 := by omega
    simp [takeEof, within, hbalance]

end Steps

/-! The grammar. -/

/-- The words of a statement: all but the first stand apart from the word before. -/
structure Words (ts : List Token) : Prop where
  words : ∀ t ∈ ts, t.type.isWord = true
  nonempty : ts ≠ []
  separated : ∀ t ∈ ts.tail, t.seenWhitespace = true

/-- `config → statement*` and `statement → word word'* (';' | '{' config '}')`, with the tree of
the derivation. -/
inductive Derives : List Token → NginxConfig → Prop
  | nil : Derives [] []
  | simple {words rest : List Token} {close : Token} {config : NginxConfig} (hwords : Words words)
      (hclose : close.type = .statementEnd) (hrest : Derives rest config) :
      Derives (words ++ close :: rest) (.mk (words.map (·.value)) none :: config)
  | block {words inner rest : List Token} {openBlock close : Token} {block config : NginxConfig}
      (hwords : Words words) (hopen : openBlock.type = .startBlock) (hinner : Derives inner block)
      (hclose : close.type = .endBlock) (hrest : Derives rest config) :
      Derives (words ++ openBlock :: inner ++ close :: rest)
        (.mk (words.map (·.value)) (some block) :: config)

theorem Derives.append {ts us : List Token} {config config' : NginxConfig} (h : Derives ts config)
    (h' : Derives us config') : Derives (ts ++ us) (config ++ config') := by
  induction h with
  | nil => exact h'
  | simple hwords hclose _ ih =>
    rw [List.append_assoc, List.cons_append]
    exact .simple hwords hclose ih
  | block hwords hopen hinner hclose _ _ ih =>
    rw [List.append_assoc, List.cons_append]
    exact .block hwords hopen hinner hclose ih

/-- The state after some tokens, if the loop does not end on them. -/
def advance : ParseState → List Token → Option ParseState
  | s, [] => some s
  | s, t :: ts =>
    match take s t with
    | .running s => advance s ts
    | .stopped _ => none

theorem advance_append (s : ParseState) (ts us : List Token) :
    advance s (ts ++ us) = (advance s ts).bind fun s => advance s us := by
  induction ts generalizing s with
  | nil => rfl
  | cons t ts ih =>
    rw [List.cons_append, advance, advance]
    cases take s t with
    | running s' => exact ih s'
    | stopped o => rfl

theorem drive_of_advance {s s' : ParseState} {ts : List Token} (h : advance s ts = some s')
    (us : List Token) : drive s (ts ++ us) = drive s' us := by
  induction ts generalizing s with
  | nil => rw [Option.some.inj h, List.nil_append]
  | cons t ts ih =>
    rw [List.cons_append, drive]
    rw [advance] at h
    cases htake : take s t with
    | running s₁ =>
      rw [htake] at h
      exact ih h
    | stopped o =>
      rw [htake] at h
      exact absurd h (by simp)

theorem advance_of_take {s s' : ParseState} {t : Token} (h : take s t = .running s')
    (ts : List Token) : advance s (t :: ts) = advance s' ts := by
  rw [advance, h]

theorem advance_snoc {s s' : ParseState} {ts : List Token} {t : Token}
    (h : advance s (ts ++ [t]) = some s') :
    ∃ s₁, advance s ts = some s₁ ∧ take s₁ t = .running s' := by
  rw [advance_append] at h
  obtain ⟨s₁, hs₁, hstep⟩ := Option.bind_eq_some_iff.mp h
  refine ⟨s₁, hs₁, ?_⟩
  rw [advance] at hstep
  cases htake : take s₁ t with
  | running s₂ =>
    rw [htake] at hstep
    rw [Option.some.inj hstep]
  | stopped o =>
    rw [htake] at hstep
    exact absurd hstep (by simp)

/-! What derives a config drives `Parse` to it. -/

theorem Words.snoc_cases {ts : List Token} (h : Words ts) :
    (∃ t, ts = [t]) ∨ ∃ us t, ts = us ++ [t] ∧ Words us ∧ t.seenWhitespace = true := by
  rcases List.eq_nil_or_concat ts with rfl | ⟨us, t, rfl⟩
  · exact absurd rfl h.nonempty
  · rw [List.concat_eq_append] at h ⊢
    cases us with
    | nil => exact Or.inl ⟨t, rfl⟩
    | cons u us =>
      refine Or.inr ⟨u :: us, t, rfl, ⟨fun t' ht' => ?_, by simp, fun t' ht' => ?_⟩, ?_⟩
      · exact h.words t' (List.mem_append_left _ ht')
      · exact h.separated t' (List.mem_append_left [t] ht')
      · exact h.separated t (List.mem_append_right us List.mem_cons_self)

theorem advance_words (n : ℕ) (frames : List Frame) (config : NginxConfig) {last : TokenType}
    {ts : List Token} (hn : ts.length = n) (hwords : Words ts) (hlast : last.isBoundary = true) :
    ∃ last', last'.isWord = true ∧ advance (within frames config last) ts =
      some (within frames (config ++ [.mk (ts.map (·.value)) none]) last') := by
  induction n generalizing ts with
  | zero => exact absurd (List.eq_nil_of_length_eq_zero hn) hwords.nonempty
  | succ n ih =>
    rcases hwords.snoc_cases with ⟨t, rfl⟩ | ⟨us, t, rfl, hus, hseen⟩
    · have ht := hwords.words t List.mem_cons_self
      exact ⟨t.type, ht, by rw [advance_of_take (take_first_word ht hlast)]; rfl⟩
    · have ht := hwords.words t (List.mem_append_right us List.mem_cons_self)
      rw [List.length_append, List.length_singleton] at hn
      obtain ⟨last', hlast', hadvance⟩ := ih (by omega) hus
      refine ⟨t.type, ht, ?_⟩
      rw [advance_append, hadvance, Option.bind_some,
        advance_of_take (take_next_word ht hlast' hseen _ _), List.map_append]
      rfl

/-- After a config the driver is where it was, with the statements added. -/
theorem Derives.advance {ts : List Token} {config : NginxConfig} (h : Derives ts config)
    (frames : List Frame) (before : NginxConfig) (last : TokenType)
    (hlast : last.isBoundary = true) :
    ∃ last', (last' = last ∨ last' = .statementEnd ∨ last' = .endBlock) ∧
      advance (within frames before last) ts = some (within frames (before ++ config) last') := by
  induction h generalizing frames before last with
  | nil => exact ⟨last, Or.inl rfl, by rw [List.append_nil]; rfl⟩
  | @simple words rest close config hwords hclose hrest ih =>
    obtain ⟨last₁, hlast₁, hadvance⟩ := advance_words _ frames before rfl hwords hlast
    obtain ⟨last', hlast', hrest'⟩ := ih frames (before ++ [.mk (words.map (·.value)) none])
      .statementEnd rfl
    refine ⟨last', Or.inr (hlast'.elim Or.inl id), ?_⟩
    have htake : take (within frames (before ++ [.mk (words.map (·.value)) none]) last₁) close = _ :=
      take_statementEnd hclose
    rw [if_pos hlast₁] at htake
    rw [advance_append, hadvance, Option.bind_some, advance_of_take htake, hrest',
      List.append_assoc]
    rfl
  | @block words inner rest openBlock close block config hwords hopen hinner hclose hrest ih ih' =>
    obtain ⟨last₁, hlast₁, hadvance⟩ := advance_words _ frames before rfl hwords hlast
    obtain ⟨last₂, hlast₂, hinner'⟩ := ih ((before, words.map (·.value)) :: frames) []
      .startBlock rfl
    obtain ⟨last', hlast', hrest'⟩ := ih' frames
      (before ++ [.mk (words.map (·.value)) (some block)]) .endBlock rfl
    have hboundary : last₂.isBoundary = true ∧ last₂ ≠ .start := by
      rcases hlast₂ with rfl | rfl | rfl <;> exact ⟨rfl, by decide⟩
    refine ⟨last', Or.inr (hlast'.elim Or.inr id), ?_⟩
    rw [List.append_assoc, List.cons_append, advance_append, hadvance, Option.bind_some,
      advance_of_take (take_startBlock hopen hlast₁ _ _), advance_append, hinner',
      Option.bind_some, List.nil_append,
      advance_of_take (take_endBlock hclose hboundary.1 hboundary.2 _ _), hrest',
      List.append_assoc]
    rfl

/-! Everything a round can do. -/

/-- Whether a token may come next. -/
def follows (last : TokenType) (t : Token) : Bool :=
  match t.type with
  | .normal | .quotedString => last.isBoundary || (t.seenWhitespace && last.isWord)
  | .statementEnd | .startBlock => last.isWord
  | .endBlock => last.isBoundary && last ≠ .start
  | _ => false

/-- While a statement is read there is one to add to. -/
structure Shaped (config : NginxConfig) (last : TokenType) : Prop where
  kind : last.isBoundary = true ∨ last.isWord = true
  underway : last.isWord = true → ∃ before words block, config = before ++ [.mk words block]

inductive Moved : List Frame → NginxConfig → TokenType → Token → ParseState → Prop
  | comment {frames : List Frame} {config : NginxConfig} {last : TokenType} {t : Token}
      (ht : t.type = .comment) : Moved frames config last t (within frames config last)
  | firstWord {frames : List Frame} {config : NginxConfig} {last : TokenType} {t : Token}
      (ht : t.type.isWord = true) (hlast : last.isBoundary = true) :
      Moved frames config last t (within frames (config ++ [.mk [t.value] none]) t.type)
  | nextWord {frames : List Frame} {config : NginxConfig} {last : TokenType} {t : Token}
      {words : List Str} {block : Option NginxConfig} (ht : t.type.isWord = true)
      (hlast : last.isWord = true) (hseen : t.seenWhitespace = true) :
      Moved frames (config ++ [.mk words block]) last t
        (within frames (config ++ [.mk (words ++ [t.value]) block]) t.type)
  | statementEnd {frames : List Frame} {config : NginxConfig} {last : TokenType} {t : Token}
      (ht : t.type = .statementEnd) (hlast : last.isWord = true) :
      Moved frames config last t (within frames config .statementEnd)
  | startBlock {frames : List Frame} {config : NginxConfig} {last : TokenType} {t : Token}
      {words : List Str} {block : Option NginxConfig} (ht : t.type = .startBlock)
      (hlast : last.isWord = true) :
      Moved frames (config ++ [.mk words block]) last t
        (within ((config, words) :: frames) [] .startBlock)
  | endBlock {frames : List Frame} {config inner : NginxConfig} {last : TokenType} {t : Token}
      {words : List Str} (ht : t.type = .endBlock) (hlast : last.isBoundary = true)
      (hstart : last ≠ .start) :
      Moved ((config, words) :: frames) inner last t
        (within frames (config ++ [.mk words (some inner)]) .endBlock)
  | unmatched {config : NginxConfig} {last : TokenType} {t : Token} (ht : t.type = .endBlock)
      (hlast : last.isBoundary = true) (hstart : last ≠ .start) :
      Moved [] config last t (overrun config)

theorem follows_word {last : TokenType} {t : Token} (ht : t.type.isWord = true) :
    follows last t = (last.isBoundary || (t.seenWhitespace && last.isWord)) := by
  unfold follows
  cases htype : t.type <;> first | rfl | exact absurd ht (by rw [htype]; decide)

theorem take_within {config : NginxConfig} {last : TokenType} (h : Shaped config last)
    (frames : List Frame) (t : Token) :
    (∃ s, take (within frames config last) t = .running s ∧ Moved frames config last t s) ∨
      (follows last t = false ∧ ∃ verdict result,
        take (within frames config last) t = .stopped (.returned verdict result) ∧
          (verdict = true → t.type = .eof)) := by
  have hstop (hfollows : follows last t = false) (result : NginxConfig)
      (htake : take (within frames config last) t = .stopped (.returned false result)) :
      follows last t = false ∧ ∃ verdict result,
        take (within frames config last) t = .stopped (.returned verdict result) ∧
          (verdict = true → t.type = .eof) :=
    ⟨hfollows, false, result, htake, by simp⟩
  have hword (ht : t.type.isWord = true) :
      (∃ s, take (within frames config last) t = .running s ∧ Moved frames config last t s) ∨
        (follows last t = false ∧ ∃ verdict result, take (within frames config last) t =
          .stopped (.returned verdict result) ∧ (verdict = true → t.type = .eof)) := by
    rcases h.kind with hlast | hlast
    · exact Or.inl ⟨_, take_first_word ht hlast, .firstWord ht hlast⟩
    · cases hseen : t.seenWhitespace with
      | false =>
        have hfollows : follows last t = false := by
          rw [follows_word ht, TokenType.not_isBoundary hlast, hseen]
          rfl
        exact Or.inr (hstop hfollows _ (take_touching ht hlast hseen))
      | true =>
        obtain ⟨before, words, block, rfl⟩ := h.underway hlast
        exact Or.inl ⟨_, take_next_word ht hlast hseen words block, .nextWord ht hlast hseen⟩
  cases htype : t.type with
  | start | error =>
    have hfollows : follows last t = false := by rw [follows, htype]
    exact htype ▸ Or.inr (hstop hfollows _ (by rw [take, htype]; rfl))
  | normal | quotedString => exact htype ▸ hword (by rw [htype]; rfl)
  | comment =>
    refine Or.inl ⟨within frames config last, ?_, .comment htype⟩
    rw [take, htype]
  | eof =>
    have hfollows : follows last t = false := by rw [follows, htype]
    refine Or.inr ⟨hfollows, ?_⟩
    have htake : take (within frames config last) t =
        .stopped (takeEof (within frames config last)) := by
      rw [take, htype]
    rw [htake, takeEof_within]
    split
    · exact ⟨true, config, rfl, fun _ => rfl⟩
    · exact ⟨false, plug frames config, rfl, fun _ => rfl⟩
  | statementEnd =>
    have htake : take (within frames config last) t = _ := take_statementEnd htype
    cases hlast : last.isWord with
    | false =>
      have hfollows : follows last t = false := by rw [follows, htype]; exact hlast
      rw [hlast] at htake
      exact htype ▸ Or.inr (hstop hfollows _ htake)
    | true =>
      rw [if_pos hlast] at htake
      exact Or.inl ⟨_, htake, .statementEnd htype hlast⟩
  | startBlock =>
    cases hlast : last.isWord with
    | false =>
      have hfollows : follows last t = false := by rw [follows, htype]; exact hlast
      exact htype ▸ Or.inr (hstop hfollows _ (take_startBlock_fail htype hlast))
    | true =>
      obtain ⟨before, words, block, rfl⟩ := h.underway hlast
      exact Or.inl ⟨_, take_startBlock htype hlast words block, .startBlock htype hlast⟩
  | endBlock =>
    by_cases hlast : last.isBoundary = false ∨ last = .start
    · have hfollows : follows last t = false := by
        rw [follows, htype]
        rcases hlast with hlast | rfl
        · dsimp only
          rw [hlast, Bool.false_and]
        · rfl
      exact htype ▸ Or.inr (hstop hfollows _ (take_endBlock_fail htype hlast))
    · rw [not_or, Bool.not_eq_false] at hlast
      cases frames with
      | nil =>
        exact Or.inl ⟨_, take_endBlock_overrun htype hlast.1 hlast.2,
          .unmatched htype hlast.1 hlast.2⟩
      | cons frame frames =>
        obtain ⟨before, words⟩ := frame
        exact Or.inl ⟨_, take_endBlock htype hlast.1 hlast.2 words config,
          .endBlock htype hlast.1 hlast.2⟩

/-- A round that goes on is one that `follows` allows. -/
theorem Moved.follows {frames : List Frame} {config : NginxConfig} {last : TokenType} {t : Token}
    {s : ParseState} (h : Moved frames config last t s) (hcomment : t.type ≠ .comment) :
    follows last t = true := by
  cases h with
  | comment ht => exact absurd ht hcomment
  | firstWord ht hlast => rw [follows_word ht, hlast, Bool.true_or]
  | nextWord ht hlast hseen => rw [follows_word ht, hlast, hseen, Bool.and_true, Bool.or_true]
  | statementEnd ht hlast => rw [NginxConfigParser.follows, ht]; exact hlast
  | startBlock ht hlast => rw [NginxConfigParser.follows, ht]; exact hlast
  | endBlock ht hlast hstart => rw [NginxConfigParser.follows, ht]; simp [hlast, hstart]
  | unmatched ht hlast hstart => rw [NginxConfigParser.follows, ht]; simp [hlast, hstart]

/-- A round leaves the shape, or takes the last pointer off the stack. -/
theorem Moved.shaped {frames : List Frame} {config : NginxConfig} {last : TokenType} {t : Token}
    {s : ParseState} (h : Moved frames config last t s) (hshaped : Shaped config last)
    (hcomment : t.type ≠ .comment) :
    (∃ frames' config', s = within frames' config' t.type ∧ Shaped config' t.type) ∨
      (s = overrun config ∧ frames = [] ∧ t.type = .endBlock) := by
  cases h with
  | comment ht => exact absurd ht hcomment
  | firstWord ht hlast => exact Or.inl ⟨_, _, rfl, Or.inr ht, fun _ => ⟨_, _, _, rfl⟩⟩
  | nextWord ht hlast hseen => exact Or.inl ⟨_, _, rfl, Or.inr ht, fun _ => ⟨_, _, _, rfl⟩⟩
  | statementEnd ht hlast =>
    rw [ht]
    exact Or.inl ⟨_, _, rfl, Or.inl rfl, fun h => absurd h (by decide)⟩
  | startBlock ht hlast =>
    rw [ht]
    exact Or.inl ⟨_, _, rfl, Or.inl rfl, fun h => absurd h (by decide)⟩
  | endBlock ht hlast hstart =>
    rw [ht]
    exact Or.inl ⟨_, _, rfl, Or.inl rfl, fun h => absurd h (by decide)⟩
  | unmatched ht hlast hstart => exact Or.inr ⟨rfl, rfl, ht⟩

/-! What drives `Parse` to a state derives it. -/

/-- The tokens in front of the innermost open block. -/
inductive Opened : List Token → List Frame → Prop
  | nil : Opened [] []
  | block {outer inner words : List Token} {openBlock : Token} {frames : List Frame}
      {before : NginxConfig} (h : Opened outer frames) (hinner : Derives inner before)
      (hwords : Words words) (hopen : openBlock.type = .startBlock) :
      Opened (outer ++ inner ++ words ++ [openBlock])
        ((before, words.map (·.value)) :: frames)

/-- The tokens that lead to a state. -/
inductive Viable : List Token → ParseState → Prop
  | between {outer inner : List Token} {frames : List Frame} {config : NginxConfig}
      {last : TokenType} (houter : Opened outer frames) (hinner : Derives inner config)
      (hlast : last.isBoundary = true) : Viable (outer ++ inner) (within frames config last)
  | inside {outer inner words : List Token} {frames : List Frame} {config : NginxConfig}
      {last : TokenType} (houter : Opened outer frames) (hinner : Derives inner config)
      (hwords : Words words) (hlast : last.isWord = true) :
      Viable (outer ++ inner ++ words)
        (within frames (config ++ [.mk (words.map (·.value)) none]) last)

theorem Words.snoc {ts : List Token} (h : Words ts) {t : Token} (ht : t.type.isWord = true)
    (hseen : t.seenWhitespace = true) : Words (ts ++ [t]) := by
  obtain ⟨u, us, rfl⟩ := List.exists_cons_of_ne_nil h.nonempty
  refine ⟨fun t' ht' => ?_, by simp, fun t' ht' => ?_⟩
  · rcases List.mem_append.mp ht' with ht' | ht'
    · exact h.words t' ht'
    · exact List.mem_singleton.mp ht' ▸ ht
  · rw [List.cons_append, List.tail_cons] at ht'
    rcases List.mem_append.mp ht' with ht' | ht'
    · exact h.separated t' ht'
    · exact List.mem_singleton.mp ht' ▸ hseen

theorem Derives.snoc_simple {ts words : List Token} {config : NginxConfig} (h : Derives ts config)
    (hwords : Words words) {close : Token} (hclose : close.type = .statementEnd) :
    Derives (ts ++ (words ++ [close])) (config ++ [.mk (words.map (·.value)) none]) :=
  h.append (.simple hwords hclose .nil)

theorem Derives.snoc_block {ts words inner : List Token} {config block : NginxConfig}
    (h : Derives ts config) (hwords : Words words) {openBlock close : Token}
    (hopen : openBlock.type = .startBlock) (hinner : Derives inner block)
    (hclose : close.type = .endBlock) :
    Derives (ts ++ (words ++ openBlock :: inner ++ [close]))
      (config ++ [.mk (words.map (·.value)) (some block)]) :=
  h.append (.block hwords hopen hinner hclose .nil)

theorem Viable.shaped {ts : List Token} {s : ParseState} (h : Viable ts s) :
    ∃ frames config last, s = within frames config last ∧ Shaped config last := by
  cases h with
  | between houter hinner hlast =>
    refine ⟨_, _, _, rfl, Or.inl hlast, fun hword => ?_⟩
    rw [TokenType.not_isBoundary hword] at hlast
    exact absurd hlast (by decide)
  | inside houter hinner hwords hlast => exact ⟨_, _, _, rfl, Or.inr hlast, fun _ => ⟨_, _, _, rfl⟩⟩

/-- A round that is not about an unmatched bracket reads one token further. -/
theorem Viable.step {ts : List Token} {s s' : ParseState} {t : Token} (h : Viable ts s)
    (hcomment : t.type ≠ .comment) (htake : take s t = .running s')
    (hmatched : t.type = .endBlock → s.bracketBalance ≠ 0) : Viable (ts ++ [t]) s' := by
  have hmoved {frames : List Frame} {config : NginxConfig} {last : TokenType}
      (hshaped : Shaped config last) (hs : s = within frames config last) :
      Moved frames config last t s' := by
    subst hs
    rcases take_within hshaped frames t with ⟨s₁, hs₁, hmoved⟩ | ⟨_, verdict, result, hstop, _⟩
    · rw [htake] at hs₁
      exact Progress.running.inj hs₁ ▸ hmoved
    · rw [htake] at hstop
      exact absurd hstop (by simp)
  obtain ⟨frames₀, config₀, last₀, hs, hshaped⟩ := h.shaped
  cases h with
  | @between outer inner frames config last houter hinner hlast =>
    have hshaped : Shaped config last := ⟨Or.inl hlast, fun hword => by
      rw [TokenType.not_isBoundary hword] at hlast
      exact absurd hlast (by decide)⟩
    cases hmoved hshaped rfl with
    | comment ht => exact absurd ht hcomment
    | firstWord ht hlast =>
      have hwords : Words [t] := ⟨by simpa using ht, by simp, by simp⟩
      exact .inside houter hinner hwords ht
    | nextWord ht hword hseen =>
      rw [TokenType.not_isBoundary hword] at hlast
      exact absurd hlast (by decide)
    | statementEnd ht hword =>
      rw [TokenType.not_isBoundary hword] at hlast
      exact absurd hlast (by decide)
    | startBlock ht hword =>
      rw [TokenType.not_isBoundary hword] at hlast
      exact absurd hlast (by decide)
    | endBlock ht hlast hstart =>
      cases houter with
      | @block outer inner' words openBlock _ before houter hinner' hwords hopen =>
        have hderives := hinner'.snoc_block hwords hopen hinner ht
        have hviable : Viable _ (within _ _ .endBlock) := .between houter hderives rfl
        simpa using hviable
    | unmatched ht hlast hstart => exact absurd rfl (hmatched ht)
  | @inside outer inner words frames config last houter hinner hwords hlast =>
    have hshaped : Shaped (config ++ [.mk (words.map (·.value)) none]) last :=
      ⟨Or.inr hlast, fun _ => ⟨_, _, _, rfl⟩⟩
    have hboundary := TokenType.not_isBoundary hlast
    have hmoved' := hmoved hshaped rfl
    generalize hconfig : config ++ [.mk (words.map (·.value)) none] = config' at hmoved'
    cases hmoved' with
    | comment ht => exact absurd ht hcomment
    | firstWord ht hlast =>
      rw [hlast] at hboundary
      exact absurd hboundary (by decide)
    | nextWord ht hword hseen =>
      obtain ⟨rfl, hstatement⟩ := List.append_inj' hconfig rfl
      obtain ⟨rfl, rfl⟩ := NginxConfigStatement.mk.inj (List.cons.inj hstatement).1
      have hviable := Viable.inside houter hinner (hwords.snoc ht hseen) ht
      rw [List.map_append] at hviable
      simpa using hviable
    | statementEnd ht hword =>
      subst hconfig
      have hviable : Viable _ (within frames _ .statementEnd) :=
        .between houter (hinner.snoc_simple hwords ht) rfl
      simpa using hviable
    | startBlock ht hword =>
      obtain ⟨rfl, hstatement⟩ := List.append_inj' hconfig rfl
      obtain ⟨rfl, rfl⟩ := NginxConfigStatement.mk.inj (List.cons.inj hstatement).1
      have hviable : Viable _ (within (_ :: frames) [] .startBlock) :=
        .between (houter.block hinner hwords ht) .nil rfl
      simpa using hviable
    | endBlock ht hlast hstart =>
      rw [hlast] at hboundary
      exact absurd hboundary (by decide)
    | unmatched ht hlast hstart =>
      rw [hlast] at hboundary
      exact absurd hboundary (by decide)

/-! The brackets. -/

def opens (ts : List Token) : ℕ := ts.countP fun t => t.type = .startBlock

def closes (ts : List Token) : ℕ := ts.countP fun t => t.type = .endBlock

theorem opens_cons (t : Token) (ts : List Token) : opens (t :: ts) = opens [t] + opens ts := by
  rw [opens, ← List.singleton_append, List.countP_append]
  rfl

theorem closes_cons (t : Token) (ts : List Token) : closes (t :: ts) = closes [t] + closes ts := by
  rw [closes, ← List.singleton_append, List.countP_append]
  rfl

/-- No prefix closes more blocks than it opens. -/
def Balanced (ts : List Token) : Prop := ∀ pre, pre <+: ts → closes pre ≤ opens pre

def TokenType.isLexeme (type : TokenType) : Bool :=
  type.isWord || type = .statementEnd || type = .startBlock || type = .endBlock

/-- Everything a round can do. -/
inductive Round (s : ParseState) (t : Token) : Progress → Prop
  | comment (ht : t.type = .comment) : Round s t (.running s)
  | word (ht : t.type.isWord = true) (config : NginxConfig) :
      Round s t (.running { s with config, lastTokenType := t.type })
  | statementEnd (ht : t.type = .statementEnd) :
      Round s t (.running { s with lastTokenType := .statementEnd })
  | startBlock (ht : t.type = .startBlock) (config : NginxConfig) (configStack : List ℕ) :
      Round s t (.running ⟨config, configStack, .startBlock, s.bracketBalance + 1⟩)
  | endBlock (ht : t.type = .endBlock) (configStack : List ℕ) :
      Round s t (.running ⟨s.config, configStack, .endBlock, s.bracketBalance - 1⟩)
  | eof (ht : t.type = .eof) : Round s t (.stopped (takeEof s))
  | failed : Round s t (.stopped (.returned false s.config))
  | undefined : Round s t (.stopped .undefined)

/-- The inversion of a round. -/
theorem round_of_take (s : ParseState) (t : Token) : Round s t (take s t) := by
  unfold take
  cases htype : t.type <;> dsimp only
  case comment => exact .comment htype
  case start | error => exact .failed
  case eof => exact .eof htype
  case normal | quotedString =>
    unfold takeWord
    dsimp only
    split
    · split
      · exact .undefined
      · exact .word (by rw [htype]; rfl) _
    · exact .failed
  case statementEnd =>
    unfold takeStatementEnd
    split
    · exact .statementEnd htype
    · exact .failed
  case startBlock =>
    unfold takeStartBlock
    dsimp only
    split
    · split
      · exact .startBlock htype _ _
      · exact .undefined
    · exact .failed
  case endBlock =>
    unfold takeEndBlock
    dsimp only
    split
    · split
      · exact .undefined
      · exact .endBlock htype _
    · exact .failed

theorem take_balance {s s' : ParseState} {t : Token} (h : take s t = .running s') :
    s'.bracketBalance + closes [t] = s.bracketBalance + opens [t] := by
  have hround := round_of_take s t
  rw [h] at hround
  cases hround with
  | comment ht => simp [closes, opens, ht]
  | word ht config =>
    have hclose : t.type ≠ .endBlock := fun heq => by simp [heq, TokenType.isWord] at ht
    have hopen : t.type ≠ .startBlock := fun heq => by simp [heq, TokenType.isWord] at ht
    simp [closes, opens, hclose, hopen]
  | statementEnd ht => simp [closes, opens, ht]
  | startBlock ht config configStack => simp [closes, opens, ht]
  | endBlock ht configStack => simp [closes, opens, ht]

/-- The counter is the number of blocks that are open. -/
theorem advance_balance {s s' : ParseState} {ts : List Token} (h : advance s ts = some s') :
    s'.bracketBalance + closes ts = s.bracketBalance + opens ts := by
  induction ts generalizing s with
  | nil => rw [Option.some.inj h]; rfl
  | cons t ts ih =>
    rw [advance] at h
    cases htake : take s t with
    | stopped o =>
      rw [htake] at h
      exact absurd h (by simp)
    | running s₁ =>
      rw [htake] at h
      have hrest := ih h
      have ht := take_balance htake
      rw [closes_cons, opens_cons]
      push_cast
      omega

theorem Balanced.of_append {ts us : List Token} (h : Balanced (ts ++ us)) : Balanced ts := by
  intro pre hpre
  exact h pre (hpre.trans (List.prefix_append ts us))

theorem viable_of_advance {ts : List Token} {s : ParseState}
    (hts : ∀ t ∈ ts, t.type ≠ .comment) (hbalanced : Balanced ts)
    (h : advance (.initial []) ts = some s) : Viable ts s := by
  induction ts using List.reverseRecOn generalizing s with
  | nil =>
    obtain rfl := Option.some.inj h
    exact .between .nil .nil rfl
  | append_singleton ts t ih =>
    obtain ⟨s₁, hs₁, htake⟩ := advance_snoc h
    have hviable := ih (fun u hu => hts u (List.mem_append_left [t] hu)) hbalanced.of_append hs₁
    refine hviable.step (hts t (List.mem_append_right ts List.mem_cons_self)) htake ?_
    intro ht hbalance
    -- the bracket would close more blocks than are open
    have hcount := advance_balance hs₁
    have hprefix := hbalanced (ts ++ [t]) List.prefix_rfl
    have hcloses : closes (ts ++ [t]) = closes ts + 1 := by
      rw [closes, List.countP_append]
      simp [closes, ht]
    have hopens : opens (ts ++ [t]) = opens ts := by
      rw [opens, List.countP_append]
      simp [opens, ht]
    rw [hbalance] at hcount
    simp only [ParseState.initial] at hcount
    omega

theorem take_true {s : ParseState} {t : Token} {config : NginxConfig}
    (h : take s t = .stopped (.returned true config)) : t.type = .eof := by
  have hround := round_of_take s t
  rw [h] at hround
  generalize hp : Progress.stopped (.returned true config) = p at hround
  cases hround with
  | eof ht => exact ht
  | _ => exact absurd hp (by simp)

/-- `Parse` returns true only at the end of the input. -/
theorem advance_of_accepted {s : ParseState} {ts : List Token} {config : NginxConfig}
    (hts : ∀ t ∈ ts, t.type ≠ .eof) (h : drive s ts = .returned true config) :
    ∃ s', advance s ts = some s' ∧ takeEof s' = .returned true config := by
  induction ts generalizing s with
  | nil => exact ⟨s, rfl, h⟩
  | cons t ts ih =>
    rw [drive] at h
    cases htake : take s t with
    | running s₁ =>
      rw [htake] at h
      obtain ⟨s', hs', heof⟩ := ih (fun u hu => hts u (List.mem_cons_of_mem t hu)) h
      exact ⟨s', by rw [advance_of_take htake, hs'], heof⟩
    | stopped o =>
      rw [htake] at h
      rw [show o = .returned true config from h] at htake
      exact absurd (take_true htake) (hts t List.mem_cons_self)

theorem derives_of_viable {ts : List Token} {s : ParseState} {config : NginxConfig}
    (h : Viable ts s) (heof : takeEof s = .returned true config) : Derives ts config := by
  cases h with
  | @between outer inner frames config' last houter hinner hlast =>
    rw [takeEof_within] at heof
    split at heof
    · rename_i hend
      obtain rfl := hend.2
      cases houter
      have hconfig := (Outcome.returned.inj heof).2
      exact hconfig ▸ hinner
    · exact absurd heof (by simp)
  | @inside outer inner words frames config' last houter hinner hwords hlast =>
    rw [takeEof_within, if_neg] at heof
    · exact absurd heof (by simp)
    · rintro ⟨rfl | rfl | rfl, _⟩ <;> exact absurd hlast (by decide)

theorem accepted_of_derives {ts : List Token} {config : NginxConfig} (h : Derives ts config) :
    drive (.initial []) ts = .returned true config := by
  obtain ⟨last, hlast, hadvance⟩ := h.advance [] [] .start rfl
  have hdrive := drive_of_advance hadvance []
  rw [List.append_nil, List.nil_append] at hdrive
  have hend : (last = .statementEnd ∨ last = .endBlock ∨ last = .start) ∧ ([] : List Frame) = [] := by
    tauto
  rw [show ParseState.initial [] = within [] [] .start from rfl, hdrive, drive, takeEof_within,
    if_pos hend]

/-- On a token stream whose prefixes close no more blocks than they open, `Parse` returns true
with a tree if and only if the grammar derives the stream with that tree. -/
theorem accepted_iff_derives (ts : List Token) (hts : ∀ t ∈ ts, t.type.isLexeme = true)
    (hbalanced : Balanced ts) (config : NginxConfig) :
    drive (.initial []) ts = .returned true config ↔ Derives ts config := by
  have hkind (t : Token) (ht : t ∈ ts) : t.type ≠ .comment ∧ t.type ≠ .eof := by
    have hlexeme := hts t ht
    constructor <;>
      · intro htype
        rw [htype] at hlexeme
        exact absurd hlexeme (by decide)
  constructor
  · intro h
    obtain ⟨s, hs, heof⟩ := advance_of_accepted (fun t ht => (hkind t ht).2) h
    exact derives_of_viable (viable_of_advance (fun t ht => (hkind t ht).1) hbalanced hs) heof
  · exact accepted_of_derives

/-- `a { b c; }` -/
theorem accepted_iff_derives_block :
    drive (.initial []) (tokens "a \x7b b c; \x7d".toList) =
        .returned true [.mk ["a".toList] (some [.mk ["b".toList, "c".toList] none])] ↔
      Derives (tokens "a \x7b b c; \x7d".toList)
        [.mk ["a".toList] (some [.mk ["b".toList, "c".toList] none])] := by
  have htokens : ∀ pre ∈ (tokens "a \x7b b c; \x7d".toList).inits, closes pre ≤ opens pre := by decide
  exact accepted_iff_derives _ (by decide)
    (fun pre hpre => htokens pre ((List.mem_inits _ _).mpr hpre)) _

end NginxConfigParser

end Webserver

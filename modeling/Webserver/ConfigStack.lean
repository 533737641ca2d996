import Webserver.ConfigGrammar

/-!
# The stack of the config parser

The stack and the counter of `Parse` agree before every token. The stack runs empty behind a
bracket that closes no block, and nothing keeps the next token from using it.
-/

set_option autoImplicit false

namespace Webserver

namespace NginxConfigParser

/-- What is asked of the stack in a run of `Parse`. -/
structure StackSafe (configFile : Str) (config : NginxConfig) : Prop where
  size : ∀ pre s, pre <+: tokens configFile → advance (.initial config) pre = some s →
    (s.configStack.length : ℤ) = 1 + s.bracketBalance
  defined : parse configFile config ≠ some .undefined
  unmatched : (∃ pre, pre <+: tokens configFile ∧ opens pre < closes pre) →
    ∃ result, parse configFile config = some (.returned false result)

/-- Every token is one that may come next. -/
def Chained : TokenType → List Token → Prop
  | _, [] => True
  | last, t :: ts => follows last t = true ∧ Chained t.type ts

/-- A bracket closes no open block, what is before it fits together, and a word or another
bracket comes next. -/
def Overruns (ts : List Token) : Prop :=
  ∃ pre close next post, ts = pre ++ close :: next :: post ∧ close.type = .endBlock ∧
    opens pre = closes pre ∧ Chained .start (pre ++ [close]) ∧
    (next.type.isWord = true ∨ next.type = .endBlock)

def uncommented (ts : List Token) : List Token := ts.filter fun t => t.type ≠ .comment

theorem take_comment {s : ParseState} {t : Token} (ht : t.type = .comment) :
    take s t = .running s := by
  rw [take, ht]

theorem drive_uncommented (s : ParseState) (ts : List Token) :
    drive s (uncommented ts) = drive s ts := by
  induction ts generalizing s with
  | nil => rfl
  | cons t ts ih =>
    by_cases ht : t.type = .comment
    · rw [uncommented, List.filter_cons_of_neg (by simpa using ht), drive, take_comment ht]
      exact ih s
    · rw [uncommented, List.filter_cons_of_pos (by simpa using ht), drive, drive]
      cases take s t with
      | running s' => exact ih s'
      | stopped o => rfl

theorem advance_uncommented (s : ParseState) (ts : List Token) :
    advance s (uncommented ts) = advance s ts := by
  induction ts generalizing s with
  | nil => rfl
  | cons t ts ih =>
    by_cases ht : t.type = .comment
    · rw [uncommented, List.filter_cons_of_neg (by simpa using ht),
        advance_of_take (take_comment ht)]
      exact ih s
    · rw [uncommented, List.filter_cons_of_pos (by simpa using ht), advance, advance]
      cases take s t with
      | running s' => exact ih s'
      | stopped o => rfl

/-! Behind an unmatched bracket. -/

theorem take_overrun_word {config : NginxConfig} {t : Token} (ht : t.type.isWord = true) :
    take (overrun config) t = .stopped .undefined := by
  rw [take_word ht]
  rfl

theorem take_overrun_endBlock {config : NginxConfig} {t : Token} (ht : t.type = .endBlock) :
    take (overrun config) t = .stopped .undefined := by
  rw [take, ht]
  rfl

/-- A token that is no word and no bracket ends the loop. -/
theorem take_overrun {config : NginxConfig} {t : Token} (hword : t.type.isWord = false)
    (hclose : t.type ≠ .endBlock) (hcomment : t.type ≠ .comment) :
    take (overrun config) t = .stopped (.returned false config) := by
  unfold take
  cases htype : t.type with
  | start | error | statementEnd | startBlock | eof => rfl
  | comment => exact absurd htype hcomment
  | normal | quotedString =>
    rw [htype] at hword
    exact absurd hword (by decide)
  | endBlock => exact absurd htype hclose

/-- The token behind an unmatched bracket is the last one. -/
theorem next_of_overrun {config : NginxConfig} {t : Token} {s : ParseState}
    (hcomment : t.type ≠ .comment) : take (overrun config) t ≠ .running s := by
  intro h
  cases hword : t.type.isWord with
  | true =>
    rw [take_overrun_word hword] at h
    exact absurd h (by simp)
  | false =>
    by_cases ht : t.type = .endBlock
    · rw [take_overrun_endBlock ht] at h
      exact absurd h (by simp)
    · rw [take_overrun hword ht hcomment] at h
      exact absurd h (by simp)

def endType (last : TokenType) (ts : List Token) : TokenType := ts.foldl (fun _ t => t.type) last

theorem chained_snoc {last : TokenType} {ts : List Token} {t : Token} :
    Chained last (ts ++ [t]) ↔ Chained last ts ∧ follows (endType last ts) t = true := by
  induction ts generalizing last with
  | nil =>
    constructor
    · rintro ⟨h, _⟩
      exact ⟨trivial, h⟩
    · rintro ⟨_, h⟩
      exact ⟨h, trivial⟩
  | cons u ts ih =>
    rw [List.cons_append, Chained, Chained, ih, and_assoc]
    rfl

/-- A chain that closes a block too many drives `Parse` into the empty stack. -/
theorem drive_undefined {pre : List Token} (post : List Token) {close next : Token} {frames : List Frame}
    {config : NginxConfig} {last : TokenType} (hshaped : Shaped config last)
    (hclose : close.type = .endBlock) (hcount : frames.length + opens pre = closes pre)
    (hchain : Chained last (pre ++ [close]))
    (hnext : next.type.isWord = true ∨ next.type = .endBlock) :
    drive (within frames config last) (pre ++ close :: next :: post) = .undefined := by
  have hempty {config : NginxConfig} {t : Token} (ts : List Token)
      (ht : t.type.isWord = true ∨ t.type = .endBlock) :
      drive (overrun config) (t :: ts) = .undefined := by
    rw [drive]
    rcases ht with ht | ht
    · rw [take_overrun_word ht]
    · rw [take_overrun_endBlock ht]
  induction pre generalizing frames config last with
  | nil =>
    have hframes : frames = [] := List.eq_nil_of_length_eq_zero hcount
    subst hframes
    have hfollows := hchain.1
    rw [follows, hclose] at hfollows
    simp only [Bool.and_eq_true, decide_eq_true_eq] at hfollows
    rw [List.nil_append, drive, take_endBlock_overrun hclose hfollows.1 hfollows.2]
    exact hempty post hnext
  | cons u pre ih =>
    obtain ⟨hfollows, hrest⟩ := hchain
    rcases take_within hshaped frames u with ⟨s, hs, hmoved⟩ | ⟨hnot, _⟩
    · have hcomment : u.type ≠ .comment := by
        intro htype
        rw [follows, htype] at hfollows
        exact absurd hfollows Bool.false_ne_true
      rw [List.cons_append, drive, hs]
      have hbalance := take_balance hs
      rcases hmoved.shaped hshaped hcomment with ⟨frames', config', rfl, hshaped'⟩ | ⟨rfl, _, hu⟩
      · refine ih hshaped' ?_ hrest
        have hcloses := closes_cons u pre
        have hopens := opens_cons u pre
        simp only [within] at hbalance
        omega
      · -- the brackets have run out before, and the chain goes on with a word or a bracket
        rw [hu] at hrest
        have hhead (v : Token) (hv : follows .endBlock v = true) :
            v.type.isWord = true ∨ v.type = .endBlock := by
          unfold follows at hv
          cases htype : v.type <;> rw [htype] at hv <;> first
            | exact Or.inl rfl
            | exact Or.inr rfl
            | exact absurd hv Bool.false_ne_true
        cases pre with
        | nil => exact hempty _ (Or.inr hclose)
        | cons v pre => exact hempty _ (hhead v hrest.1)
    · rw [hfollows] at hnot
      exact absurd hnot (by decide)

/-- Where `Parse` is after some tokens. -/
inductive Located (pre : List Token) (s : ParseState) : Prop
  | within {frames : List Frame} {config : NginxConfig} (hchain : Chained .start pre)
      (hs : s = within frames config (endType .start pre))
      (hshaped : Shaped config (endType .start pre))
  | overrun {pre' : List Token} {close : Token} {config : NginxConfig}
      (hpre : pre = pre' ++ [close]) (hclose : close.type = .endBlock)
      (hcount : opens pre' = closes pre') (hchain : Chained .start pre) (hs : s = overrun config)

theorem located_of_advance {config : NginxConfig} {pre : List Token} {s : ParseState}
    (hpre : ∀ t ∈ pre, t.type ≠ .comment) (h : advance (.initial config) pre = some s) :
    Located pre s := by
  induction pre using List.reverseRecOn generalizing s with
  | nil =>
    obtain rfl := Option.some.inj h
    have hs : ParseState.initial config = within [] config (endType .start []) := rfl
    exact .within trivial hs ⟨Or.inl rfl, fun h => absurd h (by decide)⟩
  | append_singleton pre t ih =>
    obtain ⟨s₁, hs₁, htake⟩ := advance_snoc h
    have hcomment := hpre t (List.mem_append_right pre List.mem_cons_self)
    have hend : endType .start (pre ++ [t]) = t.type := by
      rw [endType, List.foldl_append]
      rfl
    cases ih (fun u hu => hpre u (List.mem_append_left [t] hu)) hs₁ with
    | @within frames config' hchain hs hshaped =>
      subst hs
      rcases take_within hshaped frames t with ⟨s₂, hs₂, hmoved⟩ | ⟨_, verdict, result, hstop, _⟩
      · rw [htake] at hs₂
        obtain rfl := Progress.running.inj hs₂
        have hchain' := chained_snoc.mpr ⟨hchain, hmoved.follows hcomment⟩
        rcases hmoved.shaped hshaped hcomment with ⟨frames', config'', rfl, hshaped'⟩ |
          ⟨rfl, rfl, ht⟩
        · rw [← hend] at hshaped' ⊢
          exact .within hchain' rfl hshaped'
        · have hbalance := advance_balance hs₁
          simp only [ParseState.initial, NginxConfigParser.within, List.length_nil] at hbalance
          exact .overrun rfl ht (by omega) hchain' rfl
      · rw [htake] at hstop
        exact absurd hstop (by simp)
    | @overrun pre' close config' hpre' hclose hcount hchain hs =>
      subst hs
      exact absurd htake (next_of_overrun hcomment)

theorem exists_of_undefined {s : ParseState} {ts : List Token} (h : drive s ts = .undefined) :
    ∃ pre t post s', ts = pre ++ t :: post ∧ advance s pre = some s' ∧
      take s' t = .stopped .undefined := by
  induction ts generalizing s with
  | nil =>
    rw [drive, takeEof] at h
    split_ifs at h
  | cons t ts ih =>
    rw [drive] at h
    cases htake : take s t with
    | running s₁ =>
      rw [htake] at h
      obtain ⟨pre, u, post, s', rfl, hs', hu⟩ := ih h
      exact ⟨t :: pre, u, post, s', rfl, by rw [advance_of_take htake, hs'], hu⟩
    | stopped o =>
      rw [htake] at h
      rw [show o = .undefined from h] at htake
      exact ⟨[], t, ts, s, rfl, rfl, htake⟩

theorem mem_uncommented {ts : List Token} {t : Token} (h : t ∈ uncommented ts) :
    t.type ≠ .comment := by
  simpa using (List.mem_filter.mp h).2

theorem tokensLoop_ne_eof (k : ℕ) (seen : Bool) (input : Str) :
    ∀ t ∈ tokensLoop k seen input, t.type ≠ .eof := by
  induction k generalizing seen input with
  | zero => exact fun t ht => absurd ht List.not_mem_nil
  | succ k ih =>
    rw [tokensLoop]
    dsimp only
    split_ifs with heof herror
    · exact fun t ht => absurd ht List.not_mem_nil
    · intro t ht
      rw [List.mem_singleton.mp ht, herror]
      decide
    · intro t ht
      rcases List.mem_cons.mp ht with rfl | ht
      · exact heof
      · exact ih _ _ t ht

theorem tokens_ne_eof (input : Str) : ∀ t ∈ tokens input, t.type ≠ .eof :=
  tokensLoop_ne_eof _ _ _

/-- What is accepted closes no block too many. -/
theorem balanced_of_accepted {config result : NginxConfig} {ts : List Token}
    (hts : ∀ t ∈ ts, t.type ≠ .comment ∧ t.type ≠ .eof)
    (h : drive (.initial config) ts = .returned true result) : Balanced ts := by
  intro pre hpre
  obtain ⟨post, rfl⟩ := hpre
  obtain ⟨s, hs, heof⟩ := advance_of_accepted (fun t ht => (hts t ht).2) h
  rw [advance_append] at hs
  obtain ⟨s₁, hs₁, hpost⟩ := Option.bind_eq_some_iff.mp hs
  have hbalance := advance_balance hs₁
  cases located_of_advance (fun t ht => (hts t (List.mem_append_left post ht)).1) hs₁ with
  | within hchain hs' hshaped =>
    subst hs'
    simp only [ParseState.initial, NginxConfigParser.within] at hbalance
    omega
  | @overrun pre' close config' hpre hclose hcount hchain hs' =>
    subst hs'
    cases post with
    | nil =>
      rw [← Option.some.inj hpost] at heof
      exact absurd heof (by simp [takeEof, NginxConfigParser.overrun])
    | cons t post =>
      have hcomment := (hts t (List.mem_append_right pre List.mem_cons_self)).1
      rw [advance] at hpost
      cases htake : take (NginxConfigParser.overrun config') t with
      | running s₂ => exact absurd htake (next_of_overrun hcomment)
      | stopped o =>
        rw [htake] at hpost
        exact absurd hpost (by simp)

/-- What `Parse` accepts has a derivation, whatever its brackets. -/
theorem derives_of_accepted {configFile : Str} {result : NginxConfig}
    (h : parse configFile [] = some (.returned true result)) :
    Derives (uncommented (tokens configFile)) result := by
  have hts (t : Token) (ht : t ∈ uncommented (tokens configFile)) :
      t.type ≠ .comment ∧ t.type ≠ .eof :=
    ⟨mem_uncommented ht, tokens_ne_eof configFile t (List.mem_of_mem_filter ht)⟩
  rw [parse_eq, ← drive_uncommented] at h
  have hdrive := Option.some.inj h
  obtain ⟨s, hs, heof⟩ := advance_of_accepted (fun t ht => (hts t ht).2) hdrive
  have hviable := viable_of_advance (fun t ht => (hts t ht).1) (balanced_of_accepted hts hdrive) hs
  exact derives_of_viable hviable heof

/-- The chain in front of a word or bracket behind an unmatched bracket is how the driver gets to
its empty stack. -/
theorem drive_undefined_iff (config : NginxConfig) {ts : List Token}
    (hts : ∀ t ∈ ts, t.type ≠ .comment) :
    drive (.initial config) ts = .undefined ↔ Overruns ts := by
  constructor
  · intro hundefined
    obtain ⟨pre, t, post, s, rfl, hs, htake⟩ := exists_of_undefined hundefined
    cases located_of_advance (fun u hu => hts u (List.mem_append_left _ hu)) hs with
    | @within frames config' hchain hs' hshaped =>
      subst hs'
      rcases take_within hshaped frames t with ⟨s', hs', _⟩ | ⟨_, verdict, result, hstop, _⟩
      · rw [htake] at hs'
        exact absurd hs' (by simp)
      · rw [htake] at hstop
        exact absurd hstop (by simp)
    | @overrun pre' close config' hpre' hclose hcount hchain hs' =>
      subst hs'
      have hnext : t.type.isWord = true ∨ t.type = .endBlock := by
        by_contra hnot
        rw [not_or, Bool.not_eq_true] at hnot
        rw [take_overrun hnot.1 hnot.2
          (hts t (List.mem_append_right pre List.mem_cons_self))] at htake
        exact absurd htake (by simp)
      subst hpre'
      exact ⟨pre', close, t, post, by simp, hclose, hcount, hchain, hnext⟩
  · rintro ⟨pre, close, next, post, rfl, hclose, hcount, hchain, hnext⟩
    have hshaped : Shaped config .start := ⟨Or.inl rfl, fun h => absurd h (by decide)⟩
    have hlevels : ([] : List Frame).length + opens pre = closes pre := by
      rw [List.length_nil, Nat.zero_add, hcount]
    exact drive_undefined post hshaped hclose hlevels hchain hnext

theorem parse_undefined_iff (configFile : Str) (config : NginxConfig) :
    parse configFile config = some .undefined ↔ Overruns (uncommented (tokens configFile)) := by
  rw [← drive_undefined_iff config fun t ht => mem_uncommented ht, drive_uncommented, parse_eq,
    Option.some.injEq]

/-- The stack of `Parse` is used safely on a text if and only if no bracket of it that closes no
open block is followed by a word or another bracket, with all before it in order. -/
theorem stackSafe_iff_not_overruns (configFile : Str) (config : NginxConfig) :
    StackSafe configFile config ↔ ¬ Overruns (uncommented (tokens configFile)) := by
  have hundefined := parse_undefined_iff configFile config
  constructor
  · intro h hoverruns
    exact h.defined (hundefined.mpr hoverruns)
  · intro h
    have hdefined : parse configFile config ≠ some .undefined := fun hparse => h (hundefined.mp hparse)
    have hparse : parse configFile config =
        some (drive (.initial config) (uncommented (tokens configFile))) := by
      rw [parse_eq, drive_uncommented]
    refine ⟨fun pre s hpre hs => ?_, hdefined, ?_⟩
    · rw [← advance_uncommented] at hs
      cases located_of_advance (fun t ht => mem_uncommented ht) hs with
      | within hchain hs' hshaped =>
        subst hs'
        simp only [NginxConfigParser.within, length_pointers]
        push_cast
        omega
      | overrun hpre' hclose hcount hchain hs' =>
        subst hs'
        rfl
    · rintro ⟨pre, hpre, hlt⟩
      rw [hparse]
      cases hresult : drive (.initial config) (uncommented (tokens configFile)) with
      | undefined => exact absurd (hparse.trans (congrArg some hresult)) hdefined
      | returned verdict result =>
        cases verdict with
        | false => exact ⟨result, rfl⟩
        | true =>
          have hbalanced := balanced_of_accepted (fun t ht => ⟨mem_uncommented ht,
            tokens_ne_eof configFile t (List.mem_of_mem_filter ht)⟩) hresult
          have hle := hbalanced (uncommented pre) (hpre.filter _)
          have hcount (type : TokenType) (htype : type ≠ .comment) :
              (uncommented pre).countP (fun t => t.type = type) =
                pre.countP fun t => t.type = type := by
            rw [uncommented, List.countP_filter]
            refine List.countP_congr fun t _ => ?_
            simp only [Bool.and_eq_true, decide_eq_true_eq]
            exact ⟨fun h => h.1, fun h => ⟨h, h ▸ htype⟩⟩
          have hcloses := hcount .endBlock (by decide)
          have hopens := hcount .startBlock (by decide)
          unfold closes opens at hle hlt
          omega

/-- `a; } b;` closes no block and goes on. -/
theorem not_stackSafe_wordBehind : ¬ StackSafe "a; \x7d b;".toList [] := by
  intro h
  exact h.defined rfl

end NginxConfigParser

end Webserver

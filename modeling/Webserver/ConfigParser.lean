import Webserver.HandlerFactories

/-!
# NginxConfigParser

The character machine of `ParseToken`, the driver `Parse` with its stack of pointers into the
tree under construction, and the printer of the tree.
-/

set_option autoImplicit false

namespace Webserver

/-! The indentation of the source is two blanks for each level. -/

def indent (depth : ℕ) : Str := (List.replicate depth "  ".toList).flatten

mutual

/-- `NginxConfigStatement::ToString`. -/
def NginxConfigStatement.toString : NginxConfigStatement → ℕ → Str
  | .mk tokens childBlock, depth =>
    indent depth ++ List.intercalate [' '] tokens ++
      NginxConfigStatement.blockToString childBlock depth ++ ['\n']

/-- What stands behind the tokens of a statement. -/
def NginxConfigStatement.blockToString : Option (List NginxConfigStatement) → ℕ → Str
  | none, _ => [';']
  | some config, depth =>
    [' ', '{', '\n'] ++ NginxConfig.toString config (depth + 1) ++ indent depth ++ ['}']

/-- `NginxConfig::ToString`. -/
def NginxConfig.toString : List NginxConfigStatement → ℕ → Str
  | [], _ => []
  | statement :: config, depth => statement.toString depth ++ NginxConfig.toString config depth

end

namespace NginxConfigParser

inductive TokenType where
  | start
  | normal
  | startBlock
  | endBlock
  | comment
  | statementEnd
  | eof
  | error
  | quotedString
deriving DecidableEq

inductive TokenParserState where
  | initialWhitespace
  | singleQuote
  | doubleQuote
  | tokenTypeComment
  | tokenTypeNormal
deriving DecidableEq

/-- What a call of `ParseToken` leaves behind. -/
structure Token where
  type : TokenType
  value : Str
  seenWhitespace : Bool
deriving DecidableEq

/-- The variables of `ParseToken`. -/
structure Scanner where
  state : TokenParserState
  inEscapeSeq : Bool
  value : Str
  seenWhitespace : Bool

/-- The loop of `ProcessEsc`. -/
def processEscLoop : Bool → Str → Str
  | _, [] => []
  | inEscapeSeq, c :: token =>
    if c = '\\' ∧ inEscapeSeq = false then processEscLoop true token
    else c :: processEscLoop false token

def processEsc (token : Str) : Str := processEscLoop false token

/-- What one character does: the loop goes on, a token ends with the character, or a normal
token ends before it and the character is put back. -/
inductive Scanned where
  | more (scanner : Scanner)
  | token (type : TokenType) (value : Str)
  | unget (value : Str)

/-- The states `kTokenStateSingleQuote` and `kTokenStateDoubleQuote`, by their quote. -/
def scanQuote (quote : Char) (s : Scanner) (c : Char) : Scanned :=
  let value := s.value ++ [c]
  if s.inEscapeSeq then
    if c ≠ '\\' ∧ c ≠ quote then .token .error value
    else .more { s with value, inEscapeSeq := false }
  else if c = '\\' then .more { s with value, inEscapeSeq := true }
  else if c = quote then .token .quotedString (processEsc value)
  else .more { s with value }

def scanInitialWhitespace (s : Scanner) (c : Char) : Scanned :=
  if c = '{' then .token .startBlock [c]
  else if c = '}' then .token .endBlock [c]
  else if c = '#' then .more { s with value := [c], state := .tokenTypeComment }
  else if c = '"' then .more { s with value := [c], state := .doubleQuote }
  else if c = '\'' then .more { s with value := [c], state := .singleQuote }
  else if c = ';' then .token .statementEnd [c]
  else if c = ' ' then .more { s with seenWhitespace := true }
  else if c = '\t' ∨ c = '\n' ∨ c = '\r' then .more s
  else .more { s with value := s.value ++ [c], state := .tokenTypeNormal }

def scanComment (s : Scanner) (c : Char) : Scanned :=
  if c = '\n' ∨ c = '\r' then .token .comment s.value else .more { s with value := s.value ++ [c] }

/-- Where a normal token ends: `\r` is not among the characters. -/
def endsNormal (c : Char) : Bool :=
  c = ' ' || c = '\t' || c = '\n' || c = ';' || c = '{' || c = '}' || c = '\'' || c = '"'

def scanNormal (s : Scanner) (c : Char) : Scanned :=
  if endsNormal c then .unget s.value else .more { s with value := s.value ++ [c] }

def scanChar (s : Scanner) (c : Char) : Scanned :=
  match s.state with
  | .initialWhitespace => scanInitialWhitespace s c
  | .singleQuote => scanQuote '\'' s c
  | .doubleQuote => scanQuote '"' s c
  | .tokenTypeComment => scanComment s c
  | .tokenTypeNormal => scanNormal s c

/-- The loop of `ParseToken`, with what is left of the input. -/
def scan : Scanner → Str → Token × Str
  | s, [] =>
    if s.state = .singleQuote ∨ s.state = .doubleQuote then
      (⟨.error, s.value, s.seenWhitespace⟩, [])
    else (⟨.eof, s.value, s.seenWhitespace⟩, [])
  | s, c :: input =>
    match scanChar s c with
    | .more s' => scan s' input
    | .token type value => (⟨type, value, s.seenWhitespace⟩, input)
    | .unget value => (⟨.normal, value, s.seenWhitespace⟩, c :: input)

def parseToken (input : Str) : Token × Str := scan ⟨.initialWhitespace, false, [], false⟩ input

/-- The variables of `Parse`. A pointer into the tree is the number of blocks that lead to its
config from the outermost one, each the block of the last statement so far. -/
structure ParseState where
  config : NginxConfig
  configStack : List ℕ
  lastTokenType : TokenType
  bracketBalance : ℤ

/-- The state in which `Parse` reads its first token. -/
def ParseState.initial (config : NginxConfig) : ParseState := ⟨config, [0], .start, 0⟩

/-- `statements_.back()`, changed by `f`; there is none in an empty list. -/
def onBack (f : NginxConfigStatement → Option NginxConfigStatement) :
    NginxConfig → Option NginxConfig
  | [] => none
  | [statement] => (f statement).map ([·])
  | statement :: config => (onBack f config).map (statement :: ·)

/-- The config in `child_block_` of the last statement, changed by `f`. -/
def onChildBlock (f : NginxConfig → Option NginxConfig) : NginxConfig → Option NginxConfig :=
  onBack fun statement =>
    match statement.childBlock with
    | none => none
    | some block => (f block).map fun block => .mk statement.tokens (some block)

/-- The config behind a pointer, changed by `f`. -/
def onConfig : (NginxConfig → Option NginxConfig) → ℕ → NginxConfig → Option NginxConfig
  | f, 0 => f
  | f, pointer + 1 => onConfig (onChildBlock f) pointer

/-- `statements_.emplace_back(new NginxConfigStatement)`. -/
def emplaceStatement (config : NginxConfig) : Option NginxConfig := some (config ++ [.mk [] none])

/-- `statements_.back()->tokens_.push_back(token)`. -/
def pushToken (token : Str) : NginxConfig → Option NginxConfig :=
  onBack fun statement => some (.mk (statement.tokens ++ [token]) statement.childBlock)

/-- `statements_.back()->child_block_.reset(new NginxConfig)`. -/
def resetChildBlock : NginxConfig → Option NginxConfig :=
  onBack fun statement => some (.mk statement.tokens (some []))

/-- How `Parse` ends; `undefined` is a call of `top()` or `pop()` on an empty stack, or of
`back()` on an empty list. -/
inductive Outcome where
  | returned (verdict : Bool) (config : NginxConfig)
  | undefined

inductive Progress where
  | running (s : ParseState)
  | stopped (o : Outcome)

/-- `break` out of the loop. -/
def ParseState.fail (s : ParseState) : Progress := .stopped (.returned false s.config)

/-- A change of the config on top of the stack. -/
def onTop (configStack : List ℕ) (f : NginxConfig → Option NginxConfig) (config : NginxConfig) :
    Option NginxConfig :=
  match configStack with
  | [] => none
  | top :: _ => onConfig f top config

def TokenType.isWord (type : TokenType) : Bool := type = .normal || type = .quotedString

/-- The tree with a word in it: the first of a new statement, or a further one of the last. -/
def addWord (s : ParseState) (token : Str) : Option NginxConfig :=
  if s.lastTokenType.isWord then onTop s.configStack (pushToken token) s.config
  else (onTop s.configStack emplaceStatement s.config).bind (onTop s.configStack (pushToken token))

def takeWord (s : ParseState) (t : Token) : Progress :=
  let last := s.lastTokenType
  if last = .start ∨ last = .statementEnd ∨ last = .startBlock ∨ last = .endBlock ∨
      (t.seenWhitespace ∧ last.isWord) then
    match addWord s t.value with
    | none => .stopped .undefined
    | some config => .running { s with config, lastTokenType := t.type }
  else s.fail

def takeStatementEnd (s : ParseState) : Progress :=
  if s.lastTokenType.isWord then .running { s with lastTokenType := .statementEnd } else s.fail

def takeStartBlock (s : ParseState) : Progress :=
  let s := { s with bracketBalance := s.bracketBalance + 1 }
  if s.lastTokenType.isWord then
    match s.configStack, onTop s.configStack resetChildBlock s.config with
    | top :: stack, some config =>
      .running { s with config, configStack := (top + 1) :: top :: stack, lastTokenType := .startBlock }
    | _, _ => .stopped .undefined
  else s.fail

def takeEndBlock (s : ParseState) : Progress :=
  let s := { s with bracketBalance := s.bracketBalance - 1 }
  let last := s.lastTokenType
  if last = .statementEnd ∨ last = .startBlock ∨ last = .endBlock then
    match s.configStack with
    | [] => .stopped .undefined
    | _ :: stack => .running { s with configStack := stack, lastTokenType := .endBlock }
  else s.fail

def takeEof (s : ParseState) : Outcome :=
  let last := s.lastTokenType
  if last = .statementEnd ∨ last = .endBlock ∨ last = .start then
    if s.bracketBalance ≠ 0 then .returned false s.config else .returned true s.config
  else .returned false s.config

/-- One round of the loop of `Parse`. -/
def take (s : ParseState) (t : Token) : Progress :=
  match t.type with
  | .error | .start => s.fail
  | .comment => .running s
  | .normal | .quotedString => takeWord s t
  | .statementEnd => takeStatementEnd s
  | .startBlock => takeStartBlock s
  | .endBlock => takeEndBlock s
  | .eof => .stopped (takeEof s)

/-- The loop of `Parse`. Every round but the last one takes characters from the input, so that
it ends within one round more than there are characters. -/
def parseLoop : ℕ → ParseState → Str → Option Outcome
  | 0, _, _ => none
  | k + 1, s, input =>
    let (t, input) := parseToken input
    match take s t with
    | .running s => parseLoop k s input
    | .stopped o => some o

def parse (configFile : Str) (config : NginxConfig) : Option Outcome :=
  parseLoop (configFile.length + 1) (.initial config) configFile

end NginxConfigParser

end Webserver

import RecipeManifest.Token.Heredoc

/-!
Breaking the text of a block into tokens.

`Lexer.step` reads one blank, comment or token from the front of what is left. `tokenize` steps to
the end of the text. A newline after a heredoc was announced goes on behind the heredoc's body;
that place may lie before the newline, when a literal that was opened on the announcing line runs
into the body, so what is left can grow. It is always shorter than what was left at the jump
before, and that is why stepping ends.
-/

namespace RecipeManifest

/-- Where reading goes on after the next newline, and how many lines lie between. -/
structure Resume where
  rest : List Char
  pos : Nat
  lines : Nat
  deriving DecidableEq, Repr

structure Lexer where
  /-- What is left to read. -/
  rest : List Char
  pos : Nat
  line : Nat
  /-- The character before is a blank or a tab. -/
  spaced : Bool
  /-- What the last token said. -/
  previous : Option Lexeme
  /-- Set while a heredoc's body lies ahead. -/
  resume : Option Resume
  /-- How much was left at the last jump behind a heredoc, or at the start. -/
  bound : Nat
  deriving DecidableEq, Repr

/-- What stands at the front of a text. The counts are of characters after the first one. -/
inductive Front where
  | blank (used lines : Nat)
  | lexeme (lexeme : Lexeme) (used lines : Nat)
  | newline
  | heredoc (lexeme : Lexeme) (used : Nat) (resume : Resume)
  deriving DecidableEq, Repr

namespace Lexer

/-- The last token leaves a place open for a value. -/
def awaitsOperand (l : Lexer) : Bool :=
  match l.previous with
  | none | some .newline | some .semicolon | some (.label _) => true
  | some (.keyword k) => k ∉ [Keyword.endWord, .trueWord, .falseWord, .nilWord]
  | some (.op o) => !o.isCloser
  | some _ => false

/-- The last token is a name that could take an argument. -/
def afterIdent (l : Lexer) : Bool :=
  match l.previous with
  | some (.ident _) => true
  | _ => false

/-- The last token selects a member, so that a name here is only a name. -/
def afterDot (l : Lexer) : Bool :=
  l.previous == some (.op .dot) || l.previous == some (.op .scope)

/-- A mark, or nothing that the language knows. -/
def frontOperator (c : Char) (more : List Char) : Except Malformed Front :=
  match Operator.ofFront? (c :: more) with
  | some o => .ok (.lexeme (.op o) (o.spelling.length - 1) 0)
  | none => .error (.unexpectedCharacter c)

/-- A string between the given marks. -/
def frontString (marks : Delimiters) (more : List Char) : Except Malformed Front :=
  (readDelimited marks more).map fun r => .lexeme (.string r.value) r.used r.lines

def frontSingleQuoted (more : List Char) : Except Malformed Front :=
  match readSingleQuoted more with
  | some r => .ok (.lexeme (.string [.text r.value]) r.used r.lines)
  | none => .error .unterminatedString

/-- The question, exclamation or equals mark that belongs to the name of a symbol. -/
def symbolSuffix : List Char → List Char
  | s :: rest =>
    if s ∈ ['?', '!', '='] ∧ rest.head?.all (· ∉ ['=', '>', '~']) then [s] else []
  | [] => []

/-- A symbol, after its colon. -/
def frontSymbol (more : List Char) : Except Malformed Front :=
  match more with
  | '\'' :: body =>
    match readSingleQuoted body with
    | some r => .ok (.lexeme (.symbol (String.ofList r.value)) (1 + r.used) r.lines)
    | none => .error .unterminatedString
  | '"' :: body =>
    (readDelimited (.same '"') body).map fun r =>
      .lexeme (.symbol (Lexeme.string r.value).value) (1 + r.used) r.lines
  | _ =>
    let name := frontName more
    let full := name ++ symbolSuffix (more.drop name.length)
    .ok (.lexeme (.symbol (String.ofList full)) full.length 0)

/-- A colon here starts a symbol. -/
def opensSymbol (more : List Char) : Bool :=
  match more with
  | c :: _ => c == '\'' || c == '"' || isNameStart c
  | [] => false

/-- The letter that says how a percent literal is read, if there is one, and its opening mark. -/
def percentStart (more : List Char) : Option (Option Char × Char) :=
  let opens (c : Char) : Bool := c ∈ ['(', '[', '{', '<', '|', '!', '/']
  match more with
  | c :: rest =>
    if opens c then some (none, c)
    else if c ∈ ['w', 'W', 'i', 'I', 'q', 'Q'] then
      (rest.head?.filter opens).map fun o => (some c, o)
    else none
  | [] => none

/-- A percent literal, after its percent mark. -/
def frontPercent (letter : Option Char) (opener : Char) (more : List Char) :
    Except Malformed Front :=
  let marks := Delimiters.ofOpener opener
  let skipped := letter.toList.length + 1
  let body := more.drop skipped
  let kind := letter.getD 'Q'
  if kind ∈ ['q', 'w', 'i'] then
    match readRaw marks 0 body with
    | none => .error .unterminatedPercent
    | some r =>
      let lexeme := if kind = 'q' then .string [.text r.value] else .words r.value
      .ok (.lexeme lexeme (skipped + r.used) r.lines)
  else
    (readDelimited marks body).map fun r =>
      let lexeme :=
        if kind = 'Q' then .string r.value else .words (r.value.flatMap Part.plain)
      .lexeme lexeme (skipped + r.used) r.lines

/-- A regular expression with its flags, after its opening slash. -/
def frontRegex (more : List Char) : Except Malformed Front :=
  (readDelimited (.same '/') more).map fun r =>
    let flags := (more.drop r.used).takeWhile fun c => c ∈ "imxounse".toList
    let text := '/' :: more.take r.used ++ flags
    .lexeme (.regex (String.ofList text)) (r.used + flags.length) r.lines

/-- A slash here starts a regular expression. -/
def opensRegex (l : Lexer) (more : List Char) : Bool :=
  l.awaitsOperand ||
    (l.afterIdent && l.spaced && more.head?.any fun c => c ∉ [' ', '\t', '='])

/-- The announcement of a heredoc. Its body starts on the next line, or where the body of the one
announced before it on the same line ends. -/
def frontHeredoc (l : Lexer) (opener : HeredocOpener) : Except Malformed Front :=
  let tag := String.ofList opener.tag
  let line := (l.rest.drop opener.length).takeWhile (· != '\n')
  let toBody := opener.length + line.length + 1
  if l.rest.length < toBody then .error (.heredocWithoutBody tag)
  else
    let start := l.resume.getD ⟨l.rest.drop toBody, l.pos + toBody, 0⟩
    match HeredocBody.read opener start.rest with
    | none => .error (.unterminatedHeredoc tag)
    | some body =>
      (opener.parts (opener.text body.lines)).map fun parts =>
        .heredoc (.string parts) (opener.length - 1)
          ⟨start.rest.drop body.used, start.pos + min body.used start.rest.length,
            start.lines + body.consumed⟩

/-- A variable with its sigils. -/
def frontSigil (c : Char) (more : List Char) : Except Malformed Front :=
  let sigils := more.takeWhile fun d => d == '@' || d == '$'
  match frontName (more.drop sigils.length) with
  | [] => frontOperator c more
  | name =>
    let rest := sigils ++ name
    .ok (.lexeme (.ident (String.ofList (c :: rest))) rest.length 0)

/-- The question or exclamation mark that belongs to a name. -/
def nameSuffix : List Char → List Char
  | s :: rest => if s ∈ ['?', '!'] ∧ rest.head? ≠ some '=' then [s] else []
  | [] => []

/-- A single colon that makes a label of the name before it. -/
def endsLabel : List Char → Bool
  | ':' :: ':' :: _ => false
  | ':' :: _ => true
  | _ => false

/-- A name, keyword, constant or label. -/
def frontWord (l : Lexer) (cs : List Char) : Front :=
  let base := frontName cs
  let full := base ++ nameSuffix (cs.drop base.length)
  let name := String.ofList full
  if endsLabel (cs.drop full.length) && !l.afterDot then .lexeme (.label name) full.length 0
  else
    let lexeme :=
      match Keyword.ofSpelling? name with
      | some word => if l.afterDot then .ident name else .keyword word
      | none => if base.head?.any Char.isUpper then .const name else .ident name
    .lexeme lexeme (full.length - 1) 0

/-- Reads the front of a text that starts with `c`. -/
def front (l : Lexer) (c : Char) (more : List Char) : Except Malformed Front :=
  match c with
  | ' ' | '\t' | '\r' => .ok (.blank 0 0)
  | '\\' => if more.head? = some '\n' then .ok (.blank 1 1) else frontOperator c more
  | '#' => .ok (.blank (more.takeWhile (· != '\n')).length 0)
  | '\n' => .ok .newline
  | ';' => .ok (.lexeme .semicolon 0 0)
  | '\'' => frontSingleQuoted more
  | '"' => frontString (.same '"') more
  | '\x60' => frontString (.same '\x60') more
  | ':' => if opensSymbol more then frontSymbol more else frontOperator c more
  | '%' =>
    match percentStart more with
    | some (letter, opener) =>
      if letter.isSome || l.awaitsOperand || l.afterIdent then frontPercent letter opener more
      else frontOperator c more
    | none => frontOperator c more
  | '/' => if l.opensRegex more then frontRegex more else frontOperator c more
  | '<' =>
    match HeredocOpener.read (c :: more) with
    | some opener =>
      if l.awaitsOperand || l.afterIdent then l.frontHeredoc opener else frontOperator c more
    | none => frontOperator c more
  | '@' | '$' => frontSigil c more
  | _ =>
    if Text.isDigit c then
      match frontNumber (c :: more) with
      | [] => .error (.digitWithoutPlace c)
      | number => .ok (.lexeme (.number (String.ofList number)) (number.length - 1) 0)
    else if isNameStart c then .ok (l.frontWord (c :: more))
    else frontOperator c more

/-- The start of a text. -/
def start (source : List Char) : Lexer :=
  ⟨source, 0, 1, false, none, none, source.length⟩

/-- Goes past the first character and `used` more. -/
def advance (l : Lexer) (used lines : Nat) : Lexer :=
  { l with
    rest := l.rest.tail.drop used
    pos := l.pos + 1 + used
    line := l.line + lines
    spaced := l.rest[used]?.any fun c => c == ' ' || c == '\t' }

/-- Goes past a newline, and past the heredoc bodies that start there. -/
def jump (l : Lexer) : Lexer :=
  match l.resume with
  | some r =>
    if r.rest.length < l.bound then
      { l with
        rest := r.rest, pos := r.pos, line := l.line + 1 + r.lines, spaced := false,
        resume := none, bound := r.rest.length }
    else l.advance 0 1
  | none => l.advance 0 1

/-- The token that the lexer makes of a lexeme at its place. -/
def token (l : Lexer) (lexeme : Lexeme) (used : Nat) : Token :=
  ⟨lexeme, l.line, l.pos, l.pos + 1 + used, l.spaced⟩

/-- Reads one blank, comment or token. -/
def step (l : Lexer) (c : Char) (more : List Char) : Except Malformed (Option Token × Lexer) :=
  (l.front c more).map fun
    | .blank used lines => (none, l.advance used lines)
    | .lexeme x used lines =>
      (some (l.token x used), { l.advance used lines with previous := some x })
    | .newline => (some (l.token .newline 0), { l.jump with previous := some .newline })
    | .heredoc x used resume =>
      (some (l.token x used), { l.advance used 0 with previous := some x, resume := some resume })

/-- Bounds the steps still to come. -/
def remaining (l : Lexer) : Nat :=
  l.bound * l.bound + l.rest.length

theorem remaining_advance_lt (l : Lexer) (used lines : Nat) (h : l.rest ≠ []) :
    (l.advance used lines).remaining < l.remaining := by
  obtain ⟨c, more, h⟩ := List.exists_cons_of_ne_nil h
  simp only [remaining, advance, h, List.tail_cons, List.length_drop, List.length_cons]
  omega

theorem remaining_jump_lt (l : Lexer) (h : l.rest ≠ []) : l.jump.remaining < l.remaining := by
  unfold jump
  split
  · split
    · rename_i r _ hr
      have : (r.rest.length + 1) * (r.rest.length + 1) ≤ l.bound * l.bound := Nat.mul_le_mul hr hr
      simp only [remaining]
      simp only [Nat.add_mul, Nat.mul_add] at this
      omega
    · exact l.remaining_advance_lt 0 1 h
  · exact l.remaining_advance_lt 0 1 h

/-- Every step leaves less to do. -/
theorem remaining_step_lt {l l' : Lexer} {c : Char} {more : List Char} {t : Option Token}
    (hr : l.rest = c :: more) (h : l.step c more = .ok (t, l')) : l'.remaining < l.remaining := by
  have hne : l.rest ≠ [] := by simp [hr]
  unfold step at h
  cases hf : l.front c more with
  | error e => simp [hf, Except.map] at h
  | ok x =>
    simp only [hf, Except.map, Except.ok.injEq] at h
    cases x with
    | blank used lines => cases h; exact l.remaining_advance_lt used lines hne
    | lexeme x used lines => cases h; exact l.remaining_advance_lt used lines hne
    | newline => cases h; exact l.remaining_jump_lt hne
    | heredoc x used resume => cases h; exact l.remaining_advance_lt used 0 hne

/-- The tokens of what is left, with the mark for the end behind them. A fault comes with the line
on which its token starts. -/
def run (l : Lexer) : Except (Nat × Malformed) (List Token) :=
  match _hr : l.rest with
  | [] => .ok [⟨.eof, l.line, l.pos, l.pos, false⟩]
  | c :: more =>
    match _h : l.step c more with
    | .error cause => .error (l.line, cause)
    | .ok (t, next) => (run next).map (t.toList ++ ·)
termination_by l.remaining
decreasing_by exact remaining_step_lt _hr _h

end Lexer

/-- The tokens of a block's text. -/
def tokenize (lines : LineMap) (source : List Char) : Except LexFault (List Token) :=
  match (Lexer.start source).run with
  | .ok tokens => .ok tokens
  | .error (line, cause) => .error ⟨lines.lineInFile line, cause⟩

end RecipeManifest

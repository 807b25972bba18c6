import RecipeManifest.Statement.Expression

/-!
Reading the statements of a block.

A statement that does not fit the grammar of declarations is read again as unsupported code, up to
the end of its line outside all blocks and brackets. Where the text ends inside something open, the
statement it belongs to is dropped and the line where it starts is reported.
-/

namespace RecipeManifest

/-- What closes a block of statements. -/
inductive Closer where
  | endWord
  | brace
  deriving DecidableEq, Repr

/-- The lexeme closes the block. -/
def Closer.isAt : Closer → Lexeme → Bool
  | endWord, x => x == .keyword .endWord
  | brace, x => x == .op .braceR

namespace Keyword

/-- Opens a construct that is closed by `end` when it starts a statement. -/
def opensBlock : Keyword → Bool
  | ifWord | unlessWord | whileWord | untilWord | caseWord | beginWord | defWord | classWord
  | moduleWord | forWord => true
  | _ => false

/-- Puts a condition behind a statement. -/
def isModifier : Keyword → Bool
  | ifWord | unlessWord | whileWord | untilWord | rescueWord => true
  | _ => false

/-- A statement can start behind it. -/
def startsStatement : Keyword → Bool
  | thenWord | elseWord | doWord | beginWord => true
  | _ => false

end Keyword

namespace Operator

/-- A statement goes on behind it even at the end of a line. -/
def continues (o : Operator) : Bool :=
  o.precedence?.isSome || o ∈ [comma, rocket, parenL, bracketL, braceL, dot]

end Operator

/-- The lexeme opens a construct that is not read as a statement. -/
def opensBlock : Lexeme → Bool
  | .keyword k => k.opensBlock
  | _ => false

/-- The lexeme ends a statement in a block with that closer. -/
def endsStatement (closer : Option Closer) (x : Lexeme) : Bool :=
  x.isSeparator || x == .eof || closer.any fun c => c.isAt x

/-- How deep in blocks and brackets the code after a lexeme stands. -/
def depthAfter (depth : Nat) (fresh : Bool) : Lexeme → Nat
  | .keyword .doWord => depth + 1
  | .keyword .endWord => depth - 1
  | .keyword k => if k.opensBlock && fresh then depth + 1 else depth
  | .op o => if o.isOpener then depth + 1 else if o.isCloser then depth - 1 else depth
  | _ => depth

/-- A statement can start behind the lexeme. -/
def startsFresh : Lexeme → Bool
  | .newline | .semicolon | .op .parenL | .op .assign => true
  | .keyword k => k.startsStatement
  | _ => false

/-- A line can be left open by the lexeme. -/
def continuesLine : Lexeme → Bool
  | .op o => o.continues
  | _ => false

/-- The lexeme `x` ends unsupported code that stands in no inner block and of which `last` is the
last lexeme so far. The first lexeme ends it only as a separator. -/
def endsUnsupported (closer : Option Closer) (last : Option Lexeme) (x : Lexeme) : Bool :=
  (x.isSeparator && !last.any continuesLine) || (last.isSome && closer.any fun c => c.isAt x)

/-- Skips unsupported code. Gives the place where its last token ends, and what follows. -/
def skipUnsupported (closer : Option Closer) (depth : Nat) (last : Option Lexeme) (fresh : Bool)
    (stop : Nat) : List Token → Except Stop (Nat × List Token)
  | [] => if depth = 0 then .ok (stop, []) else .error .endOfBlock
  | t :: more =>
    if t.lexeme = .eof then if depth = 0 then .ok (stop, t :: more) else .error .endOfBlock
    else if depth = 0 ∧ endsUnsupported closer last t.lexeme then .ok (stop, t :: more)
    else
      skipUnsupported closer (depthAfter depth fresh t.lexeme) (some t.lexeme)
        (startsFresh t.lexeme) t.stop more

/-- The tokens start a call without a receiver, whose arguments need no parentheses. -/
def startsCommand : List Token → Bool
  | ⟨.ident name, _, _, _, _⟩ :: rest =>
    if name.startsWith "@" || name.startsWith "$" then false
    else
      match peek rest with
      | .newline | .semicolon | .eof => true
      | .keyword k =>
        k.isModifier ||
          k ∈ [Keyword.doWord, .endWord, .trueWord, .falseWord, .nilWord, .notWord]
      | .string _ | .symbol _ | .number _ | .ident _ | .const _ | .label _ | .words _
      | .regex _ => true
      | .op o =>
        match o with
        | .braceL | .braceR | .lambda | .parenL => true
        | .bracketL | .bang | .scope => rest.head?.any (·.spaced)
        | .minus | .star | .amp =>
          rest.head?.any (·.spaced) && !rest.tail.head?.any (·.spaced)
        | _ => false
  | _ => false

/-- The lexeme shows that a command has no arguments. -/
def endsCommand : Lexeme → Bool
  | .newline | .semicolon | .eof | .op .braceL | .op .braceR => true
  | .keyword k => k.isModifier || k == .doWord || k == .endWord
  | _ => false

/-- The parameters of a block, between bars, and what follows them. -/
def skipParameters (ts : List Token) : Except Stop (List Token) :=
  if atOp .bar ts then
    match ts.tail.dropWhile fun t => t.lexeme != .op .bar && t.lexeme != .eof with
    | [] => .error .endOfBlock
    | t :: rest => if t.lexeme = .eof then .error .endOfBlock else .ok rest
  else .ok ts

theorem length_skipParameters_le {ts rest : List Token} (h : skipParameters ts = .ok rest) :
    rest.length ≤ ts.length := by
  unfold skipParameters at h
  split at h
  · have hle := (List.dropWhile_sublist (l := ts.tail)
      fun t => t.lexeme != .op .bar && t.lexeme != .eof).length_le
    split at h
    · cases h
    · rename_i t more hd
      split at h <;> cases h
      simp only [hd, List.length_cons, List.length_tail] at hle
      omega
  · cases h
    exact Nat.le_refl _

/-- What a block's text and place give to the reading of its statements. -/
structure BlockSource where
  text : List Char
  lines : LineMap

namespace BlockSource

variable (b : BlockSource)

def interpret (code : List Char) : Except LexFault Expr :=
  codeValue b.text.length code

def lineInFile (ts : List Token) : Int :=
  b.lines.lineInFile (ts.head?.elim 0 fun t => t.line)

/-- The text from one place to another, without the white space around it. -/
def slice (start stop : Nat) : String :=
  String.ofList (Text.trim ((b.text.drop start).take (stop - start)))

/-- One statement kept as text. -/
def unsupported (closer : Option Closer) (ts : List Token) :
    Except Stop (Statement × List Token) := do
  let start := ts.head?.elim 0 (·.start)
  let (stop, rest) ← skipUnsupported closer 0 none true (ts.head?.elim 0 (·.stop)) ts
  return (.unsupported (b.slice start stop) (b.lineInFile ts), rest)

/-- The name of a command and its arguments. -/
def commandHead (ts : List Token) : Except Stop ((String × List Expr) × List Token) := do
  let name := (peek ts).value
  let (args, rest) ←
    if atTightOp .parenL ts.tail then do
      let (args, rest) ← arguments b.interpret (some .parenR) ts.tail.tail
      let rest ← pastOp .parenR rest
      pure (args, rest)
    else if endsCommand (peek ts.tail) then pure ([], ts.tail)
    else arguments b.interpret none ts.tail
  let args := if name = "resources" then [.resources (lookupTargets args)] else args
  return ((name, args), rest)

mutual

/-- One statement, of the grammar or not. -/
def statement (closer : Option Closer) (ts : List Token) : Except Stop (Statement × List Token) :=
  match supported closer ts with
  | .ok (s, rest) =>
    if endsStatement closer (peek rest) then .ok (s, rest) else b.unsupported closer ts
  | .error .mismatch => b.unsupported closer ts
  | .error e => .error e
termination_by 8 * ts.length + 1
decreasing_by all_goals omega

/-- A declaration where no block is open, a property or an expression inside one. -/
def supported (closer : Option Closer) (ts : List Token) : Except Stop (Statement × List Token) :=
  if opensBlock (peek ts) then .error .mismatch
  else if startsCommand ts then
    goOn ts .mismatch (b.commandHead ts) fun (name, args) rest _ =>
      (commandBlock rest).map fun (block, rest) =>
        match closer with
        | none => (.resource name args.head? (block.getD []) block.isSome (b.lineInFile ts), rest)
        | some _ => (.property name args block (b.lineInFile ts), rest)
  else if closer.isNone then .error .mismatch
  else (expression b.interpret 0 ts).map fun (e, rest) => (.expression e (b.lineInFile ts), rest)
termination_by 8 * ts.length
decreasing_by all_goals omega

/-- The block of a command, if it has one. -/
def commandBlock (ts : List Token) : Except Stop (Option (List Statement) × List Token) :=
  match ts with
  | [] => .ok (none, [])
  | t :: more =>
    match t.lexeme with
    | .keyword .doWord => (block .endWord more).map fun (body, rest) => (some body, rest)
    | .op .braceL => (block .brace more).map fun (body, rest) => (some body, rest)
    | _ => .ok (none, t :: more)
termination_by 8 * ts.length + 1
decreasing_by all_goals simp only [List.length_cons]; omega

/-- The statements of a block whose opening mark was read. -/
def block (closer : Closer) (ts : List Token) : Except Stop (List Statement × List Token) :=
  match _h : skipParameters (afterBreaks ts) with
  | .error e => .error e
  | .ok rest => blockItems closer rest
termination_by 8 * ts.length + 3
decreasing_by
  have h1 := length_skipParameters_le _h
  have h2 := length_afterBreaks_le ts
  omega

def blockItems (closer : Closer) (ts : List Token) : Except Stop (List Statement × List Token) :=
  match _hs : afterBreaks ts with
  | [] => .error .endOfBlock
  | t :: more =>
    if t.lexeme = .eof then .error .endOfBlock
    else if closer.isAt t.lexeme then .ok ([], more)
    else
      goOn (t :: more) .mismatch (statement (some closer) (t :: more)) fun s rest _ =>
        (blockItems closer rest).map fun (items, rest) => (s :: items, rest)
termination_by 8 * ts.length + 2
decreasing_by
  all_goals
    have := length_afterBreaks_le ts
    simp only [_hs] at this
    omega

end

/-- The statements up to the end of the text, and the line of the one that the text ends in, if it
ends inside one. -/
def statements (ts : List Token) : Except LexFault (List Statement × Option Int) :=
  match _hs : afterBreaks ts with
  | [] => .ok ([], none)
  | t :: more =>
    if t.lexeme = .eof then .ok ([], none)
    else
      match b.statement none (t :: more) with
      | .error (.fault f) => .error f
      | .error _ => .ok ([], some (b.lineInFile (t :: more)))
      | .ok (s, rest) =>
        if _h : rest.length < (t :: more).length then
          (statements rest).map fun (items, line) => (s :: items, line)
        else .ok ([s], none)
termination_by ts.length
decreasing_by
  have := length_afterBreaks_le ts
  simp only [_hs] at this
  omega

end BlockSource

/-- The statements of one block. -/
structure BlockContent where
  statements : List Statement
  /-- The line where the statement starts that the text ends in. -/
  unterminatedLine : Option Int

/-- Reads the statements of a block. -/
def BlockContent.read (lines : LineMap) (source : List Char) : Except LexFault BlockContent := do
  let tokens ← tokenize lines source
  let (statements, line) ← (BlockSource.mk source lines).statements tokens
  return ⟨statements, line⟩

end RecipeManifest

import RecipeManifest.Text.Printable

/-!
Words and marks of the recipe language, and the tokens made of them.

A token is a lexeme with its place: the line it starts on, its first character and the one after
its last, counted from zero, and whether a blank stands before it. Of a malformed text no tokens can
be made.
-/

namespace RecipeManifest

/-- The reserved words. -/
inductive Keyword where
  | andWord | beginWord | caseWord | classWord | defWord | doWord | elseWord | elsifWord
  | endWord | ensureWord | falseWord | forWord | ifWord | inWord | moduleWord | nilWord
  | notWord | orWord | rescueWord | thenWord | trueWord | unlessWord | untilWord | whenWord
  | whileWord
  deriving DecidableEq, Repr

namespace Keyword

def all : List Keyword := [
  .andWord, .beginWord, .caseWord, .classWord, .defWord, .doWord, .elseWord, .elsifWord,
  .endWord, .ensureWord, .falseWord, .forWord, .ifWord, .inWord, .moduleWord, .nilWord,
  .notWord, .orWord, .rescueWord, .thenWord, .trueWord, .unlessWord, .untilWord, .whenWord,
  .whileWord]

def spelling : Keyword → String
  | andWord => "and"
  | beginWord => "begin"
  | caseWord => "case"
  | classWord => "class"
  | defWord => "def"
  | doWord => "do"
  | elseWord => "else"
  | elsifWord => "elsif"
  | endWord => "end"
  | ensureWord => "ensure"
  | falseWord => "false"
  | forWord => "for"
  | ifWord => "if"
  | inWord => "in"
  | moduleWord => "module"
  | nilWord => "nil"
  | notWord => "not"
  | orWord => "or"
  | rescueWord => "rescue"
  | thenWord => "then"
  | trueWord => "true"
  | unlessWord => "unless"
  | untilWord => "until"
  | whenWord => "when"
  | whileWord => "while"

def ofSpelling? (s : String) : Option Keyword :=
  all.find? fun k => k.spelling == s

end Keyword

/-- The operators and other marks. -/
inductive Operator where
  | powAssign | orAssign | andAssign | spaceship | caseEq | rangeOpen | pow | rocket | eq | ne
  | matching | notMatching | le | ge | andAlso | orElse | shiftLeft | shiftRight | range | scope
  | lambda | addAssign | subAssign | mulAssign | divAssign | assign | plus | minus | star
  | slash | percent | lt | gt | bang | amp | bar | caret | tilde | question | colon | dot
  | comma | parenL | parenR | bracketL | bracketR | braceL | braceR
  deriving DecidableEq, Repr

namespace Operator

/-- Every operator, each one before those that its spelling starts with. -/
def all : List Operator := [
  .powAssign, .orAssign, .andAssign, .spaceship, .caseEq, .rangeOpen, .pow, .rocket, .eq, .ne,
  .matching, .notMatching, .le, .ge, .andAlso, .orElse, .shiftLeft, .shiftRight, .range, .scope,
  .lambda, .addAssign, .subAssign, .mulAssign, .divAssign, .assign, .plus, .minus, .star,
  .slash, .percent, .lt, .gt, .bang, .amp, .bar, .caret, .tilde, .question, .colon, .dot,
  .comma, .parenL, .parenR, .bracketL, .bracketR, .braceL, .braceR]

def spelling : Operator → String
  | powAssign => "**="
  | orAssign => "||="
  | andAssign => "&&="
  | spaceship => "<=>"
  | caseEq => "==="
  | rangeOpen => "..."
  | pow => "**"
  | rocket => "=>"
  | eq => "=="
  | ne => "!="
  | matching => "=~"
  | notMatching => "!~"
  | le => "<="
  | ge => ">="
  | andAlso => "&&"
  | orElse => "||"
  | shiftLeft => "<<"
  | shiftRight => ">>"
  | range => ".."
  | scope => "::"
  | lambda => "->"
  | addAssign => "+="
  | subAssign => "-="
  | mulAssign => "*="
  | divAssign => "/="
  | assign => "="
  | plus => "+"
  | minus => "-"
  | star => "*"
  | slash => "/"
  | percent => "%"
  | lt => "<"
  | gt => ">"
  | bang => "!"
  | amp => "&"
  | bar => "|"
  | caret => "^"
  | tilde => "~"
  | question => "?"
  | colon => ":"
  | dot => "."
  | comma => ","
  | parenL => "("
  | parenR => ")"
  | bracketL => "["
  | bracketR => "]"
  | braceL => "\x7b"
  | braceR => "\x7d"

/-- The first operator of `all` that the text starts with, which is the longest one. -/
def ofFront? (cs : List Char) : Option Operator :=
  all.find? fun o => o.spelling.toList.isPrefixOf cs

/-- Closes what `parenL`, `bracketL` or `braceL` opened. -/
def isCloser : Operator → Bool
  | parenR | bracketR | braceR => true
  | _ => false

/-- Opens what `parenR`, `bracketR` or `braceR` closes. -/
def isOpener : Operator → Bool
  | parenL | bracketL | braceL => true
  | _ => false

end Operator

/-- A stretch of a string literal: text that stands for itself, or code whose value is put there. -/
inductive Part where
  | text (chars : List Char)
  | code (chars : List Char)
  deriving DecidableEq, Repr

namespace Part

def isCode : Part → Bool
  | text _ => false
  | code _ => true

/-- What the part adds to the literal's plain value: code adds nothing. -/
def plain : Part → List Char
  | text chars => chars
  | code _ => []

end Part

/-- What a token says. -/
inductive Lexeme where
  | ident (name : String)
  | const (name : String)
  | keyword (word : Keyword)
  | label (name : String)
  | symbol (name : String)
  | string (parts : List Part)
  | number (text : String)
  | words (body : List Char)
  | regex (text : String)
  | op (mark : Operator)
  | newline
  | semicolon
  | eof
  deriving DecidableEq, Repr

namespace Lexeme

/-- The text a token stands for: a name, the plain text of a literal, the spelling of a mark. -/
def value : Lexeme → String
  | ident name | const name | label name | symbol name => name
  | keyword word => word.spelling
  | string parts => String.ofList (parts.flatMap Part.plain)
  | number text | regex text => text
  | words body => String.ofList body
  | op mark => mark.spelling
  | newline => "\n"
  | semicolon => ";"
  | eof => ""

/-- Ends a statement that is otherwise complete. -/
def isSeparator : Lexeme → Bool
  | newline | semicolon => true
  | _ => false

end Lexeme

structure Token where
  lexeme : Lexeme
  line : Nat
  start : Nat
  stop : Nat
  spaced : Bool
  deriving DecidableEq, Repr

/-- Where the lines of a block stand in its file, first line first. -/
abbrev LineMap := List Int

namespace LineMap

/-- The file's line for a line of the block. A line that the map does not cover stands for
itself. -/
def lineInFile (map : LineMap) (line : Int) : Int :=
  if 0 < line then map.getD (line - 1).toNat line else line

end LineMap

/-- What can be wrong with the text of a block. -/
inductive Malformed where
  | unterminatedString
  | unterminatedInterpolation
  | unterminatedPercent
  | heredocWithoutBody (tag : String)
  | unterminatedHeredoc (tag : String)
  | unexpectedCharacter (c : Char)
  /-- A number starts with a digit that has no decimal value. -/
  | digitWithoutPlace (c : Char)
  deriving DecidableEq, Repr

def Malformed.detail : Malformed → String
  | unterminatedString => "unterminated string literal"
  | unterminatedInterpolation => "unterminated string interpolation"
  | unterminatedPercent => "unterminated percent literal"
  | heredocWithoutBody tag => s!"heredoc {tag} has no body"
  | unterminatedHeredoc tag => s!"unterminated heredoc {tag}"
  | unexpectedCharacter c => "unexpected character " ++ String.ofList (Text.shown [c])
  | digitWithoutPlace _ => "'NoneType' object has no attribute 'end'"

/-- A malformed text and the line of the file where it was noticed. -/
structure LexFault where
  line : Int
  cause : Malformed
  deriving DecidableEq, Repr

end RecipeManifest

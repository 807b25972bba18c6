import RecipeManifest.Text.Line
import RecipeManifest.Token.Literal

/-!
Heredocs: literals whose text stands on the lines after the one that announces them, up to a line
that holds their tag. The common left margin of the lines may be taken off: spaces and tabs are told
apart there, and a line of nothing else becomes empty and does not count.
-/

namespace RecipeManifest

namespace Text

def isIndent (c : Char) : Bool :=
  c == ' ' || c == '\t'

/-- The longest common beginning of two texts. -/
def commonStart : List Char → List Char → List Char
  | a :: as, b :: bs => if a = b then a :: commonStart as bs else []
  | _, _ => []

/-- The longest run of spaces and tabs that starts every line with other text in it. -/
def margin (lines : List (List Char)) : List Char :=
  match (lines.filter fun l => l.any fun c => !isIndent c).map (List.takeWhile isIndent) with
  | [] => []
  | first :: others => others.foldl commonStart first

/-- Takes the common margin off every line. -/
def withoutMargin (lines : List (List Char)) : List (List Char) :=
  let width := (margin lines).length
  lines.map fun l => if l.all isIndent then [] else l.drop width

end Text

/-- Where the closing tag may stand and what happens to the margin. -/
inductive HeredocStyle where
  /-- The tag is the whole line. -/
  | flush
  /-- The tag may be indented. -/
  | indented
  /-- The tag may be indented, and the common margin is taken off the text. -/
  | squiggly
  deriving DecidableEq, Repr

/-- The announcement of a heredoc. -/
structure HeredocOpener where
  style : HeredocStyle
  quote : Option Char
  tag : List Char
  deriving DecidableEq, Repr

namespace HeredocOpener

/-- The two angle brackets, the mark of the style, the tag and its quotes. -/
def length (o : HeredocOpener) : Nat :=
  2 + (if o.style = .flush then 0 else 1) + o.tag.length + (if o.quote.isSome then 2 else 0)

/-- The tag in the quotes given, or bare. -/
def readTag (style : HeredocStyle) (cs : List Char) : Option HeredocOpener :=
  let quote := cs.head?.filter fun c => c == '\'' || c == '"'
  let body := cs.drop quote.toList.length
  let tag := frontName body
  if tag ≠ [] ∧ (quote.isNone ∨ (body.drop tag.length).head? = quote) then
    some ⟨style, quote, tag⟩
  else none

/-- The announcement at the front of a text. -/
def read : List Char → Option HeredocOpener
  | '<' :: '<' :: '-' :: rest => readTag .indented rest
  | '<' :: '<' :: '~' :: rest => readTag .squiggly rest
  | '<' :: '<' :: rest => readTag .flush rest
  | _ => none

/-- The line closes the heredoc. -/
def closes (o : HeredocOpener) (line : List Char) : Bool :=
  match o.style with
  | .flush => Text.trimEndBy (· == '\r') line == o.tag
  | _ => Text.trim line == o.tag

/-- The text of a heredoc with these lines. -/
def text (o : HeredocOpener) (lines : List (List Char)) : List Char :=
  match o.style with
  | .squiggly => Text.unlines (Text.withoutMargin lines)
  | _ => Text.unlines lines

/-- The parts of the text. Single quotes around the tag keep it from being interpolated; otherwise
a NUL character in it ends what is kept. -/
def parts (o : HeredocOpener) (text : List Char) : Except Malformed (List Part) :=
  if o.quote = some '\'' then .ok [.text text]
  else (readDelimited (.same '\x00') (text ++ ['\x00'])).map (·.value)

end HeredocOpener

/-- The lines of a heredoc's body, and the characters and lines it takes with its closing line. -/
structure HeredocBody where
  lines : List (List Char)
  used : Nat
  consumed : Nat
  deriving DecidableEq, Repr

/-- The body at the front of a text, if a line there closes it. -/
def HeredocBody.read (o : HeredocOpener) (cs : List Char) : Option HeredocBody :=
  let all := Text.newlineLines cs
  let body := all.takeWhile fun line => !o.closes line
  match all.drop body.length with
  | [] => none
  | last :: _ =>
    some ⟨body, (Text.unlines (body ++ [last])).length, body.length + 1⟩

end RecipeManifest

import RecipeManifest.Text.Basic

/-!
Lines of a text. A file's lines end at any of the line boundaries that text tools know
(`splitLines`); inside a block only the newline counts (`newlineLines`).
-/

namespace RecipeManifest.Text

/-- Line boundaries: newline, carriage return, vertical tab, form feed, the file, group and record
separators, next line, and the line and paragraph separators. -/
def isLineBreak (c : Char) : Bool :=
  inRanges [(0xA, 0xD), (0x1C, 0x1E), (0x85, 0x85), (0x2028, 0x2029)] c

/-- The lines of a text without their ends. A carriage return and the newline after it are one
boundary, and a boundary at the very end opens no further line. -/
def splitLines : List Char → List (List Char)
  | [] => []
  | '\r' :: '\n' :: rest => [] :: splitLines rest
  | c :: rest =>
    if isLineBreak c then [] :: splitLines rest
    else
      match splitLines rest with
      | [] => [[c]]
      | line :: more => (c :: line) :: more

/-- The lines of a text that ends each line with a newline. Text after the last newline is a line
of its own, and nothing after it is none. -/
def newlineLines (cs : List Char) : List (List Char) :=
  let all := pieces (· == '\n') cs
  if all.getLast? = some [] then all.dropLast else all

/-- Carriage returns, alone or before a newline, become newlines. -/
def withNewlines : List Char → List Char
  | [] => []
  | '\r' :: '\n' :: rest => '\n' :: withNewlines rest
  | c :: rest => (if c = '\r' then '\n' else c) :: withNewlines rest

/-- Each line with a newline after it. -/
def unlines (lines : List (List Char)) : List Char :=
  lines.flatMap (· ++ ['\n'])

end RecipeManifest.Text

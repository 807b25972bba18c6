import RecipeManifest.Text.Line
import RecipeManifest.Text.WordChar
import RecipeManifest.Token.Basic

/-!
The lines of a recipe, grouped into comments and blocks of statements.

A line that starts with the comment mark is a comment wherever it stands. Blank lines are left out.
All other lines are gathered up to one that starts with the word `end`; what is left at the end of
the file is a block too.
-/

namespace RecipeManifest

/-- A stretch of a recipe. -/
inductive Section where
  | comment (text : String) (line : Nat)
  | block (text : List Char) (lines : LineMap) (terminated : Bool)
  deriving DecidableEq, Repr

namespace Section

/-- The line is the last of its block. -/
def endsBlock : List Char → Bool
  | 'e' :: 'n' :: 'd' :: rest => Text.atWordEnd rest
  | _ => false

/-- The sections of the lines from `number` on, after lines gathered for an open block. The text
and the numbers of these come last line first. -/
def scanFrom (number : Nat) (texts : List (List Char)) (numbers : List Int) :
    List (List Char) → List Section
  | [] =>
    if numbers.isEmpty then [] else [.block (Text.unlines texts.reverse) numbers.reverse false]
  | raw :: rest =>
    let line := Text.trimEndBy (fun c => c == '\r' || c == '\n') raw
    if line.all Text.isBlank then scanFrom (number + 1) texts numbers rest
    else if line.head? = some '#' then
      .comment (String.ofList line) number :: scanFrom (number + 1) texts numbers rest
    else if endsBlock line then
      .block (Text.unlines (line :: texts).reverse) (Int.ofNat number :: numbers).reverse true ::
        scanFrom (number + 1) [] [] rest
    else scanFrom (number + 1) (line :: texts) (Int.ofNat number :: numbers) rest

/-- The sections of a recipe, in the order in which they end. -/
def scan (lines : List (List Char)) : List Section :=
  scanFrom 1 [] [] lines

end Section

end RecipeManifest

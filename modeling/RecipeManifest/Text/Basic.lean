/-!
Basics of reading texts.

Classes of characters are given by sorted lists of inclusive code point ranges (`inRanges`). White
space of all scripts is one of them; it is trimmed off a text, and words stand between it.

A reader of lists returns what it made and what it left. `goOn` hands both to what comes next,
with the fact that something was used; this fact is what bounds the recursion of the readers
built with it.
-/

namespace RecipeManifest

namespace Text

/-- A character is in a table when one of the inclusive ranges holds its code point. -/
def inRanges (table : List (Nat × Nat)) (c : Char) : Bool :=
  table.any fun r => decide (r.1 ≤ c.toNat) && decide (c.toNat ≤ r.2)

theorem inRanges_iff (table : List (Nat × Nat)) (c : Char) :
    inRanges table c = true ↔ ∃ r ∈ table, r.1 ≤ c.toNat ∧ c.toNat ≤ r.2 := by
  simp [inRanges]

/-- White space: ASCII blanks and separators, the next-line control, and the space separators. -/
def blankRanges : List (Nat × Nat) := [
  (0x9, 0xD), (0x1C, 0x20), (0x85, 0x85), (0xA0, 0xA0), (0x1680, 0x1680), (0x2000, 0x200A),
  (0x2028, 0x2029), (0x202F, 0x202F), (0x205F, 0x205F), (0x3000, 0x3000)]

def isBlank (c : Char) : Bool :=
  inRanges blankRanges c

/-- Drops the characters of a class from the end. -/
def trimEndBy (p : Char → Bool) (cs : List Char) : List Char :=
  (cs.reverse.dropWhile p).reverse

/-- Drops the characters of a class from both ends. -/
def trimBy (p : Char → Bool) (cs : List Char) : List Char :=
  trimEndBy p (cs.dropWhile p)

def trimEnd (cs : List Char) : List Char :=
  trimEndBy isBlank cs

def trim (cs : List Char) : List Char :=
  trimBy isBlank cs

/-- The pieces of a text between separators. There is one more piece than there are separators. -/
def pieces (separates : Char → Bool) : List Char → List (List Char)
  | [] => [[]]
  | c :: rest =>
    if separates c then [] :: pieces separates rest
    else
      match pieces separates rest with
      | [] => [[c]]
      | piece :: more => (c :: piece) :: more

theorem pieces_of_notMem {separator : Char} {cs : List Char} (h : separator ∉ cs) :
    pieces (· == separator) cs = [cs] := by
  induction cs with
  | nil => rfl
  | cons c rest ih =>
    rw [List.mem_cons, not_or] at h
    rw [pieces, ih h.2, beq_eq_false_iff_ne.2 (Ne.symm h.1)]
    rfl

/-- The runs of characters between white space. -/
def words (cs : List Char) : List (List Char) :=
  (pieces isBlank cs).filter fun w => !w.isEmpty

end Text

/-- Goes on with what a reader left of `before`. A reader that used nothing has failed. -/
def goOn {τ ε α β : Type} (before : List τ) (stuck : ε) (result : Except ε (α × List τ))
    (next : α → (rest : List τ) → rest.length < before.length → Except ε β) : Except ε β :=
  match result with
  | .error e => .error e
  | .ok (a, rest) => if h : rest.length < before.length then next a rest h else .error stuck

@[simp]
theorem goOn_error {τ ε α β : Type} (before : List τ) (stuck e : ε)
    (next : α → (rest : List τ) → rest.length < before.length → Except ε β) :
    goOn before stuck (.error e) next = .error e :=
  rfl

theorem goOn_ok {τ ε α β : Type} {before rest : List τ} (stuck : ε) (a : α)
    (next : α → (rest : List τ) → rest.length < before.length → Except ε β)
    (h : rest.length < before.length) :
    goOn before stuck (.ok (a, rest)) next = next a rest h := by
  simp [goOn, h]

end RecipeManifest

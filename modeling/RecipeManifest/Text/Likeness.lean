/-!
How alike two texts are: the share of their characters that lie in common stretches. The longest
common stretch is taken first, then those before it and those after it.
-/

namespace RecipeManifest.Text

/-- A stretch that two texts have in common. -/
structure Stretch where
  left : Nat
  right : Nat
  size : Nat
  deriving DecidableEq, Repr

def commonLength : List Char → List Char → Nat
  | a :: as, b :: bs => if a = b then commonLength as bs + 1 else 0
  | _, _ => 0

/-- The longest common stretch: of several the one that starts first, in `a` and then in `b`. -/
def longestStretch (a b : List Char) : Stretch :=
  (List.range a.length).foldl (fun best i =>
    (List.range b.length).foldl (fun best j =>
      let size := commonLength (a.drop i) (b.drop j)
      if best.size < size then ⟨i, j, size⟩ else best) best) ⟨0, 0, 0⟩

/-- The number of characters in common stretches. -/
def commonCount (a b : List Char) : Nat :=
  match longestStretch a b with
  | ⟨left, right, size⟩ =>
    if left < a.length ∧ 0 < size then
      commonCount (a.take left) (b.take right) + size +
        commonCount (a.drop (left + size)) (b.drop (right + size))
    else 0
termination_by a.length
decreasing_by
  · simp only [List.length_take]; omega
  · simp only [List.length_drop]; omega

/-- At least three fifths of the characters of both texts are in common stretches. -/
def areAlike (a b : List Char) : Bool :=
  3 * (a.length + b.length) ≤ 10 * commonCount a b

end RecipeManifest.Text

import RecipeManifest.Text.Printable

/-!
UTF-8 bytes as text. A fault names the bytes that are no character: from the first byte of the
broken character up to the one that does not fit, or to the end of the data.
-/

namespace RecipeManifest.Text

inductive Utf8Problem where
  | startByte
  | continuationByte
  | endOfData
  deriving DecidableEq, Repr

def Utf8Problem.text : Utf8Problem → String
  | startByte => "invalid start byte"
  | continuationByte => "invalid continuation byte"
  | endOfData => "unexpected end of data"

/-- The bytes at a position that are no character. -/
structure Utf8Fault where
  problem : Utf8Problem
  position : Nat
  bytes : List UInt8
  deriving DecidableEq, Repr

def Utf8Fault.message (f : Utf8Fault) : String :=
  let place :=
    match f.bytes with
    | [b] => s!"byte 0x{String.ofList (paddedHex 2 b.toNat)} in position {f.position}"
    | bytes => s!"bytes in position {f.position}-{f.position + bytes.length - 1}"
  s!"'utf-8' codec can't decode {place}: {f.problem.text}"

/-- Any byte that goes on with a character. -/
def tailBytes : Nat × Nat :=
  (0x80, 0xBF)

/-- The value bits of a first byte, and the ranges of the bytes that may follow it. -/
def leadByte? (b : Nat) : Option (Nat × List (Nat × Nat)) :=
  if b ≤ 0x7F then some (b, [])
  else if 0xC2 ≤ b ∧ b ≤ 0xDF then some (b - 0xC0, [tailBytes])
  else if b = 0xE0 then some (0, [(0xA0, 0xBF), tailBytes])
  else if b = 0xED then some (0xD, [(0x80, 0x9F), tailBytes])
  else if 0xE1 ≤ b ∧ b ≤ 0xEF then some (b - 0xE0, [tailBytes, tailBytes])
  else if b = 0xF0 then some (0, [(0x90, 0xBF), tailBytes, tailBytes])
  else if 0xF1 ≤ b ∧ b ≤ 0xF3 then some (b - 0xF0, [tailBytes, tailBytes, tailBytes])
  else if b = 0xF4 then some (4, [(0x80, 0x8F), tailBytes, tailBytes])
  else none

/-- The bytes at the front that fit the ranges one by one. -/
def fitting : List (Nat × Nat) → List UInt8 → List UInt8
  | (lo, hi) :: ranges, b :: bytes =>
    if lo ≤ b.toNat ∧ b.toNat ≤ hi then b :: fitting ranges bytes else []
  | _, _ => []

/-- The text that the bytes from a position on stand for. -/
def decodeFrom (position : Nat) (bytes : List UInt8) : Except Utf8Fault (List Char) :=
  match bytes with
  | [] => .ok []
  | b :: rest =>
    match leadByte? b.toNat with
    | none => .error ⟨.startByte, position, [b]⟩
    | some (bits, ranges) =>
      let tail := fitting ranges rest
      if tail.length = ranges.length then
        let code := tail.foldl (fun n t => n * 64 + (t.toNat - 0x80)) bits
        (decodeFrom (position + 1 + tail.length) (rest.drop tail.length)).map (Char.ofNat code :: ·)
      else if tail.length = rest.length then .error ⟨.endOfData, position, b :: tail⟩
      else .error ⟨.continuationByte, position, b :: tail⟩
termination_by bytes.length
decreasing_by
  simp only [List.length_drop, List.length_cons]
  omega

def decodeUtf8 (bytes : List UInt8) : Except Utf8Fault (List Char) :=
  decodeFrom 0 bytes

def encodeUtf8 (text : String) : List UInt8 :=
  text.toUTF8.toList

end RecipeManifest.Text

import Mathlib
import RecipeManifest.Proofs.LineNumbers

/-!
Recipes one after the other.

A recipe whose last line of code closes a block leaves nothing open, so that what follows it is
scanned as if it stood alone, but for the numbers of its lines. `Section.openText` is the text of
a manifest before the class is closed; it is put together section by section. Main statement
(`ofRecipe_append`): the manifest of two such recipes is the manifest of the first, with what the
second adds to an open class before the brace that closes it.
-/

namespace RecipeManifest

/-! ## Lines -/

namespace Text

theorem splitLines_ne_nil {cs : List Char} (h : cs ≠ []) : splitLines cs ≠ [] := by
  fun_cases splitLines cs <;> simp_all

theorem splitLines_break {c : Char} {rest : List Char} (hc : isLineBreak c = true)
    (h : c = '\r' → rest.head? ≠ some '\n') : splitLines (c :: rest) = [] :: splitLines rest := by
  rw [splitLines, if_pos hc]
  rintro more rfl rfl
  exact h rfl rfl

theorem splitLines_plain {c : Char} {rest : List Char} (hc : isLineBreak c = false) :
    splitLines (c :: rest) =
      match splitLines rest with
      | [] => [[c]]
      | line :: more => (c :: line) :: more := by
  rw [splitLines, hc]
  · rfl
  · rintro more rfl rfl
    exact absurd hc (by decide)

/-- A newline ends a line, whatever follows it. -/
theorem splitLines_append (a b : List Char) :
    splitLines (a ++ '\n' :: b) = splitLines (a ++ ['\n']) ++ splitLines b := by
  have hnewline : isLineBreak '\n' = true := by decide
  fun_induction splitLines a with
  | case1 =>
    rw [List.nil_append, List.nil_append, splitLines_break hnewline (by simp),
      splitLines_break hnewline (by simp)]
    rfl
  | case2 rest ih => simp [splitLines, ih]
  | case3 c rest hcrlf hc ih =>
    by_cases hcr : c = '\r' ∧ rest = []
    · obtain ⟨rfl, rfl⟩ := hcr
      simp [splitLines]
    · have hhead (tail : List Char) : c = '\r' → (rest ++ '\n' :: tail).head? ≠ some '\n' := by
        cases rest with
        | nil => simp_all
        | cons d rest => rintro rfl; simpa using hcrlf rest rfl
      rw [List.cons_append, List.cons_append, splitLines_break hc (hhead b),
        splitLines_break hc (hhead []), ih, List.cons_append]
  | case4 c rest hcrlf hc _ ih | case5 c rest hcrlf hc _ _ _ ih =>
    have hne : splitLines (rest ++ ['\n']) ≠ [] := splitLines_ne_nil (by simp)
    rw [Bool.not_eq_true] at hc
    rw [List.cons_append, List.cons_append, splitLines_plain hc, splitLines_plain hc, ih]
    cases hsplit : splitLines (rest ++ ['\n']) with
    | nil => exact absurd hsplit hne
    | cons line more => rfl

/-- No line has a line break in it. -/
theorem isLineBreak_of_mem_splitLines {cs line : List Char} {c : Char}
    (hline : line ∈ splitLines cs) (hc : c ∈ line) : isLineBreak c = false := by
  fun_induction splitLines cs generalizing line <;> grind

theorem exists_of_trimEndBy {p : Char → Bool} (cs : List Char) :
    ∃ back, (∀ c ∈ back, p c = true) ∧ cs = trimEndBy p cs ++ back := by
  refine ⟨(cs.reverse.takeWhile p).reverse, fun c hc => ?_, ?_⟩
  · exact List.mem_takeWhile_imp (List.mem_reverse.1 hc)
  · rw [trimEndBy, ← List.reverse_append, List.takeWhile_append_dropWhile, List.reverse_reverse]

theorem trimEndBy_eq_self {p : Char → Bool} {cs : List Char} (h : ∀ c ∈ cs, p c = false) :
    trimEndBy p cs = cs := by
  have hhead : cs.reverse.dropWhile p = cs.reverse := by
    rw [List.dropWhile_eq_self_iff]
    intro hpos
    simp [h]
  rw [trimEndBy, hhead, List.reverse_reverse]

/-- A line without the carriage returns and newlines at its end. -/
def withoutLineEnd (line : List Char) : List Char :=
  trimEndBy (fun c => c == '\r' || c == '\n') line

theorem withoutLineEnd_eq_self {line : List Char} (h : ∀ c ∈ line, isLineBreak c = false) :
    withoutLineEnd line = line := by
  apply trimEndBy_eq_self
  intro c hc
  rw [Bool.eq_false_iff]
  intro hbreak
  have := h c hc
  simp only [Bool.or_eq_true, beq_iff_eq] at hbreak
  rcases hbreak with rfl | rfl <;> exact absurd this (by decide)

end Text

namespace Section

/-- The line is neither blank nor a comment. -/
def isCode (line : List Char) : Bool :=
  !line.all Text.isBlank && line.head? != some '#'

def isBlock : Section → Bool
  | comment .. => false
  | block .. => true

/-- What the scanner makes of one line, which it takes without its end. -/
theorem scanFrom_cons {raw line : List Char} (hline : Text.withoutLineEnd raw = line)
    (number : Nat) (texts : List (List Char)) (numbers : List Int) (rest : List (List Char)) :
    scanFrom number texts numbers (raw :: rest) =
      if isCode line then
        if endsBlock line then
          .block (Text.unlines (line :: texts).reverse) (Int.ofNat number :: numbers).reverse
              true ::
            scanFrom (number + 1) [] [] rest
        else scanFrom (number + 1) (line :: texts) (Int.ofNat number :: numbers) rest
      else if line.all Text.isBlank then scanFrom (number + 1) texts numbers rest
      else .comment (String.ofList line) number :: scanFrom (number + 1) texts numbers rest := by
  rw [scanFrom, ← Text.withoutLineEnd, hline]
  by_cases hblank : line.all Text.isBlank = true
  · simp [isCode, hblank]
  · by_cases hhash : line.head? = some '#'
    · simp [isCode, hblank, hhash]
    · simp [isCode, hblank, hhash]

/-- Lines of which the last one with code ends its block leave nothing open. -/
theorem scanFrom_append {a : List (List Char)}
    (hlines : ∀ line ∈ a, ∀ c ∈ line, Text.isLineBreak c = false) (b : List (List Char)) :
    ∀ (number : Nat) (texts : List (List Char)) (numbers : List Int),
      (a.filter isCode).getLast?.elim (texts = [] ∧ numbers = []) (endsBlock · = true) →
      scanFrom number texts numbers (a ++ b) =
        scanFrom number texts numbers a ++ scanFrom (number + a.length) [] [] b := by
  induction a with
  | nil =>
    rintro number _ _ ⟨rfl, rfl⟩
    rfl
  | cons line rest ih =>
    intro number texts numbers hclosed
    have hline := Text.withoutLineEnd_eq_self (hlines line (by simp))
    have ih := ih fun l hl => hlines l (by simp [hl])
    rw [List.cons_append, scanFrom_cons hline, scanFrom_cons hline]
    have hnumber : number + (line :: rest).length = number + 1 + rest.length := by
      simp only [List.length_cons]
      omega
    rw [hnumber]
    by_cases hcode : isCode line = true
    · rw [List.filter_cons_of_pos hcode] at hclosed
      rw [if_pos hcode, if_pos hcode]
      by_cases hend : endsBlock line = true
      · rw [if_pos hend, if_pos hend, List.cons_append, ih]
        cases hrest : rest.filter isCode with
        | nil => exact ⟨rfl, rfl⟩
        | cons l ls => simpa [hrest, List.getLast?_cons] using hclosed
      · rw [if_neg hend, if_neg hend, ih]
        cases hrest : rest.filter isCode with
        | nil => simp [hrest, hend] at hclosed
        | cons l ls => simpa [hrest, List.getLast?_cons] using hclosed
    · rw [List.filter_cons_of_neg hcode] at hclosed
      rw [if_neg hcode, if_neg hcode]
      split
      · exact ih _ _ _ hclosed
      · rw [List.cons_append, ih _ _ _ hclosed]

/-- There is a block where there is a line of code. -/
theorem any_isBlock_scanFrom {lines : List (List Char)}
    (hlines : ∀ line ∈ lines, ∀ c ∈ line, Text.isLineBreak c = false) :
    ∀ (number : Nat) (texts : List (List Char)) (numbers : List Int),
      (scanFrom number texts numbers lines).any isBlock =
        (!numbers.isEmpty || lines.any isCode) := by
  induction lines with
  | nil =>
    intro number texts numbers
    rw [scanFrom]
    cases numbers <;> rfl
  | cons line rest ih =>
    intro number texts numbers
    have ih := ih fun l hl => hlines l (by simp [hl])
    rw [scanFrom_cons (Text.withoutLineEnd_eq_self (hlines line (by simp)))]
    by_cases hcode : isCode line = true
    · rw [if_pos hcode]
      split
      · simp [isBlock, hcode]
      · rw [ih]
        simp [hcode]
    · rw [if_neg hcode]
      split
      · rw [ih]
        simp [hcode]
      · rw [List.any_cons, ih]
        simp [hcode, isBlock]

/-! ## Texts -/

section

variable (style : Style) (className source : String)

/-- What some sections add to an open class: each comment with the indent of the class, and for
each block the texts of its statements. -/
def bodyText : List Section → Except Fault String
  | [] => .ok ""
  | .comment text _ :: rest => do
    let more ← bodyText rest
    return style.settings.headerIndent ++ text ++ "\n" ++ more
  | .block text _ _ :: rest => do
    let own ← blockText style source text
    let more ← bodyText rest
    return own ++ more

/-- The manifest of some sections before the class is closed, and whether it is open then. -/
def openText (opened : Bool) : List Section → Except Fault (String × Bool)
  | [] => .ok ("", opened)
  | .comment text _ :: rest => do
    let (more, opened') ← openText opened rest
    return ((if opened then style.settings.headerIndent else "") ++ text ++ "\n" ++ more, opened')
  | .block text _ _ :: rest => do
    let own ← blockText style source text
    let (more, opened') ← openText true rest
    return ((if opened then "" else s!"class {className} \x7b\n") ++ own ++ more, opened')

/-- What closes the class, if it is open. -/
def closingText (opened : Bool) : String :=
  if opened then "\x7d\n" else ""

/-- The manifest of some sections is their open text with the class closed behind it. -/
theorem allToManifest_eq_ok_iff {sections : List Section} {opened : Bool} {r : String × Bool} :
    (allToManifest style className source opened sections).result = .ok r ↔
      ∃ t o, openText style className source opened sections = .ok (t, o) ∧
        r = (t ++ closingText o, o) := by
  induction sections generalizing opened r with
  | nil =>
    simp only [allToManifest, openText, Noted.result_pure, Except.ok.injEq, Prod.mk.injEq]
    constructor
    · rintro rfl
      exact ⟨"", opened, ⟨rfl, rfl⟩, by simp [closingText]⟩
    · rintro ⟨_, _, ⟨rfl, rfl⟩, rfl⟩
      simp [closingText]
  | cons s rest ih =>
    cases s with
    | comment text line =>
      simp only [allToManifest, openText, Noted.result_bind, Noted.result_pure, bind_eq_ok_iff,
        pure_eq_ok_iff, Except.ok.injEq, ih]
      constructor
      · rintro ⟨_, ⟨t, o, h, rfl⟩, rfl⟩
        exact ⟨_, o, ⟨_, h, rfl⟩, by simp [String.append_assoc]⟩
      · rintro ⟨_, _, ⟨⟨t, o⟩, h, ⟨⟩⟩, rfl⟩
        exact ⟨_, ⟨t, o, h, rfl⟩, by simp [String.append_assoc]⟩
    | block text lines terminated =>
      simp only [allToManifest, openText, Noted.result_bind, Noted.result_pure, bind_eq_ok_iff,
        pure_eq_ok_iff, Except.ok.injEq, ih, blockToManifest_eq_ok_iff]
      constructor
      · rintro ⟨own, hown, _, ⟨t, o, h, rfl⟩, rfl⟩
        exact ⟨_, o, ⟨own, hown, _, h, rfl⟩, by simp [String.append_assoc]⟩
      · rintro ⟨_, _, ⟨own, hown, ⟨t, o⟩, h, ⟨⟩⟩, rfl⟩
        exact ⟨own, hown, _, ⟨t, o, h, rfl⟩, by simp [String.append_assoc]⟩

/-- Open texts follow one another, and the class that the first leaves open stays open. -/
theorem openText_append (a b : List Section) (opened : Bool) :
    openText style className source opened (a ++ b) =
      (openText style className source opened a).bind fun (front, opened') =>
        (openText style className source opened' b).map fun (more, opened'') =>
          (front ++ more, opened'') := by
  induction a generalizing opened with
  | nil =>
    rw [List.nil_append, openText]
    cases h : openText style className source opened b <;> simp [Except.bind, Except.map, h]
  | cons s rest ih =>
    cases s with
    | comment text line =>
      rw [List.cons_append, openText, openText, ih]
      cases openText style className source opened rest with
      | error e => rfl
      | ok front =>
        cases h : openText style className source front.2 b <;>
          simp [bind, pure, Except.pure, Except.bind, Except.map, h, String.append_assoc]
    | block text lines terminated =>
      rw [List.cons_append, openText, openText, ih]
      cases blockText style source text with
      | error e => rfl
      | ok own =>
        cases openText style className source true rest with
        | error e => rfl
        | ok front =>
          cases h : openText style className source front.2 b <;>
            simp [bind, pure, Except.pure, Except.bind, Except.map, h, String.append_assoc]

/-- In an open class the open text is what the sections add to it. -/
theorem openText_true (sections : List Section) :
    openText style className source true sections =
      (bodyText style source sections).map (·, true) := by
  induction sections with
  | nil => rfl
  | cons s rest ih =>
    cases s with
    | comment text line =>
      rw [openText, bodyText, ih]
      cases bodyText style source rest <;> rfl
    | block text lines terminated =>
      rw [openText, bodyText, ih]
      cases blockText style source text with
      | error e => rfl
      | ok own =>
        cases bodyText style source rest <;>
          simp [bind, Except.bind, Except.map, pure, Except.pure]

/-- Whether a class is open before does not decide whether there is a text. -/
theorem exists_openText_iff (opened : Bool) {sections : List Section} :
    (∃ r, openText style className source opened sections = .ok r) ↔
      ∃ body, bodyText style source sections = .ok body := by
  induction sections generalizing opened with
  | nil => simp [openText, bodyText]
  | cons s rest ih =>
    cases s with
    | comment text line =>
      simp only [openText, bodyText, bind_eq_ok_iff, pure_eq_ok_iff]
      constructor
      · rintro ⟨_, r, h, -⟩
        obtain ⟨body, hbody⟩ := (ih _).1 ⟨r, h⟩
        exact ⟨_, body, hbody, rfl⟩
      · rintro ⟨_, body, h, -⟩
        obtain ⟨r, hr⟩ := (ih _).2 ⟨body, h⟩
        exact ⟨_, r, hr, rfl⟩
    | block text lines terminated =>
      simp only [openText, bodyText, bind_eq_ok_iff, pure_eq_ok_iff]
      constructor
      · rintro ⟨_, own, hown, r, h, -⟩
        obtain ⟨body, hbody⟩ := (ih _).1 ⟨r, h⟩
        exact ⟨_, own, hown, body, hbody, rfl⟩
      · rintro ⟨_, own, hown, body, h, -⟩
        obtain ⟨r, hr⟩ := (ih _).2 ⟨body, h⟩
        exact ⟨_, own, hown, r, hr, rfl⟩

/-- The class is open behind a block, and stays open. -/
theorem opened_of_openText {sections : List Section} {opened o : Bool} {t : String}
    (h : openText style className source opened sections = .ok (t, o)) :
    o = (opened || sections.any isBlock) := by
  induction sections generalizing opened t with
  | nil =>
    cases h
    simp
  | cons s rest ih =>
    cases s with
    | comment text line =>
      simp only [openText, bind_eq_ok_iff, pure_eq_ok_iff] at h
      obtain ⟨r, hr, ⟨⟩⟩ := h
      simpa [isBlock] using ih hr
    | block text lines terminated =>
      simp only [openText, bind_eq_ok_iff, pure_eq_ok_iff] at h
      obtain ⟨own, -, r, hr, ⟨⟩⟩ := h
      simpa [isBlock] using ih hr

/-- The numbers of the lines do not show in what the sections add to a class. -/
theorem bodyText_scanFrom_congr (lines : List (List Char)) (texts : List (List Char)) :
    ∀ (m n : Nat) (numbers numbers' : List Int), numbers.isEmpty = numbers'.isEmpty →
      bodyText style source (scanFrom m texts numbers lines) =
        bodyText style source (scanFrom n texts numbers' lines) := by
  induction lines generalizing texts with
  | nil =>
    intro m n numbers numbers' h
    rw [scanFrom, scanFrom, h]
    split <;> rfl
  | cons raw rest ih =>
    intro m n numbers numbers' h
    rw [scanFrom, scanFrom]
    split
    · exact ih texts _ _ _ _ h
    split
    · rw [bodyText, bodyText, ih texts _ _ _ _ h]
    split
    · rw [bodyText, bodyText, ih [] _ _ [] [] rfl]
    · exact ih _ _ _ _ _ rfl

end

end Section

/-! ## Recipes -/

/-- The last line of code in a recipe ends a block. -/
def endsWithBlock (content : String) : Bool :=
  ((Text.splitLines content.toList).filter Section.isCode).getLast?.any Section.endsBlock

/-- What a recipe adds to a class that is open already. -/
def bodyText (style : Style) (source content : String) : Except Fault String :=
  Section.bodyText style source (Section.scan (Text.splitLines content.toList))

section

variable {style : Style} {className source : String}

theorem ofRecipe_eq_ok_iff {content : String} {m : Manifest} :
    (Manifest.ofRecipe style className source content).result = .ok m ↔
      ∃ t o, Section.openText style className source false
          (Section.scan (Text.splitLines content.toList)) = .ok (t, o) ∧
        m = ⟨className, t ++ Section.closingText o, o⟩ := by
  simp only [Manifest.ofRecipe, Noted.result_bind, Noted.result_pure, bind_eq_ok_iff,
    Except.ok.injEq, Section.allToManifest_eq_ok_iff]
  constructor
  · rintro ⟨_, ⟨t, o, h, rfl⟩, rfl⟩
    exact ⟨t, o, h, rfl⟩
  · rintro ⟨t, o, h, rfl⟩
    exact ⟨_, ⟨t, o, h, rfl⟩, rfl⟩

theorem exists_ofRecipe_iff (content : String) :
    (∃ m, (Manifest.ofRecipe style className source content).result = .ok m) ↔
      ∃ body, bodyText style source content = .ok body := by
  rw [bodyText, ← Section.exists_openText_iff style className source false]
  simp only [ofRecipe_eq_ok_iff]
  constructor
  · rintro ⟨_, t, o, h, -⟩
    exact ⟨_, h⟩
  · rintro ⟨⟨t, o⟩, h⟩
    exact ⟨_, t, o, h, rfl⟩

/-- Behind a recipe that leaves no block open, another one is scanned by itself, but for the
numbers of its lines. -/
theorem scan_append {first second : String} (hnewline : first.toList.getLast? = some '\n')
    (hblock : endsWithBlock first = true) :
    Section.scan (Text.splitLines (first ++ second).toList) =
      Section.scan (Text.splitLines first.toList) ++
        Section.scanFrom (1 + (Text.splitLines first.toList).length) [] []
          (Text.splitLines second.toList) := by
  obtain ⟨front, hfront⟩ := List.getLast?_eq_some_iff.1 hnewline
  have hsplit : Text.splitLines (first ++ second).toList =
      Text.splitLines first.toList ++ Text.splitLines second.toList := by
    rw [String.toList_append, hfront, List.append_assoc, List.singleton_append,
      Text.splitLines_append]
  rw [hsplit]
  refine Section.scanFrom_append (fun line hline c => Text.isLineBreak_of_mem_splitLines hline) _
    1 [] [] ?_
  unfold endsWithBlock at hblock
  cases h : ((Text.splitLines first.toList).filter Section.isCode).getLast? with
  | none => exact ⟨rfl, rfl⟩
  | some last => simpa [h] using hblock

theorem any_isBlock_scan {content : String} (hblock : endsWithBlock content = true) :
    (Section.scan (Text.splitLines content.toList)).any Section.isBlock = true := by
  rw [Section.scan, Section.any_isBlock_scanFrom fun line hline c =>
    Text.isLineBreak_of_mem_splitLines hline]
  unfold endsWithBlock at hblock
  cases h : ((Text.splitLines content.toList).filter Section.isCode).getLast? with
  | none => simp [h] at hblock
  | some last =>
    have hmem := List.mem_filter.1 (List.mem_of_getLast? h)
    simpa using ⟨last, hmem⟩

/-- A recipe with a block in it leaves the class open behind its open text. -/
theorem ofRecipe_eq_ok_iff_of_block {content : String} (hblock : endsWithBlock content = true)
    {m : Manifest} :
    (Manifest.ofRecipe style className source content).result = .ok m ↔
      ∃ front, Section.openText style className source false
          (Section.scan (Text.splitLines content.toList)) = .ok (front, true) ∧
        m = ⟨className, front ++ "\x7d\n", true⟩ := by
  rw [ofRecipe_eq_ok_iff]
  constructor
  · rintro ⟨front, o, h, rfl⟩
    obtain rfl : o = true := by
      rw [Section.opened_of_openText style className source h]
      exact any_isBlock_scan hblock
    exact ⟨front, h, rfl⟩
  · rintro ⟨front, h, rfl⟩
    exact ⟨front, true, h, rfl⟩

theorem ofRecipe_append_eq_ok_iff {first second : String}
    (hnewline : first.toList.getLast? = some '\n') (hblock : endsWithBlock first = true)
    {m : Manifest} :
    (Manifest.ofRecipe style className source (first ++ second)).result = .ok m ↔
      ∃ front body, (Manifest.ofRecipe style className source first).result =
          .ok ⟨className, front ++ "\x7d\n", true⟩ ∧
        bodyText style source second = .ok body ∧
        m = ⟨className, front ++ body ++ "\x7d\n", true⟩ := by
  -- The second recipe's own numbers and those it has behind the first give the same text.
  have hbody : Section.bodyText style source
      (Section.scanFrom (1 + (Text.splitLines first.toList).length) [] []
        (Text.splitLines second.toList)) = bodyText style source second :=
    Section.bodyText_scanFrom_congr style source _ _ _ _ _ _ rfl
  have hfirst (front : String) : (Manifest.ofRecipe style className source first).result =
        .ok ⟨className, front ++ "\x7d\n", true⟩ ↔
      Section.openText style className source false
        (Section.scan (Text.splitLines first.toList)) = .ok (front, true) := by
    rw [ofRecipe_eq_ok_iff_of_block hblock]
    simp
  simp only [hfirst]
  rw [ofRecipe_eq_ok_iff, scan_append hnewline hblock, Section.openText_append]
  cases hopen : Section.openText style className source false
      (Section.scan (Text.splitLines first.toList)) with
  | error e => simp [Except.bind]
  | ok r =>
    obtain ⟨front, o⟩ := r
    obtain rfl : o = true := by
      rw [Section.opened_of_openText style className source hopen]
      exact any_isBlock_scan hblock
    simp only [Except.bind, Section.openText_true, hbody]
    cases bodyText style source second with
    | error e => simp [Except.map]
    | ok body => simp [Except.map, Section.closingText]

end

/-- Two recipes of which the first ends with a newline and leaves no block open are converted
together exactly when both are converted, and then what the second adds to an open class stands in
the manifest of the first before the brace that closes it. -/
theorem ofRecipe_append (style : Style) (className source first second : String)
    (hnewline : first.toList.getLast? = some '\n') (hblock : endsWithBlock first = true) :
    ((∃ m, (Manifest.ofRecipe style className source (first ++ second)).result = .ok m) ↔
        (∃ m, (Manifest.ofRecipe style className source first).result = .ok m) ∧
          ∃ m, (Manifest.ofRecipe style className source second).result = .ok m) ∧
      ∀ m, (Manifest.ofRecipe style className source (first ++ second)).result = .ok m →
        ∃ front body,
          (Manifest.ofRecipe style className source first).result =
              .ok ⟨className, front ++ "\x7d\n", true⟩ ∧
            bodyText style source second = .ok body ∧
            m = ⟨className, front ++ body ++ "\x7d\n", true⟩ := by
  refine ⟨?_, fun m hm => (ofRecipe_append_eq_ok_iff hnewline hblock).1 hm⟩
  rw [exists_ofRecipe_iff second]
  constructor
  · rintro ⟨m, hm⟩
    obtain ⟨front, body, hfirst, hsecond, -⟩ := (ofRecipe_append_eq_ok_iff hnewline hblock).1 hm
    exact ⟨⟨_, hfirst⟩, ⟨_, hsecond⟩⟩
  · rintro ⟨⟨m, hm⟩, ⟨body, hbody⟩⟩
    obtain ⟨front, -, rfl⟩ := (ofRecipe_eq_ok_iff_of_block hblock).1 hm
    exact ⟨_, (ofRecipe_append_eq_ok_iff hnewline hblock).2 ⟨front, body, hm, hbody, rfl⟩⟩

/-- A declaration before one with a comment inside its block. -/
theorem ofRecipe_append_two_declarations :
    let first := "package 'git' do\nend\n# done\n"
    let second := "file '/etc/motd' do\n# note\n  mode 644\nend"
    let front := "class default \x7b\n  package \x7b 'git':\n    ensure => 'installed';\n" ++
      "  \x7d\n\n  # done\n"
    let body := "  # note\n  file \x7b '/etc/motd':\n    mode => 644;\n  \x7d\n\n"
    first.toList.getLast? = some '\n' ∧ endsWithBlock first = true ∧
      (Manifest.ofRecipe {} "default" "<recipe>" first).result =
        .ok ⟨"default", front ++ "\x7d\n", true⟩ ∧
      bodyText {} "<recipe>" second = .ok body ∧
      (Manifest.ofRecipe {} "default" "<recipe>" (first ++ second)).result =
        .ok ⟨"default", front ++ body ++ "\x7d\n", true⟩ := by
  intro first second front body
  have hnewline : first.toList.getLast? = some '\n' := by decide
  have hblock : endsWithBlock first = true := by decide
  have hfirst : (Manifest.ofRecipe {} "default" "<recipe>" first).result =
      .ok ⟨"default", front ++ "\x7d\n", true⟩ := by decide +kernel
  have hsecond : bodyText {} "<recipe>" second = .ok body := by decide +kernel
  obtain ⟨hconverted, htext⟩ := ofRecipe_append {} "default" "<recipe>" first second hnewline hblock
  obtain ⟨m, hm⟩ := hconverted.2 ⟨⟨_, hfirst⟩, (exists_ofRecipe_iff second).2 ⟨_, hsecond⟩⟩
  obtain ⟨front', body', hfront, hbody, rfl⟩ := htext m hm
  obtain rfl : front = front' := by simpa [hfirst] using hfront
  obtain rfl : body = body' := by simpa [hsecond] using hbody
  exact ⟨hnewline, hblock, hfirst, hsecond, hm⟩

end RecipeManifest

import RecipeManifest.Proofs.Concatenation
import RecipeManifest.Proofs.PlainReading

/-!
Heredocs inside scanned recipes.

The scanner looks at lines and knows nothing of literals, and the lexer looks for the end of a
heredoc in the block that the scanner gives it.
-/

namespace RecipeManifest

open Plain

/-! ## Bodies -/

namespace Text

theorem pieces_ne_nil (p : Char → Bool) (cs : List Char) : pieces p cs ≠ [] := by
  cases cs with
  | nil => simp [pieces]
  | cons c rest =>
    rw [pieces]
    split
    · simp
    · split <;> simp

theorem pieces_append_newline {line : List Char} (hline : '\n' ∉ line) (rest : List Char) :
    pieces (· == '\n') (line ++ '\n' :: rest) = line :: pieces (· == '\n') rest := by
  induction line with
  | nil => simp [pieces]
  | cons c line ih =>
    rw [List.mem_cons, not_or] at hline
    have hc : (c == '\n') = false := beq_eq_false_iff_ne.2 (Ne.symm hline.1)
    rw [List.cons_append, pieces, hc, ih hline.2]
    rfl

theorem newlineLines_of_notMem {line : List Char} (h : '\n' ∉ line) (hne : line ≠ []) :
    newlineLines line = [line] := by
  simp [newlineLines, pieces_of_notMem h, hne]

/-- Lines with newlines after them come back, and then the lines of what follows. -/
theorem newlineLines_unlines_append {lines : List (List Char)}
    (hlines : ∀ line ∈ lines, '\n' ∉ line) (rest : List Char) :
    newlineLines (unlines lines ++ rest) = lines ++ newlineLines rest := by
  have hpieces : pieces (· == '\n') (unlines lines ++ rest) =
      lines ++ pieces (· == '\n') rest := by
    induction lines with
    | nil => rfl
    | cons line more ih =>
      have hsplit : unlines (line :: more) ++ rest = line ++ '\n' :: (unlines more ++ rest) := by
        simp [unlines]
      rw [hsplit, pieces_append_newline (hlines line (by simp)),
        ih fun l hl => hlines l (by simp [hl]), List.cons_append]
  have hne := pieces_ne_nil (· == '\n') rest
  simp only [newlineLines, hpieces, List.getLast?_append_of_ne_nil _ hne,
    List.dropLast_append_of_ne_nil hne]
  split <;> rfl

theorem newlineLines_unlines {lines : List (List Char)} (hlines : ∀ line ∈ lines, '\n' ∉ line) :
    newlineLines (unlines lines) = lines := by
  have h := newlineLines_unlines_append hlines []
  rwa [List.append_nil, show newlineLines [] = [] from rfl, List.append_nil] at h

/-- Lines with newlines after them come back from the file. -/
theorem splitLines_unlines {lines : List (List Char)}
    (hlines : ∀ line ∈ lines, ∀ c ∈ line, isLineBreak c = false) :
    splitLines (unlines lines) = lines := by
  have hone {line : List Char} (hline : ∀ c ∈ line, isLineBreak c = false) :
      splitLines (line ++ ['\n']) = [line] := by
    induction line with
    | nil => rfl
    | cons c line ih =>
      rw [List.cons_append, splitLines_plain (hline c (by simp)),
        ih fun d hd => hline d (by simp [hd])]
  induction lines with
  | nil => rfl
  | cons line more ih =>
    have hsplit : unlines (line :: more) = line ++ '\n' :: unlines more := by simp [unlines]
    rw [hsplit, splitLines_append, hone (hlines line (by simp)),
      ih fun l hl => hlines l (by simp [hl]), List.singleton_append]

theorem count_unlines {lines : List (List Char)} (hlines : ∀ line ∈ lines, '\n' ∉ line) :
    (unlines lines).count '\n' = lines.length := by
  induction lines with
  | nil => rfl
  | cons line more ih =>
    have hline : line.count '\n' = 0 := List.count_eq_zero.2 (hlines line (by simp))
    have hmore := ih fun l hl => hlines l (by simp [hl])
    rw [unlines, List.flatMap_cons, List.count_append, List.count_append, hline, ← unlines, hmore]
    simp
    omega

end Text

section Body

variable {o : HeredocOpener} {lines : List (List Char)}

theorem takeWhile_closes (hopen : ∀ line ∈ lines, o.closes line = false) (rest : List (List Char)) :
    (lines ++ rest).takeWhile (fun line => !o.closes line) =
      lines ++ rest.takeWhile fun line => !o.closes line := by
  apply List.takeWhile_append_of_pos
  intro line hline
  rw [hopen line hline]
  rfl

/-- The body goes to the first line that closes the heredoc. -/
theorem HeredocBody.read_closed (hlines : ∀ line ∈ lines, '\n' ∉ line)
    (hopen : ∀ line ∈ lines, o.closes line = false) {last : List Char} (hlast : '\n' ∉ last)
    (hclose : o.closes last = true) (rest : List Char) :
    HeredocBody.read o (Text.unlines (lines ++ [last]) ++ rest) =
      some ⟨lines, (Text.unlines (lines ++ [last])).length, lines.length + 1⟩ := by
  have hall : ∀ line ∈ lines ++ [last], '\n' ∉ line := by
    simpa [or_imp, forall_and] using ⟨hlines, hlast⟩
  have htake : (lines ++ [last] ++ Text.newlineLines rest).takeWhile (fun line => !o.closes line) =
      lines := by
    rw [List.append_assoc, takeWhile_closes hopen, List.singleton_append, List.takeWhile_cons,
      hclose]
    simp
  unfold HeredocBody.read
  rw [Text.newlineLines_unlines_append hall]
  simp only [htake]
  rw [List.append_assoc, List.drop_left]
  rfl

theorem HeredocBody.read_open (hlines : ∀ line ∈ lines, '\n' ∉ line)
    (hopen : ∀ line ∈ lines, o.closes line = false) :
    HeredocBody.read o (Text.unlines lines) = none := by
  have htake : lines.takeWhile (fun line => !o.closes line) = lines := by
    simpa using takeWhile_closes hopen []
  unfold HeredocBody.read
  rw [Text.newlineLines_unlines hlines]
  simp [htake]

end Body

/-! ## Tokens -/

theorem toNat_of_isNameChar {c : Char} (h : isNameChar c = true) :
    (0x30 ≤ c.toNat ∧ c.toNat ≤ 0x39) ∨ (0x41 ≤ c.toNat ∧ c.toNat ≤ 0x5A) ∨
      (0x5F ≤ c.toNat ∧ c.toNat ≤ 0x5F) ∨ (0x61 ≤ c.toNat ∧ c.toNat ≤ 0x7A) := by
  simp only [isNameChar, Char.isAlphanum, Char.isAlpha, Char.isUpper, Char.isLower, Char.isDigit,
    Bool.or_eq_true, Bool.and_eq_true, decide_eq_true_eq, beq_iff_eq, ge_iff_le,
    UInt32.le_iff_toNat_le] at h
  rcases h with ((h | h) | h) | rfl
  · exact .inr (.inl h)
  · exact .inr (.inr (.inr h))
  · exact .inl h
  · decide

theorem isBlank_of_isNameChar {c : Char} (h : isNameChar c = true) : Text.isBlank c = false := by
  have hranges : ∀ r ∈ Text.blankRanges, r.2 ≤ 0x20 ∨ 0x85 ≤ r.1 := by decide
  have hc := toNat_of_isNameChar h
  rw [Bool.eq_false_iff]
  intro hblank
  obtain ⟨r, hr, hle⟩ := (Text.inRanges_iff _ _).1 hblank
  rcases hranges r hr with h | h <;> omega

theorem isWordChar_of_isNameChar {c : Char} (h : isNameChar c = true) :
    Text.isWordChar c = true := by
  rw [Text.isWordChar, Text.inRanges_iff]
  rcases toNat_of_isNameChar h with h | h | h | h
  · exact ⟨(0x30, 0x39), List.mem_of_getElem? (i := 0) rfl, h⟩
  · exact ⟨(0x41, 0x5A), List.mem_of_getElem? (i := 1) rfl, h⟩
  · exact ⟨(0x5F, 0x5F), List.mem_of_getElem? (i := 2) rfl, h⟩
  · exact ⟨(0x61, 0x7A), List.mem_of_getElem? (i := 3) rfl, h⟩

theorem isLineBreak_of_isBlank {c : Char} (h : Text.isBlank c = false) :
    Text.isLineBreak c = false := by
  rw [Bool.eq_false_iff] at h ⊢
  intro hbreak
  apply h
  rw [Text.isLineBreak, Text.inRanges_iff] at hbreak
  rw [Text.isBlank, Text.inRanges_iff]
  obtain ⟨r, hr, hle⟩ := hbreak
  simp only [List.mem_cons, List.not_mem_nil, or_false] at hr
  rcases hr with rfl | rfl | rfl | rfl
  · exact ⟨(0x9, 0xD), by decide, by omega, hle.2⟩
  · exact ⟨(0x1C, 0x20), by decide, hle.1, by omega⟩
  · exact ⟨(0x85, 0x85), by decide, hle⟩
  · exact ⟨(0x2028, 0x2029), by decide, hle⟩

theorem isLineBreak_of_word {w : List Char} (hw : ∀ c ∈ w, isNameChar c = true) :
    ∀ c ∈ w, Text.isLineBreak c = false := fun c hc =>
  isLineBreak_of_isBlank (isBlank_of_isNameChar (hw c hc))

/-- Escapes put no line break into a text. -/
theorem isLineBreak_escape {text : List Char} (h : ∀ c ∈ text, Text.isLineBreak c = false) :
    ∀ c ∈ text.flatMap escape, Text.isLineBreak c = false := by
  intro c hc
  obtain ⟨e, he, hce⟩ := List.mem_flatMap.1 hc
  have hmem : c = '\\' ∨ c = e := by
    unfold escape at hce
    split at hce <;> simp_all
  rcases hmem with rfl | rfl
  · decide
  · exact h c he

theorem isNameChar_end : ∀ c ∈ "end".toList, isNameChar c = true :=
  List.all_eq_true.1 (by decide)

/-- The word that closes a heredoc. -/
structure HeredocTag where
  first : Char
  more : List Char
  first_ok : isNameStart first = true
  more_ok : more.all isNameChar = true

namespace HeredocTag

variable (tag : HeredocTag)

def chars : List Char :=
  tag.first :: tag.more

/-- The tag may be indented, and nothing in the text is interpolated. -/
def opener : HeredocOpener :=
  ⟨.indented, some '\'', tag.chars⟩

/-- What announces the heredoc. -/
def announcement : List Char :=
  "<<-'".toList ++ tag.chars ++ ['\'']

theorem isNameChar_of_mem {c : Char} (h : c ∈ tag.chars) : isNameChar c = true := by
  rw [chars, List.mem_cons] at h
  rcases h with rfl | h
  · have hfirst := tag.first_ok
    unfold isNameStart at hfirst
    unfold isNameChar Char.isAlphanum
    simp only [Bool.or_eq_true] at hfirst ⊢
    tauto
  · exact List.all_eq_true.1 tag.more_ok c h

theorem read_announcement (rest : List Char) :
    HeredocOpener.read (tag.announcement ++ rest) = some tag.opener := by
  have hname : frontName (tag.chars ++ '\'' :: rest) = tag.chars := by
    have htake : (tag.chars ++ '\'' :: rest).takeWhile isNameChar = tag.chars :=
      takeWhile_of_head (fun c hc => tag.isNameChar_of_mem hc) (by rintro _ ⟨⟩; decide)
    simpa [frontName, chars, tag.first_ok] using htake
  have hread : HeredocOpener.read (tag.announcement ++ rest) =
      HeredocOpener.readTag .indented ('\'' :: (tag.chars ++ '\'' :: rest)) := by
    simp [announcement, HeredocOpener.read]
  have hquote : (some '\'').filter (fun c => c == '\'' || c == '"') = some '\'' := by decide
  have hne : tag.chars ≠ [] := by simp [chars]
  rw [hread]
  simp only [HeredocOpener.readTag, List.head?_cons, hquote, Option.toList_some,
    List.length_singleton, List.drop_one, List.tail_cons, hname, List.drop_left]
  simp [hne, opener]

theorem newline_notMem : '\n' ∉ tag.chars := fun h =>
  absurd (tag.isNameChar_of_mem h) (by decide)

theorem closes_chars : tag.opener.closes tag.chars = true := by
  have hblank : ∀ c ∈ tag.chars, Text.isBlank c = false := fun c hc =>
    isBlank_of_isNameChar (tag.isNameChar_of_mem hc)
  have hfront : tag.chars.dropWhile Text.isBlank = tag.chars := by
    rw [chars, List.dropWhile_cons, hblank tag.first (by simp [chars])]
    rfl
  have htrim : Text.trim tag.chars = tag.chars := by
    rw [Text.trim, Text.trimBy, hfront, Text.trimEndBy_eq_self hblank]
  simp [HeredocOpener.closes, opener, htrim]

end HeredocTag

namespace Lexer

section Heredoc

variable {l l' : Lexer} {ts : List Token}

/-- The last token made is the one that the lexer remembers. -/
theorem Reads.previous (h : Reads l ts l') :
    l'.previous = ts.getLast?.elim l.previous fun t => some t.lexeme := by
  induction h with
  | refl l => rfl
  | @step l l₁ l' c more t ts hr hs _ ih =>
    have hstep : l₁.previous = t.elim l.previous fun t => some t.lexeme := by
      obtain ⟨_, _, -, rfl, rfl⟩ | ⟨_, _, _, -, rfl, rfl⟩ | ⟨-, rfl, rfl⟩ |
        ⟨_, _, _, -, rfl, rfl⟩ := step_cases hs <;> rfl
    rw [ih, hstep]
    cases t <;> cases ts <;> simp [List.getLast?_cons]

/-- What is left never outgrows the bound. -/
theorem Reads.rest_le_bound (h : Reads l ts l') (hl : l.rest.length ≤ l.bound) :
    l'.rest.length ≤ l'.bound := by
  induction h with
  | refl l => exact hl
  | @step l l₁ l' c more t ts hr hs _ ih =>
    apply ih
    have hadvance (used lines : Nat) : (l.advance used lines).rest.length ≤ l.bound := by
      simp only [advance, List.length_drop, List.length_tail]
      omega
    obtain ⟨_, _, -, rfl, rfl⟩ | ⟨_, used, lines, -, rfl, rfl⟩ | ⟨-, rfl, rfl⟩ |
      ⟨_, used, _, -, rfl, rfl⟩ := step_cases hs
    · exact hadvance _ _
    · exact hadvance used lines
    · unfold jump
      split
      · split
        · exact Nat.le_refl _
        · exact hadvance 0 1
      · exact hadvance 0 1
    · exact hadvance used 0

variable (tag : HeredocTag) {text r : List Char} {lines : List (List Char)}

/-- The front of a text that announces a heredoc behind a name, by what follows the line. -/
theorem front_announcement (hl : l.Settled) (hident : l.afterIdent = true) {more : List Char}
    (hr : l.rest = '<' :: more) (hmore : l.rest = tag.announcement ++ '\n' :: text) :
    l.front '<' more =
      match HeredocBody.read tag.opener text with
      | none => .error (.unterminatedHeredoc (String.ofList tag.chars))
      | some body => .ok (.heredoc (.string [.text (Text.unlines body.lines)])
          (tag.announcement.length - 1)
          ⟨text.drop body.used,
            l.pos + (tag.announcement.length + 1) + min body.used text.length,
            body.consumed⟩) := by
  have hread : HeredocOpener.read ('<' :: more) = some tag.opener := by
    rw [← hr, hmore, tag.read_announcement]
  have hlength : tag.opener.length = tag.announcement.length := by
    simp [HeredocOpener.length, HeredocTag.opener, HeredocTag.announcement]
    omega
  have hfront : l.front '<' more = l.frontHeredoc tag.opener := by
    unfold front
    simp only [hread, hident, Bool.or_true, if_true]
  have hline : (l.rest.drop tag.announcement.length).takeWhile (· != '\n') = [] := by
    rw [hmore, List.drop_left]
    rfl
  have hbody : l.rest.drop (tag.announcement.length + 1) = text := by
    rw [hmore, ← List.drop_drop, List.drop_left]
    rfl
  have hlong : ¬ l.rest.length < tag.announcement.length + 1 := by
    rw [hmore]
    simp
  rw [hfront]
  unfold frontHeredoc
  simp only [hlength, hline, hl.resume, List.length_nil, Nat.add_zero, Option.getD_none, hbody,
    Nat.zero_add]
  rw [if_neg hlong]
  cases HeredocBody.read tag.opener text with
  | none => rfl
  | some body => rfl

/-- A heredoc that no line closes is a fault on the line that announces it. -/
theorem run_of_open_heredoc (hl : l.Settled) (hident : l.afterIdent = true)
    (hr : l.rest = tag.announcement ++ '\n' :: Text.unlines lines)
    (hlines : ∀ line ∈ lines, '\n' ∉ line)
    (hopen : ∀ line ∈ lines, tag.opener.closes line = false) :
    l.run = .error (l.line, .unterminatedHeredoc (String.ofList tag.chars)) := by
  obtain ⟨more, hmore⟩ : ∃ more, l.rest = '<' :: more := ⟨_, hr⟩
  have hfront := front_announcement tag hl hident hmore hr
  rw [HeredocBody.read_open hlines hopen] at hfront
  refine run_error hmore ?_
  rw [step, hfront]
  rfl

/-- A heredoc is read with the line that announces it, and reading goes on behind the line that
closes it. -/
theorem scans_heredoc (hl : l.Settled) (hident : l.afterIdent = true)
    (hbound : l.rest.length ≤ l.bound)
    (hr : l.rest = tag.announcement ++ '\n' :: (Text.unlines (lines ++ [tag.chars]) ++ r))
    (hlines : ∀ line ∈ lines, '\n' ∉ line)
    (hopen : ∀ line ∈ lines, tag.opener.closes line = false) :
    ∃ t u l', Scans l (tag.announcement ++ '\n' :: Text.unlines (lines ++ [tag.chars])) [t, u] l' ∧
      t.lexeme = .string [.text (Text.unlines lines)] ∧ t.spaced = l.spaced ∧
      u.lexeme = .newline := by
  obtain ⟨more, hmore⟩ : ∃ more, l.rest = '<' :: more := ⟨_, hr⟩
  have hfront := front_announcement tag hl hident hmore hr
  rw [HeredocBody.read_closed hlines hopen tag.newline_notMem tag.closes_chars] at hfront
  simp only [List.drop_left] at hfront
  generalize l.pos + (tag.announcement.length + 1) + _ = pos at hfront
  -- the state behind the announcement, where the newline leads behind the body
  obtain ⟨l₁, hl₁⟩ : ∃ l₁ : Lexer, l₁ = { l.advance (tag.announcement.length - 1) 0 with
    previous := some (.string [.text (Text.unlines lines)])
    resume := some ⟨r, pos, lines.length + 1⟩ } := ⟨_, rfl⟩
  have hheredoc : l.step '<' more = .ok (some (l.token (.string [.text (Text.unlines lines)])
      (tag.announcement.length - 1)), l₁) := by
    rw [step, hfront, hl₁]
    rfl
  have hrest : l₁.rest = '\n' :: (Text.unlines (lines ++ [tag.chars]) ++ r) := by
    have hlength : tag.announcement.length = tag.announcement.length - 1 + 1 := by
      simp [HeredocTag.announcement]
    rw [hl₁]
    show l.rest.tail.drop (tag.announcement.length - 1) = _
    rw [← List.drop_one, List.drop_drop, Nat.add_comm, ← hlength, hr, List.drop_left]
  have hlong : r.length < l.bound := by
    rw [hr] at hbound
    simp only [List.length_append, List.length_cons] at hbound
    omega
  have hjump : l₁.jump.rest = r ∧ l₁.jump.resume = none ∧
      l₁.jump.line = l.line + 1 + (lines.length + 1) := by
    simp [hl₁, jump, advance, hlong]
  have hnewline : l₁.step '\n' (Text.unlines (lines ++ [tag.chars]) ++ r) =
      .ok (some (l₁.token .newline 0), { l₁.jump with previous := some .newline }) := rfl
  refine ⟨_, _, _, ⟨(Reads.single hmore hheredoc).trans (.single hrest hnewline), ?_, ?_, ?_⟩,
    rfl, rfl, rfl⟩
  · rw [hr, hjump.1]
    simp
  · have hcount : (Text.unlines (lines ++ [tag.chars])).count '\n' = lines.length + 1 := by
      rw [Text.count_unlines, List.length_append, List.length_singleton]
      simpa [or_imp, forall_and] using ⟨hlines, tag.newline_notMem⟩
    have hannouncement : tag.announcement.count '\n' = 0 := by
      rw [List.count_eq_zero]
      simpa [HeredocTag.announcement] using tag.newline_notMem
    show l₁.jump.line = _
    rw [hjump.2.2, lineAfter, List.count_append, List.count_cons, hcount, hannouncement]
    simp
    omega
  · exact ⟨hjump.2.1, rfl⟩

end Heredoc

end Lexer

/-! ## Declarations with a heredoc -/

/-- A declaration with one property, whose value is a heredoc. -/
structure HeredocDeclaration where
  type : Name
  title : String
  property : Name
  tag : HeredocTag
  title_ok : title.toList.any Text.isLineBreak = false

namespace HeredocDeclaration

variable (d : HeredocDeclaration)

def head : Call :=
  ⟨d.type, [.string d.title], false⟩

theorem isLineBreak_title : ∀ c ∈ d.title.toList, Text.isLineBreak c = false := by
  simpa using List.any_eq_false.1 d.title_ok

def headLine : List Char :=
  d.head.chars ++ " do".toList

/-- The line of the property up to the heredoc. -/
def propertyStart : List Char :=
  "  ".toList ++ d.property.chars ++ [' ']

def propertyLine : List Char :=
  d.propertyStart ++ d.tag.announcement

/-- The lines of the declaration when its heredoc has that body. -/
def lines (body : List (List Char)) : List (List Char) :=
  d.headLine :: d.propertyLine :: (body ++ [d.tag.chars, "end".toList])

/-- The declaration, with that text for the value of its property. -/
def statement (text : List Char) : Statement :=
  .resource d.type.text (some (.literal .string d.title))
    [.property d.property.text [.literal .string (String.ofList text)] none 2] true 1

theorem lineAfter_opening : lineAfter 1 (openingChars d.head .endWord) = 2 := by
  have hname : d.type.chars.count '\n' = 0 := by
    rw [List.count_eq_zero]
    intro h
    exact absurd (d.type.isNameChar_of_mem h) (by decide)
  have htitle : d.title.toList.count '\n' = 0 := by
    rw [List.count_eq_zero]
    intro h
    exact absurd (d.isLineBreak_title _ h) (by decide)
  simp [lineAfter, openingChars, head, Call.chars, listChars, tailChars, Value.chars, openerChars,
    hname, Lexer.count_escape, htitle]

/-- The lexer comes to the announcement of the heredoc behind the name of the property. -/
theorem scans_propertyStart {source r : List Char}
    (hsource : source = d.headLine ++ '\n' :: (d.propertyStart ++ r)) :
    ∃ ts o t u l, Lexer.Scans (Lexer.start source) (d.headLine ++ '\n' :: d.propertyStart)
        (ts ++ [o, t, u]) l ∧
      d.head.Tokens 1 ts ∧ o.lexeme = openerLexeme .endWord ∧ t.lexeme = .newline ∧
      u.lexeme = .ident d.property.text ∧ u.line = 2 ∧
      l.afterIdent = true ∧ l.spaced = true ∧ l.rest.length ≤ l.bound ∧ l.rest = r := by
  have hr : (Lexer.start source).rest =
      openChars 2 d.head ⟨.endWord, []⟩ ++ (d.propertyStart ++ r) := by
    simp [Lexer.start, hsource, headLine, openChars, openingChars, callsChars, openerChars]
  obtain ⟨ts, l₁, hopen, htokens⟩ :=
    Lexer.scans_open d.head ⟨.endWord, []⟩ (Lexer.settled_start source) hr
  have hr₁ : l₁.rest = List.replicate 2 ' ' ++ (d.property.chars ++ ' ' :: r) := by
    rw [hopen.rest_eq hr]
    simp [propertyStart]
  obtain ⟨l₂, hindent⟩ := Lexer.scans_blanks 2 hopen.settled hr₁
  have hr₂ := hindent.rest_eq hr₁
  obtain ⟨u, l₃, hname, hu, hline, -⟩ :=
    Lexer.scans_name d.property hindent.settled hr₂ (endsWord_cons _ (by decide))
  have hr₃ := hname.rest_eq hr₂
  obtain ⟨l₄, hblank, hspaced⟩ := Lexer.scans_blank hname.settled hr₃
  cases htokens with
  | @intro ts us o t hhead ho ht hcalls =>
    cases hcalls
    have hscan : Lexer.Scans (Lexer.start source) (d.headLine ++ '\n' :: d.propertyStart)
        (ts ++ [o, t, u]) l₄ := by
      have h := hopen.trans (hindent.trans (hname.trans hblank))
      simpa [headLine, propertyStart, openChars, openingChars, callsChars, openerChars,
        List.replicate_succ] using h
    have hprevious : l₄.previous = some (.ident d.property.text) := by
      rw [hscan.reads.previous, ← hu]
      simp
    have hafter : l₄.afterIdent = true := by rw [Lexer.afterIdent, hprevious]
    have hline₂ : u.line = 2 := by
      rw [hline, hindent.line, hopen.line]
      have := d.lineAfter_opening
      simpa [lineAfter, openChars, callsChars, Lexer.start] using this
    exact ⟨ts, o, t, u, l₄, hscan, hhead, ho, ht, hu, hline₂, hafter, hspaced,
      hscan.reads.rest_le_bound (Nat.le_refl _), hblank.rest_eq hr₃⟩

/-- The block, with that text for the value of the property. -/
def block (text : List Char) : Block :=
  ⟨.endWord, [⟨d.property, [.string (String.ofList text)], false⟩]⟩

/-- The declaration as a plain one. -/
def plain (text : List Char) : Declaration :=
  ⟨d.type, d.title, false, some (d.block text)⟩

theorem statement_plain {map : LineMap} (hone : map.lineInFile 1 = 1) (htwo : map.lineInFile 2 = 2)
    (text : List Char) : (d.plain text).statement map 2 1 = d.statement text := by
  have hline : lineAfter 1 (openingChars (d.plain text).head .endWord) = 2 := d.lineAfter_opening
  simp only [Declaration.statement, plain, block, Option.elim_some, properties, exprs, Value.expr,
    Option.isSome_some] at hline ⊢
  rw [hline]
  simp [statement, hone, htwo]

section Reading

variable {body : List (List Char)} (hnewline : ∀ line ∈ body, '\n' ∉ line)
  (htag : ∀ line ∈ body, Text.trim line ≠ d.tag.chars)

include htag in
theorem closes_eq_false : ∀ line ∈ body, d.tag.opener.closes line = false := by
  intro line hline
  simpa [HeredocOpener.closes, HeredocTag.opener] using htag line hline

include hnewline htag

/-- The lines up to the one that closes the heredoc have the tokens of a plain declaration before
its block is closed. -/
theorem scans_heredocLines {source r : List Char}
    (hsource : source =
      Text.unlines (d.headLine :: d.propertyLine :: (body ++ [d.tag.chars])) ++ r) :
    ∃ ts l, Lexer.Scans (Lexer.start source)
        (Text.unlines (d.headLine :: d.propertyLine :: (body ++ [d.tag.chars]))) ts l ∧
      OpenTokens 2 1 d.head (d.block (Text.unlines body)) ts := by
  have hlines : Text.unlines (d.headLine :: d.propertyLine :: (body ++ [d.tag.chars])) =
      d.headLine ++ '\n' :: d.propertyStart ++
        (d.tag.announcement ++ '\n' :: Text.unlines (body ++ [d.tag.chars])) := by
    simp [Text.unlines, propertyLine]
  have hsplit : source = d.headLine ++ '\n' :: (d.propertyStart ++
      (d.tag.announcement ++ '\n' :: (Text.unlines (body ++ [d.tag.chars]) ++ r))) := by
    rw [hsource, hlines]
    simp
  obtain ⟨ts, o, t, u, l, hscan, hhead, ho, ht, hu, hline, hafter, hspaced, hbound, hrest⟩ :=
    d.scans_propertyStart hsplit
  obtain ⟨v, w, l', hheredoc, hv, hvspaced, hw⟩ :=
    Lexer.scans_heredoc d.tag hscan.settled hafter hbound hrest hnewline
      (d.closes_eq_false htag)
  rw [hlines]
  refine ⟨_, l', hscan.trans hheredoc, ?_⟩
  have hvalue : ListTokens [.string (String.ofList (Text.unlines body))] [v] :=
    .cons (.atom (by simp [Value.lexeme?, hv])) .nil
  have hcall : Call.Tokens 2 ⟨d.property, [.string (String.ofList (Text.unlines body))], false⟩
      [u, v] := .bare hu hline (hvspaced.trans hspaced) hvalue
  have hcalls : CallsTokens 2 (lineAfter 1 (openingChars d.head .endWord))
      (d.block (Text.unlines body)).calls [u, v, w] := by
    rw [d.lineAfter_opening]
    exact .cons hcall hw .nil
  simpa using OpenTokens.intro hhead ho ht hcalls

theorem read_heredoc {map : LineMap} (hone : map.lineInFile 1 = 1) (htwo : map.lineInFile 2 = 2) :
    BlockContent.read map (Text.unlines (d.lines body)) =
      .ok ⟨[d.statement (Text.unlines body)], none⟩ := by
  have hlines : Text.unlines (d.lines body) =
      Text.unlines (d.headLine :: d.propertyLine :: (body ++ [d.tag.chars])) ++
        (closerChars .endWord ++ ['\n']) := by
    simp [Text.unlines, lines, closerChars]
  obtain ⟨ts, l, hscan, htokens⟩ := d.scans_heredocLines hnewline htag hlines
  have hrest : l.rest = closerChars .endWord ++ '\n' :: [] := hscan.rest_eq hlines
  obtain ⟨c, l₁, hclose, hc⟩ :=
    Lexer.scans_closer .endWord hscan.settled hrest (endsWord_cons _ (by decide))
  obtain ⟨t, l₂, hend, ht⟩ := Lexer.scans_newline hclose.settled (hclose.rest_eq hrest)
  have hall : Lexer.Scans (Lexer.start (Text.unlines (d.lines body)))
      (Text.unlines (d.lines body)) (ts ++ [c, t]) l₂ := by
    have h := hscan.trans (hclose.trans hend)
    rwa [← hlines] at h
  have hdeclaration : (d.plain (Text.unlines body)).Tokens 2 1 (ts ++ [c, t]) :=
    .block rfl htokens hc ht
  have hprint : PrintTokens 2 1 [d.plain (Text.unlines body)] (ts ++ [c, t] ++ []) :=
    .cons hdeclaration .nil
  obtain ⟨e, he, htokenize⟩ := tokenize_of_scans map hall
  refine read_of_statements htokenize ?_
  rw [List.append_nil] at hprint
  rw [BlockSource.statements_print hprint, BlockSource.statements_eof he]
  simp [Except.map, Plain.statements, d.statement_plain hone htwo]

/-- Where the line that closes the heredoc is the last one, the block is left open. -/
theorem read_heredoc_last {map : LineMap} (hone : map.lineInFile 1 = 1) :
    BlockContent.read map
        (Text.unlines (d.headLine :: d.propertyLine :: (body ++ [d.tag.chars]))) =
      .ok ⟨[], some 1⟩ := by
  obtain ⟨ts, l, hscan, htokens⟩ := d.scans_heredocLines hnewline htag (List.append_nil _).symm
  obtain ⟨e, he, htokenize⟩ := tokenize_of_scans map hscan
  refine read_of_statements htokenize ?_
  rw [← List.nil_append [e], BlockSource.statements_open htokens (by simp) he]
  simp [hone]

/-- Where no line closes the heredoc, the block is malformed. -/
theorem read_heredoc_open (map : LineMap) :
    ∃ f, BlockContent.read map (Text.unlines (d.headLine :: d.propertyLine :: body)) =
      .error f := by
  have hlines : Text.unlines (d.headLine :: d.propertyLine :: body) =
      d.headLine ++ '\n' ::
        (d.propertyStart ++ (d.tag.announcement ++ '\n' :: Text.unlines body)) := by
    simp [Text.unlines, propertyLine]
  obtain ⟨ts, o, t, u, l, hscan, -, -, -, -, -, hafter, -, -, hrest⟩ := d.scans_propertyStart hlines
  have hrun := Lexer.run_of_open_heredoc d.tag hscan.settled hafter hrest hnewline
    (d.closes_eq_false htag)
  have htokenize : tokenize map (Text.unlines (d.headLine :: d.propertyLine :: body)) =
      .error ⟨map.lineInFile l.line, .unterminatedHeredoc (String.ofList d.tag.chars)⟩ := by
    rw [tokenize, Lexer.run_of_reads hscan.reads, hrun]
    rfl
  exact ⟨_, by rw [BlockContent.read, htokenize]; rfl⟩

end Reading

end HeredocDeclaration

/-! ## Scanned recipes -/

namespace Section

/-- What the blocks of a recipe are read as. -/
def contents : List Section → Except LexFault (List BlockContent)
  | [] => .ok []
  | .comment _ _ :: rest => contents rest
  | .block text lines _ :: rest => do
    let content ← BlockContent.read lines text
    let more ← contents rest
    return content :: more

theorem contents_block {lines : LineMap} {text : List Char} {content : BlockContent}
    (h : BlockContent.read lines text = .ok content) (t : Bool) (rest : List Section) :
    contents (.block text lines t :: rest) = (contents rest).map (content :: ·) := by
  rw [contents, h]
  cases contents rest <;> rfl

theorem contents_block_error {lines : LineMap} {text : List Char} {f : LexFault}
    (h : BlockContent.read lines text = .error f) (t : Bool) (rest : List Section) :
    contents (.block text lines t :: rest) = .error f := by
  rw [contents, h]
  rfl

theorem endsBlock_iff {line : List Char} :
    endsBlock line = true ↔ line.takeWhile Text.isWordChar = "end".toList := by
  have hend : ∀ c ∈ "end".toList, Text.isWordChar c = true := fun c hc =>
    isWordChar_of_isNameChar (isNameChar_end c hc)
  have hstop (rest : List Char) :
      Text.atWordEnd rest = true ↔ rest.takeWhile Text.isWordChar = [] := by
    cases rest with
    | nil => simp [Text.atWordEnd]
    | cons c more => cases h : Text.isWordChar c <;> simp [Text.atWordEnd, h]
  constructor
  · intro h
    unfold endsBlock at h
    split at h
    · next rest =>
      show ("end".toList ++ rest).takeWhile Text.isWordChar = _
      rw [List.takeWhile_append_of_pos hend, (hstop rest).1 h]
      rfl
    · cases h
  · intro h
    obtain ⟨rest, hrest⟩ : ∃ rest, line = "end".toList ++ rest :=
      ⟨_, by rw [← h, List.takeWhile_append_dropWhile]⟩
    rw [hrest, List.takeWhile_append_of_pos hend] at h
    rw [hrest]
    exact (hstop rest).2 (List.append_right_eq_self.1 h)

/-- A word at the front of a line ends a block if it is `end`. -/
theorem endsBlock_append_iff {w rest : List Char} (hw : ∀ c ∈ w, isNameChar c = true)
    (hrest : ∀ c, rest.head? = some c → Text.isWordChar c = false) :
    endsBlock (w ++ rest) = true ↔ w = "end".toList := by
  rw [endsBlock_iff, takeWhile_of_head (fun c hc => isWordChar_of_isNameChar (hw c hc)) hrest]

theorem isCode_of_mem {line : List Char} {c : Char} (hc : c ∈ line)
    (hblank : Text.isBlank c = false) (hhead : line.head? ≠ some '#') : isCode line = true := by
  have hall : line.all Text.isBlank = false := by
    rw [List.all_eq_false]
    exact ⟨c, hc, by simp [hblank]⟩
  simp [isCode, hall, hhead]

/-- A line that starts with a word is code. -/
theorem isCode_of_isNameChar {c : Char} (hc : isNameChar c = true) (more : List Char) :
    isCode (c :: more) = true := by
  refine isCode_of_mem (List.mem_cons_self ..) (isBlank_of_isNameChar hc) ?_
  rw [List.head?_cons, Ne, Option.some.injEq]
  rintro rfl
  exact absurd hc (by decide)

/-- The name of a call is not the word that ends a block. -/
theorem endsBlock_name (n : Name) {rest : List Char}
    (hrest : ∀ c, rest.head? = some c → Text.isWordChar c = false) :
    endsBlock (n.chars ++ rest) = false := by
  rw [Bool.eq_false_iff, Ne, endsBlock_append_iff (fun _ => n.isNameChar_of_mem) hrest]
  intro hend
  have hkeyword : Keyword.ofSpelling? (String.ofList n.chars) = none := n.not_keyword
  rw [hend] at hkeyword
  exact absurd hkeyword (by decide)

section Steps

variable {line : List Char} (hline : ∀ c ∈ line, Text.isLineBreak c = false)
  (hcode : isCode line = true) (number : Nat) (texts : List (List Char)) (numbers : List Int)
  (rest : List (List Char))

include hline hcode

theorem scanFrom_code (hopen : endsBlock line = false) :
    scanFrom number texts numbers (line :: rest) =
      scanFrom (number + 1) (line :: texts) (Int.ofNat number :: numbers) rest := by
  rw [scanFrom_cons (Text.withoutLineEnd_eq_self hline), if_pos hcode, hopen]
  rfl

theorem scanFrom_end (hend : endsBlock line = true) :
    scanFrom number texts numbers (line :: rest) =
      .block (Text.unlines (line :: texts).reverse) (Int.ofNat number :: numbers).reverse true ::
        scanFrom (number + 1) [] [] rest := by
  rw [scanFrom_cons (Text.withoutLineEnd_eq_self hline), if_pos hcode, if_pos hend]

end Steps

/-- Lines that do not end a block are gathered if they are code, and the blocks of what follows
show only these. -/
theorem contents_scanFrom_append {body : List (List Char)}
    (hbreak : ∀ line ∈ body, ∀ c ∈ line, Text.isLineBreak c = false)
    (hopen : ∀ line ∈ body.filter isCode, endsBlock line = false) (rest : List (List Char)) :
    ∀ (number : Nat) (texts : List (List Char)) (numbers : List Int), ∃ more,
      contents (scanFrom number texts numbers (body ++ rest)) =
        contents (scanFrom (number + body.length) ((body.filter isCode).reverse ++ texts)
          (more ++ numbers) rest) := by
  induction body with
  | nil =>
    intro number texts numbers
    exact ⟨[], rfl⟩
  | cons line body ih =>
    intro number texts numbers
    have hlength : number + (line :: body).length = number + 1 + body.length := by
      simp only [List.length_cons]
      omega
    have ih := ih fun l hl => hbreak l (by simp [hl])
    have hline := Text.withoutLineEnd_eq_self (hbreak line (by simp))
    rw [List.cons_append, scanFrom_cons hline, hlength]
    by_cases hcode : isCode line = true
    · rw [List.filter_cons_of_pos hcode] at hopen ⊢
      obtain ⟨more, hmore⟩ := ih (fun l hl => hopen l (by simp [hl])) (number + 1) (line :: texts)
        (Int.ofNat number :: numbers)
      refine ⟨more ++ [Int.ofNat number], ?_⟩
      rw [if_pos hcode, hopen line (by simp)]
      simpa using hmore
    · rw [List.filter_cons_of_neg hcode] at hopen ⊢
      obtain ⟨more, hmore⟩ := ih hopen (number + 1) texts numbers
      refine ⟨more, ?_⟩
      rw [if_neg hcode]
      split
      · exact hmore
      · exact hmore

end Section

namespace HeredocDeclaration

open Section

variable (d : HeredocDeclaration)

theorem headLine_eq : d.headLine =
    d.type.chars ++ ' ' :: '\'' :: (d.title.toList.flatMap escape ++ "' do".toList) := by
  simp [headLine, head, Call.chars, listChars, tailChars, Value.chars]

theorem isLineBreak_headLine : ∀ c ∈ d.headLine, Text.isLineBreak c = false := by
  have htype : ∀ c ∈ d.type.chars, Text.isLineBreak c = false :=
    isLineBreak_of_word fun _ => d.type.isNameChar_of_mem
  have htitle := isLineBreak_escape d.isLineBreak_title
  have hrest : "' do".toList.all (fun c => !Text.isLineBreak c) = true := by decide
  intro c hc
  simp only [headLine_eq, List.mem_append, List.mem_cons] at hc
  rcases hc with hc | rfl | rfl | hc | hc
  · exact htype c hc
  · decide
  · decide
  · exact htitle c hc
  · simpa using List.all_eq_true.1 hrest c hc

theorem isLineBreak_tag : ∀ c ∈ d.tag.chars, Text.isLineBreak c = false :=
  isLineBreak_of_word fun _ => d.tag.isNameChar_of_mem

theorem isLineBreak_propertyLine : ∀ c ∈ d.propertyLine, Text.isLineBreak c = false := by
  have hname : ∀ c ∈ d.property.chars, Text.isLineBreak c = false :=
    isLineBreak_of_word fun _ => d.property.isNameChar_of_mem
  have hmarks : " <<-'".toList.all (fun c => !Text.isLineBreak c) = true := by decide
  intro c hc
  have hparts : c ∈ " <<-'".toList ∨ c ∈ d.property.chars ∨ c ∈ d.tag.chars := by
    simp only [propertyLine, propertyStart, HeredocTag.announcement, List.mem_append] at hc
    rcases hc with ((hc | hc) | hc) | (hc | hc) | hc <;> simp_all
  rcases hparts with hc | hc | hc
  · simpa using List.all_eq_true.1 hmarks c hc
  · exact hname c hc
  · exact d.isLineBreak_tag c hc

theorem isCode_headLine : isCode d.headLine = true := by
  rw [headLine_eq]
  exact isCode_of_isNameChar (d.type.isNameChar_of_mem (List.mem_cons_self ..)) _

theorem isCode_propertyLine : isCode d.propertyLine = true :=
  isCode_of_mem (c := '<') (by simp [propertyLine, HeredocTag.announcement]) (by decide)
    (by simp [propertyLine, propertyStart])

theorem isCode_tag : isCode d.tag.chars = true :=
  isCode_of_isNameChar (d.tag.isNameChar_of_mem (List.mem_cons_self ..)) _

theorem endsBlock_headLine : endsBlock d.headLine = false := by
  rw [headLine_eq]
  apply endsBlock_name
  rintro _ ⟨⟩
  decide +kernel

theorem endsBlock_tag_iff : endsBlock d.tag.chars = true ↔ d.tag.chars = "end".toList := by
  rw [← List.append_nil d.tag.chars]
  rw [endsBlock_append_iff (fun _ => d.tag.isNameChar_of_mem) (by simp), List.append_nil]

/-- The first block of a recipe that starts with the declaration: its lines of code up to the first
one that ends a block. -/
theorem contents_scan {body : List (List Char)} {last : List Char}
    (hbreak : ∀ line ∈ body, ∀ c ∈ line, Text.isLineBreak c = false)
    (hopen : ∀ line ∈ body.filter isCode, endsBlock line = false)
    (hlast : ∀ c ∈ last, Text.isLineBreak c = false) (hcode : isCode last = true)
    (hend : endsBlock last = true) (rest : List (List Char)) :
    ∃ (map : LineMap) (number : Nat), map.lineInFile 1 = 1 ∧ map.lineInFile 2 = 2 ∧
      contents (scan (d.headLine :: d.propertyLine :: (body ++ last :: rest))) =
        contents (.block
            (Text.unlines (d.headLine :: d.propertyLine :: (body.filter isCode ++ [last])))
            map true ::
          scanFrom number [] [] rest) := by
  have hfirst : scan (d.headLine :: d.propertyLine :: (body ++ last :: rest)) =
      scanFrom 3 [d.propertyLine, d.headLine] [2, 1] (body ++ last :: rest) := by
    rw [scan, scanFrom_code d.isLineBreak_headLine d.isCode_headLine _ _ _ _ d.endsBlock_headLine,
      scanFrom_code d.isLineBreak_propertyLine d.isCode_propertyLine _ _ _ _ rfl]
    rfl
  obtain ⟨more, hmore⟩ := contents_scanFrom_append hbreak hopen (last :: rest) 3
    [d.propertyLine, d.headLine] [2, 1]
  refine ⟨1 :: 2 :: (more.reverse ++ [Int.ofNat (3 + body.length)]), 3 + body.length + 1, rfl, rfl,
    ?_⟩
  rw [hfirst, hmore, scanFrom_end hlast hcode _ _ _ _ hend]
  simp

section Contents

variable {body : List (List Char)}
  (hbreak : ∀ line ∈ body, ∀ c ∈ line, Text.isLineBreak c = false)
  (htag : ∀ line ∈ body, Text.trim line ≠ d.tag.chars)

include hbreak in
theorem newline_notMem_filter : ∀ line ∈ body.filter isCode, '\n' ∉ line := by
  intro line hline hmem
  exact absurd (hbreak line (List.mem_filter.1 hline).1 _ hmem) (by decide)

include htag in
theorem trim_ne_of_mem_filter : ∀ line ∈ body.filter isCode, Text.trim line ≠ d.tag.chars :=
  fun line hline => htag line (List.mem_filter.1 hline).1

include hbreak htag

/-- Where nothing ends the block too early, one declaration is read, with the lines of code. -/
theorem contents_of_open (hopen : ∀ line ∈ body.filter isCode, endsBlock line = false)
    (hend : d.tag.chars ≠ "end".toList) :
    contents (scan (d.lines body)) =
      .ok [⟨[d.statement (Text.unlines (body.filter isCode))], none⟩] := by
  have htagOpen : endsBlock d.tag.chars = false := by
    rw [Bool.eq_false_iff, Ne, endsBlock_tag_iff]
    exact hend
  have hfilter : (body ++ [d.tag.chars]).filter isCode = body.filter isCode ++ [d.tag.chars] := by
    simp [d.isCode_tag]
  have hbreak' : ∀ line ∈ body ++ [d.tag.chars], ∀ c ∈ line, Text.isLineBreak c = false := by
    simpa [or_imp, forall_and] using ⟨hbreak, d.isLineBreak_tag⟩
  have hopen' : ∀ line ∈ (body ++ [d.tag.chars]).filter isCode, endsBlock line = false := by
    simpa [hfilter, or_imp, forall_and, htagOpen] using hopen
  obtain ⟨map, number, hone, htwo, hscan⟩ := d.contents_scan hbreak' hopen'
    (isLineBreak_of_word isNameChar_end) (by decide) (by decide) []
  have hread := d.read_heredoc (newline_notMem_filter hbreak) (d.trim_ne_of_mem_filter htag)
    hone htwo
  rw [lines] at hread ⊢
  simp only [hfilter, List.append_assoc, List.singleton_append] at hscan
  rw [hscan, contents_block hread]
  rfl

/-- Where the tag is the word that ends blocks, the declaration is left open. -/
theorem contents_of_end (hopen : ∀ line ∈ body.filter isCode, endsBlock line = false)
    (hend : d.tag.chars = "end".toList) :
    ∃ more : Except LexFault (List BlockContent),
      contents (scan (d.lines body)) = more.map (⟨[], some 1⟩ :: ·) := by
  obtain ⟨map, number, hone, -, hscan⟩ := d.contents_scan hbreak hopen d.isLineBreak_tag
    d.isCode_tag (d.endsBlock_tag_iff.2 hend) ["end".toList]
  have hread := d.read_heredoc_last (newline_notMem_filter hbreak) (d.trim_ne_of_mem_filter htag)
    hone
  rw [lines, hscan, contents_block hread]
  exact ⟨_, rfl⟩

/-- Where a line of the body ends the block, the heredoc has no end. -/
theorem contents_of_early_end (h : ∃ line ∈ body.filter isCode, endsBlock line = true) :
    ∃ f, contents (scan (d.lines body)) = .error f := by
  -- the first such line, before which nothing ends the block
  obtain ⟨last, hfind⟩ :
      ∃ last, body.find? (fun line => isCode line && endsBlock line) = some last := by
    rw [← Option.isSome_iff_exists, List.find?_isSome]
    obtain ⟨line, hline, hend⟩ := h
    rw [List.mem_filter] at hline
    exact ⟨line, hline.1, by simp [hline.2, hend]⟩
  obtain ⟨hlast, before, after, rfl, hbefore⟩ := List.find?_eq_some_iff_append.1 hfind
  rw [Bool.and_eq_true] at hlast
  have hopen : ∀ line ∈ before.filter isCode, endsBlock line = false := by
    intro line hline
    rw [List.mem_filter] at hline
    simpa [hline.2] using hbefore line hline.1
  obtain ⟨map, number, -, -, hscan⟩ := d.contents_scan
    (fun line hline => hbreak line (by simp [hline])) hopen (hbreak last (by simp)) hlast.1 hlast.2
    (after ++ [d.tag.chars, "end".toList])
  have hmem : ∀ line ∈ before.filter isCode ++ [last], line ∈ before ++ last :: after := by
    intro line hline
    rw [List.mem_append, List.mem_filter, List.mem_singleton] at hline
    rcases hline with hline | rfl
    · simp [hline.1]
    · simp
  obtain ⟨f, hread⟩ := d.read_heredoc_open
    (fun line hline hc => absurd (hbreak line (hmem line hline) _ hc) (by decide))
    (fun line hline => htag line (hmem line hline)) map
  refine ⟨f, ?_⟩
  rw [lines, List.append_assoc, List.cons_append, hscan, contents_block_error hread]

end Contents

theorem statement_inj {a b : List Char} : d.statement a = d.statement b ↔ a = b := by
  simp only [statement, Statement.resource.injEq, Statement.property.injEq, List.cons.injEq,
    Expr.literal.injEq, true_and, and_true]
  exact String.ofList_inj

theorem splitLines_lines {body : List (List Char)}
    (hbreak : ∀ line ∈ body, ∀ c ∈ line, Text.isLineBreak c = false) :
    Text.splitLines (Text.unlines (d.lines body)) = d.lines body := by
  apply Text.splitLines_unlines
  intro line hline
  simp only [lines, List.mem_cons, List.mem_append, List.not_mem_nil, or_false] at hline
  rcases hline with rfl | rfl | hline | rfl | rfl
  · exact d.isLineBreak_headLine
  · exact d.isLineBreak_propertyLine
  · exact hbreak line hline
  · exact d.isLineBreak_tag
  · exact isLineBreak_of_word isNameChar_end

/-- When one declaration is read, and what its property is then. -/
theorem contents_eq_ok_iff {body : List (List Char)}
    (hbreak : ∀ line ∈ body, ∀ c ∈ line, Text.isLineBreak c = false)
    (htag : ∀ line ∈ body, Text.trim line ≠ d.tag.chars) {text : List Char} :
    contents (scan (d.lines body)) = .ok [⟨[d.statement text], none⟩] ↔
      (∀ line ∈ body.filter isCode, endsBlock line = false) ∧
        d.tag.chars ≠ "end".toList ∧ text = Text.unlines (body.filter isCode) := by
  by_cases hopen : ∀ line ∈ body.filter isCode, endsBlock line = false
  · by_cases hend : d.tag.chars = "end".toList
    · obtain ⟨more, hmore⟩ := d.contents_of_end hbreak htag hopen hend
      rw [hmore]
      cases more <;> simp [Except.map, hend]
    · rw [d.contents_of_open hbreak htag hopen hend]
      simp only [Except.ok.injEq, List.cons.injEq, BlockContent.mk.injEq, statement_inj, and_true]
      exact ⟨fun h => ⟨hopen, hend, h.symm⟩, fun h => h.2.2.symm⟩
  · have hearly : ∃ line ∈ body.filter isCode, endsBlock line = true := by
      by_contra hnone
      exact hopen fun line hline => Bool.eq_false_iff.2 fun hend => hnone ⟨line, hline, hend⟩
    obtain ⟨f, hf⟩ := d.contents_of_early_end hbreak htag hearly
    rw [hf]
    exact ⟨fun h => (nomatch h), fun h => absurd h.1 hopen⟩

end HeredocDeclaration

/-- Lines without newlines are told apart by their text. -/
theorem Text.unlines_inj {a b : List (List Char)} (ha : ∀ line ∈ a, '\n' ∉ line)
    (hb : ∀ line ∈ b, '\n' ∉ line) : unlines a = unlines b ↔ a = b := by
  constructor
  · intro h
    rw [← newlineLines_unlines ha, h, newlineLines_unlines hb]
  · rintro rfl
    rfl

open Section in
/-- A declaration whose one property is a heredoc. Read as it stands, the property has the lines of
the body. In a scanned recipe it has the lines of the body that are code, provided that none of
these ends a block and the tag is not the word that does; otherwise the declaration is lost. So the
body comes through exactly if all its lines are code that ends no block. -/
theorem contents_heredoc (d : HeredocDeclaration) (body : List (List Char))
    (hbreak : ∀ line ∈ body, ∀ c ∈ line, Text.isLineBreak c = false)
    (htag : ∀ line ∈ body, Text.trim line ≠ d.tag.chars) :
    let source := Text.unlines (d.lines body)
    BlockContent.read [] source = .ok ⟨[d.statement (Text.unlines body)], none⟩ ∧
      (∀ text, contents (scan (Text.splitLines source)) = .ok [⟨[d.statement text], none⟩] ↔
        (∀ line ∈ body.filter isCode, endsBlock line = false) ∧
          d.tag.chars ≠ "end".toList ∧ text = Text.unlines (body.filter isCode)) ∧
      (contents (scan (Text.splitLines source)) =
          .ok [⟨[d.statement (Text.unlines body)], none⟩] ↔
        (∀ line ∈ body, isCode line = true ∧ endsBlock line = false) ∧
          d.tag.chars ≠ "end".toList) := by
  intro source
  have hnewline : ∀ line ∈ body, '\n' ∉ line := fun line hline hc =>
    absurd (hbreak line hline _ hc) (by decide)
  have hkept : Text.unlines body = Text.unlines (body.filter isCode) ↔
      ∀ line ∈ body, isCode line = true := by
    rw [Text.unlines_inj hnewline (HeredocDeclaration.newline_notMem_filter hbreak), eq_comm,
      List.filter_eq_self]
  rw [d.splitLines_lines hbreak]
  refine ⟨d.read_heredoc hnewline htag rfl rfl, fun text => d.contents_eq_ok_iff hbreak htag, ?_⟩
  rw [d.contents_eq_ok_iff hbreak htag, hkept]
  constructor
  · rintro ⟨hopen, hend, hcode⟩
    refine ⟨fun line hline => ⟨hcode line hline, ?_⟩, hend⟩
    exact hopen line (List.mem_filter.2 ⟨hline, hcode line hline⟩)
  · rintro ⟨hcode, hend⟩
    exact ⟨fun line hline => (hcode line (List.mem_filter.1 hline).1).2, hend,
      fun line hline => (hcode line hline).1⟩

open Section in
/-- A body with a line that is blank, one that is a comment and one that ends a block only when it
is not indented. -/
theorem contents_heredoc_of_script :
    let file : Name := ⟨⟨'f', "ile".toList, by decide, by decide⟩, by decide, by decide⟩
    let content : Name := ⟨⟨'c', "ontent".toList, by decide, by decide⟩, by decide, by decide⟩
    let tag : HeredocTag := ⟨'E', "OF".toList, by decide, by decide⟩
    let d : HeredocDeclaration := ⟨file, "n", content, tag, by decide⟩
    let body := ["if a", "", "# b", "  end"].map String.toList
    let source := "file 'n' do\n  content <<-'EOF'\nif a\n\n# b\n  end\nEOF\nend\n"
    Text.unlines (d.lines body) = source.toList ∧
      (∀ line ∈ body, ∀ c ∈ line, Text.isLineBreak c = false) ∧
      (∀ line ∈ body, Text.trim line ≠ d.tag.chars) ∧
      contents (scan (Text.splitLines source.toList)) =
        .ok [⟨[d.statement "if a\n  end\n".toList], none⟩] := by
  intro file content tag d body source
  have hsource : Text.unlines (d.lines body) = source.toList := by decide
  have hbreak : ∀ line ∈ body, ∀ c ∈ line, Text.isLineBreak c = false := by
    have h : (body.all fun line => line.all fun c => !Text.isLineBreak c) = true := by decide
    simpa only [List.all_eq_true, Bool.not_eq_true'] using h
  have htag : ∀ line ∈ body, Text.trim line ≠ d.tag.chars := by decide
  obtain ⟨-, hcontents, -⟩ := contents_heredoc d body hbreak htag
  rw [hsource] at hcontents
  refine ⟨hsource, hbreak, htag, (hcontents _).2 ⟨?_, by decide, by decide⟩⟩
  decide

open Section in
/-- A blank line of the body is lost. -/
theorem contents_heredoc_loses_blank_line :
    let file : Name := ⟨⟨'f', "ile".toList, by decide, by decide⟩, by decide, by decide⟩
    let content : Name := ⟨⟨'c', "ontent".toList, by decide, by decide⟩, by decide, by decide⟩
    let tag : HeredocTag := ⟨'E', "OF".toList, by decide, by decide⟩
    let d : HeredocDeclaration := ⟨file, "n", content, tag, by decide⟩
    let body := ["a", "", "b"].map String.toList
    let source := "file 'n' do\n  content <<-'EOF'\na\n\nb\nEOF\nend\n"
    Text.unlines (d.lines body) = source.toList ∧
      (∀ line ∈ body, ∀ c ∈ line, Text.isLineBreak c = false) ∧
      (∀ line ∈ body, Text.trim line ≠ d.tag.chars) ∧
      contents (scan (Text.splitLines source.toList)) ≠
        .ok [⟨[d.statement "a\n\nb\n".toList], none⟩] := by
  intro file content tag d body source
  have hsource : Text.unlines (d.lines body) = source.toList := by decide
  have hbreak : ∀ line ∈ body, ∀ c ∈ line, Text.isLineBreak c = false := by
    have h : (body.all fun line => line.all fun c => !Text.isLineBreak c) = true := by decide
    simpa only [List.all_eq_true, Bool.not_eq_true'] using h
  have htag : ∀ line ∈ body, Text.trim line ≠ d.tag.chars := by decide
  refine ⟨hsource, hbreak, htag, ?_⟩
  rw [← hsource, d.splitLines_lines hbreak, Ne, d.contents_eq_ok_iff hbreak htag]
  decide

end RecipeManifest

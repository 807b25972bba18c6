import RecipeManifest.Proofs.CodeDepth
import RecipeManifest.Proofs.PaddedStatements
import RecipeManifest.Proofs.PrecedingText

/-!
Comment lines between the lines of a block.

A line that holds a comment and nothing else gives one more line end to the tokens of a text
(`tokens_comment`), and more line ends do not change what is read (`matched_statements`). Main
statement (`read_comment`): behind a line end a comment line can be put in without changing the
statements, but for their lines and the text of code outside the grammar. There are two exceptions:
line ends behind which code outside the grammar goes on outside of brackets, and line ends inside a
literal that was read before, which runs over the line of a heredoc's opener.
-/

namespace RecipeManifest

/-! ## The tokens of a comment line -/

/-- Blanks, the mark of a comment, its text and the end of the line. -/
def commentLine (blanks note : List Char) : List Char :=
  blanks ++ '#' :: note ++ ['\n']

namespace Lexer

variable {l : Lexer} {r : List Char}

/-- A step that makes no token. -/
theorem reads_blank {c : Char} {more : List Char} {used lines : Nat} (hr : l.rest = c :: more)
    (hf : l.front c more = .ok (.blank used lines)) : Reads l [] (l.advance used lines) := by
  have hs : l.step c more = .ok (none, l.advance used lines) := by
    rw [step, hf]
    rfl
  exact .single hr hs

theorem reads_blanks {blanks : List Char} (hblanks : ∀ c ∈ blanks, c = ' ' ∨ c = '\t' ∨ c = '\r')
    (hr : l.rest = blanks ++ r) :
    ∃ l', Reads l [] l' ∧ l'.rest = r ∧ l'.resume = l.resume := by
  induction blanks generalizing l with
  | nil => exact ⟨l, .refl l, hr, rfl⟩
  | cons c blanks ih =>
    have hf : l.front c (blanks ++ r) = .ok (.blank 0 0) := by
      obtain rfl | rfl | rfl := hblanks c List.mem_cons_self <;> rfl
    have hrest : (l.advance 0 0).rest = blanks ++ r := by simp [advance, hr]
    obtain ⟨l', hreads, hrest', hresume⟩ :=
      ih (fun d hd => hblanks d (List.mem_cons_of_mem c hd)) hrest
    exact ⟨l', (reads_blank hr hf).trans hreads, hrest', hresume⟩

/-- A comment line makes the line end and nothing else. -/
theorem reads_commentLine {blanks note : List Char}
    (hblanks : ∀ c ∈ blanks, c = ' ' ∨ c = '\t' ∨ c = '\r') (hnote : '\n' ∉ note)
    (hr : l.rest = commentLine blanks note ++ r) (hresume : l.resume = none) :
    ∃ t l', Reads l [t] l' ∧ t.lexeme = .newline ∧ l'.rest = r ∧ l'.resume = none := by
  have hline : l.rest = blanks ++ ('#' :: note ++ '\n' :: r) := by
    rw [hr]
    simp [commentLine]
  obtain ⟨l₁, hreads, hrest₁, hresume₁⟩ := reads_blanks hblanks hline
  have hused : ((note ++ '\n' :: r).takeWhile (· != '\n')).length = note.length := by
    rw [List.takeWhile_append_of_pos]
    · simp
    · intro d hd
      rw [bne_iff_ne]
      rintro rfl
      exact hnote hd
  have hf : l₁.front '#' (note ++ '\n' :: r) = .ok (.blank note.length 0) := by
    show Except.ok (Front.blank ((note ++ '\n' :: r).takeWhile (· != '\n')).length 0) = _
    rw [hused]
  have hcomment := reads_blank hrest₁ hf
  have hrest₂ : (l₁.advance note.length 0).rest = '\n' :: r := by
    simp [advance, hrest₁]
  have hpending : (l₁.advance note.length 0).resume = none := hresume₁.trans hresume
  have hs : (l₁.advance note.length 0).step '\n' r =
      .ok (some ((l₁.advance note.length 0).token .newline 0),
        { (l₁.advance note.length 0).advance 0 1 with previous := some .newline }) := by
    rw [step, ← jump_of_resume_none hpending]
    rfl
  refine ⟨_, _, (hreads.trans hcomment).trans (.single hrest₂ hs), rfl, ?_, hpending⟩
  show (l₁.advance note.length 0).rest.tail.drop 0 = r
  rw [hrest₂]
  rfl

/-- The tokens that some steps make, and the place they lead to. -/
def steps : Nat → Lexer → Option (List Token × Lexer)
  | 0, l => some ([], l)
  | n + 1, l =>
    match l.rest with
    | [] => none
    | c :: more =>
      match l.step c more with
      | .error _ => none
      | .ok (t, next) => (steps n next).map fun (ts, last) => (t.toList ++ ts, last)

theorem reads_of_steps {n : Nat} {l l' : Lexer} {ts : List Token}
    (h : steps n l = some (ts, l')) : Reads l ts l' := by
  induction n generalizing l ts with
  | zero =>
    cases h
    exact .refl _
  | succ n ih =>
    rw [steps] at h
    split at h
    · cases h
    · next c more hr =>
      split at h
      · cases h
      · next t next hs =>
        obtain ⟨⟨us, last⟩, hus, heq⟩ := Option.map_eq_some_iff.1 h
        cases heq
        exact .step hr hs (ih hus)

/-- From the start of `a`, a newline and `b` the lexer has come to the newline. No body of a heredoc
lies ahead, and no token before has reached behind the newline. -/
structure AtLineEnd (a b : List Char) (ts : List Token) (l : Lexer) : Prop where
  reads : Reads (start (a ++ '\n' :: b)) ts l
  rest : l.rest = '\n' :: b
  resume : l.resume = none
  stops : ∀ t ∈ ts, t.stop ≤ l.pos

/-- Whatever follows such a newline is read as a text of its own. -/
theorem AtLineEnd.run {a b : List Char} {ts : List Token} (h : l.AtLineEnd a b ts)
    (text : List Char) :
    (start (a ++ '\n' :: text)).run =
      match (start text).run with
      | .ok us => .ok (ts ++ l.token .newline 0 :: us.map (Token.shift (a.length + 1) l.line))
      | .error (line, cause) => .error (line + l.line, cause) := by
  have hends : EndsLine (a ++ ['\n']) := by simp [EndsLine]
  have hin : (start (a ++ ['\n'])).InLines := ⟨.inr hends, by rintro r ⟨⟩⟩
  have happend (text : List Char) : a ++ '\n' :: text = a ++ ['\n'] ++ text := by simp
  have hreads := h.reads
  rw [happend, ← extend_start] at hreads
  obtain ⟨l₀, hreads₀, rfl⟩ := hreads.of_extend rfl hin
    (by rw [extend_start]; exact placed_start _) h.resume h.stops (by rw [h.rest]; simp)
  have hrest₀ : l₀.rest = ['\n'] := by
    have : l₀.rest ++ b = ['\n'] ++ b := h.rest
    exact List.append_cancel_right this
  have hresume₀ : l₀.resume = none := by
    have : l₀.resume.map (Resume.extend b) = none := h.resume
    simpa using this
  have hs : l₀.step '\n' [] =
      .ok (some (l₀.token .newline 0), { l₀.advance 0 1 with previous := some .newline }) := by
    rw [step, ← jump_of_resume_none hresume₀]
    rfl
  have hreads₁ := hreads₀.trans (.single hrest₀ hs)
  have hrun := run_append_of_reads hreads₁ (by simp [advance, hrest₀]) hends
    (List.getLast?_concat ..) rfl hresume₀ text
  rw [happend, hrun]
  cases (start text).run with
  | error e => rfl
  | ok us =>
    show Except.ok (ts ++ [l₀.token .newline 0] ++
      us.map (Token.shift (a ++ ['\n']).length (l₀.line + 1 - 1))) = _
    rw [List.length_append, Nat.add_sub_cancel, List.append_assoc]
    rfl

end Lexer

/-! ## The statements around a comment line -/

namespace BlockContent

/-- The statements without their lines and without the text of code outside the grammar, and
whether the text ends inside one. -/
def outline (c : BlockContent) : List Statement × Bool :=
  (Statement.outlineAll c.statements, c.unterminatedLine.isSome)

/-- What is read from a text apart from lines and the text of code outside the grammar, or the
cause of the fault. -/
def readOutline (lines : LineMap) (source : List Char) :
    Except Malformed (List Statement × Bool) :=
  match BlockContent.read lines source with
  | .ok content => .ok content.outline
  | .error f => .error f.cause

theorem readOutline_of_tokenize {lines : LineMap} {source : List Char} {tokens : List Token}
    (h : tokenize lines source = .ok tokens) :
    readOutline lines source =
      match (BlockSource.mk source lines).statements tokens with
      | .ok (items, line) => .ok (Statement.outlineAll items, line.isSome)
      | .error f => .error f.cause := by
  unfold readOutline BlockContent.read
  rw [h]
  cases hread : (BlockSource.mk source lines).statements tokens <;>
    simp [bind, Except.bind, pure, Except.pure, hread, outline]

/-- The line ends outside all blocks and brackets behind which code outside the grammar goes on. -/
def openBreaks (lines : LineMap) (source : List Char) : List Token :=
  match tokenize lines source with
  | .ok tokens => (BlockSource.mk source lines).passedBreaks none tokens
  | .error _ => []

end BlockContent

open Lexer in
/-- The tokens of a text with a comment line behind a line end are those of the text, moved from
there on, with one more line end. -/
theorem tokens_comment {a b : List Char} {ts : List Token} {l : Lexer} (h : l.AtLineEnd a b ts)
    {blanks note : List Char} (hblanks : ∀ c ∈ blanks, c = ' ' ∨ c = '\t' ∨ c = '\r')
    (hnote : '\n' ∉ note) :
    (∃ line line' cause, (start (a ++ '\n' :: b)).run = .error (line, cause) ∧
      (start (a ++ '\n' :: (commentLine blanks note ++ b))).run = .error (line', cause)) ∨
    ∃ us vs n, (start (a ++ '\n' :: b)).run = .ok (ts ++ l.token .newline 0 :: us) ∧
      (start (a ++ '\n' :: (commentLine blanks note ++ b))).run =
        .ok (ts ++ l.token .newline 0 :: n :: vs) ∧
      n.lexeme = .newline ∧
      List.Forall₂ (fun u v => v.lexeme = u.lexeme ∧ v.spaced = u.spaced) us vs := by
  obtain ⟨n, l', hreads, hn, hend, hresume⟩ :=
    reads_commentLine (l := start (commentLine blanks note)) (r := []) hblanks hnote
      (by simp [start]) rfl
  have hsep : n.lexeme.isSeparator = true := by
    rw [hn]
    rfl
  have hcomment := run_append_of_reads hreads hend (List.getLast?_concat ..) rfl hsep hresume b
  rw [h.run, h.run, hcomment]
  cases (start b).run with
  | error e => exact .inl ⟨_, _, e.2, rfl, rfl⟩
  | ok us =>
    refine .inr ⟨_, _, _, rfl, rfl, hn, ?_⟩
    simp [List.forall₂_map_left_iff, List.forall₂_map_right_iff, Token.shift, List.forall₂_same]

/-- Tokens with one more line end behind the line end `t`, and otherwise alike, are read as those of
a padded text. The code in strings is read to the same value, as no text is too short for it. -/
theorem padded_tokens {source source' : List Char} (hlength : source.length ≤ source'.length)
    {lines : LineMap} (lines' : LineMap) {ts us vs : List Token} {t n : Token}
    (htokens : tokenize lines source = .ok (ts ++ t :: us)) (ht : t.lexeme = .newline)
    (hn : n.lexeme = .newline)
    (halike : List.Forall₂ (fun u v => v.lexeme = u.lexeme ∧ v.spaced = u.spaced) us vs) :
    ((BlockSource.mk source lines).padding ⟨source', lines'⟩ (· = t)).Padded (ts ++ t :: us)
      (ts ++ t :: n :: vs) := by
  have hcode : ∀ u ∈ ts ++ t :: us, ∀ parts, u.lexeme = .string parts →
      ∀ code, Part.code code ∈ parts →
        codeValue source'.length code = codeValue source.length code := by
    intro u hu parts hparts code hcode
    have hlt := length_code_lt htokens hu hparts hcode
    exact codeValue_eq (by omega) (by omega)
  have hbehind := (List.forall₂_and_left us vs).2 ⟨fun u (hu : u ∈ us) => hu, halike⟩
  apply Padding.Padded.append
  · exact List.forall₂_same.2 fun u hu => ⟨rfl, rfl, hcode u (List.mem_append_left _ hu)⟩
  · refine .extra ⟨rfl, rfl, hcode t (by simp)⟩ ht rfl hn (.of_forall₂ (hbehind.imp ?_))
    rintro u v ⟨hu, hlexeme, hspaced⟩
    exact ⟨hlexeme, hspaced, hcode u (List.mem_append_right _ (List.mem_cons_of_mem _ hu))⟩

/-- A comment line behind a line end changes no statement, but for lines and the text of code
outside the grammar, and not whether the text ends inside a statement. The line end must be none
behind which code outside the grammar goes on outside all blocks and brackets. -/
theorem read_comment {a b : List Char} {ts : List Token} {l : Lexer} (h : l.AtLineEnd a b ts)
    {blanks note : List Char} (hblanks : ∀ c ∈ blanks, c = ' ' ∨ c = '\t' ∨ c = '\r')
    (hnote : '\n' ∉ note) (lines lines' : LineMap)
    (hopen : l.token .newline 0 ∉ BlockContent.openBreaks lines (a ++ '\n' :: b)) :
    BlockContent.readOutline lines' (a ++ '\n' :: (commentLine blanks note ++ b)) =
      BlockContent.readOutline lines (a ++ '\n' :: b) := by
  generalize hsource : a ++ '\n' :: b = source at hopen ⊢
  generalize hsource' : a ++ '\n' :: (commentLine blanks note ++ b) = source'
  have hlength : source.length ≤ source'.length := by
    simp only [← hsource, ← hsource', List.length_append, List.length_cons]
    omega
  obtain ⟨line, line', cause, hrun, hrun'⟩ | ⟨us, vs, n, hrun, hrun', hn, halike⟩ :=
    tokens_comment h hblanks hnote
  · rw [hsource] at hrun
    rw [hsource'] at hrun'
    unfold BlockContent.readOutline BlockContent.read tokenize
    rw [hrun, hrun']
    rfl
  · rw [hsource] at hrun
    rw [hsource'] at hrun'
    have htokens : tokenize lines source = .ok (ts ++ l.token .newline 0 :: us) :=
      tokenize_eq_ok.2 hrun
    have htokens' : tokenize lines' source' = .ok (ts ++ l.token .newline 0 :: n :: vs) :=
      tokenize_eq_ok.2 hrun'
    rw [BlockContent.openBreaks, htokens] at hopen
    have hpadded := padded_tokens hlength lines' htokens rfl hn halike
    have hpassed : ∀ t ∈ (BlockSource.mk source lines).passedBreaks none
        (ts ++ l.token .newline 0 :: us), ¬ t = l.token .newline 0 := by
      rintro t ht rfl
      exact hopen ht
    rw [BlockContent.readOutline_of_tokenize htokens, BlockContent.readOutline_of_tokenize htokens']
    obtain ⟨f, hts, hus⟩ | ⟨items, items', line, line', hts, hus, hitems, hline⟩ :=
      BlockSource.matched_statements _ _ hpadded hpassed
    · rw [hts, hus]
    · rw [hts, hus]
      dsimp only
      rw [hitems, hline]

section Example

open Lexer

/-- The tokens of code outside the grammar in two lines, and of a command up to the end of its
first line. -/
def openedTokens : List Token :=
  [⟨.ident "x", 1, 0, 1, false⟩, ⟨.op .plus, 1, 2, 3, true⟩, ⟨.newline, 1, 3, 4, false⟩,
    ⟨.ident "z", 2, 4, 5, false⟩, ⟨.newline, 2, 5, 6, false⟩, ⟨.ident "f", 3, 6, 7, false⟩,
    ⟨.ident "a", 3, 8, 9, true⟩, ⟨.op .comma, 3, 9, 10, false⟩]

/-- The lexer behind these tokens. -/
def openedLexer : Lexer :=
  ⟨"\nb do\nend\n".toList, 10, 3, false, some (.op .comma), none, 20⟩

theorem read_comment_arguments :
    openedLexer.AtLineEnd "x +\nz\nf a,".toList "b do\nend\n".toList openedTokens ∧
    BlockContent.openBreaks [] "x +\nz\nf a,\nb do\nend\n".toList =
      [⟨.newline, 1, 3, 4, false⟩] ∧
    BlockContent.readOutline [] "x +\nz\nf a,\n\t # [\nb do\nend\n".toList =
      .ok ([.unsupported "" 0, .resource "f" (some (.call none "a" [])) [] true 0], false) := by
  have hend : openedLexer.AtLineEnd "x +\nz\nf a,".toList "b do\nend\n".toList openedTokens :=
    ⟨reads_of_steps (n := 10) (by decide), by decide, rfl, by decide⟩
  have htokens : tokenize [] "x +\nz\nf a,\nb do\nend\n".toList = .ok (openedTokens ++
      [⟨.newline, 3, 10, 11, false⟩, ⟨.ident "b", 4, 11, 12, false⟩,
        ⟨.keyword .doWord, 4, 13, 15, true⟩, ⟨.newline, 4, 15, 16, false⟩,
        ⟨.keyword .endWord, 5, 16, 19, false⟩, ⟨.newline, 5, 19, 20, false⟩,
        ⟨.eof, 6, 20, 20, false⟩]) := by
    decide +kernel
  have hopen : BlockContent.openBreaks [] "x +\nz\nf a,\nb do\nend\n".toList =
      [⟨.newline, 1, 3, 4, false⟩] := by
    rw [BlockContent.openBreaks, htokens]
    decide +kernel
  have hsource : "x +\nz\nf a,".toList ++ '\n' :: "b do\nend\n".toList =
      "x +\nz\nf a,\nb do\nend\n".toList := by
    decide
  have hread : BlockContent.readOutline [] ("x +\nz\nf a,".toList ++
      '\n' :: (commentLine ['\t', ' '] [' ', '['] ++ "b do\nend\n".toList)) = _ :=
    read_comment hend (by simp) (by simp) [] [] (by rw [hsource, hopen]; decide)
  refine ⟨hend, hopen, hread.trans ?_⟩
  rw [hsource, BlockContent.readOutline_of_tokenize htokens]
  with_unfolding_all rfl

/-- A comment line splits code that goes on in the next line, and it becomes a part of a literal
that runs over the line of a heredoc's opener. -/
theorem outline_changed_by_comment :
    (∃ ts l, AtLineEnd "x +".toList "z\n".toList ts l) ∧
    BlockContent.readOutline [] "x +\nz\n".toList = .ok ([.unsupported "" 0], false) ∧
    BlockContent.readOutline [] "x +\n# c\nz\n".toList =
      .ok ([.unsupported "" 0, .resource "z" none [] false 0], false) ∧
    (∃ ts l, Reads (start "a <<X + \"b\nX\nc\n\"\n\"\n".toList) ts l ∧
      l.rest = '\n' :: "\"\n\"\n".toList ∧ l.resume = none) ∧
    BlockContent.openBreaks [] "a <<X + \"b\nX\nc\n\"\n\"\n".toList = [] ∧
    BlockContent.readOutline [] "a <<X + \"b\nX\nc\n\"\n\"\n".toList =
      .ok ([.resource "a" (some (.binary "+" (.literal .string "")
        (.literal .string "b\nX\nc\n"))) [] false 0,
        .resource "c" none [] false 0, .unsupported "" 0], false) ∧
    BlockContent.readOutline [] "a <<X + \"b\nX\nc\n# n\n\"\n\"\n".toList =
      .ok ([.resource "a" (some (.binary "+" (.literal .string "")
        (.literal .string "b\nX\nc\n# n\n"))) [] false 0,
        .resource "c" none [] false 0, .unsupported "" 0], false) := by
  have hopened : tokenize [] "x +\nz\n".toList =
      .ok [⟨.ident "x", 1, 0, 1, false⟩, ⟨.op .plus, 1, 2, 3, true⟩, ⟨.newline, 1, 3, 4, false⟩,
        ⟨.ident "z", 2, 4, 5, false⟩, ⟨.newline, 2, 5, 6, false⟩, ⟨.eof, 3, 6, 6, false⟩] := by
    decide +kernel
  have hsplit : tokenize [] "x +\n# c\nz\n".toList =
      .ok [⟨.ident "x", 1, 0, 1, false⟩, ⟨.op .plus, 1, 2, 3, true⟩, ⟨.newline, 1, 3, 4, false⟩,
        ⟨.newline, 2, 7, 8, false⟩, ⟨.ident "z", 3, 8, 9, false⟩, ⟨.newline, 3, 9, 10, false⟩,
        ⟨.eof, 4, 10, 10, false⟩] := by
    decide +kernel
  have hover : tokenize [] "a <<X + \"b\nX\nc\n\"\n\"\n".toList =
      .ok [⟨.ident "a", 1, 0, 1, false⟩, ⟨.string [.text []], 1, 2, 5, true⟩,
        ⟨.op .plus, 1, 6, 7, true⟩, ⟨.string [.text "b\nX\nc\n".toList], 1, 8, 16, true⟩,
        ⟨.newline, 4, 16, 17, false⟩, ⟨.ident "c", 6, 13, 14, false⟩,
        ⟨.newline, 6, 14, 15, false⟩, ⟨.string [.text ['\n']], 7, 15, 18, false⟩,
        ⟨.newline, 8, 18, 19, false⟩, ⟨.eof, 9, 19, 19, false⟩] := by
    decide +kernel
  have hlonger : tokenize [] "a <<X + \"b\nX\nc\n# n\n\"\n\"\n".toList =
      .ok [⟨.ident "a", 1, 0, 1, false⟩, ⟨.string [.text []], 1, 2, 5, true⟩,
        ⟨.op .plus, 1, 6, 7, true⟩, ⟨.string [.text "b\nX\nc\n# n\n".toList], 1, 8, 20, true⟩,
        ⟨.newline, 5, 20, 21, false⟩, ⟨.ident "c", 7, 13, 14, false⟩,
        ⟨.newline, 7, 14, 15, false⟩, ⟨.newline, 8, 18, 19, false⟩,
        ⟨.string [.text ['\n']], 9, 19, 22, false⟩, ⟨.newline, 10, 22, 23, false⟩,
        ⟨.eof, 11, 23, 23, false⟩] := by
    decide +kernel
  refine ⟨⟨[⟨.ident "x", 1, 0, 1, false⟩, ⟨.op .plus, 1, 2, 3, true⟩],
    ⟨"\nz\n".toList, 3, 1, false, some (.op .plus), none, 6⟩,
    reads_of_steps (n := 3) (by decide), by decide, rfl, by decide⟩, ?_, ?_,
    ⟨[⟨.ident "a", 1, 0, 1, false⟩, ⟨.string [.text []], 1, 2, 5, true⟩,
      ⟨.op .plus, 1, 6, 7, true⟩, ⟨.string [.text "b\nX\nc\n".toList], 1, 8, 16, true⟩,
      ⟨.newline, 4, 16, 17, false⟩, ⟨.ident "c", 6, 13, 14, false⟩],
      ⟨"\n\"\n\"\n".toList, 14, 6, false, some (.ident "c"), none, 6⟩,
      reads_of_steps (n := 9) (by decide), rfl, rfl⟩, ?_, ?_, ?_⟩
  · rw [BlockContent.readOutline_of_tokenize hopened]
    with_unfolding_all rfl
  · rw [BlockContent.readOutline_of_tokenize hsplit]
    with_unfolding_all rfl
  · rw [BlockContent.openBreaks, hover]
    decide +kernel
  · rw [BlockContent.readOutline_of_tokenize hover]
    with_unfolding_all rfl
  · rw [BlockContent.readOutline_of_tokenize hlonger]
    with_unfolding_all rfl

end Example

end RecipeManifest

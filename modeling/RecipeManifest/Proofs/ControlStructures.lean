import RecipeManifest.Proofs.FaultLines

/-!
Control structures kept as text.

A construct opens with a reserved word, or with a call that takes a block, and closes with a line
that says `end`. Between the two stand simple lines and further constructs (`Code`). The depth of
unsupported code grows by one at the opening and falls by one at the end, but a loop that is written
with the optional `do` counts for two and falls by one only (`Code.surplus`).

    no loop with `do`  → the construct is one unsupported statement, and what follows is read
    some loop with `do` → nothing is read, and the text ends inside the construct   (read_construct)
-/

namespace RecipeManifest

open Plain

/-! ## Code in lines -/

namespace Control

/-- The lexeme neither opens nor closes anything and ends no statement. -/
def isSimple : Lexeme → Bool
  | .keyword k => !k.opensBlock && k != .doWord && k != .endWord
  | .op o => !o.isOpener && !o.isCloser
  | .newline | .semicolon | .eof => false
  | _ => true

/-- A line of code, and what its tokens say. -/
structure Line where
  text : List Char
  lexemes : List Lexeme
  oneLine : '\n' ∉ text
  lexed : (Lexer.start (text ++ ['\n'])).run.toOption.map (List.map Token.lexeme) =
    some (lexemes ++ [.newline, .eof])

/-- A loop may have the word `do` behind its header. -/
def isLoop : Keyword → Bool
  | .whileWord | .untilWord | .forWord => true
  | _ => false

/-- How a construct opens. -/
inductive Opening where
  | word (k : Keyword) (withDo : Bool)
  | call
  deriving DecidableEq, Repr

/-- The lexemes are those of a line that opens a construct in this way. -/
def Opening.Spells : Opening → List Lexeme → Prop
  | .word k withDo, xs => k.opensBlock = true ∧ (withDo = true → isLoop k = true) ∧
      ∃ header, (∀ x ∈ header, isSimple x = true) ∧
        xs = .keyword k :: header ++ if withDo then [.keyword .doWord] else []
  | .call, xs => ∃ call params, call ≠ [] ∧ (∀ x ∈ call ++ params, isSimple x = true) ∧
      xs = call ++ .keyword .doWord :: params

/-- One for a loop with `do`, which counts as two openings. -/
def Opening.surplus : Opening → Nat
  | .word _ true => 1
  | _ => 0

/-- The line that opens a construct. -/
structure Head extends Line where
  opening : Opening
  spells : opening.Spells lexemes

/-- Lines of code. The line that closes a construct is `end` behind so many blanks. -/
inductive Code where
  | nil
  | line (l : Line) (simple : ∀ x ∈ l.lexemes, isSimple x = true) (rest : Code)
  | construct (head : Head) (body : Code) (margin : Nat) (rest : Code)

def footText (margin : Nat) : List Char :=
  List.replicate margin ' ' ++ Keyword.endWord.spelling.toList

namespace Code

def text : Code → List Char
  | nil => []
  | line l _ rest => l.text ++ ['\n'] ++ rest.text
  | construct head body margin rest =>
    head.text ++ ['\n'] ++ body.text ++ footText margin ++ ['\n'] ++ rest.text

def lexemes : Code → List Lexeme
  | nil => []
  | line l _ rest => l.lexemes ++ [.newline] ++ rest.lexemes
  | construct head body _ rest =>
    head.lexemes ++ [.newline] ++ body.lexemes ++ [.keyword .endWord, .newline] ++ rest.lexemes

/-- How many loops are written with `do`. -/
def surplus : Code → Nat
  | nil => 0
  | line _ _ rest => rest.surplus
  | construct head body _ rest => head.opening.surplus + body.surplus + rest.surplus

end Code

end Control

/-! ## One line of text -/

namespace Lexer

variable {l l' m : Lexer} {c : Char} {more : List Char} {t : Option Token} {ts : List Token}
  {length : Nat}

/-- What is left is one line with its end, which is not counted yet, or nothing. -/
structure OnOneLine (l : Lexer) : Prop where
  rest : '\n' ∉ l.rest.dropLast
  ends : Whole l.rest
  resume : l.resume = none
  line : l.line + l.rest.count '\n' ≤ 2

theorem onOneLine_start {text : List Char} (h : '\n' ∉ text) :
    (start (text ++ ['\n'])).OnOneLine := by
  refine ⟨?_, .inr ?_, rfl, ?_⟩
  · simpa [start] using h
  · simp [start, EndsLine]
  · simp [start, List.count_append, List.count_eq_zero.2 h]

theorem OnOneLine.advance (h : l.OnOneLine) {used lines : Nat}
    (hlines : lines ≤ (l.rest.take (used + 1)).count '\n') : (l.advance used lines).OnOneLine := by
  have hrest : (l.advance used lines).rest = l.rest.drop (used + 1) := by
    simp only [Lexer.advance, ← List.drop_one, List.drop_drop, Nat.add_comm 1]
  have hcount : l.rest.count '\n' =
      (l.rest.take (used + 1)).count '\n' + (l.rest.drop (used + 1)).count '\n' := by
    rw [← List.count_append, List.take_append_drop]
  refine ⟨?_, hrest ▸ h.ends.drop _, h.resume, ?_⟩
  · rw [hrest]
    by_cases hnil : l.rest.drop (used + 1) = []
    · simp [hnil]
    · have hline := h.rest
      rw [← List.take_append_drop (used + 1) l.rest, List.dropLast_append_of_ne_nil hnil] at hline
      intro hmem
      exact hline (List.mem_append_right _ hmem)
  · have := h.line
    rw [hrest]
    show l.line + lines + _ ≤ 2
    omega

/-- A heredoc has no body on the line that announces it. -/
theorem OnOneLine.not_atHeredoc (h : l.OnOneLine) : ¬ l.AtHeredoc := by
  rintro ⟨c, more, x, used, resume, hr, hf⟩
  obtain ⟨opener, hopener⟩ := front_eq_heredoc hr hf
  obtain ⟨hle, body, parts, hbody, -, -⟩ := frontHeredoc_eq_ok.1 hopener
  have hnewline := newline_mem_take_toBody hle
  have hall : l.toBody opener = l.rest.length := by
    by_contra hne
    apply h.rest
    rw [List.dropLast_eq_take]
    exact (List.take_prefix_take_left (show l.toBody opener ≤ l.rest.length - 1 by omega)).subset
      hnewline
  rw [Lexer.bodyStart, h.resume, Option.getD_none, hall, List.drop_length] at hbody
  cases hbody

theorem OnOneLine.step (h : l.OnOneLine) (hr : l.rest = c :: more)
    (hs : l.step c more = .ok (t, l')) : l'.OnOneLine := by
  have hcount {f : Front} (hf : l.front c more = .ok f) :
      f.lines ≤ (l.rest.take (f.used + 1)).count '\n' := by
    rw [hr]
    exact front_lines_le hf
  obtain ⟨used, lines, hf, rfl, rfl⟩ | ⟨x, used, lines, hf, rfl, rfl⟩ | ⟨hf, rfl, rfl⟩ |
    ⟨x, used, resume, hf, rfl, rfl⟩ := step_cases hs
  · exact h.advance (hcount hf)
  · have hnext := h.advance (hcount hf)
    exact ⟨hnext.rest, hnext.ends, hnext.resume, hnext.line⟩
  · have hc : c = '\n' := Option.some.inj (front_fits hr hf)
    have hnext : (l.advance 0 1).OnOneLine := h.advance (by simp [hr, hc])
    rw [jump_of_resume_none h.resume]
    exact ⟨hnext.rest, hnext.ends, hnext.resume, hnext.line⟩
  · exact absurd ⟨c, more, x, used, resume, hr, hf⟩ h.not_atHeredoc

theorem Reads.onOneLine (h : Reads l ts l') (hl : l.OnOneLine) : l'.OnOneLine := by
  induction h with
  | refl l => exact hl
  | step hr hs _ ih => exact ih (hl.step hr hs)

/-- Each line end that is read counts. -/
theorem Reads.line_of_newline (h : Reads l ts l') (hts : ∃ t ∈ ts, t.lexeme = .newline) :
    l.line + 1 ≤ l'.line := by
  induction h with
  | refl l => simp at hts
  | @step l l₁ l' c more t ts hr hs h ih =>
    obtain ⟨u, hu, hx⟩ := hts
    have hlater := h.line_le
    have hfirst := (Reads.single hr hs).line_le
    rcases List.mem_append.1 hu with hu | hu
    · obtain ⟨used, lines, hf, rfl, rfl⟩ | ⟨x, used, lines, hf, rfl, rfl⟩ | ⟨hf, rfl, rfl⟩ |
        ⟨x, used, resume, hf, rfl, rfl⟩ := step_cases hs
      · cases hu
      · obtain rfl := List.mem_singleton.1 hu
        rw [show x = .newline from hx] at hf
        exact absurd hf (front_ne_newline hr)
      · have hjump : l.line + 1 ≤ l.jump.line := by
          unfold jump
          split
          · split
            · simp only
              omega
            · exact Nat.le_refl _
          · exact Nat.le_refl _
        exact Nat.le_trans hjump hlater
      · obtain rfl := List.mem_singleton.1 hu
        obtain ⟨opener, hopener⟩ := front_eq_heredoc hr hf
        obtain ⟨-, body, parts, -, -, heq⟩ := frontHeredoc_eq_ok.1 hopener
        cases heq
        cases hx
    · have := ih ⟨u, hu, hx⟩
      omega

/-- The lexer is where a line starts, as at the start of a text. -/
structure AtLineStart (length : Nat) (l : Lexer) : Prop where
  placed : l.Placed length
  resume : l.resume = none
  spaced : l.spaced = false
  awaitsOperand : l.awaitsOperand = true
  afterIdent : l.afterIdent = false
  afterDot : l.afterDot = false
  line : 1 ≤ l.line

theorem atLineStart_start (source : List Char) : (start source).AtLineStart source.length :=
  ⟨placed_start source, rfl, rfl, rfl, rfl, rfl, Nat.le_refl _⟩

theorem AtLineStart.settled (h : l.AtLineStart length) : l.Settled :=
  ⟨h.resume, h.afterDot⟩

/-- What is left is read as a text of its own. -/
theorem AtLineStart.shifted (h : l.AtLineStart length) :
    Shifted l.pos (l.line - 1) (start l.rest) l := by
  have hline := h.line
  refine ⟨rfl, (Nat.zero_add _).symm, ?_, h.spaced, h.awaitsOperand, h.afterIdent, h.afterDot,
    h.resume⟩
  show l.line = 1 + (l.line - 1)
  omega

section Code

open Control

variable {r : List Char}

/-- What a line says is read from it on its own. -/
theorem exists_reads (line : Line) :
    ∃ ts l, Reads (start (line.text ++ ['\n'])) ts l ∧ l.rest = [] ∧
      ts.map Token.lexeme = line.lexemes ++ [.newline] := by
  obtain ⟨tokens, hsome, hlexemes⟩ := Option.map_eq_some_iff.1 line.lexed
  have hrun : (start (line.text ++ ['\n'])).run = .ok tokens := by
    cases hcase : (start (line.text ++ ['\n'])).run with
    | error e => rw [hcase] at hsome; cases hsome
    | ok us => rw [hcase] at hsome; cases hsome; rfl
  obtain ⟨ts, l, hreads, hend, rfl⟩ := run_eq_ok hrun
  refine ⟨ts, l, hreads, hend, ?_⟩
  have hmap : ts.map Token.lexeme ++ [Lexeme.eof] = line.lexemes ++ [.newline] ++ [.eof] := by
    simpa using hlexemes
  exact (List.append_inj' hmap rfl).1

/-- A line that is read on its own is read in the same way wherever it stands. -/
theorem scans_of_reads {text : List Char} {xs : List Lexeme} {l₁ : Lexer} (htext : '\n' ∉ text)
    (hreads : Reads (start (text ++ ['\n'])) ts l₁) (hend : l₁.rest = [])
    (hts : ts.map Token.lexeme = xs ++ [.newline]) (hl : l.AtLineStart length)
    (hr : l.rest = text ++ ['\n'] ++ r) :
    ∃ l', Scans l (text ++ ['\n']) (ts.map (Token.shift l.pos (l.line - 1))) l' ∧
      l'.AtLineStart length := by
  obtain ⟨last, hlast, hnewline⟩ : ∃ last, ts.getLast? = some last ∧ last.lexeme = .newline := by
    have : (ts.map Token.lexeme).getLast? = some .newline := by simp [hts]
    rw [List.getLast?_map] at this
    exact Option.map_eq_some_iff.1 this
  -- on its own the line is the first one, and the next line is the second
  have hsecond : l₁.line = 2 := by
    have hle := (hreads.onOneLine (onOneLine_start htext)).line
    have hge : 1 + 1 ≤ l₁.line :=
      hreads.line_of_newline ⟨last, List.mem_of_getLast? hlast, hnewline⟩
    omega
  have hresume : l₁.resume = none := by
    apply hreads.resume_of_newline (placed_start _) (by rintro ⟨⟩)
    rw [hreads.previous, hlast, Option.elim_some, hnewline]
  have hends : EndsLine (text ++ ['\n']) := by simp [EndsLine]
  have hfollows := shifted_of_reads hreads hend hends hlast (by rw [hnewline]; rfl) hresume r
  have hextend := hreads.extend r ⟨.inr hends, by rintro r ⟨⟩⟩
  rw [extend_start] at hextend
  have hshifted := hl.shifted
  rw [hr] at hshifted
  obtain ⟨l', hreads', hthere⟩ := hshifted.reads (placed_start _) hl.placed hextend
  have hline : l'.line = l.line + 1 := by
    have := hl.line
    rw [hthere.line, show (l₁.extend r).line = l₁.line from rfl, hsecond]
    omega
  have hat : l'.AtLineStart length := by
    refine ⟨hreads'.placed hl.placed, ?_, ?_, ?_, ?_, ?_, by omega⟩
    · rw [hthere.resume, hfollows.resume]
      rfl
    · rw [hthere.spaced, hfollows.spaced]
      rfl
    · rw [hthere.awaitsOperand, hfollows.awaitsOperand]
      rfl
    · rw [hthere.afterIdent, hfollows.afterIdent]
      rfl
    · rw [hthere.afterDot, hfollows.afterDot]
      rfl
  refine ⟨l', ⟨hreads', ?_, ?_, hat.settled⟩, hat⟩
  · rw [hr, hthere.rest, hfollows.rest]
    rfl
  · rw [hline, lineAfter, List.count_append, List.count_eq_zero.2 htext]
    rfl

theorem scans_line (line : Line) (hl : l.AtLineStart length)
    (hr : l.rest = line.text ++ ['\n'] ++ r) :
    ∃ ts l', Scans l (line.text ++ ['\n']) ts l' ∧
      ts.map Token.lexeme = line.lexemes ++ [.newline] ∧ l'.AtLineStart length := by
  obtain ⟨ts, l₁, hreads, hend, hts⟩ := exists_reads line
  obtain ⟨l', hscans, hat⟩ := scans_of_reads line.oneLine hreads hend hts hl hr
  refine ⟨_, l', hscans, ?_, hat⟩
  rw [List.map_map, ← hts]
  rfl

/-- The line that closes a construct. Its word ends right before the line does. -/
theorem scans_foot (margin : Nat) (hl : l.AtLineStart length)
    (hr : l.rest = footText margin ++ ['\n'] ++ r) :
    ∃ t n l', Scans l (footText margin ++ ['\n']) [t, n] l' ∧ t.lexeme = .keyword .endWord ∧
      n.lexeme = .newline ∧ t.stop + 1 + r.length = length ∧ l'.AtLineStart length := by
  simp only [footText, List.append_assoc] at hr
  obtain ⟨l₁, hblanks⟩ := scans_blanks margin hl.settled hr
  have hr₁ := hblanks.rest_eq hr
  have hword : Scans l₁ Keyword.endWord.spelling.toList 
      [l₁.token (.keyword .endWord) 2] (l₁.behind (.keyword .endWord) 2 0) :=
    scans_spelling .endWord hblanks.settled hr₁ (endsWord_cons _ (by decide))
  have hpos : (l₁.behind (.keyword .endWord) 2 0).pos = l₁.pos + 1 + 2 := rfl
  generalize l₁.behind (.keyword .endWord) 2 0 = l₂ at hword hpos
  have hr₂ : l₂.rest = '\n' :: r := hword.rest_eq hr₁
  have hbreak := scans_lineEnd hword.settled hr₂
  have hall := hblanks.trans (hword.trans hbreak)
  refine ⟨l₁.token (.keyword .endWord) 2, l₂.token .newline 0,
    { l₂.advance 0 1 with previous := some .newline }, ?_, rfl, rfl, ?_, ?_⟩
  · simpa [footText] using hall
  · have hrest := ((hblanks.trans hword).reads.placed hl.placed).rest
    rw [hr₂, List.length_cons] at hrest
    show l₁.pos + 1 + 2 + 1 + r.length = length
    omega
  · refine ⟨hall.reads.placed hl.placed, hword.settled.resume, ?_, rfl, rfl, rfl, ?_⟩
    · simp [advance, hr₂]
    · exact Nat.le_trans hl.line hall.reads.line_le

/-- The tokens of code say what its lines do. -/
theorem scans_code (code : Code) : ∀ {l : Lexer} {r : List Char}, l.AtLineStart length →
    l.rest = code.text ++ r →
    ∃ ts l', Scans l code.text ts l' ∧ ts.map Token.lexeme = code.lexemes ∧
      l'.AtLineStart length := by
  induction code with
  | nil =>
    intro l r hl _
    exact ⟨[], l, .refl hl.settled, rfl, hl⟩
  | line line simple rest ih =>
    intro l r hl hr
    simp only [Code.text, List.append_assoc] at hr
    obtain ⟨ts, l₁, hline, hts, hl₁⟩ := scans_line line hl (by simpa using hr)
    obtain ⟨us, l₂, hrest, hus, hl₂⟩ := ih hl₁ (hline.rest_eq (by simpa using hr))
    refine ⟨ts ++ us, l₂, hline.trans hrest, ?_, hl₂⟩
    rw [List.map_append, hts, hus]
    rfl
  | construct head body margin rest ihbody ihrest =>
    intro l r hl hr
    simp only [Code.text, List.append_assoc] at hr
    obtain ⟨ts, l₁, hhead, hts, hl₁⟩ := scans_line head.toLine hl (by simpa using hr)
    have hr₁ := hhead.rest_eq (by simpa using hr)
    obtain ⟨us, l₂, hbody, hus, hl₂⟩ := ihbody hl₁ hr₁
    have hr₂ := hbody.rest_eq hr₁
    obtain ⟨t, n, l₃, hfoot, ht, hn, -, hl₃⟩ := scans_foot margin hl₂ (by simpa using hr₂)
    obtain ⟨ws, l₄, hrest, hws, hl₄⟩ := ihrest hl₃ (hfoot.rest_eq (by simpa using hr₂))
    refine ⟨ts ++ (us ++ ([t, n] ++ ws)), l₄, ?_, ?_, hl₄⟩
    · simpa [Code.text] using hhead.trans (hbody.trans (hfoot.trans hrest))
    · simp [hts, hus, hws, ht, hn, Code.lexemes]

end Code

end Lexer

/-! ## Depth -/

namespace Control

/-- Unsupported code goes on behind the tokens, at another depth, and with a statement that can
start there or not. -/
def Skips (ts : List Token) (depth : Nat) (fresh : Bool) (depth' : Nat) (fresh' : Bool) : Prop :=
  ∀ closer last stop rest, ∃ last' stop',
    skipUnsupported closer depth last fresh stop (ts ++ rest) =
      skipUnsupported closer depth' last' fresh' stop' rest

section Skips

variable {ts us : List Token} {t : Token} {depth depth₁ depth₂ : Nat}
  {fresh fresh₁ fresh₂ : Bool}

theorem Skips.refl : Skips [] depth fresh depth fresh :=
  fun _ last stop _ => ⟨last, stop, rfl⟩

theorem Skips.trans (h : Skips ts depth fresh depth₁ fresh₁)
    (h' : Skips us depth₁ fresh₁ depth₂ fresh₂) :
    Skips (ts ++ us) depth fresh depth₂ fresh₂ := by
  intro closer last stop rest
  obtain ⟨last₁, stop₁, h₁⟩ := h closer last stop (us ++ rest)
  obtain ⟨last₂, stop₂, h₂⟩ := h' closer last₁ stop₁ rest
  exact ⟨last₂, stop₂, by rw [List.append_assoc, h₁, h₂]⟩

/-- Inside something open every lexeme is skipped. -/
theorem skips_inside (ht : t.lexeme ≠ .eof) :
    Skips [t] (depth + 1) fresh (depthAfter (depth + 1) fresh t.lexeme)
      (startsFresh t.lexeme) := by
  intro closer last stop rest
  refine ⟨some t.lexeme, t.stop, ?_⟩
  rw [List.singleton_append, skipUnsupported, if_neg ht, if_neg (by simp)]

theorem skips_newline (ht : t.lexeme = .newline) : Skips [t] (depth + 1) fresh (depth + 1) true := by
  have h : Skips [t] (depth + 1) fresh _ _ := skips_inside (by simp [ht])
  rwa [ht] at h

theorem depthAfter_simple {x : Lexeme} (hx : isSimple x = true) :
    depthAfter depth fresh x = depth := by
  cases x with
  | keyword k => cases k <;> first | rfl | cases hx
  | op o => cases o <;> first | rfl | cases hx
  | _ => rfl

/-- Simple lexemes leave the depth as it is. -/
theorem skips_simple (hts : ∀ x ∈ ts.map Token.lexeme, isSimple x = true) :
    ∃ fresh', Skips ts (depth + 1) fresh (depth + 1) fresh' := by
  induction ts generalizing fresh with
  | nil => exact ⟨fresh, .refl⟩
  | cons t ts ih =>
    have ht : isSimple t.lexeme = true := hts t.lexeme (by simp)
    have heof : t.lexeme ≠ .eof := by
      intro h
      rw [h] at ht
      cases ht
    have hfirst : Skips [t] (depth + 1) fresh _ _ := skips_inside heof
    rw [depthAfter_simple ht] at hfirst
    obtain ⟨fresh', hrest⟩ := ih fun x hx => hts x (List.mem_cons_of_mem _ hx)
    exact ⟨fresh', hfirst.trans hrest⟩

theorem skips_do (ht : t.lexeme = .keyword .doWord) :
    Skips [t] (depth + 1) fresh (depth + 1 + 1) true := by
  have h : Skips [t] (depth + 1) fresh _ _ := skips_inside (by simp [ht])
  rwa [ht] at h

theorem skips_line {xs : List Lexeme} (hxs : ∀ x ∈ xs, isSimple x = true)
    (hts : ts.map Token.lexeme = xs ++ [.newline]) : Skips ts (depth + 1) fresh (depth + 1) true := by
  obtain ⟨us, ns, rfl, rfl, hns⟩ := List.map_eq_append_iff.1 hts
  obtain ⟨n, rfl, hn⟩ := List.map_eq_singleton_iff.1 hns
  obtain ⟨fresh', hsimple⟩ := skips_simple hxs
  exact hsimple.trans (skips_newline hn)

/-- A line that ends with a `do` and parameters makes the code after it one deeper. -/
theorem skips_doLine {xs ys : List Lexeme} (hxs : ∀ x ∈ xs, isSimple x = true)
    (hys : ∀ x ∈ ys, isSimple x = true)
    (hts : ts.map Token.lexeme = xs ++ .keyword .doWord :: (ys ++ [.newline])) :
    Skips ts (depth + 1) fresh (depth + 1 + 1) true := by
  obtain ⟨us, ds, rfl, rfl, hds⟩ := List.map_eq_append_iff.1 hts
  obtain ⟨d, ns, rfl, hd, hns⟩ := List.map_eq_cons_iff.1 hds
  obtain ⟨fresh', hsimple⟩ := skips_simple hxs
  exact hsimple.trans ((skips_do hd).trans (skips_line hys hns))

/-- What follows the word that opens a construct. -/
theorem skips_header {header : List Lexeme} {withDo : Bool}
    (hheader : ∀ x ∈ header, isSimple x = true)
    (hts : ts.map Token.lexeme =
      header ++ (if withDo then [.keyword .doWord] else []) ++ [.newline]) (k : Keyword) :
    Skips ts (depth + 1) fresh (depth + 1 + (Opening.word k withDo).surplus) true := by
  cases withDo with
  | false => exact skips_line hheader (by simpa using hts)
  | true =>
    have hnone : ∀ x ∈ ([] : List Lexeme), isSimple x = true := by simp
    exact skips_doLine hheader hnone (by simpa using hts)

/-- A word that opens a construct does so where a statement can start. -/
theorem skips_opener {k : Keyword} (hk : k.opensBlock = true) (ht : t.lexeme = .keyword k) :
    Skips [t] depth true (depth + 1) (startsFresh (.keyword k)) := by
  have hends (closer : Option Closer) (last : Option Lexeme) :
      endsUnsupported closer last (.keyword k) = false := by
    have hnot : k ≠ .endWord := by
      rintro rfl
      cases hk
    cases closer with
    | none => simp [endsUnsupported, Lexeme.isSeparator]
    | some c => cases c <;> simp [endsUnsupported, Lexeme.isSeparator, Closer.isAt, hnot]
  have hdepth : depthAfter depth true (.keyword k) = depth + 1 := by
    cases k <;> first | rfl | cases hk
  intro closer last stop rest
  refine ⟨some t.lexeme, t.stop, ?_⟩
  rw [List.singleton_append, skipUnsupported, if_neg (by simp [ht]), if_neg (by simp [ht, hends]),
    ht, hdepth]

/-- A line that opens a construct with a word makes the code after it one deeper, or two for a loop
with `do`. -/
theorem Head.skips_word (head : Head) {k : Keyword} {withDo : Bool}
    (hopening : head.opening = .word k withDo)
    (hts : ts.map Token.lexeme = head.lexemes ++ [.newline]) :
    Skips ts depth true (depth + 1 + head.opening.surplus) true := by
  have hspells := head.spells
  rw [hopening] at hspells ⊢
  obtain ⟨hk, -, header, hheader, hxs⟩ := hspells
  rw [hxs] at hts
  obtain ⟨t, us, rfl, ht, hus⟩ := List.map_eq_cons_iff.1 hts
  exact (skips_opener hk ht).trans (skips_header hheader hus k)

theorem Head.skips (head : Head) (hts : ts.map Token.lexeme = head.lexemes ++ [.newline]) :
    Skips ts (depth + 1) true (depth + 1 + 1 + head.opening.surplus) true := by
  cases hopening : head.opening with
  | word k withDo =>
    rw [← hopening]
    exact head.skips_word hopening hts
  | call =>
    have hspells := head.spells
    rw [hopening] at hspells
    obtain ⟨call, params, -, hsimple, hxs⟩ := hspells
    rw [hxs] at hts
    exact skips_doLine (fun x hx => hsimple x (List.mem_append_left _ hx))
      (fun x hx => hsimple x (List.mem_append_right _ hx)) (by simpa using hts)

theorem skips_foot {n : Token} (ht : t.lexeme = .keyword .endWord) (hn : n.lexeme = .newline) :
    Skips [t, n] (depth + 1 + 1) fresh (depth + 1) true := by
  have h : Skips [t] (depth + 1 + 1) fresh _ _ := skips_inside (by simp [ht])
  rw [ht] at h
  exact h.trans (skips_newline hn)

/-- Code leaves the depth as it is, but for its loops with `do`. -/
theorem Code.skips (code : Code) : ∀ {ts : List Token} {depth : Nat},
    ts.map Token.lexeme = code.lexemes →
    Skips ts (depth + 1) true (depth + 1 + code.surplus) true := by
  induction code with
  | nil =>
    intro ts depth hts
    obtain rfl := List.map_eq_nil_iff.1 hts
    exact .refl
  | line line simple rest ih =>
    intro ts depth hts
    obtain ⟨us, ws, rfl, hus, hws⟩ := List.map_eq_append_iff.1 hts
    exact (skips_line simple hus).trans (ih hws)
  | construct head body margin rest ihbody ihrest =>
    intro ts depth hts
    simp only [Code.lexemes, List.append_assoc] at hts
    rw [← List.append_assoc] at hts
    obtain ⟨us, vs, rfl, hus, hvs⟩ := List.map_eq_append_iff.1 hts
    obtain ⟨ws, ys, rfl, hws, hys⟩ := List.map_eq_append_iff.1 hvs
    obtain ⟨t, zs, rfl, ht, hzs⟩ := List.map_eq_cons_iff.1 hys
    obtain ⟨n, rs, rfl, hn, hrs⟩ := List.map_eq_cons_iff.1 hzs
    have hhead : Skips us (depth + 1) true (depth + 1 + 1 + head.opening.surplus) true :=
      head.skips hus
    have hbody : Skips ws (depth + 1 + head.opening.surplus + 1) true
        (depth + 1 + head.opening.surplus + 1 + body.surplus) true := ihbody hws
    have hfoot : Skips [t, n] (depth + head.opening.surplus + body.surplus + 1 + 1) true
        (depth + head.opening.surplus + body.surplus + 1) true := skips_foot ht hn
    have hrest : Skips rs (depth + head.opening.surplus + body.surplus + 1) true
        (depth + head.opening.surplus + body.surplus + 1 + rest.surplus) true := ihrest hrs
    rw [show depth + 1 + head.opening.surplus + 1 = depth + 1 + 1 + head.opening.surplus by omega]
      at hbody
    rw [show depth + head.opening.surplus + body.surplus + 1 + 1 =
      depth + 1 + 1 + head.opening.surplus + body.surplus by omega] at hfoot
    have hall := hhead.trans (hbody.trans (hfoot.trans hrest))
    rw [show depth + head.opening.surplus + body.surplus + 1 + rest.surplus =
      depth + 1 + (head.opening.surplus + body.surplus + rest.surplus) by omega] at hall
    exact hall

/-- The title of a declaration is one token. -/
theorem eq_singleton_of_title {title : String} (h : ListTokens [.string title] ts) :
    ∃ s, ts = [s] ∧ s.lexeme = .string [.text title.toList] := by
  cases h with
  | cons h hm =>
    cases h with
    | atom h =>
      cases hm with
      | nil => exact ⟨_, rfl, (Option.some.inj h).symm⟩

/-- The type and the title of a declaration leave the depth as it is. -/
theorem skips_head {d : Declaration} {n : Nat} (h : d.head.Tokens n ts) :
    ∃ fresh', Skips ts (depth + 1) fresh (depth + 1) fresh' := by
  cases h with
  | alone _ _ hargs => cases hargs
  | bare ht _ _ h =>
    obtain ⟨s, hts, hs⟩ := eq_singleton_of_title h
    cases hts
    exact skips_simple (by simp [ht, hs, isSimple])
  | @tight t o p ts ht _ ho _ h hp =>
    obtain ⟨s, rfl, hs⟩ := eq_singleton_of_title h
    have hname : ∃ fresh₁, Skips [t] (depth + 1) fresh (depth + 1) fresh₁ :=
      skips_simple (by simp [ht, isSimple])
    have htitle : ∃ fresh₂, Skips [s] (depth + 1 + 1) true (depth + 1 + 1) fresh₂ :=
      skips_simple (by simp [hs, isSimple])
    obtain ⟨fresh₁, hname⟩ := hname
    obtain ⟨fresh₂, htitle⟩ := htitle
    have hopen : Skips [o] (depth + 1) fresh₁ _ _ := skips_inside (by simp [ho])
    have hclose : Skips [p] (depth + 1 + 1) fresh₂ _ _ := skips_inside (by simp [hp])
    rw [ho] at hopen
    rw [hp] at hclose
    exact ⟨_, hname.trans (hopen.trans (htitle.trans hclose))⟩

theorem skips_print {indent n : Nat} {ds : List Declaration} (h : PrintTokens indent n ds ts)
    (hds : ∀ d ∈ ds, d.block = none) : Skips ts (depth + 1) true (depth + 1) true := by
  induction h with
  | nil => exact .refl
  | @cons n d more ts us h _ ih =>
    have hrest := ih fun d hd => hds d (List.mem_cons_of_mem _ hd)
    cases h with
    | plain hd h ht =>
      obtain ⟨fresh', hcall⟩ := skips_head h
      exact (hcall.trans (skips_newline ht)).trans hrest
    | block hd _ _ _ =>
      rw [hds d (by simp)] at hd
      cases hd

end Skips

end Control

/-! ## The text of a construct -/

/-- Filler before a token on the same line is white space. -/
theorem Filler.isBlank {gap rest : List Char} (h : Filler gap rest) (hgap : '\n' ∉ gap)
    (hrest : rest ≠ []) (hhead : rest.head? ≠ some '\n') : ∀ c ∈ gap, Text.isBlank c = true := by
  induction h with
  | nil => simp
  | @blank c gap rest hc _ ih =>
    rw [List.mem_cons, not_or] at hgap
    intro d hd
    rcases List.mem_cons.1 hd with rfl | hd
    · rcases hc with rfl | rfl | rfl <;> decide
    · exact ih hgap.2 hrest hhead d hd
  | continued => simp at hgap
  | @comment body gap rest hb hend _ _ =>
    exfalso
    rcases hend with hnil | hnewline
    · exact hrest (List.append_eq_nil_iff.1 hnil).2
    · cases gap with
      | nil => exact hhead hnewline
      | cons d gap =>
        apply hgap
        rw [List.cons_append, List.head?_cons] at hnewline
        simp [Option.some.inj hnewline]

theorem Text.trim_append {before text behind : List Char}
    (hbefore : ∀ c ∈ before, isBlank c = true) (hbehind : ∀ c ∈ behind, isBlank c = true) :
    trim (before ++ text ++ behind) = trim text := by
  have hend (cs : List Char) : trimEndBy isBlank (cs ++ behind) = trimEndBy isBlank cs := by
    unfold trimEndBy
    rw [List.reverse_append, List.dropWhile_append_of_pos (by simpa using hbehind)]
  unfold trim trimBy
  rw [List.append_assoc, List.dropWhile_append_of_pos hbefore, List.dropWhile_append]
  split
  · next hnil =>
    have hall : behind.dropWhile isBlank = [] := List.dropWhile_eq_nil_iff.2 hbehind
    rw [hall, List.isEmpty_iff.1 hnil]
  · exact hend _

theorem Text.exists_of_trim (cs : List Char) :
    ∃ front back, (∀ c ∈ front ++ back, isBlank c = true) ∧ cs = front ++ trim cs ++ back := by
  obtain ⟨back, hback, hend⟩ := exists_of_trimEndBy (p := isBlank) (cs.dropWhile isBlank)
  refine ⟨cs.takeWhile isBlank, back, fun c hc => ?_, ?_⟩
  · rcases List.mem_append.1 hc with hc | hc
    · exact List.mem_takeWhile_imp hc
    · exact hback c hc
  · rw [List.append_assoc, trim, trimBy, ← hend, List.takeWhile_append_dropWhile]

namespace Control

open Lexer

/-- The first token is made where the lexer comes to without making any. -/
theorem exists_of_reads_cons {l l' : Lexer} {t : Token} {ts us : List Token} (h : Reads l us l')
    (hus : us = t :: ts) :
    ∃ l₀ x used, Reads l [] l₀ ∧ l₀.rest ≠ [] ∧ t = l₀.token x used := by
  induction h with
  | refl l => cases hus
  | @step l l₁ l' c more u us hr hs _ ih =>
    obtain rfl | ⟨x, used, rfl⟩ := token_of_step hs
    · obtain ⟨l₀, x, used, hreads, hrest, rfl⟩ := ih hus
      exact ⟨l₀, x, used, .step hr hs hreads, hrest, rfl⟩
    · cases hus
      exact ⟨l, x, used, .refl l, by simp [hr], rfl⟩

/-- The word that opens a construct stands on the first line, behind white space. -/
theorem first_of_reads {text : List Char} {t : Token} {ts : List Token} {l : Lexer} {k : Keyword}
    (htext : '\n' ∉ text) (h : Reads (start (text ++ ['\n'])) (t :: ts) l) (hend : l.rest = [])
    (ht : t.lexeme = .keyword k) :
    t.line = 1 ∧ ∃ before word, text = before ++ word ∧ t.start = before.length ∧
      ∀ c ∈ before, Text.isBlank c = true := by
  have hone := onOneLine_start htext
  constructor
  · -- the end of the line is still ahead
    obtain ⟨l₀, x, used, hreads, hrest, rfl⟩ := exists_of_reads_cons h rfl
    have hhere := hreads.onOneLine hone
    have hnewline : '\n' ∈ l₀.rest := by
      rcases hhere.ends with hnil | hends
      · exact absurd hnil hrest
      · exact List.mem_of_getLast? hends
    have hcount := List.count_pos_iff.2 hnewline
    have hle := hhere.line
    have hge : 1 ≤ l₀.line := hreads.line_le
    show l₀.line = 1
    omega
  · have htiles := tiles_of_reads h (at_start _) rfl
      (fun us l₁ hreads => (hreads.onOneLine hone).not_atHeredoc) hend
    rw [List.cons_append] at htiles
    generalize ts ++ [_] = us at htiles
    cases htiles with
    | done => cases ht
    | token _ gap fits _ =>
      have hstop := fits.inside
      have hlt := fits.nonempty
      rw [List.length_append, List.length_singleton] at hstop
      have hbefore : (text ++ ['\n']).extract (start (text ++ ['\n'])).pos t.start =
          text.take t.start := by
        simp [start, List.take_append_of_le_length (show t.start ≤ text.length by omega)]
      -- the token starts with the first letter of its word
      obtain ⟨c, w, hk, hc, -⟩ := Keyword.spelling_eq k
      have hspelled : k.spelling.toList = (text ++ ['\n']).extract t.start t.stop := by
        have := fits.spelled
        rw [ht] at this
        exact this
      rw [hk, List.extract_eq_take_drop] at hspelled
      obtain ⟨rest, hrest⟩ : ∃ rest, (text ++ ['\n']).drop t.start = c :: rest := by
        cases hdrop : (text ++ ['\n']).drop t.start with
        | nil => simp [hdrop] at hspelled
        | cons d rest =>
          have hn : t.stop - t.start = t.stop - t.start - 1 + 1 := by omega
          rw [hdrop, hn, List.take_succ_cons] at hspelled
          exact ⟨rest, by rw [(List.cons.inj hspelled).1]⟩
      rw [hbefore, hrest] at gap
      refine ⟨text.take t.start, text.drop t.start, (List.take_append_drop _ _).symm, ?_, ?_⟩
      · rw [List.length_take_of_le (by omega)]
      · refine gap.isBlank (fun hmem => htext (List.mem_of_mem_take hmem)) (by simp) ?_
        rintro ⟨⟩
        exact absurd hc (by decide)

section Construct

variable {head : Head} {body : Code} {k : Keyword} {withDo : Bool} {ts us rest : List Token}
  {t n : Token}

/-- Before its last line a construct is open. -/
theorem skips_open (hopening : head.opening = .word k withDo)
    (hts : ts.map Token.lexeme = head.lexemes ++ [.newline])
    (hus : us.map Token.lexeme = body.lexemes) :
    Skips (ts ++ us) 0 true (head.opening.surplus + body.surplus + 1) true := by
  have hhead : Skips ts 0 true (0 + 1 + head.opening.surplus) true := head.skips_word hopening hts
  have hbody : Skips us (head.opening.surplus + 1) true
      (head.opening.surplus + 1 + body.surplus) true := body.skips hus
  rw [show 0 + 1 + head.opening.surplus = head.opening.surplus + 1 by omega] at hhead
  rw [show head.opening.surplus + 1 + body.surplus =
    head.opening.surplus + body.surplus + 1 by omega] at hbody
  exact hhead.trans hbody

/-- A construct without a loop with `do` ends with its last word. -/
theorem skipUnsupported_construct (hopening : head.opening = .word k withDo)
    (hts : ts.map Token.lexeme = head.lexemes ++ [.newline])
    (hus : us.map Token.lexeme = body.lexemes) (ht : t.lexeme = .keyword .endWord)
    (hn : n.lexeme = .newline) (hsurplus : head.opening.surplus + body.surplus = 0) (stop : Nat)
    (rest : List Token) :
    skipUnsupported none 0 none true stop (ts ++ us ++ t :: n :: rest) = .ok (t.stop, n :: rest) := by
  obtain ⟨last, stop', hskip⟩ := skips_open hopening hts hus none none stop (t :: n :: rest)
  rw [hskip, hsurplus, skipUnsupported, if_neg (by simp [ht]), if_neg (by simp), skipUnsupported,
    if_neg (by simp [hn]), if_pos]
  simp [ht, hn, depthAfter, endsUnsupported, Lexeme.isSeparator, continuesLine]

/-- A construct with such a loop is still open behind its last line, and at the end of the text. -/
theorem skipUnsupported_open {indent line : Nat} {ds : List Declaration} {e : Token}
    (hopening : head.opening = .word k withDo)
    (hts : ts.map Token.lexeme = head.lexemes ++ [.newline])
    (hus : us.map Token.lexeme = body.lexemes) (ht : t.lexeme = .keyword .endWord)
    (hn : n.lexeme = .newline) (hsurplus : head.opening.surplus + body.surplus ≠ 0)
    (hrest : PrintTokens indent line ds rest) (hds : ∀ d ∈ ds, d.block = none)
    (he : e.lexeme = .eof) (stop : Nat) :
    skipUnsupported none 0 none true stop (ts ++ us ++ t :: n :: (rest ++ [e])) =
      .error .endOfBlock := by
  obtain ⟨depth, hdepth⟩ := Nat.exists_eq_succ_of_ne_zero hsurplus
  have hopen := skips_open hopening hts hus
  rw [hdepth] at hopen
  have hall := hopen.trans ((skips_foot ht hn).trans (skips_print hrest hds))
  obtain ⟨last, stop', hskip⟩ := hall none none stop [e]
  simp only [List.append_assoc, List.cons_append, List.nil_append] at hskip ⊢
  rw [hskip, skipUnsupported, if_pos he, if_neg (by simp)]

end Construct

end Control

/-- The text from the first word of a construct to its last one is the text of the construct without
the white space around it. -/
theorem BlockSource.slice_construct {b : BlockSource} {before middle : List Char} {stop : Nat}
    (behind : List Char) (htext : b.text = before ++ middle ++ ['\n'] ++ behind)
    (hbefore : ∀ c ∈ before, Text.isBlank c = true)
    (hstop : stop + 1 + behind.length = b.text.length) :
    b.slice before.length stop = String.ofList (Text.trim (before ++ middle ++ ['\n'])) := by
  have hlength : stop - before.length = middle.length := by
    simp only [htext, List.length_append, List.length_singleton] at hstop
    omega
  have hslice : (b.text.drop before.length).take (stop - before.length) = middle := by
    rw [htext, hlength]
    simp
  have hnewline : Text.isBlank '\n' = true := by decide
  unfold slice
  rw [hslice, Text.trim_append hbefore (by simpa using hnewline)]

section Statements

open Control

variable {b : BlockSource} {k : Keyword} {t : Token} {ts rest : List Token}

/-- What opens with such a word is unsupported. -/
theorem BlockSource.statement_construct (hk : k.opensBlock = true) (ht : t.lexeme = .keyword k) :
    b.statement none (t :: ts) =
      (skipUnsupported none 0 none true t.stop (t :: ts)).map fun (stop, rest) =>
        (.unsupported (b.slice t.start stop) (b.lines.lineInFile t.line), rest) := by
  have hsupported : b.supported none (t :: ts) = .error .mismatch := by
    rw [supported.eq_def, if_pos (by simp [ht, opensBlock, hk])]
  rw [statement.eq_def, hsupported]
  show b.unsupported none (t :: ts) = _
  unfold unsupported
  simp only [List.head?_cons, Option.elim_some, lineInFile]
  cases skipUnsupported none 0 none true t.stop (t :: ts) <;> rfl

/-- A construct that is read to its end is the first statement, and what follows is read next. -/
theorem BlockSource.statements_construct {stop : Nat} {n : Token} (hk : k.opensBlock = true)
    (ht : t.lexeme = .keyword k) (hn : n.lexeme = .newline)
    (hskip : skipUnsupported none 0 none true t.stop (t :: ts) = .ok (stop, n :: rest))
    (hlength : rest.length < ts.length) :
    b.statements (t :: ts) = (b.statements rest).map fun (items, line) =>
      (.unsupported (b.slice t.start stop) (b.lines.lineInFile t.line) :: items, line) := by
  have hlt : (n :: rest).length < (t :: ts).length := by
    simp only [List.length_cons]
    omega
  refine statements_statement (by simp [ht, Lexeme.isSeparator]) (by simp [ht]) hn hlt ?_
  rw [statement_construct hk ht, hskip]
  rfl

theorem BlockSource.statements_open_construct (hk : k.opensBlock = true)
    (ht : t.lexeme = .keyword k)
    (hskip : skipUnsupported none 0 none true t.stop (t :: ts) = .error .endOfBlock) :
    b.statements (t :: ts) = .ok ([], some (b.lines.lineInFile t.line)) := by
  have hafter : afterBreaks (t :: ts) = t :: ts :=
    afterBreaks_cons _ (by simp [ht, Lexeme.isSeparator])
  have heof : t.lexeme ≠ .eof := by simp [ht]
  rw [statements.eq_def, hafter]
  simp only [heof, if_false, statement_construct hk ht, hskip, Except.map]
  rfl

end Statements

open Control in
/-- A construct that opens with a reserved word, followed by declarations in one line each. If none
of its loops is written with `do`, it is one unsupported statement with the text of the construct,
and the declarations are read. Otherwise the text ends inside the construct, and nothing is read. -/
theorem read_construct (lines : LineMap) (head : Head) (body : Code) (margin indent : Nat)
    (ds : List Declaration) {k : Keyword} {withDo : Bool} (hopening : head.opening = .word k withDo)
    (hds : ∀ d ∈ ds, d.block = none) :
    BlockContent.read lines ((Code.construct head body margin .nil).text ++ print indent ds) =
      .ok (if (Code.construct head body margin .nil).surplus = 0 then
        ⟨.unsupported (String.ofList (Text.trim (Code.construct head body margin .nil).text))
            (lines.lineInFile 1) ::
          Plain.statements lines indent
            (lineAfter 1 (Code.construct head body margin .nil).text) ds, none⟩
      else ⟨[], some (lines.lineInFile 1)⟩) := by
  generalize htext : (Code.construct head body margin .nil).text = text
  generalize hsource : text ++ print indent ds = source
  have hstart := Lexer.atLineStart_start source
  have hr : (Lexer.start source).rest = head.text ++ ['\n'] ++
      (body.text ++ (footText margin ++ ['\n'] ++ (print indent ds ++ []))) := by
    simp [Lexer.start, ← hsource, ← htext, Code.text]
  -- the tokens, line by line
  obtain ⟨ts, l₁, hreads, hend, hts⟩ := Lexer.exists_reads head.toLine
  obtain ⟨l₂, hhead, hl₂⟩ := Lexer.scans_of_reads head.oneLine hreads hend hts hstart hr
  have hr₂ := hhead.rest_eq hr
  obtain ⟨us, l₃, hbody, hus, hl₃⟩ := Lexer.scans_code body hl₂ hr₂
  have hr₃ := hbody.rest_eq hr₂
  obtain ⟨t, n, l₄, hfoot, ht, hn, hstop, hl₄⟩ := Lexer.scans_foot margin hl₃ hr₃
  obtain ⟨ws, l₅, hprint, hws⟩ := Lexer.scans_print ds hl₄.settled (hfoot.rest_eq hr₃)
  have hsame : ts.map (Token.shift (Lexer.start source).pos ((Lexer.start source).line - 1)) = ts :=
    List.map_id'' (fun _ => rfl) ts
  rw [hsame] at hhead
  have hline : l₄.line = lineAfter 1 text := by
    have := (hhead.trans (hbody.trans hfoot)).line
    simpa [← htext, Code.text, Lexer.start] using this
  rw [hline] at hws
  have hall : Lexer.Scans (Lexer.start source) source (ts ++ us ++ t :: n :: ws) l₅ := by
    simpa [← hsource, ← htext, Code.text] using hhead.trans (hbody.trans (hfoot.trans hprint))
  obtain ⟨e, he, htokenize⟩ := tokenize_of_scans lines hall
  rw [List.append_assoc, List.cons_append, List.cons_append] at htokenize
  -- the first of them is the word that opens the construct
  obtain ⟨hk, -, header, -, hxs⟩ : (Opening.word k withDo).Spells head.lexemes :=
    hopening ▸ head.spells
  obtain ⟨w, ts', rfl, hw, -⟩ := List.map_eq_cons_iff.1 (hxs ▸ hts)
  obtain ⟨hwline, before, word, hheadText, hwstart, hblank⟩ :=
    first_of_reads head.oneLine hreads hend hw
  have hsurplus : (Code.construct head body margin .nil).surplus =
      head.opening.surplus + body.surplus := rfl
  rw [hsurplus]
  by_cases hzero : head.opening.surplus + body.surplus = 0
  · have hskip := skipUnsupported_construct hopening hts hus ht hn hzero w.stop (ws ++ [e])
    obtain ⟨middle, hmiddle⟩ : ∃ middle, text = before ++ middle ++ ['\n'] := by
      refine ⟨word ++ ['\n'] ++ body.text ++ footText margin, ?_⟩
      simp [← htext, Code.text, hheadText]
    have hslice : (BlockSource.mk source lines).slice w.start t.stop =
        String.ofList (Text.trim text) := by
      rw [hwstart, hmiddle]
      refine BlockSource.slice_construct (print indent ds) ?_ hblank ?_
      · simp [← hsource, hmiddle]
      · simpa [Lexer.start] using hstop
    rw [if_pos hzero]
    refine read_of_statements htokenize ?_
    rw [List.cons_append, List.cons_append] at hskip ⊢
    rw [BlockSource.statements_construct hk hw hn hskip (by simp; omega),
      BlockSource.statements_print hws, BlockSource.statements_eof he, hslice, hwline]
    simp [Except.map]
  · have hskip := skipUnsupported_open hopening hts hus ht hn hzero hws hds he w.stop
    rw [if_neg hzero]
    refine read_of_statements htokenize ?_
    rw [List.cons_append, List.cons_append] at hskip ⊢
    rw [BlockSource.statements_open_construct hk hw hskip, hwline]
    rfl

section Example

open Control

/-- A condition with a call that takes a block, a loop and a branch inside it. -/
theorem read_construct_nested :
    let outer : Head := ⟨⟨"  if debug == 1 # ?".toList,
      [.keyword .ifWord, .ident "debug", .op .eq, .number "1"], by decide, by decide +kernel⟩,
      .word .ifWord false, rfl, by simp, [.ident "debug", .op .eq, .number "1"], by decide, rfl⟩
    let each : Head := ⟨⟨"users.each do |u|".toList,
      [.ident "users", .op .dot, .ident "each", .keyword .doWord, .op .bar, .ident "u", .op .bar],
      by decide, by decide +kernel⟩,
      .call, [.ident "users", .op .dot, .ident "each"], [.op .bar, .ident "u", .op .bar], by simp,
      by decide, rfl⟩
    let loop : Head := ⟨⟨"for x in u".toList,
      [.keyword .forWord, .ident "x", .keyword .inWord, .ident "u"], by decide, by decide +kernel⟩,
      .word .forWord false, rfl, by simp, [.ident "x", .keyword .inWord, .ident "u"], by decide, rfl⟩
    let step : Line := ⟨"x += 1".toList, [.ident "x", .op .addAssign, .number "1"], by decide,
      by decide +kernel⟩
    let branch : Line := ⟨"else".toList, [.keyword .elseWord], by decide, by decide +kernel⟩
    let body : Code := .construct each (.construct loop (.line step (by decide) .nil) 4 .nil) 2
      (.line branch (by decide) (.line step (by decide) .nil))
    let text := "  if debug == 1 # ?\nusers.each do |u|\nfor x in u\nx += 1\n    end\n" ++
      "  end\nelse\nx += 1\nend\n"
    (Code.construct outer body 0 .nil).text = text.toList ∧
      outer.opening = .word .ifWord false ∧
      BlockContent.read [] (text.toList ++ "package 'vim'\n".toList) =
        .ok ⟨[.unsupported (String.ofList (Text.trim text.toList)) 1,
          .resource "package" (some (.literal .string "vim")) [] false 10], none⟩ := by
  intro outer each loop step branch body text
  let package : Name := ⟨⟨'p', "ackage".toList, by decide, by decide⟩, by decide, by decide⟩
  have htext : (Code.construct outer body 0 .nil).text = text.toList := by decide
  have hread := read_construct [] outer body 0 0 [⟨package, "vim", false, none⟩]
    (rfl : outer.opening = .word .ifWord false) (by simp)
  have hprint : print 0 [⟨package, "vim", false, none⟩] = "package 'vim'\n".toList := by decide
  have hsurplus : (Code.construct outer body 0 .nil).surplus = 0 := rfl
  have hline : lineAfter 1 text.toList = 10 := by decide
  rw [htext, hprint, if_pos hsurplus, hline] at hread
  exact ⟨htext, rfl, hread⟩

/-- A loop with `do` and one without it, each closed by one `end` and before a declaration: of the
first nothing is read. -/
theorem read_loop_with_do :
    BlockContent.read [] "while x do\n  y\nend\npackage 'vim'\n".toList = .ok ⟨[], some 1⟩ ∧
      BlockContent.read [] "while x\n  y\nend\npackage 'vim'\n".toList =
        .ok ⟨[.unsupported "while x\n  y\nend" 1,
          .resource "package" (some (.literal .string "vim")) [] false 4], none⟩ := by
  constructor
  · with_unfolding_all rfl
  · with_unfolding_all rfl

end Example

end RecipeManifest

import RecipeManifest.Proofs.LexerRun
import RecipeManifest.Proofs.Plain

/-!
The tokens of plain declarations.

`Lexer.Scans l cs ts l'` says that from `l` the lexer reads the text `cs`, makes the tokens `ts` and
comes to `l'`. Words, numbers and symbols end only at a character that cannot go on in them
(`EndsWord`), so what is known of a value depends on what follows it. Main statement
(`scans_print`): the tokens of printed declarations are those that spell them.
-/

namespace RecipeManifest

/-! ## Characters -/

/-- Of the ASCII characters only the ten digits are digits. -/
theorem Text.isDigit_ascii {c : Char} (hc : c.toNat < 0x80) (h : isDigit c = true) :
    0x30 ≤ c.toNat ∧ c.toNat ≤ 0x39 := by
  have hranges : ∀ r ∈ decimalRanges ++ otherDigitRanges, r = (0x30, 0x39) ∨ 0x80 ≤ r.1 := by
    decide
  have hmem : ∃ r ∈ decimalRanges ++ otherDigitRanges, r.1 ≤ c.toNat ∧ c.toNat ≤ r.2 := by
    simp only [isDigit, isDecimalDigit, Bool.or_eq_true, inRanges_iff] at h
    rcases h with ⟨r, hr, hle⟩ | ⟨r, hr, hle⟩
    · exact ⟨r, List.mem_append_left _ hr, hle⟩
    · exact ⟨r, List.mem_append_right _ hr, hle⟩
  obtain ⟨r, hr, hle⟩ := hmem
  rcases hranges r hr with rfl | hbig
  · exact hle
  · omega

theorem isDecimalDigit_of_isDigit {c : Char} (h : c.isDigit = true) :
    Text.isDecimalDigit c = true := by
  apply Text.isDecimalDigit_of_ascii
  simp only [Char.isDigit, Bool.and_eq_true, decide_eq_true_eq, ge_iff_le] at h
  exact h

/-- Reserved words are lower-case words. -/
theorem Keyword.spelling_eq (k : Keyword) : ∃ c w, k.spelling.toList = c :: w ∧
    isNameStart c = true ∧ Text.isDigit c = false ∧ c.isUpper = false ∧
    (c :: w).all isNameChar = true ∧ (c :: w).count '\n' = 0 := by
  cases k <;> exact ⟨_, _, rfl, by decide, by decide, by decide, by decide, by decide⟩

theorem Keyword.ofSpelling?_spelling (k : Keyword) : Keyword.ofSpelling? k.spelling = some k := by
  cases k <;> decide

namespace Plain

namespace Ident

variable (n : Ident)

theorem lower_or_underscore : n.first.isLower = true ∨ n.first = '_' := by
  simpa using n.first_ok

theorem toNat_first : (97 ≤ n.first.toNat ∧ n.first.toNat ≤ 122) ∨ n.first = '_' := by
  rcases n.lower_or_underscore with h | h
  · left
    change (decide (97 ≤ n.first.val) && decide (n.first.val ≤ 122)) = true at h
    simp only [Bool.and_eq_true, decide_eq_true_eq, UInt32.le_iff_toNat_le] at h
    exact h
  · exact .inr h

theorem isNameStart_first : isNameStart n.first = true := by
  show ((n.first.isUpper || n.first.isLower) || n.first == '_') = true
  rcases n.lower_or_underscore with h | h <;> simp [h]

theorem isDigit_first : Text.isDigit n.first = false := by
  rw [Bool.eq_false_iff]
  intro h
  rcases n.toNat_first with hn | hn
  · have := Text.isDigit_ascii (by omega) h
    omega
  · rw [hn] at h
    exact absurd h (by decide)

theorem isUpper_first : n.first.isUpper = false := by
  rcases n.toNat_first with hn | hn
  · rw [Bool.eq_false_iff]
    intro h
    have hle : 65 ≤ n.first.toNat ∧ n.first.toNat ≤ 90 := of_decide_eq_true h
    omega
  · rw [hn]
    rfl

theorem isNameChar_of_mem {c : Char} (h : c ∈ n.chars) : isNameChar c = true := by
  rw [chars, List.mem_cons] at h
  rcases h with rfl | h
  · show (((n.first.isUpper || n.first.isLower) || n.first.isDigit) || n.first == '_') = true
    rcases n.lower_or_underscore with h | h <;> simp [h]
  · exact List.all_eq_true.1 n.more_ok c h

end Ident

/-- The characters that stand behind words and numbers in plain declarations. -/
def wordEnds : List Char :=
  [' ', '\n', ',', '(', ')', ']']

/-- What follows ends a word or a number before it. -/
def EndsWord (rest : List Char) : Prop :=
  ∃ c more, rest = c :: more ∧ c ∈ wordEnds

theorem endsWord_cons {c : Char} (more : List Char) (h : c ∈ wordEnds) : EndsWord (c :: more) :=
  ⟨c, more, rfl, h⟩

theorem EndsWord.head {rest : List Char} {p : Char → Bool} (h : EndsWord rest)
    (hp : (wordEnds.all fun c => !p c) = true) : ∀ c, rest.head? = some c → p c = false := by
  obtain ⟨c, more, rfl, hc⟩ := h
  rintro _ ⟨⟩
  simpa using List.all_eq_true.1 hp c hc

/-- What follows cannot go on in a name before it, nor be a mark that belongs to the name. -/
def StopsName (rest : List Char) : Prop :=
  ∀ c, rest.head? = some c → isNameChar c = false ∧ c ∉ ['?', '!', '=', ':']

theorem EndsWord.stopsName {rest : List Char} (h : EndsWord rest) : StopsName rest := by
  intro c hc
  have := h.head (p := fun c => isNameChar c || c ∈ ['?', '!', '=', ':']) (by decide) c hc
  simpa only [Bool.or_eq_false_iff, decide_eq_false_iff_not] using this

/-- A run of characters ends where the next one is of another kind. -/
theorem takeWhile_of_head {p : Char → Bool} {w rest : List Char} (hw : ∀ c ∈ w, p c = true)
    (hrest : ∀ c, rest.head? = some c → p c = false) : (w ++ rest).takeWhile p = w := by
  rw [List.takeWhile_append_of_pos hw]
  cases rest with
  | nil => simp
  | cons c more => simp [hrest c rfl]

end Plain

/-! ## Steps -/

namespace Lexer

open Plain

/-- No heredoc lies ahead, and a word here is more than the name of a member. -/
structure Settled (l : Lexer) : Prop where
  resume : l.resume = none
  afterDot : l.afterDot = false

/-- From `l` the lexer reads the text `cs`, makes the tokens `ts` and comes to `l'`. -/
structure Scans (l : Lexer) (cs : List Char) (ts : List Token) (l' : Lexer) : Prop where
  reads : Reads l ts l'
  rest : l.rest = cs ++ l'.rest
  line : l'.line = lineAfter l.line cs
  settled : l'.Settled

theorem settled_start (source : List Char) : (start source).Settled :=
  ⟨rfl, rfl⟩

section Scans

variable {l l₁ l₂ : Lexer} {cs ds r : List Char} {ts us : List Token}

theorem Scans.refl (hl : l.Settled) : Scans l [] [] l :=
  ⟨.refl l, rfl, rfl, hl⟩

theorem Scans.trans (h : Scans l cs ts l₁) (h' : Scans l₁ ds us l₂) :
    Scans l (cs ++ ds) (ts ++ us) l₂ where
  reads := h.reads.trans h'.reads
  rest := by rw [h.rest, h'.rest, List.append_assoc]
  line := by
    rw [h'.line, h.line]
    simp only [lineAfter, List.count_append]
    omega
  settled := h'.settled

theorem Scans.rest_eq (h : Scans l cs ts l₁) (hr : l.rest = cs ++ r) : l₁.rest = r := by
  rw [h.rest] at hr
  exact List.append_cancel_left hr

end Scans

section Front

variable {l : Lexer} {c : Char} {w r : List Char} {x : Lexeme} {lines : Nat}

/-- The state behind a lexeme. -/
def behind (l : Lexer) (x : Lexeme) (used lines : Nat) : Lexer :=
  { l.advance used lines with previous := some x }

/-- A lexeme that the front of the text spells is read as one token. -/
theorem scans_lexeme (hl : l.resume = none) (hr : l.rest = (c :: w) ++ r)
    (hf : l.front c (w ++ r) = .ok (.lexeme x w.length lines))
    (hn : lines = (c :: w).count '\n') (hd : x ≠ .op .dot) (hs : x ≠ .op .scope) :
    Scans l (c :: w) [l.token x w.length] (l.behind x w.length lines) where
  reads := by
    have hstep : l.step c (w ++ r) =
        .ok (some (l.token x w.length), l.behind x w.length lines) := by
      rw [step, hf]
      rfl
    exact .single (t := some (l.token x w.length)) hr hstep
  rest := by
    simp [behind, advance, hr]
  line := by
    rw [hn]
    rfl
  settled := ⟨hl, by simp [behind, afterDot, hd, hs]⟩

/-- What follows a lexeme stands behind a blank only if the lexeme ends with one. -/
theorem spaced_behind (hr : l.rest = (c :: w) ++ r) {e : Char}
    (he : (c :: w).getLast? = some e) (hblank : (e == ' ' || e == '\t') = false) :
    (l.behind x w.length lines).spaced = false := by
  have hlast : l.rest[w.length]? = some e := by
    rw [hr, List.getElem?_append_left (by simp), ← he, List.getLast?_eq_getElem?]
    simp
  simp only [behind, advance, hlast, Option.any_some, hblank]

theorem scans_blanks (n : Nat) : ∀ {l : Lexer}, l.Settled → l.rest = List.replicate n ' ' ++ r →
    ∃ l', Scans l (List.replicate n ' ') [] l' := by
  induction n with
  | zero =>
    intro l hl _
    exact ⟨l, .refl hl⟩
  | succ n ih =>
    intro l hl hr
    have hrest : (l.advance 0 0).rest = List.replicate n ' ' ++ r := by
      simp [advance, hr, List.replicate_succ]
    have hone : Scans l [' '] [] (l.advance 0 0) := by
      refine ⟨.single (t := none) (by rw [hr]; rfl) rfl, ?_, rfl, hl.resume, hl.afterDot⟩
      rw [hrest, hr]
      rfl
    obtain ⟨l', h⟩ := ih (l := l.advance 0 0) ⟨hl.resume, hl.afterDot⟩ hrest
    exact ⟨l', hone.trans h⟩

/-- What is read after a blank stands behind a blank. -/
theorem scans_blank (hl : l.Settled) (hr : l.rest = ' ' :: r) :
    ∃ l', Scans l [' '] [] l' ∧ l'.spaced = true := by
  refine ⟨l.advance 0 0, ⟨.single (t := none) hr rfl, ?_, rfl, hl.resume, hl.afterDot⟩, ?_⟩
  · simp [advance, hr]
  · simp [advance, hr]

/-- The line end that stands at the front, where no heredoc lies ahead. -/
theorem scans_lineEnd (hl : l.Settled) (hr : l.rest = '\n' :: r) :
    Scans l ['\n'] [l.token .newline 0] { l.advance 0 1 with previous := some .newline } := by
  have hstep : l.step '\n' r =
      .ok (some (l.token .newline 0), { l.advance 0 1 with previous := some .newline }) := by
    rw [← jump_of_resume_none hl.resume]
    rfl
  refine ⟨.single (t := some (l.token .newline 0)) hr hstep, ?_, rfl, hl.resume, rfl⟩
  simp [advance, hr]

theorem scans_newline (hl : l.Settled) (hr : l.rest = '\n' :: r) :
    ∃ t l', Scans l ['\n'] [t] l' ∧ t.lexeme = .newline :=
  ⟨_, _, scans_lineEnd hl hr, rfl⟩

theorem scans_newlines (m : Nat) : ∀ {l : Lexer}, l.Settled →
    l.rest = List.replicate m '\n' ++ r →
    ∃ ts l', Scans l (List.replicate m '\n') ts l' ∧ ∀ t ∈ ts, t.lexeme = .newline := by
  induction m with
  | zero =>
    intro l hl _
    exact ⟨[], l, .refl hl, by simp⟩
  | succ m ih =>
    intro l hl hr
    rw [List.replicate_succ, List.cons_append] at hr
    obtain ⟨t, l₁, hn, ht⟩ := scans_newline hl hr
    obtain ⟨ts, l₂, hm, hts⟩ := ih hn.settled (hn.rest_eq hr)
    exact ⟨t :: ts, l₂, hn.trans hm, by simpa [ht] using hts⟩

/-! ## Words -/

theorem front_of_nameStart {more : List Char} (hc : isNameStart c = true)
    (hd : Text.isDigit c = false) : l.front c more = .ok (l.frontWord (c :: more)) := by
  unfold front
  split
  case h_17 => simp [hc, hd]
  all_goals exact absurd hc (by decide)

theorem frontName_of_stopsName (hc : isNameStart c = true)
    (hw : ∀ d ∈ c :: w, isNameChar d = true) (hr : StopsName r) :
    frontName (c :: (w ++ r)) = c :: w := by
  have := takeWhile_of_head hw fun d hd => (hr d hd).1
  simpa [frontName, hc] using this

/-- Nothing that stops a name belongs to it, or makes a label of it. -/
theorem no_suffix (hr : StopsName r) :
    nameSuffix r = [] ∧ symbolSuffix r = [] ∧ endsLabel r = false := by
  cases r with
  | nil => exact ⟨rfl, rfl, rfl⟩
  | cons d more =>
    obtain ⟨-, hd⟩ := hr d rfl
    simp only [List.mem_cons, List.not_mem_nil, or_false, not_or] at hd
    exact ⟨by simp [nameSuffix, hd], by simp [symbolSuffix, hd], by simp [endsLabel, hd]⟩

/-- A word is a keyword if it is spelled like one and no member is selected, and a name
otherwise. -/
theorem frontWord_of_stopsName (hc : isNameStart c = true) (hw : ∀ d ∈ c :: w, isNameChar d = true)
    (hu : c.isUpper = false) (hr : StopsName r) :
    l.frontWord (c :: (w ++ r)) =
      .lexeme (if l.afterDot then .ident (String.ofList (c :: w))
        else (Keyword.ofSpelling? (String.ofList (c :: w))).elim
          (.ident (String.ofList (c :: w))) .keyword) w.length 0 := by
  obtain ⟨hsuffix, -, hlabel⟩ := no_suffix hr
  unfold frontWord
  rw [frontName_of_stopsName hc hw hr]
  simp only [List.length_cons, List.drop_succ_cons, List.drop_left, hsuffix, List.append_nil,
    hlabel, Bool.false_and, Bool.false_eq_true, if_false, List.head?_cons, Option.any_some, hu,
    Nat.add_sub_cancel]
  cases Keyword.ofSpelling? (String.ofList (c :: w)) <;> cases l.afterDot <;> rfl

theorem frontWord_of_endsWord (hl : l.Settled) (hc : isNameStart c = true)
    (hw : ∀ d ∈ c :: w, isNameChar d = true) (hu : c.isUpper = false) (hr : EndsWord r) :
    l.frontWord (c :: (w ++ r)) =
      .lexeme ((Keyword.ofSpelling? (String.ofList (c :: w))).elim
        (.ident (String.ofList (c :: w))) .keyword) w.length 0 := by
  rw [frontWord_of_stopsName hc hw hu hr.stopsName, hl.afterDot, if_neg Bool.false_ne_true]

/-- A word that is no keyword, or the name of a member. -/
theorem scans_ident (n : Ident) (hl : l.resume = none)
    (hx : l.afterDot = true ∨ Keyword.ofSpelling? n.text = none) (hr : l.rest = n.chars ++ r)
    (he : StopsName r) :
    ∃ t l', Scans l n.chars [t] l' ∧ t.lexeme = .ident n.text ∧ t.line = l.line ∧
      l'.spaced = false := by
  have hfront : l.front n.first (n.more ++ r) =
      .ok (.lexeme (.ident n.text) n.more.length 0) := by
    rw [front_of_nameStart n.isNameStart_first n.isDigit_first,
      frontWord_of_stopsName n.isNameStart_first (fun d => n.isNameChar_of_mem) n.isUpper_first he]
    change Except.ok (Front.lexeme (if l.afterDot then .ident n.text
      else (Keyword.ofSpelling? n.text).elim (.ident n.text) .keyword) _ _) = _
    rcases hx with hx | hx <;> simp [hx]
  have hcount : 0 = n.chars.count '\n' := by
    symm
    rw [List.count_eq_zero]
    intro h
    exact absurd (n.isNameChar_of_mem h) (by decide)
  refine ⟨l.token (.ident n.text) n.more.length, l.behind (.ident n.text) n.more.length 0,
    scans_lexeme hl hr hfront hcount (by simp) (by simp), rfl, rfl, ?_⟩
  have hne : n.chars ≠ [] := by simp [Ident.chars]
  refine spaced_behind hr (List.getLast?_eq_some_getLast hne) ?_
  have hlast := n.isNameChar_of_mem (List.getLast_mem hne)
  rw [Bool.eq_false_iff]
  intro hb
  simp only [Bool.or_eq_true, beq_iff_eq] at hb
  rcases hb with hb | hb <;> rw [hb] at hlast <;> exact absurd hlast (by decide)

theorem scans_name (n : Name) (hl : l.Settled) (hr : l.rest = n.chars ++ r) (he : EndsWord r) :
    ∃ t l', Scans l n.chars [t] l' ∧ t.lexeme = .ident n.text ∧ t.line = l.line ∧
      l'.spaced = false :=
  scans_ident n.toIdent hl.resume (.inr n.not_keyword) hr he.stopsName

/-- The token of a reserved word, which ends where the word does. -/
theorem scans_spelling (k : Keyword) (hl : l.Settled) (hr : l.rest = k.spelling.toList ++ r)
    (he : EndsWord r) :
    Scans l k.spelling.toList [l.token (.keyword k) (k.spelling.toList.length - 1)]
      (l.behind (.keyword k) (k.spelling.toList.length - 1) 0) := by
  obtain ⟨c, w, hk, hc, hd, hu, hw, hn⟩ := Keyword.spelling_eq k
  have hspell : String.ofList (c :: w) = k.spelling := by rw [← hk, String.ofList_toList]
  have hfront : l.front c (w ++ r) = .ok (.lexeme (.keyword k) w.length 0) := by
    rw [front_of_nameStart hc hd, frontWord_of_endsWord hl hc (List.all_eq_true.1 hw) hu he, hspell,
      Keyword.ofSpelling?_spelling]
    rfl
  rw [hk] at hr ⊢
  exact scans_lexeme hl.resume hr hfront hn.symm (by simp) (by simp)

theorem scans_keyword (k : Keyword) (hl : l.Settled) (hr : l.rest = k.spelling.toList ++ r)
    (he : EndsWord r) :
    ∃ t l', Scans l k.spelling.toList [t] l' ∧ t.lexeme = .keyword k ∧ t.spaced = l.spaced :=
  ⟨_, _, scans_spelling k hl hr he, rfl, rfl⟩

/-! ## Literals -/

theorem readSingleQuoted_escape (text r : List Char) :
    readSingleQuoted (text.flatMap escape ++ '\'' :: r) =
      some ⟨text, (text.flatMap escape).length + 1, text.count '\n'⟩ := by
  induction text with
  | nil => rfl
  | cons c text ih =>
    by_cases hq : c = '\''
    · subst hq
      simp [escape, readSingleQuoted, ih, Reading.after]
      omega
    by_cases hb : c = '\\'
    · subst hb
      simp [escape, readSingleQuoted, ih, Reading.after]
      omega
    -- no other character is escaped, and the reader takes it as it is
    rw [List.flatMap_cons, show escape c = [c] by simp [escape, hq, hb], List.cons_append,
      List.nil_append, List.cons_append, readSingleQuoted]
    · simp only [ih, Option.map_some, Reading.after, List.length_cons, List.count_cons, lineEnds,
        beq_iff_eq]
      congr 2 <;> omega
    all_goals simp [hq, hb]

theorem count_escape (text : List Char) :
    (text.flatMap escape).count '\n' = text.count '\n' := by
  induction text with
  | nil => rfl
  | cons c text ih =>
    have hc : (escape c).count '\n' = [c].count '\n' := by
      by_cases h : c = '\'' ∨ c = '\\'
      · simp [escape, h]
      · simp [escape, h]
    rw [List.flatMap_cons, List.count_append, ih, hc, ← List.count_append]
    rfl

theorem front_string (text : String) : l.front '\'' (text.toList.flatMap escape ++ ['\''] ++ r) =
    .ok (.lexeme (.string [.text text.toList]) (text.toList.flatMap escape ++ ['\'']).length
      (text.toList.count '\n')) := by
  show frontSingleQuoted _ = _
  rw [frontSingleQuoted, List.append_assoc, List.singleton_append, readSingleQuoted_escape]
  simp

theorem front_symbol (n : Ident) (he : StopsName r) :
    l.front ':' (n.chars ++ r) = .ok (.lexeme (.symbol n.text) n.chars.length 0) := by
  have hopens : opensSymbol (n.chars ++ r) = true := by
    simp [Ident.chars, opensSymbol, n.isNameStart_first]
  have hname : frontName (n.chars ++ r) = n.chars :=
    frontName_of_stopsName n.isNameStart_first (fun d => n.isNameChar_of_mem) he
  obtain ⟨-, hsuffix, -⟩ := no_suffix he
  show (if opensSymbol (n.chars ++ r) then frontSymbol (n.chars ++ r) else _) = _
  rw [if_pos hopens]
  unfold frontSymbol
  split
  · next h =>
    have := n.isNameStart_first
    rw [Ident.chars, List.cons_append, List.cons.injEq] at h
    rw [h.1] at this
    exact absurd this (by decide)
  · next h =>
    have := n.isNameStart_first
    rw [Ident.chars, List.cons_append, List.cons.injEq] at h
    rw [h.1] at this
    exact absurd this (by decide)
  · simp [hname, hsuffix, Ident.text]

end Front

section Number

variable {l : Lexer} {r : List Char} (d : Decimal)

theorem isDigitChar_of_isDigit {c : Char} (h : c.isDigit = true) : isDigitChar c = true := by
  simp [isDigitChar, isDecimalDigit_of_isDigit h]

/-- What follows the whole digits of a number does not go on with them. -/
theorem head_point_append {p : Char → Bool} (he : EndsWord r)
    (hp : (wordEnds.all fun c => !p c) = true) (hdot : p '.' = false) :
    ∀ c, (d.point ++ r).head? = some c → p c = false := by
  unfold Decimal.point
  split
  · exact he.head hp
  · rintro _ ⟨⟩
    exact hdot

theorem frontFraction_point (he : EndsWord r) : frontFraction (d.point ++ r) = d.point := by
  cases hf : d.fraction with
  | nil =>
    obtain ⟨e, more, rfl, h⟩ := he
    have hdot : e ≠ '.' := by
      rintro rfl
      exact absurd h (by decide)
    simp [Decimal.point, hf, frontFraction, hdot]
  | cons f more =>
    have hfirst := isDecimalDigit_of_isDigit (List.all_eq_true.1 d.fraction_ok f (by simp [hf]))
    have hmore : ∀ c ∈ more, isDigitChar c = true := fun c hc =>
      isDigitChar_of_isDigit (List.all_eq_true.1 d.fraction_ok c (by simp [hf, hc]))
    simp [Decimal.point, hf, frontFraction, hfirst, takeWhile_of_head hmore (he.head (by decide))]

theorem frontExponent_of_endsWord (he : EndsWord r) : frontExponent r = [] := by
  obtain ⟨e, more, rfl, h⟩ := he
  have hmark : ¬ (e = 'e' ∨ e = 'E') := by
    rintro (rfl | rfl) <;> exact absurd h (by decide)
  simp [frontExponent, hmark]

theorem frontDecimal_digits (he : EndsWord r) : frontDecimal (d.digits ++ r) = d.digits := by
  have hwhole : ∀ c ∈ d.first :: d.more, isDigitChar c = true := by
    intro c hc
    rcases List.mem_cons.1 hc with rfl | hc
    · exact isDigitChar_of_isDigit d.first_ok
    · exact isDigitChar_of_isDigit (List.all_eq_true.1 d.more_ok c hc)
  have hsplit : d.digits ++ r = (d.first :: d.more) ++ (d.point ++ r) := by
    simp [Decimal.digits]
  have htake : (d.digits ++ r).takeWhile isDigitChar = d.first :: d.more := by
    rw [hsplit]
    exact takeWhile_of_head hwhole (head_point_append d he (by decide) (by decide))
  have hdrop : (d.digits ++ r).drop (d.first :: d.more).length = d.point ++ r := by
    rw [hsplit, List.drop_left]
  unfold frontDecimal
  simp only [htake, ← List.drop_drop, hdrop, frontFraction_point d he, List.drop_left,
    frontExponent_of_endsWord he, List.append_nil]
  simp [Decimal.digits]

/-- The mark of a hexadecimal number would stand where a digit, a point or the end is. -/
theorem frontHex_digits (he : EndsWord r) : frontHex (d.digits ++ r) = [] := by
  have hnext : ∀ c, (d.more ++ (d.point ++ r)).head? = some c →
      (c == 'x' || c == 'X') = false := by
    cases hm : d.more with
    | nil => exact head_point_append d he (by decide) (by decide)
    | cons m more =>
      rintro _ ⟨⟩
      have hm' := List.all_eq_true.1 d.more_ok m (by simp [hm])
      rw [Bool.eq_false_iff]
      intro hx
      simp only [Bool.or_eq_true, beq_iff_eq] at hx
      rcases hx with rfl | rfl <;> exact absurd hm' (by decide)
  have hsplit : d.digits ++ r = d.first :: (d.more ++ (d.point ++ r)) := by
    simp [Decimal.digits]
  rw [hsplit]
  generalize d.more ++ (d.point ++ r) = s at hnext
  unfold frontHex
  split
  · next x rest heq =>
    rw [List.cons.injEq] at heq
    have := hnext x (by rw [heq.2]; rfl)
    simp only [Bool.or_eq_false_iff, beq_eq_false_iff_ne] at this
    simp [this]
  · rfl

theorem front_of_isDigit {c : Char} {more number : List Char} (hc : c.isDigit = true)
    (hn : frontNumber (c :: more) = number) (hne : number ≠ []) :
    l.front c more = .ok (.lexeme (.number (String.ofList number)) (number.length - 1) 0) := by
  have hdigit : Text.isDigit c = true := by
    simp [Text.isDigit, isDecimalDigit_of_isDigit hc]
  unfold front
  split
  case h_17 =>
    rw [if_pos hdigit, hn]
    cases number with
    | nil => exact absurd rfl hne
    | cons d ds => rfl
  all_goals exact absurd hc (by decide)

theorem front_number (he : EndsWord r) :
    l.front d.first (d.more ++ d.point ++ r) =
      .ok (.lexeme (.number (String.ofList d.digits)) (d.more ++ d.point).length 0) := by
  have hnumber : frontNumber (d.first :: (d.more ++ d.point ++ r)) = d.digits := by
    show frontNumber (d.digits ++ r) = d.digits
    unfold frontNumber
    rw [frontHex_digits d he, frontDecimal_digits d he]
    simp [Decimal.digits, isDecimalDigit_of_isDigit d.first_ok]
  rw [front_of_isDigit d.first_ok hnumber (by simp [Decimal.digits])]
  simp [Decimal.digits]

theorem count_digits : d.digits.count '\n' = 0 := by
  have hno : ¬ '\n'.isDigit = true := by decide
  have hfirst : '\n' ≠ d.first := fun h => hno (h ▸ d.first_ok)
  have hmore : '\n' ∉ d.more := fun h => hno (List.all_eq_true.1 d.more_ok _ h)
  have hfraction : '\n' ∉ d.fraction := fun h => hno (List.all_eq_true.1 d.fraction_ok _ h)
  rw [List.count_eq_zero, Decimal.digits, Decimal.point]
  split
  · simp only [List.append_nil, List.mem_cons, not_or]
    exact ⟨hfirst, hmore⟩
  · simp only [List.mem_cons, List.mem_append, not_or]
    exact ⟨hfirst, hmore, by decide, hfraction⟩

/-- The digits of a number, without its sign, are one token. -/
theorem scans_digits (hl : l.Settled) (hr : l.rest = d.digits ++ r) (he : EndsWord r) :
    ∃ t l', Scans l d.digits [t] l' ∧ t.lexeme = .number (String.ofList d.digits) ∧
      t.spaced = l.spaced :=
  ⟨_, _, scans_lexeme hl.resume hr (front_number d he) (count_digits d).symm (by simp) (by simp),
    rfl, rfl⟩

end Number

/-! ## Values -/

section Values

variable {l : Lexer} {c : Char} {r : List Char}

/-- A mark of one character. -/
theorem scans_mark {o : Operator} (hl : l.Settled) (hr : l.rest = c :: r)
    (hf : l.front c r = .ok (.lexeme (.op o) 0 0)) (hn : c ≠ '\n') (hd : o ≠ .dot)
    (hs : o ≠ .scope) :
    ∃ t l', Scans l [c] [t] l' ∧ t.lexeme = .op o ∧ t.spaced = l.spaced := by
  have hcount : 0 = [c].count '\n' := by simp [hn]
  exact ⟨_, _, scans_lexeme (w := []) hl.resume hr hf hcount (by simp [hd]) (by simp [hs]), rfl,
    rfl⟩

theorem scans_atom {v : Value} {x : Lexeme} (hx : v.lexeme? = some x) (hl : l.Settled)
    (hr : l.rest = v.chars ++ r) (he : EndsWord r) :
    ∃ t l', Scans l v.chars [t] l' ∧ t.lexeme = x ∧ t.spaced = l.spaced := by
  cases v with
  | string text =>
    cases hx
    have hcount : text.toList.count '\n' =
        ('\'' :: (text.toList.flatMap escape ++ ['\''])).count '\n' := by
      simp [List.count_append, count_escape]
    exact ⟨_, _, scans_lexeme hl.resume hr (front_string text) hcount (by simp) (by simp), rfl,
      rfl⟩
  | symbol n =>
    cases hx
    have hcount : 0 = (':' :: n.chars).count '\n' := by
      symm
      rw [List.count_eq_zero, List.mem_cons, not_or]
      exact ⟨by decide, fun h => absurd (n.isNameChar_of_mem h) (by decide)⟩
    exact ⟨_, _, scans_lexeme hl.resume hr (front_symbol n he.stopsName) hcount (by simp) (by simp),
      rfl, rfl⟩
  | number d =>
    simp only [Value.lexeme?] at hx
    split at hx
    · cases hx
    · next hneg =>
      cases hx
      have hchars : Value.chars (.number d) = d.digits := by
        simp [Value.chars, Decimal.chars, hneg]
      rw [hchars] at hr ⊢
      exact scans_digits d hl hr he
  | bool b =>
    cases hx
    cases b with
    | false => exact scans_keyword .falseWord hl hr he
    | true => exact scans_keyword .trueWord hl hr he
  | nil =>
    cases hx
    exact scans_keyword .nilWord hl hr he
  | array items => cases hx

theorem scans_one {v : Value} {x : Lexeme} (hx : v.lexeme? = some x) (hl : l.Settled)
    (hr : l.rest = v.chars ++ r) (he : EndsWord r) :
    ∃ t ts l', Scans l v.chars (t :: ts) l' ∧ v.Tokens (t :: ts) ∧ t.spaced = l.spaced := by
  obtain ⟨t, l', h, rfl, hs⟩ := scans_atom hx hl hr he
  exact ⟨t, [], l', h, .atom hx, hs⟩

theorem ofFront?_minus {more : List Char} (h : c.isDigit = true) :
    Operator.ofFront? ('-' :: c :: more) = some .minus := by
  have heq : ('=' == c) = false := by
    rw [beq_eq_false_iff_ne]
    rintro rfl
    exact absurd h (by decide)
  have hgt : ('>' == c) = false := by
    rw [beq_eq_false_iff_ne]
    rintro rfl
    exact absurd h (by decide)
  simp [Operator.ofFront?, Operator.all, Operator.spelling, List.isPrefixOf, heq, hgt]

/-- A minus sign before a digit, with the number right behind it. -/
theorem scans_negative {d : Decimal} (hd : d.negative = true) (hl : l.Settled)
    (hr : l.rest = d.chars ++ r) (he : EndsWord r) :
    ∃ m t l', Scans l d.chars [m, t] l' ∧ Value.Tokens (.number d) [m, t] ∧
      m.spaced = l.spaced := by
  have hchars : d.chars = '-' :: d.digits := by simp [Decimal.chars, hd]
  rw [hchars] at hr ⊢
  have hfront : l.front '-' (d.digits ++ r) = .ok (.lexeme (.op .minus) 0 0) := by
    show frontOperator '-' (d.digits ++ r) = _
    rw [frontOperator, Decimal.digits, List.cons_append, ofFront?_minus d.first_ok]
    rfl
  have hm : Scans l ['-'] [l.token (.op .minus) 0] (l.behind (.op .minus) 0 0) :=
    scans_lexeme (w := []) hl.resume hr hfront (by decide) (by simp) (by simp)
  have hspaced : (l.behind (.op .minus) 0 0).spaced = false :=
    spaced_behind (w := []) (c := '-') hr rfl (by decide)
  obtain ⟨t, l', ht, hx, hs⟩ := scans_digits d hm.settled (hm.rest_eq hr) he
  exact ⟨_, t, l', hm.trans ht, .negative hd rfl hx (hs.trans hspaced), rfl⟩

theorem endsWord_tailChars (more : List Value) (he : EndsWord r) :
    EndsWord (tailChars more ++ r) := by
  cases more with
  | nil => exact he
  | cons v more => exact endsWord_cons _ (by decide)

mutual

/-- A value before the end of a word is read as the tokens that spell it. -/
theorem scans_value : (v : Value) → {l : Lexer} → {r : List Char} → l.Settled →
    l.rest = v.chars ++ r → EndsWord r →
    ∃ t ts l', Scans l v.chars (t :: ts) l' ∧ v.Tokens (t :: ts) ∧ t.spaced = l.spaced
  | .array items, l, r, hl, hr, he => by
    simp only [Value.chars, List.cons_append, List.append_assoc] at hr
    obtain ⟨o, l₁, ho, hox, hos⟩ := scans_mark hl hr rfl (by decide) (by decide) (by decide)
    obtain ⟨ts, l₂, hts, htokens, -⟩ :=
      scans_list items ho.settled (ho.rest_eq hr) (endsWord_cons r (by decide))
    obtain ⟨e, l₃, hc, hex, -⟩ := scans_mark hts.settled (hts.rest_eq (ho.rest_eq hr)) rfl
      (by decide) (by decide) (by decide)
    exact ⟨o, ts ++ [e], l₃, ho.trans (hts.trans hc), .array hox htokens hex, hos⟩
  | .number d, l, r, hl, hr, he => by
    by_cases hd : d.negative = true
    · obtain ⟨m, t, l', h⟩ := scans_negative hd hl hr he
      exact ⟨m, [t], l', h⟩
    · exact scans_one (by simp [Value.lexeme?, hd]; rfl) hl hr he
  | .string _, l, r, hl, hr, he => scans_one rfl hl hr he
  | .symbol _, l, r, hl, hr, he => scans_one rfl hl hr he
  | .bool _, l, r, hl, hr, he => scans_one rfl hl hr he
  | .nil, l, r, hl, hr, he => scans_one rfl hl hr he

theorem scans_list : (vs : List Value) → {l : Lexer} → {r : List Char} → l.Settled →
    l.rest = listChars vs ++ r → EndsWord r →
    ∃ ts l', Scans l (listChars vs) ts l' ∧ ListTokens vs ts ∧
      ∀ t, ts.head? = some t → t.spaced = l.spaced
  | [], l, r, hl, _, _ => ⟨[], l, .refl hl, .nil, by simp⟩
  | v :: more, l, r, hl, hr, he => by
    rw [listChars, List.append_assoc] at hr
    obtain ⟨t, ts, l₁, hv, htokens, hs⟩ := scans_value v hl hr (endsWord_tailChars more he)
    obtain ⟨us, l₂, hm, hmore⟩ := scans_tail more hv.settled (hv.rest_eq hr) he
    exact ⟨t :: ts ++ us, l₂, hv.trans hm, .cons htokens hmore, by simpa using hs⟩

theorem scans_tail : (vs : List Value) → {l : Lexer} → {r : List Char} → l.Settled →
    l.rest = tailChars vs ++ r → EndsWord r →
    ∃ ts l', Scans l (tailChars vs) ts l' ∧ TailTokens vs ts
  | [], l, r, hl, _, _ => ⟨[], l, .refl hl, .nil⟩
  | v :: more, l, r, hl, hr, he => by
    simp only [tailChars, List.cons_append, List.append_assoc] at hr
    obtain ⟨e, l₁, hc, hcx, -⟩ := scans_mark hl hr rfl (by decide) (by decide) (by decide)
    obtain ⟨l₂, hb, -⟩ := scans_blank hc.settled (hc.rest_eq hr)
    have hr₂ := hb.rest_eq (hc.rest_eq hr)
    obtain ⟨t, ts, l₃, hv, htokens, -⟩ :=
      scans_value v hb.settled hr₂ (endsWord_tailChars more he)
    obtain ⟨us, l₄, hm, hmore⟩ := scans_tail more hv.settled (hv.rest_eq hr₂) he
    exact ⟨e :: (t :: ts) ++ us, l₄, hc.trans (hb.trans (hv.trans hm)), .cons hcx htokens hmore⟩

end

end Values

/-! ## Calls and declarations -/

section Calls

variable {l : Lexer} {r : List Char} {indent : Nat}

theorem scans_call (c : Call) (hl : l.Settled) (hr : l.rest = c.chars ++ r) (he : EndsWord r) :
    ∃ ts l', Scans l c.chars ts l' ∧ c.Tokens l.line ts := by
  unfold Call.chars at hr ⊢
  split at hr
  · next htight =>
    rw [if_pos htight]
    simp only [List.append_assoc, List.cons_append] at hr
    obtain ⟨t, l₁, hn, htx, hline, hs⟩ :=
      scans_name c.name hl hr (endsWord_cons _ (by decide))
    have hr₁ := hn.rest_eq hr
    obtain ⟨o, l₂, ho, hox, hos⟩ :=
      scans_mark hn.settled hr₁ rfl (by decide) (by decide) (by decide)
    have hr₂ := ho.rest_eq hr₁
    obtain ⟨ts, l₃, hts, htokens, -⟩ :=
      scans_list c.args ho.settled hr₂ (endsWord_cons r (by decide))
    obtain ⟨p, l₄, hp, hpx, -⟩ :=
      scans_mark hts.settled (hts.rest_eq hr₂) rfl (by decide) (by decide) (by decide)
    exact ⟨_, l₄, hn.trans (ho.trans (hts.trans hp)),
      .tight htx hline hox (hos.trans hs) htokens hpx⟩
  · next htight =>
    rw [if_neg htight]
    cases hargs : c.args with
    | nil =>
      simp only [hargs, List.isEmpty_nil, if_true, List.append_nil] at hr ⊢
      obtain ⟨t, l₁, hn, htx, hline, -⟩ := scans_name c.name hl hr he
      exact ⟨[t], l₁, hn, .alone htx hline hargs⟩
    | cons v more =>
      simp only [hargs, List.isEmpty_cons, Bool.false_eq_true, if_false, List.append_assoc,
        List.cons_append] at hr ⊢
      obtain ⟨t, l₁, hn, htx, hline, -⟩ :=
        scans_name c.name hl hr (endsWord_cons _ (by decide))
      have hr₁ := hn.rest_eq hr
      obtain ⟨l₂, hb, hspaced⟩ := scans_blank hn.settled hr₁
      have hr₂ := hb.rest_eq hr₁
      obtain ⟨ts, l₃, hts, htokens, hhead⟩ := scans_list (v :: more) hb.settled hr₂ he
      cases ts with
      | nil => exact absurd rfl htokens.ne_nil
      | cons u us =>
        exact ⟨t :: u :: us, l₃, hn.trans (hb.trans hts),
          .bare htx hline ((hhead u rfl).trans hspaced) (hargs ▸ htokens)⟩

theorem lineAfter_replicate (n indent : Nat) : lineAfter n (List.replicate indent ' ') = n := by
  simp [lineAfter, List.count_replicate]

theorem scans_calls (calls : List Call) : ∀ {l : Lexer}, l.Settled →
    l.rest = callsChars indent calls ++ r →
    ∃ ts l', Scans l (callsChars indent calls) ts l' ∧ CallsTokens indent l.line calls ts := by
  induction calls with
  | nil =>
    intro l hl _
    exact ⟨[], l, .refl hl, .nil⟩
  | cons c more ih =>
    intro l hl hr
    simp only [callsChars, List.flatMap_cons, Call.lineChars, List.append_assoc] at hr
    obtain ⟨l₁, hb⟩ := scans_blanks indent hl hr
    have hr₁ := hb.rest_eq hr
    obtain ⟨ts, l₂, hc, htokens⟩ := scans_call c hb.settled hr₁ (endsWord_cons _ (by decide))
    have hr₂ := hc.rest_eq hr₁
    obtain ⟨t, l₃, hn, ht⟩ := scans_newline hc.settled hr₂
    have hline : Scans l (c.lineChars indent) (ts ++ [t]) l₃ := by
      simpa [Call.lineChars] using hb.trans (hc.trans hn)
    obtain ⟨us, l₄, hm, hmore⟩ := ih hn.settled (hn.rest_eq hr₂)
    refine ⟨ts ++ t :: us, l₄, by simpa [callsChars] using hline.trans hm, .cons ?_ ht ?_⟩
    · rw [hb.line, lineAfter_replicate] at htokens
      exact htokens
    · rw [hline.line] at hmore
      exact hmore

theorem scans_opener (k : Closer) (hl : l.Settled) (hr : l.rest = openerChars k ++ r)
    (he : EndsWord r) :
    ∃ t l', Scans l (openerChars k) [t] l' ∧ t.lexeme = openerLexeme k := by
  cases k with
  | endWord =>
    obtain ⟨t, l', h, hx, -⟩ := scans_keyword .doWord hl hr he
    exact ⟨t, l', h, hx⟩
  | brace =>
    obtain ⟨t, l', h, hx, -⟩ := scans_mark hl hr rfl (by decide) (by decide) (by decide)
    exact ⟨t, l', h, hx⟩

theorem scans_closer (k : Closer) (hl : l.Settled) (hr : l.rest = closerChars k ++ r)
    (he : EndsWord r) :
    ∃ t l', Scans l (closerChars k) [t] l' ∧ t.lexeme = closerLexeme k := by
  cases k with
  | endWord =>
    obtain ⟨t, l', h, hx, -⟩ := scans_keyword .endWord hl hr he
    exact ⟨t, l', h, hx⟩
  | brace =>
    obtain ⟨t, l', h, hx, -⟩ := scans_mark hl hr rfl (by decide) (by decide) (by decide)
    exact ⟨t, l', h, hx⟩

theorem scans_open (head : Call) (b : Block) (hl : l.Settled)
    (hr : l.rest = openChars indent head b ++ r) :
    ∃ ts l', Scans l (openChars indent head b) ts l' ∧ OpenTokens indent l.line head b ts := by
  simp only [openChars, openingChars, List.append_assoc, List.cons_append] at hr
  obtain ⟨ts, l₁, hh, htokens⟩ := scans_call head hl hr (endsWord_cons _ (by decide))
  have hr₁ := hh.rest_eq hr
  obtain ⟨l₂, hb, -⟩ := scans_blank hh.settled hr₁
  have hr₂ := hb.rest_eq hr₁
  obtain ⟨o, l₃, ho, hox⟩ := scans_opener b.closer hb.settled hr₂ (endsWord_cons _ (by decide))
  have hr₃ := ho.rest_eq hr₂
  obtain ⟨t, l₄, hn, ht⟩ := scans_newline ho.settled hr₃
  have hopening : Scans l (openingChars head b.closer) (ts ++ [o, t]) l₄ := by
    simpa [openingChars] using hh.trans (hb.trans (ho.trans hn))
  obtain ⟨us, l₅, hc, hcalls⟩ := scans_calls b.calls hn.settled (hn.rest_eq hr₃)
  refine ⟨ts ++ o :: t :: us, l₅, by simpa [openChars] using hopening.trans hc, ?_⟩
  rw [hopening.line] at hcalls
  exact .intro htokens hox ht hcalls

theorem scans_declaration (d : Declaration) (hl : l.Settled)
    (hr : l.rest = d.chars indent ++ r) :
    ∃ ts l', Scans l (d.chars indent) ts l' ∧ d.Tokens indent l.line ts := by
  unfold Declaration.chars at hr ⊢
  cases hd : d.block with
  | none =>
    simp only [hd, List.append_assoc] at hr ⊢
    obtain ⟨ts, l₁, hh, htokens⟩ := scans_call d.head hl hr (endsWord_cons _ (by decide))
    obtain ⟨t, l₂, hn, ht⟩ := scans_newline hh.settled (hh.rest_eq hr)
    exact ⟨ts ++ [t], l₂, hh.trans hn, .plain hd htokens ht⟩
  | some b =>
    simp only [hd, List.append_assoc] at hr ⊢
    obtain ⟨ts, l₁, ho, htokens⟩ := scans_open d.head b hl hr
    have hr₁ := ho.rest_eq hr
    obtain ⟨e, l₂, hc, hcx⟩ := scans_closer b.closer ho.settled hr₁ (endsWord_cons _ (by decide))
    obtain ⟨t, l₃, hn, ht⟩ := scans_newline hc.settled (hc.rest_eq hr₁)
    exact ⟨ts ++ [e, t], l₃, ho.trans (hc.trans hn), .block hd htokens hcx ht⟩

/-- Printed declarations are read as the tokens that spell them. -/
theorem scans_print (ds : List Declaration) : ∀ {l : Lexer}, l.Settled →
    l.rest = print indent ds ++ r →
    ∃ ts l', Scans l (print indent ds) ts l' ∧ PrintTokens indent l.line ds ts := by
  induction ds with
  | nil =>
    intro l hl _
    exact ⟨[], l, .refl hl, .nil⟩
  | cons d more ih =>
    intro l hl hr
    simp only [print, List.flatMap_cons, List.append_assoc] at hr
    obtain ⟨ts, l₁, hd, htokens⟩ := scans_declaration d hl hr
    obtain ⟨us, l₂, hm, hmore⟩ := ih hd.settled (hd.rest_eq hr)
    refine ⟨ts ++ us, l₂, by simpa [print] using hd.trans hm, .cons htokens ?_⟩
    rw [hd.line] at hmore
    exact hmore

end Calls

end Lexer

end RecipeManifest

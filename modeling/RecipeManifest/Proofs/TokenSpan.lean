import Mathlib
import RecipeManifest.Proofs.Extent
import RecipeManifest.Proofs.LexerRun

/-!
Tokens and the text they are made of.

As long as no heredoc is announced, the tokens of a text stand in it one after the other: each is
spelled by the characters of its span, and what lies before, between and behind the spans is filler
that no token is made of (`Filler`). `Front.Fits` says this of one step, `Tiles` of the tokens from
a place on, and `tokenize_covers` of a whole text.
-/

namespace RecipeManifest

/-! ## Filler and spelling -/

/-- A text before `rest` of which no token is made: blanks, newlines behind a backslash, and
comments, each of which runs to a newline or to the end. -/
inductive Filler : List Char → List Char → Prop
  | nil (rest : List Char) : Filler [] rest
  | blank {c : Char} {gap rest : List Char} (hc : c = ' ' ∨ c = '\t' ∨ c = '\r')
      (h : Filler gap rest) : Filler (c :: gap) rest
  | continued {gap rest : List Char} (h : Filler gap rest) : Filler ('\\' :: '\n' :: gap) rest
  | comment {body gap rest : List Char} (hb : '\n' ∉ body)
      (hend : gap ++ rest = [] ∨ (gap ++ rest).head? = some '\n') (h : Filler gap rest) :
      Filler ('#' :: body ++ gap) rest

/-- The text is what a token that says `x` is spelled with. A label has a colon behind its name and
a symbol one before it, unless the symbol is quoted. Strings, and words in a percent literal, are
told apart from their spelling by escapes and marks, and nothing is said of them here. -/
def Lexeme.Spells (x : Lexeme) (text : List Char) : Prop :=
  match x with
  | .label name => name.toList ++ [':'] = text
  | .symbol name => text[1]? ≠ some '\'' → text[1]? ≠ some '"' → ':' :: name.toList = text
  | .string _ | .words _ => True
  | .eof => False
  | x => x.value.toList = text

/-- What stands at the front of a text is spelled by its first characters. -/
def Front.Fits (cs : List Char) : Front → Prop
  | .blank used _ => used < cs.length ∧
      ∀ gap rest, cs.drop (used + 1) = gap ++ rest → Filler gap rest →
        Filler (cs.take (used + 1) ++ gap) rest
  | .lexeme x used _ => used < cs.length ∧ x.Spells (cs.take (used + 1))
  | .newline => cs.head? = some '\n'
  | .heredoc _ used _ => used < cs.length ∧ cs.head? = some '<'

/-- A lexeme fits if a beginning of the text spells it. -/
theorem Front.fits_of_isPrefix {x : Lexeme} {text cs : List Char} {used : Nat} (lines : Nat)
    (hp : text <+: cs) (hl : text.length = used + 1) (hs : x.Spells text) :
    (Front.lexeme x used lines).Fits cs := by
  have hle := hp.length_le
  refine ⟨by omega, ?_⟩
  rw [← hl, ← List.prefix_iff_eq_take.1 hp]
  exact hs

namespace Lexer

/-! ## What stands at the front -/

theorem frontOperator_fits {c : Char} {more : List Char} {f : Front}
    (h : frontOperator c more = .ok f) : f.Fits (c :: more) := by
  unfold frontOperator at h
  split at h
  · next o ho =>
    cases h
    have hpos := List.length_pos_iff.2 o.spelling_ne_nil
    refine Front.fits_of_isPrefix 0 (Operator.ofFront?_isPrefix ho) ?_ rfl
    rw [String.length_toList] at hpos ⊢
    omega
  · cases h

theorem frontSingleQuoted_fits {c : Char} {more : List Char} {f : Front}
    (h : frontSingleQuoted more = .ok f) : f.Fits (c :: more) := by
  unfold frontSingleQuoted at h
  split at h
  · next r hr =>
    cases h
    have := (readSingleQuoted_within hr).2
    exact ⟨by simp only [List.length_cons]; omega, trivial⟩
  · cases h

theorem frontString_fits {marks : Delimiters} {c : Char} {more : List Char} {f : Front}
    (h : frontString marks more = .ok f) : f.Fits (c :: more) := by
  obtain ⟨r, hr, rfl⟩ := map_eq_ok_iff.1 h
  have := (readDelimited_within hr).2
  exact ⟨by simp only [List.length_cons]; omega, trivial⟩

theorem frontSymbol_fits {more : List Char} {f : Front} (h : frontSymbol more = .ok f) :
    f.Fits (':' :: more) := by
  unfold frontSymbol at h
  split at h
  · next body =>
    split at h
    · next r hr =>
      cases h
      have := (readSingleQuoted_within hr).2
      refine ⟨by simp only [List.length_cons]; omega, fun h1 => absurd ?_ h1⟩
      simp [Nat.add_comm 1]
    · cases h
  · next body =>
    obtain ⟨r, hr, rfl⟩ := map_eq_ok_iff.1 h
    have := (readDelimited_within hr).2
    refine ⟨by simp only [List.length_cons]; omega, fun _ h2 => absurd ?_ h2⟩
    simp [Nat.add_comm 1]
  · cases h
    have hp := append_isPrefix_of_drop (frontName_isPrefix more)
      (symbolSuffix_isPrefix (more.drop (frontName more).length))
    refine Front.fits_of_isPrefix 0 ((List.prefix_append_right_inj [':']).2 hp) rfl ?_
    intro _ _
    simp

theorem frontPercent_fits {letter : Option Char} {opener : Char} {more : List Char} {f : Front}
    (h : frontPercent letter opener more = .ok f) : f.Fits ('%' :: more) := by
  -- a reading of the body is not empty, so the body lies inside the text
  have hused : ∀ {α : Type} {r : Reading α}, r.Within (more.drop (letter.toList.length + 1)) →
      letter.toList.length + 1 + r.used < ('%' :: more).length := by
    intro α r ⟨h0, h1⟩
    simp only [List.length_drop, List.length_cons] at h1 ⊢
    omega
  unfold frontPercent at h
  dsimp only at h
  split at h
  · split at h
    · cases h
    · next r hr =>
      cases h
      refine ⟨hused (readRaw_within hr), ?_⟩
      split <;> trivial
  · obtain ⟨r, hr, rfl⟩ := map_eq_ok_iff.1 h
    refine ⟨hused (readDelimited_within hr), ?_⟩
    split <;> trivial

theorem frontRegex_fits {more : List Char} {f : Front} (h : frontRegex more = .ok f) :
    f.Fits ('/' :: more) := by
  obtain ⟨r, hr, rfl⟩ := map_eq_ok_iff.1 h
  have hle := (readDelimited_within hr).2
  have htake : (more.take r.used).length = r.used := List.length_take_of_le hle
  have hflags : (more.drop r.used).takeWhile (fun c => c ∈ "imxounse".toList) <+:
      more.drop (more.take r.used).length := by
    rw [htake]
    exact List.takeWhile_prefix _
  have hp := append_isPrefix_of_drop (List.take_prefix r.used more) hflags
  refine Front.fits_of_isPrefix r.lines ((List.prefix_append_right_inj ['/']).2 hp) ?_ ?_
  · simp only [List.length_append, List.length_cons, List.length_nil, htake]
    omega
  · simp [Lexeme.Spells, Lexeme.value]

theorem frontSigil_fits {c : Char} {more : List Char} {f : Front}
    (h : frontSigil c more = .ok f) : f.Fits (c :: more) := by
  unfold frontSigil at h
  dsimp only at h
  split at h
  · exact frontOperator_fits h
  · cases h
    have hp := append_isPrefix_of_drop (List.takeWhile_prefix (fun d => d == '@' || d == '$'))
      (frontName_isPrefix (more.drop (more.takeWhile fun d => d == '@' || d == '$').length))
    refine Front.fits_of_isPrefix 0 ((List.prefix_append_right_inj [c]).2 hp) rfl ?_
    simp [Lexeme.Spells, Lexeme.value]

theorem endsLabel_isPrefix {cs : List Char} (h : endsLabel cs = true) : [':'] <+: cs := by
  unfold endsLabel at h
  split at h
  · cases h
  · exact List.prefix_append [':'] _
  · cases h

theorem frontWord_fits (l : Lexer) {c : Char} {more : List Char} (hc : isNameStart c = true) :
    (l.frontWord (c :: more)).Fits (c :: more) := by
  unfold frontWord
  dsimp only
  generalize hfull : frontName (c :: more) ++
    nameSuffix ((c :: more).drop (frontName (c :: more)).length) = full
  have hp : full <+: c :: more := by
    rw [← hfull]
    exact append_isPrefix_of_drop (frontName_isPrefix _) (nameSuffix_isPrefix _)
  have hpos : 0 < full.length := by
    have : frontName (c :: more) ≠ [] := frontName_ne_nil hc
    have := List.length_pos_iff.2 this
    rw [← hfull, List.length_append]
    omega
  split
  · next hl =>
    simp only [Bool.and_eq_true] at hl
    refine Front.fits_of_isPrefix 0 (append_isPrefix_of_drop hp (endsLabel_isPrefix hl.1)) ?_ ?_
    · simp
    · simp [Lexeme.Spells]
  · refine Front.fits_of_isPrefix 0 hp (by omega) ?_
    split
    · next k hk =>
      split
      · simp [Lexeme.Spells, Lexeme.value]
      · simp [Lexeme.Spells, Lexeme.value, Keyword.spelling_of_ofSpelling? hk]
    · split <;> simp [Lexeme.Spells, Lexeme.value]

theorem frontHeredoc_fits {l : Lexer} {opener : HeredocOpener} {more : List Char} {f : Front}
    (hr : l.rest = '<' :: more) (h : l.frontHeredoc opener = .ok f) : f.Fits ('<' :: more) := by
  unfold frontHeredoc at h
  dsimp only at h
  split at h
  · cases h
  · next hle =>
    split at h
    · cases h
    · obtain ⟨parts, _, rfl⟩ := map_eq_ok_iff.1 h
      refine ⟨?_, rfl⟩
      rw [← hr]
      omega

theorem comment_fits (more : List Char) :
    (Front.blank (more.takeWhile (· != '\n')).length 0).Fits ('#' :: more) := by
  have hsplit : more.takeWhile (· != '\n') ++ more.dropWhile (· != '\n') = more :=
    List.takeWhile_append_dropWhile
  have htake : more.take (more.takeWhile (· != '\n')).length = more.takeWhile (· != '\n') :=
    (List.prefix_iff_eq_take.1 (List.takeWhile_prefix _)).symm
  have hdrop : more.drop (more.takeWhile (· != '\n')).length = more.dropWhile (· != '\n') := by
    have : (more.takeWhile (· != '\n') ++ more.dropWhile (· != '\n')).drop
        (more.takeWhile (· != '\n')).length = more.dropWhile (· != '\n') := List.drop_left
    rwa [hsplit] at this
  refine ⟨?_, fun gap rest hgap h => ?_⟩
  · have := (List.takeWhile_prefix (l := more) (· != '\n')).length_le
    simp only [List.length_cons]
    omega
  · rw [List.drop_succ_cons, hdrop] at hgap
    rw [List.take_succ_cons, htake]
    refine .comment (fun hmem => ?_) ?_ h
    · simpa using List.mem_takeWhile_imp hmem
    · rw [← hgap]
      cases hd : more.dropWhile (· != '\n') with
      | nil => exact .inl rfl
      | cons c tail =>
        have := List.head_dropWhile_not (· != '\n') (l := more) (by simp [hd])
        simp only [hd, List.head_cons, bne_eq_false_iff_eq] at this
        exact .inr (by simp [this])

/-- What the lexer finds at the front of what is left is spelled there. -/
theorem front_fits {l : Lexer} {c : Char} {more : List Char} {f : Front}
    (hr : l.rest = c :: more) (h : l.front c more = .ok f) : f.Fits (c :: more) := by
  have hblank : c = ' ' ∨ c = '\t' ∨ c = '\r' → (Front.blank 0 0).Fits (c :: more) :=
    fun hc => ⟨by simp, fun gap rest _ hg => by simpa using .blank hc hg⟩
  unfold front at h
  split at h
  · cases h; exact hblank (by simp)
  · cases h; exact hblank (by simp)
  · cases h; exact hblank (by simp)
  · split at h
    · next hn =>
      cases h
      cases more with
      | nil => cases hn
      | cons d tail =>
        cases hn
        exact ⟨by simp, fun gap rest _ hg => by simpa using .continued hg⟩
    · exact frontOperator_fits h
  · cases h; exact comment_fits more
  · cases h; rfl
  · cases h; exact Front.fits_of_isPrefix 0 (List.prefix_append [';'] more) rfl rfl
  · exact frontSingleQuoted_fits h
  · exact frontString_fits h
  · exact frontString_fits h
  · split at h
    · exact frontSymbol_fits h
    · exact frontOperator_fits h
  · split at h
    · split at h
      · exact frontPercent_fits h
      · exact frontOperator_fits h
    · exact frontOperator_fits h
  · split at h
    · exact frontRegex_fits h
    · exact frontOperator_fits h
  · split at h
    · split at h
      · exact frontHeredoc_fits hr h
      · exact frontOperator_fits h
    · exact frontOperator_fits h
  · exact frontSigil_fits h
  · exact frontSigil_fits h
  · split at h
    · split at h
      · cases h
      · next hne =>
        cases h
        have hpos := List.length_pos_iff.2 hne
        exact Front.fits_of_isPrefix 0 (frontNumber_isPrefix (c :: more)) (by omega)
          (by simp [Lexeme.Spells, Lexeme.value])
    · split at h
      · next hc => cases h; exact l.frontWord_fits hc
      · exact frontOperator_fits h

end Lexer

/-! ## Places in a text -/

/-- The character right before the place is a blank or a tab. -/
def blankBefore (source : List Char) : Nat → Bool
  | 0 => false
  | before + 1 => source[before]?.any fun c => c == ' ' || c == '\t'

/-- The token has a span of its own in the text, which spells it. -/
structure Token.FitsIn (source : List Char) (t : Token) : Prop where
  nonempty : t.start < t.stop
  inside : t.stop ≤ source.length
  spelled : t.lexeme.Spells (source.extract t.start t.stop)
  spaced : t.spaced = blankBefore source t.start

namespace Lexer

/-- The lexer has the text from its place on left to read. -/
structure At (source : List Char) (l : Lexer) : Prop where
  rest : l.rest = source.drop l.pos
  inside : l.pos ≤ source.length
  spaced : l.spaced = blankBefore source l.pos

theorem at_start (source : List Char) : (start source).At source :=
  ⟨rfl, Nat.zero_le _, rfl⟩

theorem At.length_rest {source : List Char} {l : Lexer} (h : l.At source) :
    l.pos + l.rest.length = source.length := by
  have := h.inside
  rw [h.rest, List.length_drop]
  omega

theorem At.advance {source : List Char} {l : Lexer} (h : l.At source) {used : Nat} (lines : Nat)
    (hu : used < l.rest.length) : (l.advance used lines).At source where
  rest := by
    simp only [Lexer.advance, h.rest, List.tail_drop, List.drop_drop]
  inside := by
    have := h.length_rest
    simp only [Lexer.advance]
    omega
  spaced := by
    have hplace : l.pos + 1 + used = (l.pos + used) + 1 := by omega
    simp only [Lexer.advance, h.rest, hplace, blankBefore, List.getElem?_drop]

/-- The token of a lexeme that the text spells where the lexer stands. -/
theorem At.token_fitsIn {source : List Char} {l : Lexer} (h : l.At source) {x : Lexeme}
    {used : Nat} (hu : used < l.rest.length) (hs : x.Spells (l.rest.take (used + 1))) :
    (l.token x used).FitsIn source where
  nonempty := by simp only [token]; omega
  inside := by
    have := h.length_rest
    simp only [token]
    omega
  spelled := by
    have hlen : l.pos + 1 + used - l.pos = used + 1 := by omega
    simpa only [token, List.extract_eq_take_drop, hlen, ← h.rest] using hs
  spaced := h.spaced

/-- A heredoc is announced where the lexer stands. -/
def AtHeredoc (l : Lexer) : Prop :=
  ∃ c more x used resume, l.rest = c :: more ∧ l.front c more = .ok (.heredoc x used resume)

end Lexer

/-! ## All tokens of a text -/

/-- From a place on, the text is made of the tokens' spans and of filler around them. -/
inductive Tiles (source : List Char) : Nat → List Token → Prop
  | done {place line : Nat} (gap : Filler (source.drop place) []) :
      Tiles source place [⟨.eof, line, source.length, source.length, false⟩]
  | token {place : Nat} {t : Token} {ts : List Token} (hle : place ≤ t.start)
      (gap : Filler (source.extract place t.start) (source.drop t.start))
      (fits : t.FitsIn source) (h : Tiles source t.stop ts) : Tiles source place (t :: ts)

theorem extract_append_drop {α : Type} (xs : List α) {i j : Nat} (h : i ≤ j) :
    xs.extract i j ++ xs.drop j = xs.drop i := by
  have hj : xs.drop j = (xs.drop i).drop (j - i) := by
    rw [List.drop_drop]
    congr 1
    omega
  rw [List.extract_eq_take_drop, hj, List.take_append_drop]

theorem extract_append_extract {α : Type} (xs : List α) {i j k : Nat} (hij : i ≤ j) (hjk : j ≤ k) :
    xs.extract i j ++ xs.extract j k = xs.extract i k := by
  have hj : xs.drop j = (xs.drop i).drop (j - i) := by
    rw [List.drop_drop]
    congr 1
    omega
  have hk : k - i = (j - i) + (k - j) := by omega
  rw [List.extract_eq_take_drop, List.extract_eq_take_drop, List.extract_eq_take_drop, hj, hk,
    List.take_add]

/-- Filler right before the place is filler before the tokens. -/
theorem Tiles.skip {source : List Char} {place used lines : Nat} {ts : List Token}
    (hf : (Front.blank used lines).Fits (source.drop place))
    (h : Tiles source (place + 1 + used) ts) : Tiles source place ts := by
  obtain ⟨hu, hfill⟩ := hf
  rw [List.drop_drop, show place + (used + 1) = place + 1 + used by omega] at hfill
  have hitem : (source.drop place).take (used + 1) = source.extract place (place + 1 + used) := by
    rw [List.extract_eq_take_drop, show place + 1 + used - place = used + 1 by omega]
  rw [hitem] at hfill
  cases h with
  | done gap =>
    refine .done ?_
    rw [← extract_append_drop source (show place ≤ place + 1 + used by omega)]
    exact hfill _ _ (by simp) gap
  | token hle gap fits h =>
    refine .token (by omega) ?_ fits h
    rw [← extract_append_extract source (show place ≤ place + 1 + used by omega) hle]
    exact hfill _ _ (extract_append_drop source hle).symm gap

namespace Lexer

/-- A step that announces no heredoc goes on in the text, and puts its token, or the filler it
skipped, before what follows. -/
theorem At.step {source : List Char} {l l' : Lexer} {c : Char} {more : List Char}
    {t : Option Token} (hat : l.At source) (hres : l.resume = none) (hno : ¬ l.AtHeredoc)
    (hr : l.rest = c :: more) (hs : l.step c more = .ok (t, l')) :
    l'.At source ∧ l'.resume = none ∧
      ∀ ts, Tiles source l'.pos ts → Tiles source l.pos (t.toList ++ ts) := by
  have hfit : ∀ {f : Front}, l.front c more = .ok f → f.Fits l.rest :=
    fun hf => hr ▸ front_fits hr hf
  -- a token stands right where the lexer does
  have htoken : ∀ {x : Lexeme} {used : Nat}, used < l.rest.length →
      x.Spells (l.rest.take (used + 1)) → ∀ ts, Tiles source (l.pos + 1 + used) ts →
        Tiles source l.pos (l.token x used :: ts) := by
    intro x used hu hsp ts htiles
    refine .token (Nat.le_refl _) ?_ (hat.token_fitsIn hu hsp) htiles
    rw [List.extract_eq_take_drop, show (l.token x used).start = l.pos from rfl, Nat.sub_self]
    exact .nil _
  obtain ⟨used, lines, hf, rfl, rfl⟩ | ⟨x, used, lines, hf, rfl, rfl⟩ | ⟨hf, rfl, rfl⟩ |
    ⟨x, used, resume, hf, rfl, rfl⟩ := step_cases hs
  · have hfits := hfit hf
    refine ⟨hat.advance lines hfits.1, hres, fun ts htiles => ?_⟩
    rw [hat.rest] at hfits
    exact Tiles.skip hfits htiles
  · obtain ⟨hu, hsp⟩ := hfit hf
    have hadv := hat.advance lines hu
    exact ⟨⟨hadv.rest, hadv.inside, hadv.spaced⟩, hres, htoken hu hsp⟩
  · have hu : 0 < l.rest.length := by simp [hr]
    have hsp : Lexeme.newline.Spells (l.rest.take (0 + 1)) := by
      have hc : l.rest.head? = some '\n' := hfit hf
      rw [hr, List.head?_cons, Option.some.injEq] at hc
      rw [hr, hc]
      rfl
    have hadv := hat.advance 1 hu
    rw [jump_of_resume_none hres]
    exact ⟨⟨hadv.rest, hadv.inside, hadv.spaced⟩, hres, htoken hu hsp⟩
  · exact absurd ⟨c, more, x, used, resume, hr, hf⟩ hno

/-- What is read from a place to the end tiles the text from that place on. -/
theorem tiles_of_reads {source : List Char} {l l' : Lexer} {ts : List Token}
    (h : Reads l ts l') (hat : l.At source) (hres : l.resume = none)
    (hno : ∀ us l₁, Reads l us l₁ → ¬ l₁.AtHeredoc) (hend : l'.rest = []) :
    Tiles source l.pos (ts ++ [⟨.eof, l'.line, l'.pos, l'.pos, false⟩]) := by
  induction h with
  | refl l =>
    have hpos := hat.length_rest
    rw [hend, List.length_nil, Nat.add_zero] at hpos
    rw [hpos]
    refine .done ?_
    rw [List.drop_length]
    exact .nil []
  | @step l l₁ l' c more t ts hr hs _ ih =>
    obtain ⟨hat₁, hres₁, htiles⟩ := hat.step hres (hno [] l (.refl l)) hr hs
    rw [List.append_assoc]
    exact htiles _ (ih hat₁ hres₁ (fun us l₂ h₂ => hno _ l₂ (.step hr hs h₂)) hend)

/-- A text without angle brackets announces no heredoc. -/
theorem not_atHeredoc_of_not_mem {source : List Char} {l l' : Lexer} {ts : List Token}
    (h : Reads l ts l') (hat : l.At source) (hres : l.resume = none) (hmem : '<' ∉ source) :
    ¬ l'.AtHeredoc := by
  have hhere : ∀ {l : Lexer}, l.At source → ¬ l.AtHeredoc := by
    rintro l hat ⟨c, more, x, used, resume, hr, hf⟩
    have hc : (c :: more).head? = some '<' := (front_fits hr hf).2
    rw [List.head?_cons, Option.some.injEq] at hc
    apply hmem
    have : c ∈ source.drop l.pos := by rw [← hat.rest, hr]; exact List.mem_cons_self
    exact hc ▸ List.mem_of_mem_drop this
  induction h with
  | refl l => exact hhere hat
  | step hr hs _ ih =>
    obtain ⟨hat₁, hres₁, -⟩ := hat.step hres (hhere hat) hr hs
    exact ih hat₁ hres₁

end Lexer

/-- How the tokens of a text cover it. -/
structure Covers (source : List Char) (tokens : List Token) : Prop where
  /-- The mark for the end stands behind the last token, at the end of the text, and nowhere
  else. -/
  ends : ∃ body line, tokens = body ++ [⟨.eof, line, source.length, source.length, false⟩] ∧
    ∀ t ∈ body, t.lexeme ≠ .eof
  /-- Every other token has a span, and its spelling and the blank before it are those of the
  text there. -/
  fits : ∀ t ∈ tokens, t.lexeme ≠ .eof → t.FitsIn source
  /-- Each span ends before the next one starts. -/
  ordered : tokens.Pairwise fun a b => a.stop ≤ b.start
  /-- There is only filler before a token, back to the token before it or to the start. -/
  gaps : ∀ before t after, tokens = before ++ t :: after →
    Filler (source.extract (before.getLast?.elim 0 Token.stop) t.start) (source.drop t.start)

namespace Tiles

variable {source : List Char} {place : Nat} {tokens : List Token}

theorem ends (h : Tiles source place tokens) :
    ∃ body line, tokens = body ++ [⟨.eof, line, source.length, source.length, false⟩] ∧
      ∀ t ∈ body, t.lexeme ≠ .eof := by
  induction h with
  | @done place line _ => exact ⟨[], line, rfl, by simp⟩
  | @token place t ts _ _ fits _ ih =>
    obtain ⟨body, line, rfl, hbody⟩ := ih
    refine ⟨t :: body, line, rfl, fun u hu => ?_⟩
    rcases List.mem_cons.1 hu with rfl | hu
    · intro heof
      have := fits.spelled
      rw [heof] at this
      exact this
    · exact hbody u hu

theorem fits (h : Tiles source place tokens) :
    ∀ t ∈ tokens, t.lexeme ≠ .eof → t.FitsIn source := by
  induction h with
  | done _ => simp
  | token _ _ fits _ ih =>
    intro u hu hne
    rcases List.mem_cons.1 hu with rfl | hu
    · exact fits
    · exact ih u hu hne

theorem le_start (h : Tiles source place tokens) (hp : place ≤ source.length) :
    ∀ t ∈ tokens, place ≤ t.start := by
  induction h with
  | done _ => simpa using hp
  | token hle _ fits _ ih =>
    intro u hu
    rcases List.mem_cons.1 hu with rfl | hu
    · exact hle
    · have h₁ := ih fits.inside u hu
      have h₂ := fits.nonempty
      omega

theorem ordered (h : Tiles source place tokens) :
    tokens.Pairwise fun a b => a.stop ≤ b.start := by
  induction h with
  | done _ => simp
  | token _ _ fits h ih => exact List.pairwise_cons.2 ⟨h.le_start fits.inside, ih⟩

theorem gaps (h : Tiles source place tokens) {before after : List Token} {t : Token}
    (hsplit : tokens = before ++ t :: after) :
    Filler (source.extract (before.getLast?.elim place Token.stop) t.start)
      (source.drop t.start) := by
  induction h generalizing before with
  | @done place line gap =>
    cases before with
    | nil =>
      cases hsplit
      have hall : source.extract place source.length = source.drop place := by
        simp [List.take_of_length_le]
      rw [List.drop_length]
      exact hall ▸ gap
    | cons b before => simp at hsplit
  | @token place u ts hle gap fits h ih =>
    cases before with
    | nil =>
      cases hsplit
      exact gap
    | cons b before =>
      cases hsplit
      have := ih rfl
      rw [List.getLast?_cons]
      cases hl : before.getLast? with
      | none => simpa [hl] using this
      | some v => simpa [hl] using this

end Tiles

/-- The tokens of a text in which no heredoc is announced cover it: nothing of it is lost, and
nothing is added. -/
theorem tokenize_covers {lines : LineMap} {source : List Char} {tokens : List Token}
    (h : tokenize lines source = .ok tokens)
    (hno : ∀ ts l, Lexer.Reads (Lexer.start source) ts l → ¬ l.AtHeredoc) :
    Covers source tokens := by
  obtain ⟨ts, l, hreads, hend, rfl⟩ := Lexer.run_eq_ok (tokenize_eq_ok.1 h)
  have htiles := Lexer.tiles_of_reads hreads (Lexer.at_start source) rfl hno hend
  exact ⟨htiles.ends, htiles.fits, htiles.ordered, fun _ _ _ => htiles.gaps⟩

/-- A label, a symbol, a string, a comment, a regular expression, a mark and a number. -/
theorem tokenize_covers_sample :
    ∃ tokens, tokenize [] "user: :a? 'it\\'s' # c\n /x+/i >= 0x1f".toList = .ok tokens ∧
      (∀ ts l, Lexer.Reads (Lexer.start "user: :a? 'it\\'s' # c\n /x+/i >= 0x1f".toList) ts l →
        ¬ l.AtHeredoc) ∧
      Covers "user: :a? 'it\\'s' # c\n /x+/i >= 0x1f".toList tokens := by
  have h : tokenize [] "user: :a? 'it\\'s' # c\n /x+/i >= 0x1f".toList = .ok
      [⟨.label "user", 1, 0, 5, false⟩, ⟨.symbol "a?", 1, 6, 9, true⟩,
        ⟨.string [.text ['i', 't', '\'', 's']], 1, 10, 17, true⟩, ⟨.newline, 1, 21, 22, false⟩,
        ⟨.regex "/x+/i", 2, 23, 28, true⟩, ⟨.op .ge, 2, 29, 31, true⟩,
        ⟨.number "0x1f", 2, 32, 36, true⟩, ⟨.eof, 2, 36, 36, false⟩] := by
    decide +kernel
  have hno : ∀ ts l,
      Lexer.Reads (Lexer.start "user: :a? 'it\\'s' # c\n /x+/i >= 0x1f".toList) ts l →
        ¬ l.AtHeredoc := by
    intro ts l hreads
    exact Lexer.not_atHeredoc_of_not_mem hreads (Lexer.at_start _) rfl (by decide)
  exact ⟨_, h, hno, tokenize_covers h hno⟩

end RecipeManifest

import RecipeManifest.Proofs.Lookahead

/-!
Complete lines with more text behind them.

A text that ends with a newline leaves its readers nothing to look for in what follows
(`front_extend`), and so each step of the lexer in complete lines is the same step when the text
goes on (`step_extend`). `Reads.extend` says this of all steps together.
-/

namespace RecipeManifest

/-! ## The front of a text -/

namespace Lexer

variable {l : Lexer} {opener : HeredocOpener}

/-- How far it is to the line after the one that announces a heredoc. -/
def toBody (l : Lexer) (opener : HeredocOpener) : Nat :=
  opener.length + ((l.rest.drop opener.length).takeWhile (· != '\n')).length + 1

/-- Where the body of a heredoc that is announced here starts. -/
def bodyStart (l : Lexer) (opener : HeredocOpener) : Resume :=
  l.resume.getD ⟨l.rest.drop (l.toBody opener), l.pos + l.toBody opener, 0⟩

theorem frontHeredoc_eq (l : Lexer) (opener : HeredocOpener) :
    l.frontHeredoc opener =
      if l.rest.length < l.toBody opener then
        .error (.heredocWithoutBody (String.ofList opener.tag))
      else
        match HeredocBody.read opener (l.bodyStart opener).rest with
        | none => .error (.unterminatedHeredoc (String.ofList opener.tag))
        | some body =>
          (opener.parts (opener.text body.lines)).map fun parts =>
            .heredoc (.string parts) (opener.length - 1)
              ⟨(l.bodyStart opener).rest.drop body.used,
                (l.bodyStart opener).pos + min body.used (l.bodyStart opener).rest.length,
                (l.bodyStart opener).lines + body.consumed⟩ :=
  rfl

/-- A heredoc is found where there is a next line and a line that closes it. -/
theorem frontHeredoc_eq_ok {f : Front} :
    l.frontHeredoc opener = .ok f ↔
      l.toBody opener ≤ l.rest.length ∧
      ∃ body parts, HeredocBody.read opener (l.bodyStart opener).rest = some body ∧
        opener.parts (opener.text body.lines) = .ok parts ∧
        f = .heredoc (.string parts) (opener.length - 1)
          ⟨(l.bodyStart opener).rest.drop body.used,
            (l.bodyStart opener).pos + min body.used (l.bodyStart opener).rest.length,
            (l.bodyStart opener).lines + body.consumed⟩ := by
  rw [frontHeredoc_eq]
  constructor
  · intro h
    split at h
    · cases h
    · next hlen =>
      split at h
      · cases h
      · next body hbody =>
        obtain ⟨parts, hparts, rfl⟩ := map_eq_ok_iff.1 h
        exact ⟨Nat.le_of_not_lt hlen, body, parts, hbody, hparts, rfl⟩
  · rintro ⟨hle, body, parts, hbody, hparts, rfl⟩
    rw [if_neg (Nat.not_lt.2 hle), hbody]
    dsimp only
    rw [hparts]
    rfl

end Lexer

/-- More text behind the place. -/
def Resume.extend (b : List Char) (r : Resume) : Resume :=
  { r with rest := r.rest ++ b }

/-- How many characters belong to it after the first one. -/
def Front.used : Front → Nat
  | .blank used _ => used
  | .lexeme _ used _ => used
  | .newline => 0
  | .heredoc _ used _ => used

/-- The same with more text behind. -/
def Front.extend (b : List Char) : Front → Front
  | .heredoc x used resume => .heredoc x used (resume.extend b)
  | f => f

namespace Lexer

/-- The lexer at the same place of a text that goes on with `b`. -/
def extend (b : List Char) (l : Lexer) : Lexer :=
  { l with
    rest := l.rest ++ b
    resume := l.resume.map (Resume.extend b)
    bound := l.bound + b.length }

theorem extend_start (a b : List Char) : (start a).extend b = start (a ++ b) := by
  simp [extend, start]

/-- What is left to read, and what is left behind a heredoc, are complete lines. -/
structure InLines (l : Lexer) : Prop where
  rest : Whole l.rest
  resume : ∀ r, l.resume = some r → Whole r.rest

section Front

variable {l : Lexer} {c : Char} {more : List Char} (b : List Char)

theorem frontSingleQuoted_append {f : Front} (hf : frontSingleQuoted more = .ok f) :
    frontSingleQuoted (more ++ b) = .ok f := by
  unfold frontSingleQuoted at hf ⊢
  split at hf
  · next r hr =>
    rw [readSingleQuoted_append b hr]
    exact hf
  · cases hf

theorem frontString_append {marks : Delimiters} {f : Front} (h : EndsLine more)
    (hf : frontString marks more = .ok f) : frontString marks (more ++ b) = .ok f := by
  obtain ⟨r, hr, rfl⟩ := map_eq_ok_iff.1 hf
  unfold frontString
  rw [readDelimited_append b (.inr h) hr]
  rfl

theorem frontSymbol_append {f : Front} (h : EndsLine more) (hf : frontSymbol more = .ok f) :
    frontSymbol (more ++ b) = .ok f := by
  obtain ⟨q, body, rfl⟩ := List.exists_cons_of_ne_nil h.ne_nil
  by_cases hsingle : q = '\''
  · subst hsingle
    cases hr : readSingleQuoted body with
    | none => simp [frontSymbol, hr] at hf
    | some r => simpa [frontSymbol, hr, readSingleQuoted_append b hr] using hf
  · by_cases hdouble : q = '"'
    · subst hdouble
      obtain ⟨r, hr, rfl⟩ := map_eq_ok_iff.1 hf
      have := readDelimited_append b (.inr (h.tail (by decide))) hr
      simp [frontSymbol, this, Except.map]
    · have hname := frontName_append b h
      have hdrop := drop_frontName_append b h
      have hsuffix := symbolSuffix_append b (endsLine_drop_frontName h)
      simp only [List.cons_append] at hname hdrop
      simpa [frontSymbol, hsingle, hdouble, hname, hdrop, hsuffix] using hf

theorem opensSymbol_append (h : EndsLine more) : opensSymbol (more ++ b) = opensSymbol more := by
  obtain ⟨q, body, rfl⟩ := List.exists_cons_of_ne_nil h.ne_nil
  rfl

theorem percentStart_append (h : EndsLine more) :
    percentStart (more ++ b) = percentStart more := by
  obtain ⟨q, body, rfl⟩ := List.exists_cons_of_ne_nil h.ne_nil
  by_cases hq : q = '\n'
  · subst hq
    rfl
  · unfold percentStart
    rw [List.cons_append]
    dsimp only
    rw [(h.tail hq).head?_append]

/-- The letter and the opening mark of a percent literal stand in the text. -/
theorem percentStart_length {letter : Option Char} {opener : Char}
    (h : percentStart more = some (letter, opener)) :
    letter.toList.length + 1 ≤ more.length := by
  unfold percentStart at h
  dsimp only at h
  split at h
  · next d rest =>
    split at h
    · cases h
      simp
    · split at h
      · obtain ⟨o, ho, heq⟩ := Option.map_eq_some_iff.1 h
        cases heq
        cases rest with
        | nil => cases ho
        | cons e tail => simp
      · cases h
  · cases h

theorem frontPercent_append {letter : Option Char} {opener : Char} {f : Front}
    (h : EndsLine more) (hlen : letter.toList.length + 1 ≤ more.length)
    (hf : frontPercent letter opener more = .ok f) :
    frontPercent letter opener (more ++ b) = .ok f := by
  unfold frontPercent at hf ⊢
  dsimp only at hf ⊢
  rw [List.drop_append_of_le_length hlen]
  split at hf
  · next hkind =>
    rw [if_pos hkind]
    cases hr : readRaw (.ofOpener opener) 0 (more.drop (letter.toList.length + 1)) with
    | none =>
      rw [hr] at hf
      cases hf
    | some r =>
      rw [hr] at hf
      rw [readRaw_append b hr]
      exact hf
  · next hkind =>
    rw [if_neg hkind]
    obtain ⟨r, hr, rfl⟩ := map_eq_ok_iff.1 hf
    rw [readDelimited_append b (Whole.drop (.inr h) _) hr]
    rfl

theorem frontRegex_append {f : Front} (h : EndsLine more) (hf : frontRegex more = .ok f) :
    frontRegex (more ++ b) = .ok f := by
  obtain ⟨r, hr, rfl⟩ := map_eq_ok_iff.1 hf
  have hle := (readDelimited_within hr).2
  -- the slash that closes is not the newline at the end
  have hlt : r.used < more.length := by
    have hne : r.used ≠ more.length := by
      intro heq
      obtain ⟨s, hs, rfl⟩ := map_eq_ok_iff.1 hr
      have hlast := readParts_closer hs
      rw [show s.used = more.length from heq, List.take_length, h] at hlast
      cases hlast
    omega
  unfold frontRegex
  rw [readDelimited_append b (.inr h) hr]
  simp only [Except.map, List.drop_append_of_le_length hle, List.take_append_of_le_length hle,
    (h.drop hlt).takeWhile_append b (p := fun c => decide (c ∈ "imxounse".toList)) (by decide)]

theorem frontSigil_append (h : EndsLine (c :: more)) (hc : c ≠ '\n') :
    frontSigil c (more ++ b) = frontSigil c more := by
  have hmore := h.tail hc
  unfold frontSigil
  dsimp only
  rw [hmore.takeWhile_append b (by decide)]
  have hprefix := List.takeWhile_prefix (l := more) fun d => d == '@' || d == '$'
  have hnewline := newline_notMem_takeWhile (p := fun d => d == '@' || d == '$') (by decide) more
  rw [hmore.drop_append b hprefix hnewline, frontName_append b (hmore.after hprefix hnewline),
    frontOperator_append b h]

theorem frontWord_extend (h : EndsLine (c :: more)) :
    (l.extend b).frontWord (c :: more ++ b) = l.frontWord (c :: more) := by
  have hdot : (l.extend b).afterDot = l.afterDot := rfl
  unfold frontWord
  dsimp only
  rw [frontName_append b h, drop_frontName_append b h,
    nameSuffix_append b (endsLine_drop_frontName h), hdot]
  generalize hfull : frontName (c :: more) ++
    nameSuffix ((c :: more).drop (frontName (c :: more)).length) = full
  have hprefix : full <+: c :: more := by
    rw [← hfull]
    exact append_isPrefix_of_drop (frontName_isPrefix _) (nameSuffix_isPrefix _)
  have hnewline : '\n' ∉ full := by
    rw [← hfull, List.mem_append, not_or]
    exact ⟨newline_notMem_frontName _, newline_notMem_nameSuffix _⟩
  rw [h.drop_append b hprefix hnewline, endsLabel_append b (h.after hprefix hnewline)]

theorem toBody_extend {opener : HeredocOpener} (h : l.toBody opener ≤ l.rest.length) :
    (l.extend b).toBody opener = l.toBody opener := by
  have hrest : (l.extend b).rest = l.rest ++ b := rfl
  unfold toBody at h ⊢
  -- the announcing line is followed by a newline
  rw [hrest, List.drop_append_of_le_length (by omega), List.takeWhile_append, if_neg]
  rw [List.length_drop]
  omega

theorem bodyStart_extend {opener : HeredocOpener} (h : l.toBody opener ≤ l.rest.length) :
    (l.extend b).bodyStart opener = (l.bodyStart opener).extend b := by
  have hdrop : (l.extend b).rest.drop (l.toBody opener) = l.rest.drop (l.toBody opener) ++ b :=
    List.drop_append_of_le_length h
  have hresume : (l.extend b).resume = l.resume.map (Resume.extend b) := rfl
  unfold bodyStart
  rw [toBody_extend b h, hdrop, hresume]
  cases l.resume <;> rfl

theorem InLines.bodyStart (hl : l.InLines) (opener : HeredocOpener) :
    Whole (l.bodyStart opener).rest := by
  unfold Lexer.bodyStart
  cases hresume : l.resume with
  | none => exact hl.rest.drop _
  | some r => exact hl.resume r hresume

theorem frontHeredoc_extend {opener : HeredocOpener} {f : Front} (hl : l.InLines)
    (h : l.frontHeredoc opener = .ok f) :
    (l.extend b).frontHeredoc opener = .ok (f.extend b) := by
  obtain ⟨hle, body, parts, hbody, hparts, rfl⟩ := frontHeredoc_eq_ok.1 h
  obtain ⟨hread, hused⟩ := HeredocBody.read_append b (hl.bodyStart opener) hbody
  have hlength : l.rest.length ≤ (l.extend b).rest.length := by
    simp [extend]
  rw [frontHeredoc_eq_ok, toBody_extend b hle, bodyStart_extend b hle]
  refine ⟨by omega, body, parts, hread, hparts, ?_⟩
  have hmin : min body.used ((l.bodyStart opener).rest ++ b).length =
      min body.used (l.bodyStart opener).rest.length := by
    rw [List.length_append]
    omega
  have hbehind : ((l.bodyStart opener).rest ++ b).drop body.used =
      (l.bodyStart opener).rest.drop body.used ++ b :=
    List.drop_append_of_le_length hused
  simp only [Front.extend, Resume.extend, hmin, hbehind]

/-- Only an angle bracket announces a heredoc. -/
theorem extend_of_front {f : Front} (hr : l.rest = c :: more) (h : l.front c more = .ok f)
    (hc : c ≠ '<') : f.extend b = f := by
  have hfits := front_fits hr h
  cases f with
  | heredoc x used resume => exact absurd (Option.some.inj hfits.2) hc
  | blank used lines => rfl
  | lexeme x used lines => rfl
  | newline => rfl

theorem extend_of_frontOperator {f : Front} (h : frontOperator c more = .ok f) :
    f.extend b = f := by
  unfold frontOperator at h
  split at h
  · cases h
    rfl
  · cases h

/-- What an angle bracket starts. -/
theorem front_angle (l : Lexer) (more : List Char) :
    l.front '<' more =
      match HeredocOpener.read ('<' :: more) with
      | some opener =>
        if l.awaitsOperand || l.afterIdent then l.frontHeredoc opener
        else frontOperator '<' more
      | none => frontOperator '<' more :=
  rfl

theorem front_angle_extend {f : Front} (hl : l.InLines) (h : EndsLine ('<' :: more))
    (hf : l.front '<' more = .ok f) : (l.extend b).front '<' (more ++ b) = .ok (f.extend b) := by
  have hread := HeredocOpener.read_append b h
  have hawaits : (l.extend b).awaitsOperand = l.awaitsOperand := rfl
  have hident : (l.extend b).afterIdent = l.afterIdent := rfl
  rw [List.cons_append] at hread
  rw [front_angle] at hf ⊢
  rw [hread, hawaits, hident, frontOperator_append b h]
  split at hf
  · next opener hopener =>
    split at hf
    · next hplace =>
      rw [if_pos hplace]
      exact frontHeredoc_extend b hl hf
    · next hplace => rw [if_neg hplace, hf, extend_of_frontOperator b hf]
  · rw [hf, extend_of_frontOperator b hf]

/-- More text behind complete lines does not change what is found at their front. -/
theorem front_extend {f : Front} (hl : l.InLines) (hr : l.rest = c :: more)
    (h : l.front c more = .ok f) : (l.extend b).front c (more ++ b) = .ok (f.extend b) := by
  have hends : EndsLine (c :: more) := by
    have := hl.rest
    rw [hr] at this
    rcases this with h | h
    · cases h
    · exact h
  have hop := frontOperator_append b hends
  by_cases hc : c = '<'
  · subst hc
    exact front_angle_extend b hl hends h
  rw [extend_of_front b hr h hc]
  unfold front at h
  split at h
  · exact h
  · exact h
  · exact h
  · rw [front, (hends.tail (by decide)).head?_append, hop]
    exact h
  · rw [front, (hends.tail (by decide)).takeWhile_append b (by decide)]
    exact h
  · exact h
  · exact h
  · exact frontSingleQuoted_append b h
  · exact frontString_append b (hends.tail (by decide)) h
  · exact frontString_append b (hends.tail (by decide)) h
  · have hmore := hends.tail (by decide)
    rw [front, opensSymbol_append b hmore, hop]
    split at h
    · next hopens =>
      rw [if_pos hopens]
      exact frontSymbol_append b hmore h
    · next hopens =>
      rw [if_neg hopens]
      exact h
  · have hmore := hends.tail (by decide)
    rw [front, percentStart_append b hmore, hop]
    split at h
    · next letter opener hstart =>
      split at h
      · next hplace =>
        exact (if_pos hplace).trans
          (frontPercent_append b hmore (percentStart_length hstart) h)
      · next hplace => exact (if_neg hplace).trans h
    · exact h
  · have hmore := hends.tail (by decide)
    have hopens : (l.extend b).opensRegex (more ++ b) = l.opensRegex more := by
      unfold opensRegex
      rw [hmore.head?_append]
      rfl
    rw [front, hopens, hop]
    split at h
    · next hslash =>
      rw [if_pos hslash]
      exact frontRegex_append b hmore h
    · next hslash =>
      rw [if_neg hslash]
      exact h
  · exact absurd rfl hc
  · exact (frontSigil_append b hends (by decide)).trans h
  · exact (frontSigil_append b hends (by decide)).trans h
  · have hnumber := frontNumber_append b hends
    have hword := frontWord_extend (l := l) b hends
    rw [List.cons_append] at hnumber hword
    rw [front, hnumber, hword, hop]
    · exact h
    all_goals assumption

end Front

/-! ## Steps and runs -/

section Run

variable {l l' : Lexer} {c : Char} {more : List Char} {t : Option Token} {ts : List Token}

/-- A heredoc that is found at the front is announced there. -/
theorem front_announces {x : Lexeme} {used : Nat} {resume : Resume} (hr : l.rest = c :: more)
    (h : l.front c more = .ok (.heredoc x used resume)) :
    ∃ opener, HeredocOpener.read (c :: more) = some opener ∧
      l.frontHeredoc opener = .ok (.heredoc x used resume) := by
  have hc : c = '<' := Option.some.inj (front_fits hr h).2
  subst hc
  -- a mark is no heredoc
  have hmark : frontOperator '<' more ≠ .ok (.heredoc x used resume) := by
    intro hop
    unfold frontOperator at hop
    split at hop <;> cases hop
  rw [front_angle] at h
  split at h
  · next opener hopener =>
    split at h
    · exact ⟨opener, hopener, h⟩
    · exact absurd h hmark
  · exact absurd h hmark

theorem front_eq_heredoc {x : Lexeme} {used : Nat} {resume : Resume} (hr : l.rest = c :: more)
    (h : l.front c more = .ok (.heredoc x used resume)) :
    ∃ opener, l.frontHeredoc opener = .ok (.heredoc x used resume) := by
  obtain ⟨opener, -, hopener⟩ := front_announces hr h
  exact ⟨opener, hopener⟩

theorem used_lt_of_front {f : Front} (hr : l.rest = c :: more) (h : l.front c more = .ok f) :
    f.used < l.rest.length := by
  have hfits := front_fits hr h
  rw [← hr] at hfits
  cases f with
  | newline =>
    rw [hr]
    exact Nat.zero_lt_succ _
  | blank used lines => exact hfits.1
  | lexeme x used lines => exact hfits.1
  | heredoc x used resume => exact hfits.1

theorem InLines.step (hl : l.InLines) (hr : l.rest = c :: more)
    (hs : l.step c more = .ok (t, l')) : l'.InLines := by
  have hadvance (used : Nat) : Whole (l.rest.tail.drop used) := by
    rw [← List.drop_one, List.drop_drop]
    exact hl.rest.drop _
  obtain ⟨used, lines, -, rfl, rfl⟩ | ⟨x, used, lines, -, rfl, rfl⟩ | ⟨-, rfl, rfl⟩ |
    ⟨x, used, resume, hf, rfl, rfl⟩ := step_cases hs
  · exact ⟨hadvance used, hl.resume⟩
  · exact ⟨hadvance used, hl.resume⟩
  · unfold jump
    split
    · next r hresume =>
      split
      · exact ⟨hl.resume r hresume, by rintro r ⟨⟩⟩
      · exact ⟨hadvance 0, hl.resume⟩
    · exact ⟨hadvance 0, hl.resume⟩
  · refine ⟨hadvance used, ?_⟩
    rintro r ⟨⟩
    obtain ⟨opener, hopener⟩ := front_eq_heredoc hr hf
    obtain ⟨-, body, parts, -, -, heq⟩ := frontHeredoc_eq_ok.1 hopener
    cases heq
    exact (hl.bodyStart opener).drop _

variable (b : List Char)

theorem advance_extend {used : Nat} (lines : Nat) (hu : used < l.rest.length) :
    (l.extend b).advance used lines = (l.advance used lines).extend b := by
  have hne : l.rest ≠ [] := by
    rintro hnil
    rw [hnil] at hu
    cases hu
  have hspaced : (l.rest ++ b)[used]? = l.rest[used]? := List.getElem?_append_left hu
  have hrest : (l.rest ++ b).tail.drop used = l.rest.tail.drop used ++ b := by
    rw [List.tail_append_of_ne_nil hne, List.drop_append_of_le_length]
    rw [List.length_tail]
    omega
  simp only [advance, extend, hspaced, hrest]

theorem jump_extend (hne : l.rest ≠ []) : (l.extend b).jump = l.jump.extend b := by
  have hadvance := advance_extend b 1 (List.length_pos_iff.2 hne)
  have hresume : (l.extend b).resume = l.resume.map (Resume.extend b) := rfl
  unfold jump
  rw [hresume, hadvance]
  cases l.resume with
  | none => rfl
  | some r =>
    have hbound : (r.extend b).rest.length < (l.extend b).bound ↔ r.rest.length < l.bound := by
      simp [Resume.extend, extend]
    by_cases hlt : r.rest.length < l.bound
    · simp only [Option.map_some, if_pos (hbound.2 hlt), if_pos hlt]
      simp [extend, Resume.extend]
    · simp only [Option.map_some, if_neg (mt hbound.1 hlt), if_neg hlt]

/-- A step in complete lines is the same step with more text behind them. -/
theorem step_extend (hl : l.InLines) (hr : l.rest = c :: more)
    (hs : l.step c more = .ok (t, l')) :
    (l.extend b).step c (more ++ b) = .ok (t, l'.extend b) := by
  unfold Lexer.step at hs ⊢
  obtain ⟨f, hf, hnext⟩ := map_eq_ok_iff.1 hs
  have hadvance (lines : Nat) := advance_extend b lines (used_lt_of_front hr hf)
  rw [front_extend b hl hr hf]
  cases f with
  | blank used lines =>
    cases hnext
    simp only [Except.map, Front.extend, Front.used] at hadvance ⊢
    rw [hadvance lines]
  | lexeme x used lines =>
    cases hnext
    simp only [Except.map, Front.extend, Front.used] at hadvance ⊢
    rw [hadvance lines]
    rfl
  | newline =>
    cases hnext
    simp only [Except.map, Front.extend, jump_extend b (l := l) (by simp [hr])]
    rfl
  | heredoc x used resume =>
    cases hnext
    simp only [Except.map, Front.extend, Front.used] at hadvance ⊢
    rw [hadvance 0]
    rfl

/-- What is read in complete lines is read in the same way with more text behind them. -/
theorem Reads.extend (h : Reads l ts l') (hl : l.InLines) :
    Reads (l.extend b) ts (l'.extend b) := by
  induction h with
  | refl l => exact .refl _
  | @step l l₁ l' c more t ts hr hs _ ih =>
    have hr' : (l.extend b).rest = c :: (more ++ b) := by
      show l.rest ++ b = c :: (more ++ b)
      rw [hr, List.cons_append]
    exact .step hr' (step_extend b hl hr hs) (ih (hl.step hr hs))

end Run

end Lexer

end RecipeManifest

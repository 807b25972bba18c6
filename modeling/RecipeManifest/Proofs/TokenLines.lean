import RecipeManifest.Proofs.CodeCharacters
import RecipeManifest.Proofs.FaultLines

/-!
The line numbers of tokens.

The line of a token should be one more than the number of newlines before it. The lexer counts as
it reads, and it goes wrong in two ways. A newline in the code of an interpolated literal, or behind
a backslash in a raw percent literal, is not counted (`uncounted`). A newline that is counted on the
line that announces a heredoc is counted once more when the lexer jumps behind the body. `Tally`
keeps both, from the text alone:

    tokenize source = tokens and a mark for the end →
      line of token + missed = 1 + newlines before token + twice          (tokenize_line)
-/

namespace RecipeManifest

/-! ## Line ends inside literals -/

/-- The newlines that a backslash hides. -/
def hiddenBreaks : List Char → Nat
  | '\\' :: c :: rest => lineEnds c + hiddenBreaks rest
  | _ :: rest => hiddenBreaks rest
  | [] => 0

theorem hiddenBreaks_cons {c : Char} (hc : c ≠ '\\') (rest : List Char) :
    hiddenBreaks (c :: rest) = hiddenBreaks rest := by
  rw [hiddenBreaks]
  intro d tail h
  cases h
  exact absurd rfl hc

namespace Reading

variable {α β : Type} {r : Reading α} {rest : List Char} {missed missed' : Nat}

/-- The line ends that are counted and those that are missed are all there are among the characters
used. -/
def Accounts (r : Reading α) (missed : Nat) (cs : List Char) : Prop :=
  r.lines + missed = (cs.take r.used).count '\n'

theorem Accounts.after_one (h : r.Accounts missed rest) (f : α → β) {lines : Nat} (c : Char)
    (hlines : lines + missed' = lineEnds c + missed) :
    (r.after f 1 lines).Accounts missed' (c :: rest) := by
  unfold Accounts at h ⊢
  simp only [after, Nat.add_comm 1, List.take_succ_cons, List.count_cons, beq_iff_eq]
  unfold lineEnds at hlines
  omega

theorem Accounts.after_two (h : r.Accounts missed rest) (f : α → β) {lines : Nat} (c d : Char)
    (hlines : lines + missed' = lineEnds c + lineEnds d + missed) :
    (r.after f 2 lines).Accounts missed' (c :: d :: rest) := by
  unfold Accounts at h ⊢
  simp only [after, Nat.add_comm 2, List.take_succ_cons, List.count_cons, beq_iff_eq]
  unfold lineEnds at hlines
  omega

end Reading

/-- All line ends of a single-quoted body are counted. -/
theorem readSingleQuoted_accounts {cs : List Char} {r : Reading (List Char)}
    (h : readSingleQuoted cs = some r) : r.Accounts 0 cs := by
  fun_induction readSingleQuoted cs generalizing r with
  | case1 => cases h
  | case2 rest ih | case3 rest ih =>
    obtain ⟨s, hs, rfl⟩ := Option.map_eq_some_iff.1 h
    exact (ih hs).after_two _ _ _ rfl
  | case4 rest =>
    cases h
    rfl
  | case5 c rest _ _ _ ih =>
    obtain ⟨s, hs, rfl⟩ := Option.map_eq_some_iff.1 h
    exact (ih hs).after_one _ _ rfl

/-- A raw body misses the line ends behind its backslashes. -/
theorem readRaw_accounts {marks : Delimiters} {depth : Nat} {cs : List Char}
    {r : Reading (List Char)} (hmarks : marks.closer ≠ '\n')
    (h : readRaw marks depth cs = some r) : r.Accounts (hiddenBreaks r.value) cs := by
  fun_induction readRaw marks depth cs generalizing r with
  | case1 | case2 => cases h
  | case3 depth c rest ih =>
    obtain ⟨s, hs, rfl⟩ := Option.map_eq_some_iff.1 h
    refine (ih hs).after_two _ _ _ ?_
    simp [Reading.after, hiddenBreaks, lineEnds]
  | case5 =>
    cases h
    simp [Reading.Accounts, hiddenBreaks, hmarks]
  | case4 depth c rest hlast hmore _ ih | case7 depth c rest hlast hmore _ _ ih =>
    obtain ⟨s, hs, rfl⟩ := Option.map_eq_some_iff.1 h
    refine (ih hs).after_one _ _ ?_
    rw [Reading.after, hiddenBreaks_cons (ne_backslash hlast hmore)]
  | case6 rest outer hlast hmore _ ih =>
    obtain ⟨s, hs, rfl⟩ := Option.map_eq_some_iff.1 h
    refine (ih hs).after_one _ _ ?_
    rw [Reading.after, hiddenBreaks_cons (ne_backslash hlast hmore)]

/-- An interpolated body misses the line ends in its code. -/
theorem readParts_accounts {marks : Delimiters} {place : Inside} {cs : List Char}
    {r : Reading (List Part)} (hmarks : marks.closer ≠ '\n')
    (h : readParts marks place cs = .ok r) :
    r.Accounts ((codeChars r.value).count '\n') cs := by
  fun_induction readParts marks place cs generalizing r with
  | case1 | case8 | case9 => cases h
  | case5 =>
    cases h
    simp [Reading.Accounts, codeChars, hmarks]
  | case2 pairs c rest ih =>
    obtain ⟨s, hs, rfl⟩ := map_eq_ok_iff.1 h
    refine (ih hs).after_two _ _ _ ?_
    simp [Reading.after, codeChars_consText, lineEnds]
  | case3 _ _ ih =>
    obtain ⟨s, hs, rfl⟩ := map_eq_ok_iff.1 h
    refine (ih hs).after_two _ _ _ ?_
    simp [Reading.after, lineEnds]
  | case10 pairs braces quote c rest ih =>
    obtain ⟨s, hs, rfl⟩ := map_eq_ok_iff.1 h
    refine (ih hs).after_two _ _ _ ?_
    simp [Reading.after, codeChars_consCode, lineEnds, List.count_cons, Nat.add_comm]
  | case4 _ _ _ _ _ _ ih | case6 _ _ _ _ _ ih | case7 _ _ _ _ _ _ _ ih =>
    obtain ⟨s, hs, rfl⟩ := map_eq_ok_iff.1 h
    refine (ih hs).after_one _ _ ?_
    simp [Reading.after, codeChars_consText]
  | case11 _ _ _ _ _ _ _ ih | case13 _ _ _ ih | case14 _ _ _ ih =>
    obtain ⟨s, hs, rfl⟩ := map_eq_ok_iff.1 h
    refine (ih hs).after_one _ _ ?_
    simp [Reading.after, codeChars_consCode, lineEnds, List.count_cons, Nat.add_comm]
  | case12 _ _ ih =>
    obtain ⟨s, hs, rfl⟩ := map_eq_ok_iff.1 h
    refine (ih hs).after_one _ _ ?_
    simp [Reading.after, codeChars, lineEnds]
  | case15 =>
    rename_i ih
    obtain ⟨s, hs, rfl⟩ := map_eq_ok_iff.1 h
    refine (ih hs).after_one _ _ ?_
    simp [Reading.after, codeChars_consCode, lineEnds, List.count_cons, Nat.add_comm]

theorem readDelimited_accounts {marks : Delimiters} {cs : List Char} {r : Reading (List Part)}
    (hmarks : marks.closer ≠ '\n') (h : readDelimited marks cs = .ok r) :
    r.Accounts ((codeChars r.value).count '\n') cs := by
  obtain ⟨s, hs, rfl⟩ := map_eq_ok_iff.1 h
  have hparts := readParts_accounts hmarks hs
  have hcode : codeChars (if s.value.isEmpty then [.text []] else s.value) = codeChars s.value := by
    cases s.value <;> rfl
  show s.lines + (codeChars (if s.value.isEmpty then [.text []] else s.value)).count '\n' =
    (cs.take s.used).count '\n'
  rw [hcode]
  exact hparts

/-- The line ends in the code of an interpolated body. -/
def codeBreaks (marks : Delimiters) (body : List Char) : Nat :=
  match readDelimited marks body with
  | .ok r => (codeChars r.value).count '\n'
  | .error _ => 0

/-- The line ends that are hidden in a raw body. -/
def rawBreaks (marks : Delimiters) (body : List Char) : Nat :=
  match readRaw marks 0 body with
  | some r => hiddenBreaks r.value
  | none => 0

theorem codeBreaks_of_read {marks : Delimiters} {body : List Char} {r : Reading (List Part)}
    (h : readDelimited marks body = .ok r) :
    codeBreaks marks body = (codeChars r.value).count '\n' := by
  unfold codeBreaks
  rw [h]

theorem rawBreaks_of_read {marks : Delimiters} {body : List Char} {r : Reading (List Char)}
    (h : readRaw marks 0 body = some r) : rawBreaks marks body = hiddenBreaks r.value := by
  unfold rawBreaks
  rw [h]

namespace Lexer

/-- Those of a symbol: it is interpolated if it stands in double quotes. -/
def symbolBreaks : List Char → Nat
  | '"' :: body => codeBreaks (.same '"') body
  | _ => 0

/-- Those of a percent literal, which its letter makes raw or interpolated. -/
def percentBreaks (letter : Option Char) (opener : Char) (more : List Char) : Nat :=
  let body := more.drop (letter.toList.length + 1)
  if letter.getD 'Q' ∈ ['q', 'w', 'i'] then rawBreaks (.ofOpener opener) body
  else codeBreaks (.ofOpener opener) body

/-- The line ends that are not counted when a literal is read at the front. -/
def uncounted (l : Lexer) (c : Char) (more : List Char) : Nat :=
  match c with
  | '"' => codeBreaks (.same '"') more
  | '\x60' => codeBreaks (.same '\x60') more
  | ':' => symbolBreaks more
  | '%' =>
    match percentStart more with
    | some (letter, opener) =>
      if letter.isSome || l.awaitsOperand || l.afterIdent then percentBreaks letter opener more
      else 0
    | none => 0
  | '/' => if l.opensRegex more then codeBreaks (.same '/') more else 0
  | _ => 0

end Lexer

/-! ## Line ends in a step -/

theorem newline_notMem_symbolSuffix (cs : List Char) : '\n' ∉ Lexer.symbolSuffix cs := by
  unfold Lexer.symbolSuffix
  split
  · split
    · next h =>
      intro hmem
      rw [List.mem_singleton] at hmem
      rw [← hmem] at h
      exact absurd h.1 (by decide)
    · exact List.not_mem_nil
  · exact List.not_mem_nil

theorem newline_notMem_frontExponent (cs : List Char) : '\n' ∉ frontExponent cs := by
  unfold frontExponent
  split
  · exact List.not_mem_nil
  · next e rest =>
    dsimp only
    split
    · next h =>
      have he : '\n' ≠ e := by
        rintro rfl
        exact absurd h.1 (by decide)
      have hdigits := newline_notMem_takeWhile (p := Text.isDecimalDigit) (by decide)
        (rest.drop ((rest.take 1).filter fun c => c == '+' || c == '-').length)
      simp [he, hdigits]
    · exact List.not_mem_nil

theorem newline_notMem_frontNumber (cs : List Char) : '\n' ∉ frontNumber cs := by
  unfold frontNumber
  split
  · split
    · have hwhole := newline_notMem_takeWhile (p := isDigitChar) (by decide) cs
      simp [frontDecimal, hwhole, newline_notMem_frontFraction, newline_notMem_frontExponent]
    · exact List.not_mem_nil
  · unfold frontHex
    split
    · next x rest _ =>
      dsimp only
      split
      · next h =>
        have hx : '\n' ≠ x := by
          rintro rfl
          exact absurd h.1 (by decide)
        have hdigits := newline_notMem_takeWhile (p := isHexChar) (by decide) rest
        simp [hx, hdigits]
      · exact List.not_mem_nil
    · exact List.not_mem_nil

theorem newline_notMem_spelling (o : Operator) : '\n' ∉ o.spelling.toList := by
  cases o <;> decide

theorem HeredocOpener.newline_notMem_readTag {style : HeredocStyle} {cs : List Char}
    {o : HeredocOpener} (h : readTag style cs = some o) :
    o.style = style ∧
      '\n' ∉ cs.take (o.tag.length + if o.quote.isSome then 2 else 0) := by
  unfold readTag at h
  dsimp only at h
  split at h
  · next hcond =>
    cases h
    refine ⟨rfl, ?_⟩
    dsimp only
    cases hquote : cs.head?.filter (fun c => c == '\'' || c == '"') with
    | none =>
      rw [hquote] at hcond
      have htake := List.prefix_iff_eq_take.1 (frontName_isPrefix cs)
      simp only [Option.toList_none, List.length_nil, List.drop_zero, Option.isSome_none]
      simpa [← htake] using newline_notMem_frontName cs
    | some q =>
      rw [hquote] at hcond
      cases cs with
      | nil => cases hquote
      | cons d body =>
        obtain ⟨hd, hq⟩ := Option.filter_eq_some_iff.1 hquote
        cases hd
        have hne : '\n' ≠ q := by
          rintro rfl
          exact absurd hq (by decide)
        -- the name, and the quote that closes it
        have hclose : (body.drop (frontName body).length).head? = some q := by
          simpa using hcond.2
        obtain ⟨tail, htail⟩ := List.head?_eq_some_iff.1 hclose
        have htake : body.take ((frontName body).length + 1) = frontName body ++ [q] := by
          rw [List.take_add, htail, ← List.prefix_iff_eq_take.1 (frontName_isPrefix body)]
          rfl
        have hname := newline_notMem_frontName body
        simp [htake, hne, hname]
  · cases h

/-- The announcement of a heredoc stands on one line. -/
theorem HeredocOpener.newline_notMem_read {cs : List Char} {o : HeredocOpener}
    (h : read cs = some o) : '\n' ∉ cs.take o.length := by
  have htag {style : HeredocStyle} {rest : List Char} (w : List Char) (hw : '\n' ∉ w)
      (hlength : w.length = 2 + if style = .flush then 0 else 1)
      (h : readTag style rest = some o) : '\n' ∉ (w ++ rest).take o.length := by
    obtain ⟨rfl, hn⟩ := newline_notMem_readTag h
    have hsum : o.length = w.length + (o.tag.length + if o.quote.isSome then 2 else 0) := by
      unfold length
      omega
    rw [hsum, List.take_length_add_append, List.mem_append, not_or]
    exact ⟨hw, hn⟩
  unfold read at h
  split at h
  · exact htag ['<', '<', '-'] (by decide) rfl h
  · exact htag ['<', '<', '~'] (by decide) rfl h
  · exact htag ['<', '<'] (by decide) rfl h
  · cases h

/-- What stands at the front of a text, counted or missed, has all the line ends it passes. -/
def Front.Accounts (missed : Nat) (cs : List Char) (f : Front) : Prop :=
  f.lines + missed = (cs.take (f.used + 1)).count '\n'

/-- A beginning without newlines has none to count. -/
theorem Front.accounts_of_isPrefix {x : Lexeme} {text cs : List Char} {used : Nat}
    (hp : text <+: cs) (hl : text.length = used + 1) (hn : '\n' ∉ text) :
    (Front.lexeme x used 0).Accounts 0 cs := by
  show 0 + 0 = (cs.take (used + 1)).count '\n'
  rw [← hl, ← List.prefix_iff_eq_take.1 hp, List.count_eq_zero.2 hn]

/-- What is accounted for behind an opening mark is accounted for with the mark. -/
theorem Reading.Accounts.front {α : Type} {r : Reading α} {missed used : Nat} {w rest : List Char}
    (h : r.Accounts missed rest) (hw : '\n' ∉ w) (x : Lexeme) (hused : used + 1 = w.length + r.used) :
    (Front.lexeme x used r.lines).Accounts missed (w ++ rest) := by
  show r.lines + missed = ((w ++ rest).take (used + 1)).count '\n'
  rw [hused, List.take_length_add_append, List.count_append, List.count_eq_zero.2 hw, h,
    Nat.zero_add]

namespace Lexer

variable {l : Lexer} {c : Char} {more : List Char} {f : Front} {marks : Delimiters}

theorem frontOperator_accounts (h : frontOperator c more = .ok f) : f.Accounts 0 (c :: more) := by
  unfold frontOperator at h
  split at h
  · next o ho =>
    cases h
    have hpos := List.length_pos_iff.2 o.spelling_ne_nil
    refine Front.accounts_of_isPrefix (Operator.ofFront?_isPrefix ho) ?_ (newline_notMem_spelling o)
    rw [String.length_toList] at hpos ⊢
    omega
  · cases h

theorem frontString_accounts (hmarks : marks.closer ≠ '\n') (hc : '\n' ∉ [c])
    (h : frontString marks more = .ok f) : f.Accounts (codeBreaks marks more) (c :: more) := by
  obtain ⟨r, hr, rfl⟩ := map_eq_ok_iff.1 h
  rw [codeBreaks_of_read hr]
  exact (readDelimited_accounts hmarks hr).front hc _ (Nat.add_comm _ _)

theorem frontSingleQuoted_accounts (h : frontSingleQuoted more = .ok f) :
    f.Accounts 0 ('\'' :: more) := by
  unfold frontSingleQuoted at h
  split at h
  · next r hr =>
    cases h
    exact (readSingleQuoted_accounts hr).front (w := ['\'']) (by decide) _ (Nat.add_comm _ _)
  · cases h

theorem frontSymbol_accounts (h : frontSymbol more = .ok f) :
    f.Accounts (symbolBreaks more) (':' :: more) := by
  unfold frontSymbol at h
  split at h
  · next body =>
    split at h
    · next r hr =>
      cases h
      exact (readSingleQuoted_accounts hr).front (w := [':', '\'']) (by decide) _
        (by simp only [List.length_cons, List.length_nil]; omega)
    · cases h
  · next body =>
    obtain ⟨r, hr, rfl⟩ := map_eq_ok_iff.1 h
    show Front.Accounts (codeBreaks (.same '"') body) _ _
    rw [codeBreaks_of_read hr]
    exact (readDelimited_accounts (by decide) hr).front (w := [':', '"']) (by decide) _
      (by simp only [List.length_cons, List.length_nil]; omega)
  · next hsingle hdouble =>
    cases h
    have hnone : symbolBreaks more = 0 := by
      unfold symbolBreaks
      split
      · next body => exact absurd rfl (hdouble body)
      · rfl
    rw [hnone]
    have hp := append_isPrefix_of_drop (frontName_isPrefix more)
      (symbolSuffix_isPrefix (more.drop (frontName more).length))
    refine Front.accounts_of_isPrefix ((List.prefix_append_right_inj [':']).2 hp) rfl ?_
    simp [newline_notMem_frontName, newline_notMem_symbolSuffix]

/-- The opening of a percent literal has no line ends, and none closes the literal. -/
theorem newline_notMem_percentStart {letter : Option Char} {opener : Char}
    (h : percentStart more = some (letter, opener)) :
    '\n' ∉ '%' :: more.take (letter.toList.length + 1) ∧
      (Delimiters.ofOpener opener).closer ≠ '\n' := by
  have hopener : ∀ o ∈ ['(', '[', '{', '<', '|', '!', '/'],
      '\n' ≠ o ∧ (Delimiters.ofOpener o).closer ≠ '\n' := by
    simp [Delimiters.ofOpener, Delimiters.same]
  unfold percentStart at h
  dsimp only at h
  split at h
  · next d rest =>
    split at h
    · next hd =>
      cases h
      obtain ⟨hne, hmarks⟩ := hopener _ (of_decide_eq_true hd)
      exact ⟨by simp [hne], hmarks⟩
    · split at h
      · next hletter =>
        obtain ⟨o, ho, heq⟩ := Option.map_eq_some_iff.1 h
        cases heq
        obtain ⟨hhead, hmem⟩ := Option.filter_eq_some_iff.1 ho
        obtain ⟨tail, rfl⟩ := List.head?_eq_some_iff.1 hhead
        obtain ⟨hne, hmarks⟩ := hopener _ (of_decide_eq_true hmem)
        have hd : '\n' ≠ d := by
          rintro rfl
          exact absurd hletter (by decide)
        exact ⟨by simp [hne, hd], hmarks⟩
      · cases h
  · cases h

theorem frontPercent_accounts {letter : Option Char} {opener : Char}
    (hstart : percentStart more = some (letter, opener))
    (h : frontPercent letter opener more = .ok f) :
    f.Accounts (percentBreaks letter opener more) ('%' :: more) := by
  obtain ⟨hnewline, hmarks⟩ := newline_notMem_percentStart hstart
  have hlength := percentStart_length hstart
  have hsplit : '%' :: more = '%' :: more.take (letter.toList.length + 1) ++
      more.drop (letter.toList.length + 1) := by
    rw [List.cons_append, List.take_append_drop]
  have hopening : ('%' :: more.take (letter.toList.length + 1)).length =
      letter.toList.length + 1 + 1 := by
    rw [List.length_cons, List.length_take_of_le hlength]
  unfold frontPercent at h
  unfold percentBreaks
  dsimp only at h ⊢
  rw [hsplit]
  split at h
  · next hkind =>
    rw [if_pos hkind]
    split at h
    · cases h
    · next r hr =>
      cases h
      rw [rawBreaks_of_read hr]
      exact (readRaw_accounts hmarks hr).front hnewline _ (by omega)
  · next hkind =>
    rw [if_neg hkind]
    obtain ⟨r, hr, rfl⟩ := map_eq_ok_iff.1 h
    rw [codeBreaks_of_read hr]
    exact (readDelimited_accounts hmarks hr).front hnewline _ (by omega)

theorem frontRegex_accounts (h : frontRegex more = .ok f) :
    f.Accounts (codeBreaks (.same '/') more) ('/' :: more) := by
  obtain ⟨r, hr, rfl⟩ := map_eq_ok_iff.1 h
  have hbody : r.Accounts _ more := readDelimited_accounts (by decide) hr
  have hflags := newline_notMem_takeWhile (p := fun c => decide (c ∈ "imxounse".toList)) (by decide)
    (more.drop r.used)
  have htake : (more.drop r.used).take
      ((more.drop r.used).takeWhile fun c => decide (c ∈ "imxounse".toList)).length =
      (more.drop r.used).takeWhile fun c => decide (c ∈ "imxounse".toList) :=
    (List.prefix_iff_eq_take.1 (List.takeWhile_prefix _)).symm
  rw [codeBreaks_of_read hr]
  simp only [Front.Accounts, Front.lines, Front.used]
  rw [List.take_succ_cons, List.take_add, htake, List.count_cons_of_ne (by decide),
    List.count_append, List.count_eq_zero.2 hflags]
  exact hbody

theorem frontSigil_accounts (hc : c ≠ '\n') (h : frontSigil c more = .ok f) :
    f.Accounts 0 (c :: more) := by
  unfold frontSigil at h
  dsimp only at h
  split at h
  · exact frontOperator_accounts h
  · cases h
    have hsigils := newline_notMem_takeWhile (p := fun d => d == '@' || d == '$') (by decide) more
    have hp := append_isPrefix_of_drop (List.takeWhile_prefix (fun d => d == '@' || d == '$'))
      (frontName_isPrefix (more.drop (more.takeWhile fun d => d == '@' || d == '$').length))
    refine Front.accounts_of_isPrefix ((List.prefix_append_right_inj [c]).2 hp) rfl ?_
    simp [Ne.symm hc, hsigils, newline_notMem_frontName]

theorem frontWord_accounts (l : Lexer) (hc : isNameStart c = true) :
    (l.frontWord (c :: more)).Accounts 0 (c :: more) := by
  unfold frontWord
  dsimp only
  generalize hfull : frontName (c :: more) ++
    nameSuffix ((c :: more).drop (frontName (c :: more)).length) = full
  have hp : full <+: c :: more := by
    rw [← hfull]
    exact append_isPrefix_of_drop (frontName_isPrefix _) (nameSuffix_isPrefix _)
  have hn : '\n' ∉ full := by
    rw [← hfull, List.mem_append, not_or]
    exact ⟨newline_notMem_frontName _, newline_notMem_nameSuffix _⟩
  have hpos : 0 < full.length := by
    have hname : frontName (c :: more) ≠ [] := frontName_ne_nil hc
    have := List.length_pos_iff.2 hname
    rw [← hfull, List.length_append]
    omega
  split
  · next hl =>
    simp only [Bool.and_eq_true] at hl
    refine Front.accounts_of_isPrefix (append_isPrefix_of_drop hp (endsLabel_isPrefix hl.1))
      (by simp) ?_
    simp [hn]
  · exact Front.accounts_of_isPrefix hp (by omega) hn

theorem frontHeredoc_accounts {opener : HeredocOpener}
    (hopener : HeredocOpener.read (c :: more) = some opener)
    (h : l.frontHeredoc opener = .ok f) : f.Accounts 0 (c :: more) := by
  obtain ⟨-, body, parts, -, -, rfl⟩ := frontHeredoc_eq_ok.1 h
  have hlength : opener.length - 1 + 1 = opener.length := by
    unfold HeredocOpener.length
    omega
  show 0 + 0 = ((c :: more).take (opener.length - 1 + 1)).count '\n'
  rw [hlength, List.count_eq_zero.2 (HeredocOpener.newline_notMem_read hopener)]

/-- A step that is no line end counts and misses the line ends that it passes. -/
theorem front_accounts (h : l.front c more = .ok f) (hf : f ≠ .newline) :
    f.Accounts (l.uncounted c more) (c :: more) := by
  unfold front at h
  split at h
  · cases h; rfl
  · cases h; rfl
  · cases h; rfl
  · split at h
    · next hn =>
      cases h
      obtain ⟨tail, rfl⟩ := List.head?_eq_some_iff.1 hn
      simp [Front.Accounts, Front.lines, Front.used, uncounted]
    · exact frontOperator_accounts h
  · cases h
    have hn := newline_notMem_takeWhile (p := (· != '\n')) (by decide) more
    have htake := List.prefix_iff_eq_take.1 (List.takeWhile_prefix (l := more) (· != '\n'))
    show 0 = (('#' :: more).take ((more.takeWhile (· != '\n')).length + 1)).count '\n'
    rw [List.take_succ_cons, ← htake, List.count_cons_of_ne (by decide), List.count_eq_zero.2 hn]
  · cases h
    exact absurd rfl hf
  · cases h; rfl
  · exact frontSingleQuoted_accounts h
  · exact frontString_accounts (by decide) (by decide) h
  · exact frontString_accounts (by decide) (by decide) h
  · split at h
    · exact frontSymbol_accounts h
    · next hopens =>
      have hnone : symbolBreaks more = 0 := by
        unfold symbolBreaks
        split
        · exact absurd rfl hopens
        · rfl
      show f.Accounts (symbolBreaks more) _
      rw [hnone]
      exact frontOperator_accounts h
  · show f.Accounts (match percentStart more with
      | some (letter, opener) => _
      | none => _) _
    cases hstart : percentStart more with
    | none =>
      rw [hstart] at h
      exact frontOperator_accounts h
    | some start =>
      obtain ⟨letter, opener⟩ := start
      rw [hstart] at h
      dsimp only at h ⊢
      split at h
      · next hplace =>
        rw [if_pos hplace]
        exact frontPercent_accounts hstart h
      · next hplace =>
        rw [if_neg hplace]
        exact frontOperator_accounts h
  · show f.Accounts (if l.opensRegex more then _ else _) _
    split at h
    · next hslash =>
      rw [if_pos hslash]
      exact frontRegex_accounts h
    · next hslash =>
      rw [if_neg hslash]
      exact frontOperator_accounts h
  · split at h
    · next opener hopener =>
      split at h
      · exact frontHeredoc_accounts hopener h
      · exact frontOperator_accounts h
    · exact frontOperator_accounts h
  · exact frontSigil_accounts (by decide) h
  · exact frontSigil_accounts (by decide) h
  · have hnone : l.uncounted c more = 0 := by
      unfold uncounted
      split <;> trivial
    rw [hnone]
    split at h
    · split at h
      · cases h
      · next hne =>
        cases h
        have hpos := List.length_pos_iff.2 hne
        exact Front.accounts_of_isPrefix (frontNumber_isPrefix (c :: more)) (by omega)
          (newline_notMem_frontNumber _)
    · split at h
      · next hc =>
        cases h
        exact l.frontWord_accounts hc
      · exact frontOperator_accounts h

end Lexer

/-! ## Bodies of heredocs -/

theorem whole_unlines (lines : List (List Char)) : Whole (Text.unlines lines) := by
  obtain rfl | ⟨init, last, rfl⟩ := List.eq_nil_or_concat lines
  · exact .inl rfl
  · exact .inr (by simp [EndsLine, Text.unlines])

/-- A last line without a newline is a line all the same. -/
theorem Text.newlineLines_append_newline {cs : List Char} (h : ¬ Whole cs) :
    newlineLines (cs ++ ['\n']) = newlineLines cs := by
  have hwhole : Whole (cs ++ ['\n']) := .inr (by simp [EndsLine])
  obtain ⟨lines, hlines, heq⟩ := hwhole.exists_lines
  obtain rfl | ⟨init, last, rfl⟩ := List.eq_nil_or_concat lines
  · simp [unlines] at heq
  · obtain rfl : cs = unlines init ++ last := by
      have : cs ++ ['\n'] = unlines init ++ last ++ ['\n'] := by
        rw [heq]
        simp [unlines]
      exact List.append_cancel_right this
    have hne : last ≠ [] := by
      rintro rfl
      apply h
      rw [List.append_nil]
      exact whole_unlines init
    have hlast : newlineLines last = [last] := newlineLines_of_notMem (hlines last (by simp)) hne
    rw [heq, newlineLines_unlines hlines,
      newlineLines_unlines_append (fun line hline => hlines line (by simp [hline])), hlast]
    simp

/-- A body with text behind it takes as many lines as are counted for it. -/
theorem HeredocBody.count_read_of_rest {o : HeredocOpener} {cs : List Char} {body : HeredocBody}
    (h : HeredocBody.read o cs = some body) (hrest : cs.drop body.used ≠ []) :
    body.consumed + (cs.drop body.used).count '\n' = cs.count '\n' := by
  by_cases hcs : Whole cs
  · exact count_read hcs h
  · -- with the missing newline the text is in complete lines
    have hread : HeredocBody.read o (cs ++ ['\n']) = some body := by
      unfold HeredocBody.read at h ⊢
      rwa [Text.newlineLines_append_newline hcs]
    have hcount := count_read (.inr (by simp [EndsLine])) hread
    have hle : body.used ≤ cs.length := by
      have := List.length_pos_iff.2 hrest
      rw [List.length_drop] at this
      omega
    rw [List.drop_append_of_le_length hle, List.count_append, List.count_append] at hcount
    omega

namespace Lexer

/-! ## Line ends along a run -/

/-- The line ends that the count has left out so far, and those that are in it twice. While the
body of a heredoc lies ahead, also how many were left out before it was announced, and how many were
counted since. -/
structure Tally where
  missed : Nat
  twice : Nat
  before : Nat
  since : Nat
  deriving DecidableEq, Repr

/-- The tally after a step from `l` to `l'` that leaves out so many line ends. Behind a body nothing
of the line that announced it counts as left out, since the lines of the body stand for it. -/
def Tally.after (k : Tally) (l l' : Lexer) (uncounted : Nat) : Tally :=
  match l.resume, l'.resume with
  | none, none => { k with missed := k.missed + uncounted }
  | none, some _ => { k with before := k.missed, since := 0 }
  | some _, some _ =>
    let passed := (l.rest.take (l'.pos - l.pos)).count '\n'
    { k with missed := k.missed + uncounted, since := k.since + (passed - uncounted) }
  | some _, none => ⟨k.before, k.twice + k.since, 0, 0⟩

/-- The tally at each token of what is left. -/
def tallies (k : Tally) (l : Lexer) : List Tally :=
  match _hr : l.rest with
  | [] => []
  | c :: more =>
    match _h : l.step c more with
    | .error _ => []
    | .ok (t, next) => t.toList.map (fun _ => k) ++ next.tallies (k.after l next (l.uncounted c more))
termination_by l.remaining
decreasing_by exact remaining_step_lt _hr _h

variable {l l' : Lexer} {c : Char} {more source : List Char} {t : Option Token} {ts : List Token}
  {k : Tally} {total length : Nat}

theorem tallies_nil (hr : l.rest = []) : l.tallies k = [] := by
  rw [tallies]
  split
  · rfl
  · next h => rw [hr] at h; cases h

theorem tallies_step (hr : l.rest = c :: more) (hs : l.step c more = .ok (t, l')) :
    l.tallies k =
      t.toList.map (fun _ => k) ++ l'.tallies (k.after l l' (l.uncounted c more)) := by
  rw [tallies]
  split
  · next h => rw [hr] at h; cases h
  · next c' more' h =>
    rw [hr] at h
    cases h
    split
    · next h' => rw [hs] at h'; cases h'
    · next h' => rw [hs] at h'; cases h'; rfl

/-- What is left, here and behind the body of a heredoc, is the text from the place on. -/
structure InText (source : List Char) (l : Lexer) : Prop where
  rest : l.rest = source.drop l.pos
  resume : ∀ r, l.resume = some r → r.rest = source.drop r.pos

theorem inText_start (source : List Char) : (start source).InText source :=
  ⟨rfl, by rintro r ⟨⟩⟩

theorem InText.bodyStart (h : l.InText source) (opener : HeredocOpener) :
    (l.bodyStart opener).rest = source.drop (l.bodyStart opener).pos := by
  unfold Lexer.bodyStart
  cases hresume : l.resume with
  | none =>
    show l.rest.drop (l.toBody opener) = source.drop (l.pos + l.toBody opener)
    rw [h.rest, List.drop_drop]
  | some r => exact h.resume r hresume

theorem InText.advance (h : l.InText source) (used lines : Nat) :
    (l.advance used lines).InText source := by
  refine ⟨?_, h.resume⟩
  simp only [Lexer.advance, h.rest, List.tail_drop, List.drop_drop]

theorem InText.step (h : l.InText source) (hr : l.rest = c :: more)
    (hs : l.step c more = .ok (t, l')) : l'.InText source := by
  obtain ⟨used, lines, -, rfl, rfl⟩ | ⟨x, used, lines, -, rfl, rfl⟩ | ⟨-, rfl, rfl⟩ |
    ⟨x, used, resume, hf, rfl, rfl⟩ := step_cases hs
  · exact h.advance used lines
  · have hnext := h.advance used lines
    exact ⟨hnext.rest, hnext.resume⟩
  · have hnext := h.advance 0 1
    unfold jump
    split
    · next r hresume =>
      split
      · exact ⟨h.resume r hresume, by rintro r ⟨⟩⟩
      · exact ⟨hnext.rest, hnext.resume⟩
    · exact ⟨hnext.rest, hnext.resume⟩
  · have hnext := h.advance used 0
    refine ⟨hnext.rest, ?_⟩
    rintro r ⟨⟩
    obtain ⟨opener, hopener⟩ := front_eq_heredoc hr hf
    obtain ⟨-, body, parts, -, -, heq⟩ := frontHeredoc_eq_ok.1 hopener
    cases heq
    have hstart := h.bodyStart opener
    show (l.bodyStart opener).rest.drop body.used =
      source.drop ((l.bodyStart opener).pos + min body.used (l.bodyStart opener).rest.length)
    rw [← List.drop_drop, ← hstart]
    by_cases hle : body.used ≤ (l.bodyStart opener).rest.length
    · rw [Nat.min_eq_left hle]
    · rw [Nat.min_eq_right (by omega), List.drop_length, List.drop_eq_nil_of_le (by omega)]

/-- The lines counted, those left out and those still ahead are all lines of the text and those
counted twice. The same holds for the place behind a body that lies ahead. Nothing is said of the
end of the text: a last line that closes a heredoc is counted as if a newline were behind it. -/
structure Tallied (total : Nat) (k : Tally) (l : Lexer) : Prop where
  line : l.rest ≠ [] → l.line + k.missed + l.rest.count '\n' = 1 + total + k.twice
  resume : ∀ r, l.resume = some r → r.rest ≠ [] →
    l.line + 1 + r.lines + k.before + r.rest.count '\n' = 1 + total + k.twice + k.since

theorem tallied_start (source : List Char) :
    (start source).Tallied (source.count '\n') ⟨0, 0, 0, 0⟩ :=
  ⟨fun _ => by simp only [start]; omega, by rintro r ⟨⟩⟩

/-- One line end is passed on the way to the next line. -/
theorem count_drop_line {cs : List Char} (h : (cs.takeWhile (· != '\n')).length < cs.length) :
    cs.count '\n' = 1 + (cs.drop ((cs.takeWhile (· != '\n')).length + 1)).count '\n' := by
  have hsplit : cs.takeWhile (· != '\n') ++ cs.dropWhile (· != '\n') = cs :=
    List.takeWhile_append_dropWhile
  have hline := List.count_eq_zero.2 (newline_notMem_takeWhile (p := (· != '\n')) (by decide) cs)
  cases hd : cs.dropWhile (· != '\n') with
  | nil =>
    rw [hd, List.append_nil] at hsplit
    rw [hsplit] at h
    omega
  | cons d tail =>
    have hhead := List.head_dropWhile_not (· != '\n') (l := cs) (by simp [hd])
    simp only [hd, List.head_cons, bne_eq_false_iff_eq] at hhead
    rw [hd, hhead] at hsplit
    generalize cs.takeWhile (· != '\n') = line at hsplit hline
    rw [← hsplit, List.count_append, hline, List.drop_length_add_append]
    simp
    omega

/-- Exactly one line ends between a heredoc's announcement and the next line. -/
theorem count_toBody {opener : HeredocOpener} (hr : l.rest = c :: more)
    (hopener : HeredocOpener.read (c :: more) = some opener)
    (hle : l.toBody opener ≤ l.rest.length) :
    l.rest.count '\n' = 1 + (l.rest.drop (l.toBody opener)).count '\n' := by
  have hannounced := HeredocOpener.newline_notMem_read hopener
  rw [← hr] at hannounced
  have hlength : ((l.rest.drop opener.length).takeWhile (· != '\n')).length <
      (l.rest.drop opener.length).length := by
    rw [List.length_drop]
    unfold Lexer.toBody at hle
    omega
  have hsplit : l.rest.count '\n' =
      (l.rest.take opener.length).count '\n' + (l.rest.drop opener.length).count '\n' := by
    rw [← List.count_append, List.take_append_drop]
  rw [hsplit, List.count_eq_zero.2 hannounced, count_drop_line hlength, List.drop_drop, Nat.zero_add,
    Lexer.toBody, Nat.add_assoc]

theorem Tallied.bodyStart (h : l.Tallied total k) (hr : l.rest = c :: more)
    {opener : HeredocOpener} (hopener : HeredocOpener.read (c :: more) = some opener)
    (hle : l.toBody opener ≤ l.rest.length) (hrest : (l.bodyStart opener).rest ≠ []) :
    l.line + 1 + (l.bodyStart opener).lines + (if l.resume.isSome then k.before else k.missed) +
        (l.bodyStart opener).rest.count '\n' =
      1 + total + k.twice + (if l.resume.isSome then k.since else 0) := by
  unfold Lexer.bodyStart at hrest ⊢
  cases hresume : l.resume with
  | none =>
    have hline := h.line (by simp [hr])
    have hcount := count_toBody hr hopener hle
    simp only [Option.getD_none, Option.isSome_none, Bool.false_eq_true, if_false]
    omega
  | some r =>
    rw [hresume] at hrest
    have := h.resume r hresume hrest
    simp only [Option.getD_some, Option.isSome_some, if_true]
    omega

theorem count_rest (l : Lexer) (used lines : Nat) :
    l.rest.count '\n' =
      (l.rest.take (used + 1)).count '\n' + (l.advance used lines).rest.count '\n' := by
  show _ = _ + (l.rest.tail.drop used).count '\n'
  rw [← List.drop_one, List.drop_drop, Nat.add_comm 1, ← List.count_append, List.take_append_drop]

/-- Line ends that a step passes are counted or left out, and what is counted while a body lies
ahead will be counted again. -/
theorem Tallied.advance (h : l.Tallied total k) (hr : l.rest = c :: more)
    {used lines uncounted : Nat}
    (hlines : lines + uncounted = (l.rest.take (used + 1)).count '\n') :
    (l.advance used lines).Tallied total
      { k with missed := k.missed + uncounted, since := k.since + lines } := by
  have hcount := l.count_rest used lines
  refine ⟨fun _ => ?_, fun r hresume hrest => ?_⟩
  · have := h.line (by simp [hr])
    simp only [show (l.advance used lines).line = l.line + lines from rfl]
    omega
  · have := h.resume r hresume hrest
    simp only [show (l.advance used lines).line = l.line + lines from rfl]
    omega

/-- A step that neither ends a line nor announces a heredoc. -/
theorem Tallied.pass (h : l.Tallied total k) (hr : l.rest = c :: more)
    {used lines uncounted : Nat}
    (hlines : lines + uncounted = (l.rest.take (used + 1)).count '\n')
    (hpos : l'.pos = l.pos + 1 + used) (hline : l'.line = l.line + lines)
    (hrest : l'.rest = (l.advance used lines).rest) (hresume : l'.resume = l.resume) :
    l'.Tallied total (k.after l l' uncounted) := by
  have hnext := h.advance hr hlines
  unfold Tally.after
  rw [hresume]
  cases hpending : l.resume with
  | none =>
    refine ⟨fun hne => ?_, fun r hr' => ?_⟩
    · rw [hrest] at hne ⊢
      rw [hline]
      exact hnext.line hne
    · rw [hresume, hpending] at hr'
      cases hr'
  | some r =>
    have hpassed : (l.rest.take (l'.pos - l.pos)).count '\n' - uncounted = lines := by
      rw [hpos, show l.pos + 1 + used - l.pos = used + 1 by omega, ← hlines]
      omega
    dsimp only
    rw [hpassed]
    refine ⟨fun hne => ?_, fun r' hr' => ?_⟩
    · rw [hrest] at hne ⊢
      rw [hline]
      exact hnext.line hne
    · rw [hline]
      exact hnext.resume r' (hresume ▸ hr')

theorem Tallied.announce (h : l.Tallied total k) (hr : l.rest = c :: more) {x : Lexeme}
    {used : Nat} {resume : Resume} (hf : l.front c more = .ok (.heredoc x used resume)) :
    Tallied total (k.after l { l.advance used 0 with previous := some x, resume := some resume }
      (l.uncounted c more)) { l.advance used 0 with previous := some x, resume := some resume } := by
  have hnone : l.uncounted c more = 0 := by
    obtain rfl : c = '<' := Option.some.inj (front_fits hr hf).2
    rfl
  have haccounts := front_accounts hf (by simp)
  have hlines : 0 + 0 = (l.rest.take (used + 1)).count '\n' := by
    rw [hnone] at haccounts
    rw [hr]
    exact haccounts
  have hpassed : (l.rest.take ((l.advance used 0).pos - l.pos)).count '\n' = 0 := by
    rw [show (l.advance used 0).pos - l.pos = used + 1 by simp only [Lexer.advance]; omega]
    exact hlines.symm
  have hnext := h.advance hr hlines
  obtain ⟨opener, hread, hopener⟩ := front_announces hr hf
  obtain ⟨hle, body, parts, hbody, -, heq⟩ := frontHeredoc_eq_ok.1 hopener
  cases heq
  -- the place behind the new body, where there is text left
  have hbehind (hne : (l.bodyStart opener).rest.drop body.used ≠ []) :
      l.line + 1 + ((l.bodyStart opener).lines + body.consumed) +
          (if l.resume.isSome then k.before else k.missed) +
          ((l.bodyStart opener).rest.drop body.used).count '\n' =
        1 + total + k.twice + (if l.resume.isSome then k.since else 0) := by
    have hstart := h.bodyStart hr hread hle fun hnil => hne (by rw [hnil, List.drop_nil])
    have hcount := HeredocBody.count_read_of_rest hbody hne
    omega
  rw [hnone]
  unfold Tally.after
  cases hpending : l.resume with
  | none =>
    simp only [hpending] at hbehind
    refine ⟨hnext.line, ?_⟩
    rintro r ⟨⟩ hne
    exact hbehind hne
  | some r =>
    simp only [hpending] at hbehind
    dsimp only
    rw [hpassed]
    refine ⟨hnext.line, ?_⟩
    rintro r ⟨⟩ hne
    exact hbehind hne

/-- What a step makes of the tally. -/
theorem Tallied.step (h : l.Tallied total k) (hplaced : l.Placed length) (hr : l.rest = c :: more)
    (hs : l.step c more = .ok (t, l')) :
    l'.Tallied total (k.after l l' (l.uncounted c more)) := by
  have haccounts {f : Front} (hf : l.front c more = .ok f) (hne : f ≠ .newline) :
      f.lines + l.uncounted c more = (l.rest.take (f.used + 1)).count '\n' := by
    rw [hr]
    exact front_accounts hf hne
  obtain ⟨used, lines, hf, rfl, rfl⟩ | ⟨x, used, lines, hf, rfl, rfl⟩ | ⟨hf, rfl, rfl⟩ |
    ⟨x, used, resume, hf, rfl, rfl⟩ := step_cases hs
  · exact h.pass hr (haccounts hf (by simp)) rfl rfl rfl rfl
  · exact h.pass hr (haccounts hf (by simp)) rfl rfl rfl rfl
  · obtain rfl : c = '\n' := Option.some.inj (front_fits hr hf)
    cases hresume : l.resume with
    | none =>
      rw [jump_of_resume_none hresume]
      exact h.pass hr (by simp [hr]; rfl) rfl rfl rfl rfl
    | some r =>
      -- the body was counted from the line that announced it
      rw [hplaced.jump_of_resume hresume]
      unfold Tally.after
      rw [hresume]
      refine ⟨fun hne => ?_, by rintro r ⟨⟩⟩
      have hbehind := h.resume r hresume hne
      dsimp only
      omega
  · exact h.announce hr hf

/-- The line of the token is right but for the line ends that were left out or counted twice. -/
def Tally.Explains (source : List Char) (t : Token) (k : Tally) : Prop :=
  t.line + k.missed = 1 + (source.take t.start).count '\n' + k.twice

theorem Tallied.explains (h : l.Tallied (source.count '\n') k) (hin : l.InText source)
    (hr : l.rest = c :: more) (x : Lexeme) (used : Nat) : k.Explains source (l.token x used) := by
  have hline := h.line (by simp [hr])
  have hsplit : source.count '\n' =
      (source.take l.pos).count '\n' + (source.drop l.pos).count '\n' := by
    rw [← List.count_append, List.take_append_drop]
  rw [hin.rest] at hline
  show l.line + k.missed = 1 + (source.take l.pos).count '\n' + k.twice
  omega

/-- A run to the end of the text explains the line of each of its tokens. -/
theorem Reads.explains (h : Reads l ts l') (hk : l.Tallied (source.count '\n') k)
    (hin : l.InText source) (hplaced : l.Placed length) (hend : l'.rest = []) :
    List.Forall₂ (fun t k => k.Explains source t) ts (l.tallies k) := by
  induction h generalizing k with
  | refl l =>
    rw [tallies_nil hend]
    exact .nil
  | @step l l₁ l' c more t ts hr hs _ ih =>
    have hrest := ih (hk.step hplaced hr hs) (hin.step hr hs) (hplaced.step hr hs) hend
    rw [tallies_step hr hs]
    obtain rfl | ⟨x, used, rfl⟩ := token_of_step hs
    · exact hrest
    · exact .cons (hk.explains hin hr x used) hrest

/-! ## Texts without such line ends -/

/-- No literal of what is left holds a line end that is not counted. -/
def CountsAll (l : Lexer) : Prop :=
  ∀ ts l' c more, Reads l ts l' → l'.rest = c :: more → l'.uncounted c more = 0

theorem CountsAll.step (h : l.CountsAll) (hr : l.rest = c :: more)
    (hs : l.step c more = .ok (t, l')) : l'.CountsAll := by
  intro us m d tail hreads hrest
  exact h _ m d tail (.step hr hs hreads) hrest

/-- With nothing left out, and with no announcing line run over, there is nothing to tally. -/
theorem after_eq_zero (hplaced : l.Placed length) (hr : l.rest = c :: more)
    (hs : l.step c more = .ok (t, l')) (hno : l.passesNewline l' = false) :
    Tally.after ⟨0, 0, 0, 0⟩ l l' 0 = ⟨0, 0, 0, 0⟩ := by
  unfold Tally.after
  cases hresume : l.resume with
  | none => cases l'.resume <;> rfl
  | some r =>
    cases hresume' : l'.resume with
    | none => rfl
    | some r' =>
      -- the end of the line leads behind the body
      have hc : c ≠ '\n' := by
        rintro rfl
        obtain ⟨used, lines, hf, rfl, rfl⟩ | ⟨x, used, lines, hf, rfl, rfl⟩ | ⟨hf, rfl, rfl⟩ |
          ⟨x, used, resume, hf, rfl, rfl⟩ := step_cases hs
        · cases hf
        · cases hf
        · rw [hplaced.jump_of_resume hresume] at hresume'
          cases hresume'
        · cases hf
      have hpassed : '\n' ∉ (c :: more).take (l'.pos - l.pos) := by
        rw [passesNewline, hresume, hr] at hno
        simpa [hc] using hno
      dsimp only
      rw [hr, List.count_eq_zero.2 hpassed]

theorem Reads.tallies_eq_zero (h : Reads l ts l') (hall : l.CountsAll) (hno : l.overruns = false)
    (hplaced : l.Placed length) (hend : l'.rest = []) :
    ∀ k ∈ l.tallies ⟨0, 0, 0, 0⟩, k = ⟨0, 0, 0, 0⟩ := by
  induction h with
  | refl l =>
    rw [tallies_nil hend]
    simp
  | @step l l₁ l' c more t ts hr hs _ ih =>
    rw [overruns_step hr hs, Bool.or_eq_false_iff] at hno
    have hnone := hall [] l c more (.refl l) hr
    rw [tallies_step hr hs, hnone, after_eq_zero hplaced hr hs hno.1]
    intro k hk
    rcases List.mem_append.1 hk with hk | hk
    · obtain ⟨-, -, rfl⟩ := List.mem_map.1 hk
      rfl
    · exact ih (hall.step hr hs) hno.2 (hplaced.step hr hs) hend k hk

/-- No token but the mark for the end says that the text is at its end. -/
theorem Reads.lexeme_ne_eof (h : Reads l ts l') : ∀ t ∈ ts, t.lexeme ≠ .eof := by
  induction h with
  | refl l => simp
  | @step l l₁ l' c more t ts hr hs _ ih =>
    intro u hu
    rcases List.mem_append.1 hu with hu | hu
    · obtain ⟨used, lines, hf, rfl, rfl⟩ | ⟨x, used, lines, hf, rfl, rfl⟩ | ⟨hf, rfl, rfl⟩ |
        ⟨x, used, resume, hf, rfl, rfl⟩ := step_cases hs
      · cases hu
      · obtain rfl := List.mem_singleton.1 hu
        rintro heof
        have hspells := (front_fits hr hf).2
        rw [show x = .eof from heof] at hspells
        exact hspells
      · obtain rfl := List.mem_singleton.1 hu
        simp [token]
      · obtain rfl := List.mem_singleton.1 hu
        obtain ⟨opener, hopener⟩ := front_eq_heredoc hr hf
        obtain ⟨-, body, parts, -, -, heq⟩ := frontHeredoc_eq_ok.1 hopener
        cases heq
        simp [token]
    · exact ih u hu

end Lexer

/-! ## Lines of tokens -/

/-- The file's line for a line of the text is the entry of the map for it. -/
theorem LineMap.lineInFile_succ {lines : LineMap} {before : Nat} {n : Int}
    (h : lines[before]? = some n) : lines.lineInFile ((1 + before : Nat) : Int) = n := by
  unfold lineInFile
  rw [if_pos (by omega), show (((1 + before : Nat) : Int) - 1).toNat = before by omega,
    List.getD_eq_getElem?_getD, h]
  rfl

/-- The line of each token, up to the mark for the end, is one more than the number of newlines
before it, less those that were left out and with those that were counted twice. Where these are as
many, the map gives the file's line for the line of the text on which the token starts. In a text
in which no literal holds a line end that is not counted, and no line that announces a heredoc is
run over, all lines are right. -/
theorem tokenize_line {lines : LineMap} {source : List Char} {tokens : List Token}
    (h : tokenize lines source = .ok tokens) :
    ∃ body stop, tokens = body ++ [stop] ∧ stop.lexeme = .eof ∧ (∀ t ∈ body, t.lexeme ≠ .eof) ∧
      List.Forall₂
        (fun t k =>
          t.line + k.missed = 1 + (source.take t.start).count '\n' + k.twice ∧
          (k.missed = k.twice → ∀ n, lines[(source.take t.start).count '\n']? = some n →
            lines.lineInFile t.line = n))
        body ((Lexer.start source).tallies ⟨0, 0, 0, 0⟩) ∧
      ((Lexer.start source).CountsAll → (Lexer.start source).overruns = false →
        ∀ t ∈ body, t.line = 1 + (source.take t.start).count '\n') := by
  obtain ⟨ts, l, hreads, hend, rfl⟩ := Lexer.run_eq_ok (tokenize_eq_ok.1 h)
  have hplaced := Lexer.placed_start source
  have hexplains := hreads.explains (Lexer.tallied_start source) (Lexer.inText_start source) hplaced
    hend
  refine ⟨ts, _, rfl, rfl, hreads.lexeme_ne_eof, ?_, ?_⟩
  · refine hexplains.imp fun t k hk => ⟨hk, fun hsame n hn => ?_⟩
    have hline : t.line = 1 + (source.take t.start).count '\n' := by
      unfold Lexer.Tally.Explains at hk
      omega
    rw [hline]
    exact LineMap.lineInFile_succ hn
  · intro hall hno t ht
    obtain ⟨k, hk, hexplained⟩ : ∃ k ∈ (Lexer.start source).tallies ⟨0, 0, 0, 0⟩,
        k.Explains source t := by
      obtain ⟨hlength, hget⟩ := List.forall₂_iff_get.1 hexplains
      obtain ⟨i, hi, rfl⟩ := List.mem_iff_getElem.1 ht
      exact ⟨_, List.get_mem _ ⟨i, hlength ▸ hi⟩, hget i hi _⟩
    obtain rfl := hreads.tallies_eq_zero hall hno hplaced hend k hk
    exact hexplained

/-- A string with a line end in its code, and a heredoc whose announcing line is continued. -/
def slippedText : List Char :=
  "\"#\x7ba\n\x7d\"\nrun <<X \\\nu\nX\nb".toList

/-- One line end is left out from the second token on, and one is counted twice before the last. -/
theorem tokenize_line_slipped :
    ∃ tokens, tokenize [4, 5, 7, 8, 9, 10] slippedText = .ok tokens ∧
      ∃ body stop, tokens = body ++ [stop] ∧ stop.lexeme = .eof ∧ (∀ t ∈ body, t.lexeme ≠ .eof) ∧
        List.Forall₂
          (fun (t : Token) (k : Lexer.Tally) =>
            t.line + k.missed = 1 + (slippedText.take t.start).count '\n' + k.twice ∧
            (k.missed = k.twice → ∀ n,
              ([4, 5, 7, 8, 9, 10] : LineMap)[(slippedText.take t.start).count '\n']? = some n →
                LineMap.lineInFile [4, 5, 7, 8, 9, 10] t.line = n))
          body
          [⟨0, 0, 0, 0⟩, ⟨1, 0, 0, 0⟩, ⟨1, 0, 0, 0⟩, ⟨1, 0, 0, 0⟩, ⟨1, 0, 1, 1⟩, ⟨1, 0, 1, 1⟩,
            ⟨1, 1, 0, 0⟩] ∧
        ((Lexer.start slippedText).CountsAll → (Lexer.start slippedText).overruns = false →
          ∀ t ∈ body, t.line = 1 + (slippedText.take t.start).count '\n') := by
  have htokens : tokenize [4, 5, 7, 8, 9, 10] slippedText = .ok
      [⟨.string [.code ['a', '\n']], 1, 0, 7, false⟩, ⟨.newline, 1, 7, 8, false⟩,
        ⟨.ident "run", 2, 8, 11, false⟩, ⟨.string [.text ['u', '\n']], 2, 12, 15, true⟩,
        ⟨.ident "u", 3, 18, 19, false⟩, ⟨.newline, 3, 19, 20, false⟩,
        ⟨.ident "b", 6, 22, 23, false⟩, ⟨.eof, 6, 23, 23, false⟩] := by
    decide +kernel
  have htallies : (Lexer.start slippedText).tallies ⟨0, 0, 0, 0⟩ =
      [⟨0, 0, 0, 0⟩, ⟨1, 0, 0, 0⟩, ⟨1, 0, 0, 0⟩, ⟨1, 0, 0, 0⟩, ⟨1, 0, 1, 1⟩, ⟨1, 0, 1, 1⟩,
        ⟨1, 1, 0, 0⟩] := by
    decide +kernel
  have hlines := tokenize_line htokens
  rw [htallies] at hlines
  exact ⟨_, htokens, hlines⟩

/-- A token, not the mark for the end, is given another line than the one it starts on. -/
def HasWrongLine (source : List Char) : Prop :=
  ∃ tokens, tokenize [] source = .ok tokens ∧
    ∃ t ∈ tokens, t.lexeme ≠ .eof ∧ t.line ≠ 1 + (source.take t.start).count '\n'

/-- Line ends in code and behind a backslash in a raw literal are left out, and the end of a line
that is continued after it announced a heredoc is counted twice. -/
theorem hasWrongLine_three_ways :
    HasWrongLine "\"#\x7ba\n\x7d\"\nb".toList ∧ HasWrongLine "%q(\\\n) b".toList ∧
      HasWrongLine "run <<X \\\nu\nX\nb".toList := by
  refine ⟨?_, ?_, ?_⟩
  · have h : tokenize [] "\"#\x7ba\n\x7d\"\nb".toList = .ok
        [⟨.string [.code ['a', '\n']], 1, 0, 7, false⟩, ⟨.newline, 1, 7, 8, false⟩,
          ⟨.ident "b", 2, 8, 9, false⟩, ⟨.eof, 2, 9, 9, false⟩] := by
      decide +kernel
    exact ⟨_, h, ⟨.ident "b", 2, 8, 9, false⟩, by simp, by simp, by decide⟩
  · have h : tokenize [] "%q(\\\n) b".toList = .ok
        [⟨.string [.text ['\\', '\n']], 1, 0, 6, false⟩, ⟨.ident "b", 1, 7, 8, true⟩,
          ⟨.eof, 1, 8, 8, false⟩] := by
      decide +kernel
    exact ⟨_, h, ⟨.ident "b", 1, 7, 8, true⟩, by simp, by simp, by decide⟩
  · have h : tokenize [] "run <<X \\\nu\nX\nb".toList = .ok
        [⟨.ident "run", 1, 0, 3, false⟩, ⟨.string [.text ['u', '\n']], 1, 4, 7, true⟩,
          ⟨.ident "u", 2, 10, 11, false⟩, ⟨.newline, 2, 11, 12, false⟩,
          ⟨.ident "b", 5, 14, 15, false⟩, ⟨.eof, 5, 15, 15, false⟩] := by
      decide +kernel
    exact ⟨_, h, ⟨.ident "b", 5, 14, 15, false⟩, by simp, by simp, by decide⟩

end RecipeManifest

import RecipeManifest.Proofs.TokenLines

/-!
The lines of a text up to a place.

A literal is read in the same way from any beginning of the text that holds all of it
(`readParts_take`), and a heredoc's body from the lines that hold it. So each step of the lexer that
stays in the beginning of a text is a step in the beginning alone (`step_of_extend`), and what is
read on the way to a place that the lexer has not been behind is read from the lines up to there
(`Reads.of_extend`). This is the converse of what holds of text that follows complete lines.
-/

namespace RecipeManifest

/-! ## Literals that are closed in the beginning of a text -/

section Literals

variable {cs : List Char} {n : Nat}

theorem eq_cons_of_take {c : Char} {tail : List Char} (h : cs.take n = c :: tail) :
    cs = c :: (tail ++ cs.drop n) := by
  rw [← List.cons_append, ← h, List.take_append_drop]

theorem Reading.exists_of_after_le {α β : Type} {s : Reading α} {f : α → β} {used lines : Nat}
    (h : (s.after f used lines).used ≤ n) : ∃ m, n = m + used ∧ s.used ≤ m := by
  have hused : used + s.used ≤ n := h
  exact ⟨n - used, by omega, by omega⟩

/-- A literal is read from any beginning of the text that holds what is used. -/
theorem readSingleQuoted_take {r : Reading (List Char)} (h : readSingleQuoted cs = some r)
    (hn : r.used ≤ n) : readSingleQuoted (cs.take n) = some r := by
  fun_induction readSingleQuoted cs generalizing r n with
  | case1 => cases h
  | case2 rest ih | case3 rest ih =>
    obtain ⟨s, hs, rfl⟩ := Option.map_eq_some_iff.1 h
    obtain ⟨m, rfl, hm⟩ := Reading.exists_of_after_le hn
    simp [readSingleQuoted, ih hs hm]
  | case4 rest =>
    cases h
    obtain ⟨m, rfl⟩ := Nat.exists_eq_add_of_le' hn
    rfl
  | case5 c rest hquote hslash hclose ih =>
    obtain ⟨s, hs, rfl⟩ := Option.map_eq_some_iff.1 h
    obtain ⟨m, rfl, hm⟩ := Reading.exists_of_after_le hn
    rw [List.take_succ_cons, readSingleQuoted, ih hs hm]
    · rfl
    · intro tail hc htail
      exact hquote _ hc (eq_cons_of_take htail)
    · intro tail hc htail
      exact hslash _ hc (eq_cons_of_take htail)
    · exact hclose

theorem readRaw_take {marks : Delimiters} {depth : Nat} {r : Reading (List Char)}
    (h : readRaw marks depth cs = some r) (hn : r.used ≤ n) :
    readRaw marks depth (cs.take n) = some r := by
  fun_induction readRaw marks depth cs generalizing r n with
  | case1 | case2 => cases h
  | case3 depth c rest ih =>
    obtain ⟨s, hs, rfl⟩ := Option.map_eq_some_iff.1 h
    obtain ⟨m, rfl, hm⟩ := Reading.exists_of_after_le hn
    simp [readRaw, ih hs hm]
  | case5 rest hlast hmore hopener =>
    cases h
    obtain ⟨m, rfl⟩ := Nat.exists_eq_add_of_le' hn
    simp [readRaw, ne_backslash hlast hmore, hopener]
  | case4 depth c rest hlast hmore hopener ih =>
    obtain ⟨s, hs, rfl⟩ := Option.map_eq_some_iff.1 h
    obtain ⟨m, rfl, hm⟩ := Reading.exists_of_after_le hn
    cases depth <;>
      simp [readRaw, ne_backslash hlast hmore, hopener, ih hs hm]
  | case6 rest outer hlast hmore hopener ih =>
    obtain ⟨s, hs, rfl⟩ := Option.map_eq_some_iff.1 h
    obtain ⟨m, rfl, hm⟩ := Reading.exists_of_after_le hn
    simp [readRaw, ne_backslash hlast hmore, hopener, ih hs hm]
  | case7 depth c rest hlast hmore hopener hcloser ih =>
    obtain ⟨s, hs, rfl⟩ := Option.map_eq_some_iff.1 h
    obtain ⟨m, rfl, hm⟩ := Reading.exists_of_after_le hn
    cases depth <;>
      simp [readRaw, ne_backslash hlast hmore, hopener, hcloser, ih hs hm]

theorem readParts_take {marks : Delimiters} {place : Inside} {r : Reading (List Part)}
    (h : readParts marks place cs = .ok r) (hn : r.used ≤ n) :
    readParts marks place (cs.take n) = .ok r := by
  fun_induction readParts marks place cs generalizing r n with
  | case1 | case8 | case9 => cases h
  | case2 pairs c rest ih | case3 pairs rest ih | case10 pairs braces quote c rest ih =>
    obtain ⟨s, hs, rfl⟩ := map_eq_ok_iff.1 h
    obtain ⟨m, rfl, hm⟩ := Reading.exists_of_after_le hn
    simp [readParts, ih hs hm, Except.map]
  | case5 rest hmore hcode hopener =>
    cases h
    obtain ⟨m, rfl⟩ := Nat.exists_eq_add_of_le' hn
    rw [List.take_succ_cons, readParts_text marks 0
      (fun d tail hc htail => hmore d _ hc (eq_cons_of_take htail))
      (fun tail hc htail => hcode _ hc (eq_cons_of_take htail)), if_neg hopener, if_pos rfl]
  | case4 pairs c rest hmore hcode hopener ih =>
    obtain ⟨s, hs, rfl⟩ := map_eq_ok_iff.1 h
    obtain ⟨m, rfl, hm⟩ := Reading.exists_of_after_le hn
    rw [List.take_succ_cons, readParts_text marks pairs
      (fun d tail hc htail => hmore d _ hc (eq_cons_of_take htail))
      (fun tail hc htail => hcode _ hc (eq_cons_of_take htail)), if_pos hopener,
      ih hs hm]
    rfl
  | case6 rest outer hmore hcode hopener ih =>
    obtain ⟨s, hs, rfl⟩ := map_eq_ok_iff.1 h
    obtain ⟨m, rfl, hm⟩ := Reading.exists_of_after_le hn
    rw [List.take_succ_cons, readParts_text marks (outer + 1)
      (fun d tail hc htail => hmore d _ hc (eq_cons_of_take htail))
      (fun tail hc htail => hcode _ hc (eq_cons_of_take htail)), if_neg hopener, if_pos rfl]
    dsimp only
    rw [ih hs hm]
    rfl
  | case7 pairs c rest hmore hcode hopener hcloser ih =>
    obtain ⟨s, hs, rfl⟩ := map_eq_ok_iff.1 h
    obtain ⟨m, rfl, hm⟩ := Reading.exists_of_after_le hn
    rw [List.take_succ_cons, readParts_text marks pairs
      (fun d tail hc htail => hmore d _ hc (eq_cons_of_take htail))
      (fun tail hc htail => hcode _ hc (eq_cons_of_take htail)), if_neg hopener, if_neg hcloser,
      ih hs hm]
    rfl
  | case11 pairs braces quote c rest hlast hmore ih =>
    obtain ⟨s, hs, rfl⟩ := map_eq_ok_iff.1 h
    obtain ⟨m, rfl, hm⟩ := Reading.exists_of_after_le hn
    simp [readParts, ne_backslash hlast hmore, ih hs hm, Except.map]
  | case12 _ _ ih | case13 _ _ _ ih | case14 _ _ _ ih =>
    obtain ⟨s, hs, rfl⟩ := map_eq_ok_iff.1 h
    obtain ⟨m, rfl, hm⟩ := Reading.exists_of_after_le hn
    simp [readParts, ih hs hm, Except.map]
  | case15 =>
    rename_i hopen hclose houter ih
    obtain ⟨s, hs, rfl⟩ := map_eq_ok_iff.1 h
    obtain ⟨m, rfl, hm⟩ := Reading.exists_of_after_le hn
    rw [List.take_succ_cons, readParts.eq_13 _ _ _ _ _ hopen hclose houter, ih hs hm]
    rfl

theorem readDelimited_take {marks : Delimiters} {r : Reading (List Part)}
    (h : readDelimited marks cs = .ok r) (hn : r.used ≤ n) :
    readDelimited marks (cs.take n) = .ok r := by
  obtain ⟨s, hs, rfl⟩ := map_eq_ok_iff.1 h
  rw [readDelimited, readParts_take hs hn]
  rfl

/-- A body that ends in the complete lines at the beginning of a text is the body of these lines. -/
theorem HeredocBody.read_of_append {o : HeredocOpener} {b : List Char} {body : HeredocBody}
    (hcs : Whole cs) (h : HeredocBody.read o (cs ++ b) = some body) (hused : body.used ≤ cs.length) :
    HeredocBody.read o cs = some body := by
  cases hread : HeredocBody.read o cs with
  | some body' =>
    rw [(read_append b hcs hread).1] at h
    exact h
  | none =>
    -- no line closes the body, so all of them belong to it
    obtain ⟨lines, hlines, rfl⟩ := hcs.exists_lines
    have hopen : ∀ line ∈ lines, o.closes line = false := by
      unfold HeredocBody.read at hread
      rw [Text.newlineLines_unlines hlines] at hread
      dsimp only at hread
      split at hread
      · next hnil =>
        have hall := (List.takeWhile_prefix fun line => !o.closes line).eq_of_length_le
          (List.drop_eq_nil_iff.1 hnil)
        intro line hline
        rw [← hall] at hline
        simpa using List.mem_takeWhile_imp hline
      · cases hread
    unfold HeredocBody.read at h
    rw [Text.newlineLines_unlines_append hlines] at h
    dsimp only at h
    rw [takeWhile_closes hopen] at h
    split at h
    · cases h
    · cases h
      simp only [Text.unlines, List.flatMap_append, List.length_append, List.flatMap_singleton,
        List.length_singleton] at hused
      omega

end Literals

/-! ## Fronts in the beginning of a text -/

namespace Lexer

variable {l : Lexer} {c : Char} {more b : List Char} {f : Front}

theorem frontString_of_append {marks : Delimiters} (h : frontString marks (more ++ b) = .ok f)
    (hused : f.used ≤ more.length) : ∃ g, frontString marks more = .ok g := by
  obtain ⟨r, hr, rfl⟩ := map_eq_ok_iff.1 h
  have hmore := readDelimited_take hr hused
  rw [List.take_left] at hmore
  rw [frontString, hmore]
  exact ⟨_, rfl⟩

theorem frontSingleQuoted_of_append (h : frontSingleQuoted (more ++ b) = .ok f)
    (hused : f.used ≤ more.length) : ∃ g, frontSingleQuoted more = .ok g := by
  unfold frontSingleQuoted at h
  split at h
  · next r hr =>
    cases h
    have hmore := readSingleQuoted_take hr hused
    rw [List.take_left] at hmore
    rw [frontSingleQuoted, hmore]
    exact ⟨_, rfl⟩
  · cases h

theorem frontSymbol_of_append (hends : EndsLine more) (h : frontSymbol (more ++ b) = .ok f)
    (hused : f.used ≤ more.length) : ∃ g, frontSymbol more = .ok g := by
  obtain ⟨q, body, rfl⟩ := List.exists_cons_of_ne_nil hends.ne_nil
  by_cases hsingle : q = '\''
  · subst hsingle
    rw [List.cons_append, frontSymbol] at h
    split at h
    · next r hr =>
      cases h
      simp only [Front.used, List.length_cons] at hused
      have hbody := readSingleQuoted_take hr (n := body.length) (by omega)
      rw [List.take_left] at hbody
      rw [frontSymbol, hbody]
      exact ⟨_, rfl⟩
    · cases h
  · by_cases hdouble : q = '"'
    · subst hdouble
      rw [List.cons_append, frontSymbol] at h
      obtain ⟨r, hr, rfl⟩ := map_eq_ok_iff.1 h
      simp only [Front.used, List.length_cons] at hused
      have hbody := readDelimited_take hr (n := body.length) (by omega)
      rw [List.take_left] at hbody
      rw [frontSymbol, hbody]
      exact ⟨_, rfl⟩
    · simp [frontSymbol, hsingle, hdouble]

theorem frontPercent_of_append {letter : Option Char} {opener : Char}
    (hlength : letter.toList.length + 1 ≤ more.length)
    (h : frontPercent letter opener (more ++ b) = .ok f) (hused : f.used ≤ more.length) :
    ∃ g, frontPercent letter opener more = .ok g := by
  unfold frontPercent at h ⊢
  dsimp only at h ⊢
  rw [List.drop_append_of_le_length hlength] at h
  have hbody : (more.drop (letter.toList.length + 1) ++ b).take
      (more.drop (letter.toList.length + 1)).length = more.drop (letter.toList.length + 1) :=
    List.take_left
  split at h
  · next hkind =>
    rw [if_pos hkind]
    split at h
    · cases h
    · next r hr =>
      cases h
      simp only [Front.used] at hused
      have := readRaw_take hr (n := (more.drop (letter.toList.length + 1)).length)
        (by rw [List.length_drop]; omega)
      rw [hbody] at this
      rw [this]
      exact ⟨_, rfl⟩
  · next hkind =>
    rw [if_neg hkind]
    obtain ⟨r, hr, rfl⟩ := map_eq_ok_iff.1 h
    simp only [Front.used] at hused
    have := readDelimited_take hr (n := (more.drop (letter.toList.length + 1)).length)
      (by rw [List.length_drop]; omega)
    rw [hbody] at this
    rw [this]
    exact ⟨_, rfl⟩

theorem frontRegex_of_append (h : frontRegex (more ++ b) = .ok f) (hused : f.used ≤ more.length) :
    ∃ g, frontRegex more = .ok g := by
  obtain ⟨r, hr, rfl⟩ := map_eq_ok_iff.1 h
  simp only [Front.used] at hused
  have hmore := readDelimited_take hr (n := more.length) (by omega)
  rw [List.take_left] at hmore
  rw [frontRegex, hmore]
  exact ⟨_, rfl⟩

/-- The line that announces a heredoc ends before the end of complete lines. -/
theorem toBody_le (hends : EndsLine l.rest) {opener : HeredocOpener}
    (h : HeredocOpener.read l.rest = some opener) : l.toBody opener ≤ l.rest.length := by
  have hannounced := HeredocOpener.newline_notMem_read h
  have hlt : opener.length < l.rest.length := by
    by_contra hge
    rw [List.take_of_length_le (by omega)] at hannounced
    exact hannounced (List.mem_of_getLast? hends)
  have hline := (hends.drop hlt).length_lt (List.takeWhile_prefix (· != '\n'))
    (newline_notMem_takeWhile (by decide) _)
  rw [List.length_drop] at hline
  unfold toBody
  omega

theorem frontHeredoc_of_extend (hl : l.InLines) {opener : HeredocOpener}
    (hle : l.toBody opener ≤ l.rest.length) {x : Lexeme} {used : Nat} {resume : Resume}
    (h : (l.extend b).frontHeredoc opener = .ok (.heredoc x used resume))
    (hresume : b.length < resume.rest.length) : ∃ g, l.frontHeredoc opener = .ok g := by
  obtain ⟨-, body, parts, hbody, hparts, heq⟩ := frontHeredoc_eq_ok.1 h
  have hstart := hl.bodyStart opener
  rw [bodyStart_extend b hle] at hbody heq
  cases heq
  have hused : body.used ≤ (l.bodyStart opener).rest.length := by
    simp only [Resume.extend, List.length_drop, List.length_append] at hresume
    omega
  have hread := HeredocBody.read_of_append hstart hbody hused
  exact ⟨_, frontHeredoc_eq_ok.2 ⟨hle, body, parts, hread, hparts, rfl⟩⟩

theorem front_angle_of_extend (hl : l.InLines) (hr : l.rest = '<' :: more)
    (hends : EndsLine ('<' :: more)) (h : (l.extend b).front '<' (more ++ b) = .ok f)
    (hresume : ∀ x used r, f = .heredoc x used r → b.length < r.rest.length) :
    ∃ g, l.front '<' more = .ok g := by
  have hread := HeredocOpener.read_append b hends
  rw [List.cons_append] at hread
  have hawaits : (l.extend b).awaitsOperand = l.awaitsOperand := rfl
  have hident : (l.extend b).afterIdent = l.afterIdent := rfl
  rw [front_angle] at h ⊢
  rw [hread, hawaits, hident, frontOperator_append b hends] at h
  split at h
  · next opener hopener =>
    split at h
    · next hplace =>
      rw [if_pos hplace]
      rw [← hr] at hends hopener
      obtain ⟨-, body, parts, -, -, rfl⟩ := frontHeredoc_eq_ok.1 h
      exact frontHeredoc_of_extend hl (toBody_le hends hopener) h (hresume _ _ _ rfl)
    · next hplace =>
      rw [if_neg hplace]
      exact ⟨f, h⟩
  · exact ⟨f, h⟩

/-- What is found at the front of a text that goes on is found in its beginning, if it ends
there. -/
theorem front_of_extend (hl : l.InLines) (hr : l.rest = c :: more)
    (h : (l.extend b).front c (more ++ b) = .ok f) (hused : f.used ≤ more.length)
    (hresume : ∀ x used r, f = .heredoc x used r → b.length < r.rest.length) :
    ∃ g, l.front c more = .ok g := by
  have hends : EndsLine (c :: more) := by
    have := hl.rest
    rw [hr] at this
    rcases this with h | h
    · cases h
    · exact h
  have hop := frontOperator_append b hends
  by_cases hc : c = '<'
  · subst hc
    exact front_angle_of_extend hl hr hends h hresume
  unfold front at h
  split at h
  · exact ⟨f, h⟩
  · exact ⟨f, h⟩
  · exact ⟨f, h⟩
  · rw [(hends.tail (by decide)).head?_append, hop] at h
    exact ⟨f, h⟩
  · exact ⟨_, rfl⟩
  · exact ⟨f, h⟩
  · exact ⟨f, h⟩
  · exact frontSingleQuoted_of_append h hused
  · exact frontString_of_append h hused
  · exact frontString_of_append h hused
  · have hmore := hends.tail (by decide)
    rw [opensSymbol_append b hmore, hop] at h
    rw [front]
    split at h
    · next hopens =>
      rw [if_pos hopens]
      exact frontSymbol_of_append hmore h hused
    · next hopens =>
      rw [if_neg hopens]
      exact ⟨f, h⟩
  · have hmore := hends.tail (by decide)
    rw [percentStart_append b hmore, hop] at h
    rw [front]
    split at h
    · next letter opener hstart =>
      split at h
      · next hplace =>
        have := frontPercent_of_append (percentStart_length hstart) h hused
        exact (if_pos hplace).symm ▸ this
      · next hplace => exact ⟨f, (if_neg hplace).trans h⟩
    · exact ⟨f, h⟩
  · have hmore := hends.tail (by decide)
    have hopens : (l.extend b).opensRegex (more ++ b) = l.opensRegex more := by
      unfold opensRegex
      rw [hmore.head?_append]
      rfl
    rw [hopens, hop] at h
    rw [front]
    split at h
    · next hslash =>
      rw [if_pos hslash]
      exact frontRegex_of_append h hused
    · next hslash =>
      rw [if_neg hslash]
      exact ⟨f, h⟩
  · exact absurd rfl hc
  · exact ⟨f, (frontSigil_append b hends (by decide)).symm.trans h⟩
  · exact ⟨f, (frontSigil_append b hends (by decide)).symm.trans h⟩
  · have hnumber := frontNumber_append b hends
    have hword := frontWord_extend (l := l) b hends
    rw [List.cons_append] at hnumber hword
    rw [hnumber, hword, hop] at h
    refine ⟨f, ?_⟩
    rw [front]
    · exact h
    all_goals assumption

section Run

variable {l' m m' : Lexer} {t : Option Token} {ts : List Token} {length : Nat}

theorem step_of_extend (hl : l.InLines) (hr : l.rest = c :: more)
    (hs : (l.extend b).step c (more ++ b) = .ok (t, m)) (hrest : b.length < m.rest.length)
    (hresume : ∀ r, m.resume = some r → b.length < r.rest.length) :
    ∃ l', l.step c more = .ok (t, l') ∧ m = l'.extend b := by
  have hrest_extend : (l.extend b).rest = c :: (more ++ b) := by
    show l.rest ++ b = _
    rw [hr, List.cons_append]
  -- what is used up leaves more than `b`
  have hadvance {used : Nat} (hlt : b.length < ((l.extend b).rest.tail.drop used).length) :
      used ≤ more.length := by
    simp only [hrest_extend, List.tail_cons, List.length_drop, List.length_append] at hlt
    omega
  obtain ⟨f, hf⟩ : ∃ f, l.front c more = .ok f := by
    obtain ⟨used, lines, hf, rfl, rfl⟩ | ⟨x, used, lines, hf, rfl, rfl⟩ | ⟨hf, rfl, rfl⟩ |
      ⟨x, used, resume, hf, rfl, rfl⟩ := step_cases hs
    · exact front_of_extend hl hr hf (hadvance hrest) (by rintro x used r ⟨⟩)
    · exact front_of_extend hl hr hf (hadvance hrest) (by rintro x used r ⟨⟩)
    · exact front_of_extend hl hr hf (Nat.zero_le _) (by rintro x used r ⟨⟩)
    · refine front_of_extend hl hr hf (hadvance hrest) ?_
      rintro x used r ⟨⟩
      exact hresume resume rfl
  cases hstep : l.step c more with
  | error e =>
    rw [step, hf] at hstep
    cases hstep
  | ok next =>
    obtain ⟨t', l'⟩ := next
    have hextend := step_extend b hl hr hstep
    rw [hs] at hextend
    cases hextend
    exact ⟨l', rfl, rfl⟩

/-- Tokens that end before a place do not lead behind it, and neither does the body of a heredoc
that has been passed when the lexer comes there. -/
theorem Reads.pos_le (h : Reads l ts l') (hl : l.Placed length) (hresume : l'.resume = none)
    (hstops : ∀ t ∈ ts, t.stop ≤ l'.pos) :
    l.pos ≤ l'.pos ∧ ∀ r, l.resume = some r → r.pos ≤ l'.pos := by
  induction h with
  | refl l =>
    refine ⟨Nat.le_refl _, ?_⟩
    intro r hr
    rw [hresume] at hr
    cases hr
  | @step l l₁ l' c more t ts hr hs _ ih =>
    obtain ⟨hpos, hbehind⟩ := ih (hl.step hr hs) hresume
      fun u hu => hstops u (List.mem_append_right _ hu)
    have hstop : ∀ u ∈ t.toList, u.stop ≤ l'.pos :=
      fun u hu => hstops u (List.mem_append_left _ hu)
    obtain ⟨used, lines, -, rfl, rfl⟩ | ⟨x, used, lines, -, rfl, rfl⟩ | ⟨-, rfl, rfl⟩ |
      ⟨x, used, resume, hf, rfl, rfl⟩ := step_cases hs
    · simp only [advance] at hpos
      exact ⟨by omega, hbehind⟩
    · simp only [advance] at hpos
      exact ⟨by omega, hbehind⟩
    · have hnewline : l.pos + 1 + 0 ≤ l'.pos := hstop (l.token .newline 0) (by simp)
      refine ⟨by omega, ?_⟩
      intro r hr
      rw [hl.jump_of_resume hr] at hpos
      exact hpos
    · simp only [advance] at hpos
      refine ⟨by omega, ?_⟩
      intro r hpending
      have hle := hbehind resume rfl
      obtain ⟨opener, hopener⟩ := front_eq_heredoc hr hf
      obtain ⟨-, body, parts, -, -, heq⟩ := frontHeredoc_eq_ok.1 hopener
      cases heq
      have hstart : (l.bodyStart opener).pos = r.pos := by
        rw [bodyStart, hpending]
        rfl
      dsimp only at hle
      omega

/-- What is read on the way to a place that the lexer has not been behind is read in the same way
from the lines up to there. -/
theorem Reads.of_extend (h : Reads m ts m') (hm : m = l.extend b) (hl : l.InLines)
    (hplaced : m.Placed length) (hresume : m'.resume = none) (hstops : ∀ t ∈ ts, t.stop ≤ m'.pos)
    (hrest : b.length < m'.rest.length) : ∃ l', Reads l ts l' ∧ m' = l'.extend b := by
  induction h generalizing l with
  | refl m => exact ⟨l, .refl l, hm⟩
  | @step m m₁ m' c more t ts hr hs h ih =>
    subst hm
    have hplaced₁ := hplaced.step hr hs
    have hstops₁ : ∀ t ∈ ts, t.stop ≤ m'.pos := fun u hu => hstops u (List.mem_append_right _ hu)
    -- neither here nor behind a pending body is less left than in the end
    obtain ⟨hpos₁, hbehind₁⟩ := h.pos_le hplaced₁ hresume hstops₁
    have hend := (h.placed hplaced₁).rest
    have hrest₁ := hplaced₁.rest
    have hpos := (Reads.step hr hs h).pos_le hplaced hresume hstops
    have hhere := hplaced.rest
    have hlonger : b.length < (l.extend b).rest.length := by omega
    have hne : l.rest ≠ [] := by
      rintro hnil
      have hb : (l.extend b).rest = b := by
        show l.rest ++ b = b
        rw [hnil, List.nil_append]
      rw [hb] at hlonger
      omega
    obtain ⟨d, more₀, hl₀⟩ := List.exists_cons_of_ne_nil hne
    have hcons : d :: more₀ ++ b = c :: more := by
      rw [← hr, ← hl₀]
      rfl
    cases hcons
    obtain ⟨l₁, hs₁, rfl⟩ := step_of_extend hl hl₀ hs (by omega) (by
      intro r hr
      have := hbehind₁ r hr
      have := (hplaced₁.resume r hr).1
      omega)
    obtain ⟨l', hreads, hm'⟩ := ih rfl (hl.step hl₀ hs₁) hplaced₁ hresume hstops₁ hrest
    exact ⟨l', .step hl₀ hs₁ hreads, hm'⟩

end Run

end Lexer

end RecipeManifest

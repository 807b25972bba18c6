import RecipeManifest.Proofs.Concatenation
import RecipeManifest.Proofs.PaddedStatements
import RecipeManifest.Proofs.TokenOrder

/-!
Code that is kept as text.

Code outside the grammar becomes statements that keep its text, and the manifest shows them as
comments. A statement takes the tokens up to a separator (`Divides`), and keeps the text from the
first of them to the last (`BlockSource.Keeps`).

    x = [<<A,             kept
    1                     kept: the statement goes on behind the body
    A                     kept
    2]; y = <<B           kept, in one part for each statement
    3                     lost: the statement ends with its line
    B                     lost

`read_keeps_code` says what is kept of a text, and that nothing else in it is code.
-/

namespace RecipeManifest

/-! ## Tokens by statement -/

/-- The tokens in groups, one for each statement. Separators stand before, between and behind
them. -/
inductive Divides : List Token → List (List Token) → Prop
  | nil : Divides [] []
  | separator {t : Token} {ts : List Token} {groups : List (List Token)}
      (ht : t.lexeme.isSeparator = true) (h : Divides ts groups) : Divides (t :: ts) groups
  | last {first : Token} (hfirst : first.lexeme.isSeparator = false) (more : List Token) :
      Divides (first :: more) [first :: more]
  | group {first t : Token} (hfirst : first.lexeme.isSeparator = false) (more : List Token)
      {ts : List Token} {groups : List (List Token)} (ht : t.lexeme.isSeparator = true)
      (h : Divides ts groups) : Divides (first :: more ++ t :: ts) ((first :: more) :: groups)

namespace Divides

variable {ts group : List Token} {groups : List (List Token)}

/-- A group ends at a separator, or at the end of the text. -/
theorem group_of_head {first : Token} (hfirst : first.lexeme.isSeparator = false)
    (more : List Token) (hts : ∀ t ∈ ts.head?, t.lexeme.isSeparator = true)
    (h : Divides ts groups) : Divides (first :: more ++ ts) ((first :: more) :: groups) := by
  cases h with
  | nil =>
    rw [List.append_nil]
    exact .last hfirst more
  | separator ht h => exact .group hfirst more ht h
  | last hcode _ | group hcode _ _ _ =>
    have hsep := hts _ rfl
    rw [hcode] at hsep
    cases hsep

/-- Every token but the separators is in a group. -/
theorem exists_mem (h : Divides ts groups) {t : Token} (ht : t ∈ ts)
    (hcode : t.lexeme.isSeparator = false) : ∃ group ∈ groups, t ∈ group := by
  induction h with
  | nil => cases ht
  | separator hsep _ ih =>
    rcases List.mem_cons.1 ht with rfl | ht
    · rw [hsep] at hcode
      cases hcode
    · exact ih ht
  | last _ more => exact ⟨_, List.mem_singleton_self _, ht⟩
  | group _ more hsep _ ih =>
    rcases List.mem_append.1 ht with ht | ht
    · exact ⟨_, List.mem_cons_self, ht⟩
    · rcases List.mem_cons.1 ht with rfl | ht
      · rw [hsep] at hcode
        cases hcode
      · obtain ⟨g, hg, htg⟩ := ih ht
        exact ⟨g, List.mem_cons_of_mem _ hg, htg⟩

/-- The tokens of a group stand together. -/
theorem isInfix (h : Divides ts groups) (hgroup : group ∈ groups) : group <:+: ts := by
  induction h with
  | nil => cases hgroup
  | separator _ _ ih => exact (ih hgroup).trans (List.suffix_cons _ _).isInfix
  | last _ more =>
    rw [List.mem_singleton.1 hgroup]
  | group _ more _ _ ih =>
    rcases List.mem_cons.1 hgroup with rfl | hgroup
    · exact (List.prefix_append _ _).isInfix
    · exact (ih hgroup).trans ((List.suffix_cons _ _).trans (List.suffix_append _ _)).isInfix

/-- Between the tokens of two groups there is a separator. -/
theorem separated (h : Divides ts groups) (hts : ts.Pairwise fun t u => t.stop ≤ u.start) :
    groups.Pairwise fun g g' => ∀ x ∈ g, ∀ y ∈ g', ∃ t ∈ ts, t.lexeme.isSeparator = true ∧
      x.stop ≤ t.start ∧ t.stop ≤ y.start := by
  induction h with
  | nil => exact .nil
  | @separator t ts groups _ _ ih =>
    refine (ih (List.pairwise_cons.1 hts).2).imp fun hsep x hx y hy => ?_
    obtain ⟨u, hu, hplace⟩ := hsep x hx y hy
    exact ⟨u, List.mem_cons_of_mem _ hu, hplace⟩
  | last _ more => exact List.pairwise_singleton _ _
  | @group first t _ more ts groups ht hrest ih =>
    obtain ⟨-, hbehind, hacross⟩ := List.pairwise_append.1 hts
    obtain ⟨hnext, hts⟩ := List.pairwise_cons.1 hbehind
    refine List.pairwise_cons.2 ⟨fun g hg x hx y hy => ?_, (ih hts).imp ?_⟩
    · exact ⟨t, by simp, ht, hacross x hx t List.mem_cons_self,
        hnext y ((hrest.isInfix hg).subset hy)⟩
    · intro g g' hsep x hx y hy
      obtain ⟨u, hu, hplace⟩ := hsep x hx y hy
      exact ⟨u, by simp [hu], hplace⟩

end Divides

/-- Skipping takes some tokens, up to the end of the text or to a separator. -/
theorem skipUnsupported_eq_ok {depth stop stop' : Nat} {last : Option Lexeme} {fresh : Bool}
    {ts rest : List Token}
    (h : skipUnsupported none depth last fresh stop ts = .ok (stop', rest)) :
    ∃ group, ts = group ++ rest ∧ stop' = group.getLast?.elim stop Token.stop ∧
      (∀ t ∈ group, t.lexeme ≠ .eof) ∧
      ∀ t ∈ rest.head?, t.lexeme = .eof ∨ t.lexeme.isSeparator = true := by
  generalize hcloser : (none : Option Closer) = closer at h
  fun_induction skipUnsupported closer depth last fresh stop ts with
  | case1 =>
    cases h
    exact ⟨[], rfl, rfl, by simp, by simp⟩
  | case2 | case4 => cases h
  | case3 _ _ _ t more heof =>
    cases h
    exact ⟨[], rfl, rfl, by simp, by rintro _ ⟨⟩; exact .inl heof⟩
  | case5 depth last fresh stop t more _ hends =>
    cases h
    refine ⟨[], rfl, rfl, by simp, ?_⟩
    rintro _ ⟨⟩
    subst hcloser
    have hsep : endsUnsupported none last t.lexeme = true := hends.2
    simp only [endsUnsupported, Option.any_none, Bool.and_false, Bool.or_false,
      Bool.and_eq_true] at hsep
    exact .inr hsep.1
  | case6 depth last fresh stop t more heof _ ih =>
    obtain ⟨group, rfl, rfl, hgroup, hrest⟩ := ih h
    refine ⟨t :: group, rfl, ?_, by simpa [heof] using hgroup, hrest⟩
    cases hlast : group.getLast? <;> simp [List.getLast?_cons, hlast]

namespace BlockSource

variable (b : BlockSource)

/-- The statement keeps the text from the first token to the last one of the group. -/
def Keeps (s : Statement) (group : List Token) : Prop :=
  ∃ first last, group.head? = some first ∧ group.getLast? = some last ∧
    s = .unsupported (b.slice first.start last.stop) (b.lines.lineInFile first.line)

theorem supported_ne_unsupported {ts rest : List Token} {code : String} {line : Int} :
    b.supported none ts ≠ .ok (.unsupported code line, rest) := by
  intro h
  rw [supported] at h
  split at h
  · cases h
  · split at h
    · cases hhead : b.commandHead ts with
      | error e =>
        rw [hhead, goOn_error] at h
        cases h
      | ok r =>
        obtain ⟨⟨name, args⟩, rest'⟩ := r
        rw [hhead] at h
        by_cases hlt : rest'.length < ts.length
        · rw [goOn_ok _ _ _ hlt] at h
          obtain ⟨_, _, heq⟩ := map_eq_ok_iff.1 h
          cases heq
        · rw [goOn, dif_neg hlt] at h
          cases h
    · cases h

end BlockSource

theorem exists_append_of_mark {α : Type} {ts group rest : List α} {mark : α}
    (h : ts ++ [mark] = group ++ rest) (hmark : mark ∉ group) :
    ∃ rest', ts = group ++ rest' ∧ rest = rest' ++ [mark] := by
  rcases List.append_eq_append_iff.1 h with ⟨middle, rfl, hrest⟩ | ⟨rest', rfl, rfl⟩
  · cases middle with
    | nil => exact ⟨[], by simp, hrest.symm⟩
    | cons t middle =>
      rw [List.cons_append, List.cons.injEq] at hrest
      simp [hrest.1] at hmark
  · exact ⟨rest', rfl, rfl⟩

namespace BlockSource

variable (b : BlockSource) {t eof : Token} {more rest : List Token}

/-- A statement that is kept as text takes a group of tokens. -/
theorem statement_eq_unsupported {code : String} {line : Int} (heof : eof.lexeme = .eof)
    (hne : t.lexeme ≠ .eof) (ht : t.lexeme.isSeparator = false)
    (h : b.statement none (t :: more ++ [eof]) = .ok (.unsupported code line, rest)) :
    ∃ group rest', more = group ++ rest' ∧ rest = rest' ++ [eof] ∧
      (∀ u ∈ rest'.head?, u.lexeme = .eof ∨ u.lexeme.isSeparator = true) ∧
      b.Keeps (.unsupported code line) (t :: group) := by
  rw [statement_eq] at h
  split at h
  · unfold unsupported at h
    simp only [List.cons_append, List.head?_cons, Option.elim_some] at h
    cases hskip : skipUnsupported none 0 none true t.stop (t :: (more ++ [eof])) with
    | error e =>
      rw [hskip] at h
      cases h
    | ok r =>
      obtain ⟨stop, left⟩ := r
      rw [hskip] at h
      cases h
      obtain ⟨group, hsplit, hstop, hgroup, hhead⟩ := skipUnsupported_eq_ok hskip
      cases group with
      | nil =>
        -- the first token would end the statement
        subst hsplit
        rcases hhead t rfl with h | h
        · exact absurd h hne
        · rw [ht] at h
          cases h
      | cons u group =>
        rw [List.cons_append, List.cons.injEq] at hsplit
        obtain ⟨rfl, hsplit⟩ := hsplit
        have hmark : eof ∉ group := fun hmem => hgroup eof (List.mem_cons_of_mem t hmem) heof
        obtain ⟨rest', rfl, rfl⟩ := exists_append_of_mark hsplit hmark
        refine ⟨group, rest', rfl, rfl, fun u hu => hhead u ?_, t, _, rfl, List.getLast?_cons, ?_⟩
        · rw [List.head?_append, hu]
          rfl
        · rw [hstop, List.getLast?_cons, Option.elim_some]
          rfl
  · exact absurd h b.supported_ne_unsupported

/-- The statements of a text that has only code outside the grammar keep the groups of its
tokens. -/
theorem statements_groups {ts : List Token} (hts : ∀ t ∈ ts, t.lexeme ≠ .eof)
    (heof : eof.lexeme = .eof) {items : List Statement}
    (h : b.statements (ts ++ [eof]) = .ok (items, none))
    (hall : ∀ s ∈ items, ∃ code line, s = .unsupported code line) :
    ∃ groups, Divides ts groups ∧ List.Forall₂ b.Keeps items groups := by
  match ts with
  | [] =>
    have hcode : eof.lexeme.isSeparator = false := by simp [heof, Lexeme.isSeparator]
    rw [List.nil_append, statements.eq_def, afterBreaks_cons _ hcode] at h
    simp only [heof, if_true, Except.ok.injEq, Prod.mk.injEq] at h
    rw [← h.1]
    exact ⟨[], .nil, .nil⟩
  | t :: more =>
    rw [List.forall_mem_cons] at hts
    rw [List.cons_append] at h
    cases ht : t.lexeme.isSeparator with
    | true =>
      rw [statements_congr (afterBreaks_separator ht)] at h
      obtain ⟨groups, hgroups, hkeep⟩ := statements_groups hts.2 heof h hall
      exact ⟨groups, .separator ht hgroups, hkeep⟩
    | false =>
      rw [statements.eq_def, afterBreaks_cons _ ht] at h
      simp only [hts.1, if_false] at h
      cases hstatement : b.statement none (t :: (more ++ [eof])) with
      | error e =>
        rw [hstatement] at h
        cases e <;> cases h
      | ok r =>
        obtain ⟨s, rest⟩ := r
        rw [hstatement] at h
        dsimp only at h
        have hs : ∃ code line, s = .unsupported code line := by
          apply hall
          split at h
          · obtain ⟨r, -, heq⟩ := map_eq_ok_iff.1 h
            rw [← (Prod.mk.inj heq).1]
            exact List.mem_cons_self
          · cases h
            exact List.mem_cons_self
        obtain ⟨code, line, rfl⟩ := hs
        obtain ⟨group, rest', hmore, rfl, hhead, hkeeps⟩ :=
          b.statement_eq_unsupported heof hts.1 ht hstatement
        have hlength : rest'.length ≤ more.length := by simp [hmore]
        have hlt : (rest' ++ [eof]).length < (t :: (more ++ [eof])).length := by
          simp only [List.length_append, List.length_cons]
          omega
        rw [dif_pos hlt] at h
        obtain ⟨⟨items', none'⟩, hrest, heq⟩ := map_eq_ok_iff.1 h
        cases heq
        have hno : ∀ u ∈ rest', u.lexeme ≠ .eof := fun u hu => hts.2 u (by simp [hmore, hu])
        have hnext : ∀ u ∈ rest'.head?, u.lexeme.isSeparator = true := fun u hu =>
          (hhead u hu).resolve_left (hno u (List.mem_of_head? hu))
        obtain ⟨groups, hgroups, hkeep⟩ := statements_groups hno heof hrest
          fun s hs => hall s (List.mem_cons_of_mem _ hs)
        rw [hmore]
        exact ⟨(t :: group) :: groups, .group_of_head ht group hnext hgroups, .cons hkeeps hkeep⟩
termination_by ts.length
decreasing_by all_goals simp only [List.length_cons]; omega

end BlockSource

/-! ## Text that is kept -/

namespace Text

variable {w a b cs : List Char}

/-- The text starts and ends with a character that is not blank. -/
def Solid (w : List Char) : Prop :=
  ∃ c d, w.head? = some c ∧ w.getLast? = some d ∧ isBlank c = false ∧ isBlank d = false

theorem Solid.ne_nil (h : Solid w) : w ≠ [] := by
  obtain ⟨c, -, hc, -⟩ := h
  rintro rfl
  cases hc

/-- Blanks before a text hold no part of what starts with another character. -/
theorem Solid.isInfix_of_append_left (hw : Solid w) (h : w <:+: a ++ b)
    (ha : ∀ c ∈ a, isBlank c = true) : w <:+: b := by
  obtain ⟨c, -, hc, -, hblank, -⟩ := hw
  obtain ⟨front, back, h⟩ := h
  rw [List.append_assoc] at h
  rcases List.append_eq_append_iff.1 h with ⟨m, rfl, hm⟩ | ⟨m, rfl, rfl⟩
  · cases m with
    | nil =>
      rw [List.nil_append] at hm
      exact hm ▸ (List.prefix_append w back).isInfix
    | cons d m =>
      exfalso
      have hd : (w ++ back).head? = some d := by
        rw [hm]
        rfl
      rw [List.head?_append, hc] at hd
      cases hd
      rw [ha c (by simp)] at hblank
      cases hblank
  · exact ⟨m, back, by rw [List.append_assoc]⟩

/-- Blanks behind a text hold no part of what ends with another character. -/
theorem Solid.isInfix_of_append_right (hw : Solid w) (h : w <:+: a ++ b)
    (hb : ∀ c ∈ b, isBlank c = true) : w <:+: a := by
  obtain ⟨-, d, -, hd, -, hblank⟩ := hw
  obtain ⟨front, back, h⟩ := h
  rcases List.append_eq_append_iff.1 h with ⟨m, rfl, rfl⟩ | ⟨m, hm, rfl⟩
  · exact ⟨front, m, rfl⟩
  · rcases List.eq_nil_or_concat m with rfl | ⟨m, c, rfl⟩
    · rw [List.append_nil] at hm
      exact hm ▸ (List.suffix_append front w).isInfix
    · exfalso
      have hc : (front ++ w).getLast? = some c := by
        rw [hm]
        simp
      rw [List.getLast?_append, hd] at hc
      cases hc
      rw [hb d (by simp)] at hblank
      cases hblank

theorem Solid.isInfix_trim (hw : Solid w) (h : w <:+: cs) : w <:+: trim cs := by
  obtain ⟨front, back, hblank, hcs⟩ := exists_of_trim cs
  rw [List.forall_mem_append] at hblank
  rw [hcs] at h
  exact hw.isInfix_of_append_left (hw.isInfix_of_append_right h hblank.2) hblank.1

theorem Solid.isInfix_trimEnd (hw : Solid w) (h : w <:+: cs) : w <:+: trimEnd cs := by
  obtain ⟨back, hblank, hcs⟩ := exists_of_trimEndBy (p := isBlank) cs
  rw [hcs] at h
  exact hw.isInfix_of_append_right h hblank

/-- What has no line break in it and stands at the start is in the first line. -/
theorem isPrefix_splitLines (h : w <+: cs) (hw : w ≠ [])
    (hbreaks : ∀ c ∈ w, isLineBreak c = false) :
    ∃ line more, splitLines cs = line :: more ∧ w <+: line := by
  induction cs generalizing w with
  | nil => exact absurd (List.prefix_nil.1 h) hw
  | cons c cs ih =>
    obtain ⟨d, w, rfl⟩ := List.exists_cons_of_ne_nil hw
    obtain ⟨rfl, hrest⟩ := List.cons_prefix_cons.1 h
    rw [List.forall_mem_cons] at hbreaks
    rw [splitLines_plain hbreaks.1]
    cases w with
    | nil => cases splitLines cs <;> exact ⟨_, _, rfl, by simp⟩
    | cons e w =>
      obtain ⟨line, more, hlines, hline⟩ := ih hrest (by simp) hbreaks.2
      rw [hlines]
      exact ⟨d :: line, more, rfl, (List.prefix_cons_inj d).2 hline⟩

/-- What has no line break in it is in one line. -/
theorem isInfix_splitLines (h : w <:+: cs) (hw : w ≠ [])
    (hbreaks : ∀ c ∈ w, isLineBreak c = false) : ∃ line ∈ splitLines cs, w <:+: line := by
  have hskip {c : Char} {cs : List Char} (hc : isLineBreak c = true) (h : w <:+: c :: cs) :
      w <:+: cs := by
    rcases List.infix_cons_iff.1 h with h | h
    · obtain ⟨d, w, rfl⟩ := List.exists_cons_of_ne_nil hw
      obtain ⟨rfl, -⟩ := List.cons_prefix_cons.1 h
      rw [hbreaks d List.mem_cons_self] at hc
      cases hc
    · exact h
  fun_induction splitLines cs with
  | case1 => exact absurd (List.infix_nil.1 h) hw
  | case2 rest ih =>
    obtain ⟨line, hline, hwithin⟩ := ih (hskip (by decide) (hskip (by decide) h))
    exact ⟨line, List.mem_cons_of_mem _ hline, hwithin⟩
  | case3 c rest _ hc ih =>
    obtain ⟨line, hline, hwithin⟩ := ih (hskip hc h)
    exact ⟨line, List.mem_cons_of_mem _ hline, hwithin⟩
  | case4 c rest _ hc hlines ih =>
    rcases List.infix_cons_iff.1 h with h | h
    · obtain ⟨line, more, hsplit, hline⟩ := isPrefix_splitLines h hw hbreaks
      rw [splitLines_plain (Bool.eq_false_iff.2 hc), hlines] at hsplit
      cases hsplit
      exact ⟨_, List.mem_cons_self, hline.isInfix⟩
    · obtain ⟨line, hline, -⟩ := ih h
      rw [hlines] at hline
      cases hline
  | case5 c rest _ hc line more hlines ih =>
    rcases List.infix_cons_iff.1 h with h | h
    · obtain ⟨first, others, hsplit, hfirst⟩ := isPrefix_splitLines h hw hbreaks
      rw [splitLines_plain (Bool.eq_false_iff.2 hc), hlines] at hsplit
      cases hsplit
      exact ⟨_, List.mem_cons_self, hfirst.isInfix⟩
    · obtain ⟨found, hfound, hwithin⟩ := ih h
      rw [hlines] at hfound
      rcases List.mem_cons.1 hfound with rfl | hfound
      · exact ⟨c :: found, List.mem_cons_self, hwithin.trans (List.suffix_cons c found).isInfix⟩
      · exact ⟨found, List.mem_cons_of_mem _ hfound, hwithin⟩

end Text

/-- Some statement that is kept as text has it. -/
def Kept (statements : List Statement) (w : List Char) : Prop :=
  ∃ code line, Statement.unsupported code line ∈ statements ∧ w <:+: code.toList

/-- The text has a line that is a comment with `w` in it. -/
def HasComment (indent text : String) (w : List Char) : Prop :=
  ∃ front back, (∀ c ∈ front ++ back, Text.isLineBreak c = false) ∧
    (indent ++ "# ").toList ++ front ++ w ++ back ++ ['\n'] <:+: text.toList

theorem hasComment_commentedOut (indent : String) {code : String} {w : List Char}
    (h : w <:+: code.toList) (hw : Text.Solid w) (hbreaks : ∀ c ∈ w, Text.isLineBreak c = false) :
    HasComment indent (commentedOut indent code) w := by
  obtain ⟨line, hline, hwithin⟩ := Text.isInfix_splitLines h hw.ne_nil hbreaks
  obtain ⟨front, back, hsplit⟩ := hw.isInfix_trimEnd hwithin
  refine ⟨front, back, fun c hc => Text.isLineBreak_of_mem_splitLines hline ?_, ?_⟩
  · obtain ⟨gone, -, htrim⟩ := Text.exists_of_trimEndBy (p := Text.isBlank) line
    have hmem : c ∈ Text.trimEnd line := by
      rw [← hsplit]
      rcases List.mem_append.1 hc with hc | hc <;> simp [hc]
    rw [htrim]
    exact List.mem_append_left gone hmem
  · rw [commentedOut, String.toList_join, List.flatMap_map]
    apply List.infix_of_mem_flatten
    refine List.mem_map.2 ⟨line, hline, ?_⟩
    simp [← hsplit]

theorem HasComment.of_isInfix {indent text text' : String} {w : List Char}
    (h : HasComment indent text w) (htext : text.toList <:+: text'.toList) :
    HasComment indent text' w := by
  obtain ⟨front, back, hbreaks, hwithin⟩ := h
  exact ⟨front, back, hbreaks, hwithin.trans htext⟩

/-- Statements that are kept as text become comments. -/
theorem Statement.textOf_unsupported (style : Style) (name : String) {statements : List Statement}
    (hall : ∀ s ∈ statements, ∃ code line, s = .unsupported code line) :
    ∃ text, textOf style name statements = .ok text ∧
      ∀ code line, .unsupported code line ∈ statements →
        (commentedOut style.settings.headerIndent code).toList <:+: text.toList := by
  induction statements with
  | nil => exact ⟨"", rfl, by simp⟩
  | cons s rest ih =>
    rw [List.forall_mem_cons] at hall
    obtain ⟨⟨code, line, rfl⟩, hall⟩ := hall
    obtain ⟨text, htext, hcomments⟩ := ih hall
    refine ⟨commentedOut style.settings.headerIndent code ++ text, ?_, ?_⟩
    · rw [← allToManifest_result] at htext ⊢
      simp only [allToManifest, Noted.result_bind, htext]
      rfl
    · intro code' line' hmem
      rw [String.toList_append]
      rcases List.mem_cons.1 hmem with heq | hmem
      · cases heq
        exact (List.prefix_append _ _).isInfix
      · exact (hcomments code' line' hmem).trans (List.suffix_append _ _).isInfix

/-! ## Reading -/

/-- The place is in a token that is no separator. -/
def InCode (tokens : List Token) (p : Nat) : Prop :=
  ∃ t ∈ tokens, t.lexeme.isSeparator = false ∧ t.start ≤ p ∧ p < t.stop

/-- What is kept of a text whose tokens are in groups. -/
structure KeepsCode (source : List Char) (tokens : List Token) (groups : List (List Token))
    (statements : List Statement) : Prop where
  /-- What stands on one line between two characters of code, with no semicolon between them, is
  kept by one statement. -/
  line : ∀ before w behind, source = before ++ w ++ behind → Text.Solid w → '\n' ∉ w →
    InCode tokens before.length → InCode tokens (before.length + w.length - 1) →
    (∀ t ∈ tokens, t.lexeme = .semicolon →
      t.start < before.length ∨ before.length + w.length ≤ t.start) → Kept statements w
  /-- The bodies of heredocs behind a line are kept if there are tokens of one statement on both
  sides of them. Otherwise no statement reaches them. -/
  bodies : ∀ u v, Lexer.SkipsBodies source u v →
    ((∃ g ∈ groups, (∃ t ∈ g, t.stop ≤ u) ∧ ∃ t ∈ g, v ≤ t.start) ∧
      ∀ before w behind, source = before ++ w ++ behind → Text.Solid w → u ≤ before.length →
        before.length + w.length ≤ v → Kept statements w) ∨
    ∀ g ∈ groups, (∀ t ∈ g, t.stop ≤ u) ∨ ∀ t ∈ g, v ≤ t.start

section Kept

variable {source : List Char} {lines : LineMap} {statements : List Statement}
  {tokens g : List Token} {groups : List (List Token)}

theorem isInfix_drop_take {before w behind : List Char} {start stop : Nat}
    (hstart : start ≤ before.length) (hstop : before.length + w.length ≤ stop) :
    w <:+: ((before ++ w ++ behind).drop start).take (stop - start) := by
  have hdrop : (before ++ w ++ behind).drop start = before.drop start ++ w ++ behind := by
    rw [List.append_assoc, List.drop_append_of_le_length hstart, List.append_assoc]
  have hlength : (before.drop start ++ w).length ≤ stop - start := by
    simp only [List.length_append, List.length_drop]
    omega
  rw [hdrop, List.take_append, List.take_of_length_le hlength]
  exact ⟨before.drop start, _, rfl⟩

theorem exists_keeps {b : BlockSource} (h : List.Forall₂ b.Keeps statements groups)
    (hg : g ∈ groups) : ∃ s ∈ statements, b.Keeps s g := by
  induction h with
  | nil => cases hg
  | @cons s g' statements groups hkeeps _ ih =>
    rcases List.mem_cons.1 hg with rfl | hg
    · exact ⟨s, List.mem_cons_self, hkeeps⟩
    · obtain ⟨s', hs', hkeeps'⟩ := ih hg
      exact ⟨s', List.mem_cons_of_mem s hs', hkeeps'⟩

variable (hkeep : List.Forall₂ (BlockSource.mk source lines).Keeps statements groups)
  (hgroups : Divides tokens groups) (hordered : tokens.Pairwise fun t u => t.stop ≤ u.start)
  (hspans : ∀ t ∈ tokens, Lexer.Spans source t)

include hkeep hgroups hordered hspans

/-- What lies between the tokens of a group is kept. -/
theorem Kept.of_group {before w behind : List Char} (hsource : source = before ++ w ++ behind)
    (hw : Text.Solid w) (hg : g ∈ groups) {t u : Token} (ht : t ∈ g) (hu : u ∈ g)
    (hstart : t.start ≤ before.length) (hstop : before.length + w.length ≤ u.stop) :
    Kept statements w := by
  have hwithin := hgroups.isInfix hg
  have hpairs := hordered.sublist hwithin.sublist
  have hspan {t : Token} (ht : t ∈ g) : t.start < t.stop := (hspans t (hwithin.subset ht)).1
  obtain ⟨s, hs, first, last, hfirst, hlast, rfl⟩ := exists_keeps hkeep hg
  have hle : first.start ≤ t.start := by
    obtain ⟨more, rfl⟩ := List.head?_eq_some_iff.1 hfirst
    rcases List.mem_cons.1 ht with rfl | ht
    · exact Nat.le_refl _
    · have hnext := (List.pairwise_cons.1 hpairs).1 t ht
      have hlt := hspan List.mem_cons_self
      omega
  have hge : u.stop ≤ last.stop := by
    obtain ⟨more, rfl⟩ := List.getLast?_eq_some_iff.1 hlast
    rcases List.mem_append.1 hu with hu | hu
    · have hnext := (List.pairwise_append.1 hpairs).2.2 u hu last (List.mem_singleton_self _)
      have hlt := hspan (List.mem_append_right more (List.mem_singleton_self last))
      omega
    · rw [List.mem_singleton.1 hu]
  refine ⟨_, _, hs, ?_⟩
  rw [BlockSource.slice, String.toList_ofList, hsource]
  exact hw.isInfix_trim (isInfix_drop_take (by omega) (by omega))

/-- Two characters of code on one line are in one statement, if no semicolon is between them. -/
theorem Kept.of_line {before w behind : List Char} (hsource : source = before ++ w ++ behind)
    (hw : Text.Solid w) (hline : '\n' ∉ w) (hfirst : InCode tokens before.length)
    (hlast : InCode tokens (before.length + w.length - 1))
    (hsemicolon : ∀ t ∈ tokens, t.lexeme = .semicolon →
      t.start < before.length ∨ before.length + w.length ≤ t.start) : Kept statements w := by
  obtain ⟨t, ht, hcode, hstart, hstop⟩ := hfirst
  obtain ⟨t', ht', hcode', hstart', hstop'⟩ := hlast
  obtain ⟨g, hg, htg⟩ := hgroups.exists_mem ht hcode
  obtain ⟨g', hg', htg'⟩ := hgroups.exists_mem ht' hcode'
  have hpos := List.length_pos_iff.2 hw.ne_nil
  -- a separator that stands in between is on the line, and it is no newline
  have hbetween : ¬ ∃ n ∈ tokens, n.lexeme.isSeparator = true ∧ before.length ≤ n.start ∧
      n.start < before.length + w.length := by
    rintro ⟨n, hn, hsep, hle, hlt⟩
    cases hx : n.lexeme with
    | semicolon =>
      have := hsemicolon n hn hx
      omega
    | newline =>
      have hchar := (hspans n hn).2 hx
      rw [hsource, List.append_assoc, List.getElem?_append_right hle,
        List.getElem?_append_left (by omega)] at hchar
      exact hline (List.mem_of_getElem? hchar)
    | _ =>
      rw [hx] at hsep
      cases hsep
  -- so the two characters are in one group
  have hsame : g = g' := by
    obtain ⟨i, hi, rfl⟩ := List.getElem_of_mem hg
    obtain ⟨j, hj, rfl⟩ := List.getElem_of_mem hg'
    have hseparated := List.pairwise_iff_getElem.1 (hgroups.separated hordered)
    rcases Nat.lt_trichotomy i j with hlt | heq | hlt
    · obtain ⟨n, hn, hsep, hle, hle'⟩ := hseparated i j hi hj hlt t htg t' htg'
      have hspan := (hspans n hn).1
      exact absurd ⟨n, hn, hsep, by omega, by omega⟩ hbetween
    · subst heq
      rfl
    · obtain ⟨n, hn, hsep, hle, hle'⟩ := hseparated j i hj hi hlt t' htg' t htg
      have hspan := (hspans n hn).1
      omega
  subst hsame
  exact Kept.of_group hkeep hgroups hordered hspans hsource hw hg htg htg' hstart (by omega)

/-- The bodies behind a line are kept whole, or no part of them is. -/
theorem kept_or_lost {eof : Token} (htokens : tokenize lines source = .ok (tokens ++ [eof]))
    {u v : Nat} (h : Lexer.SkipsBodies source u v) :
    ((∃ g ∈ groups, (∃ t ∈ g, t.stop ≤ u) ∧ ∃ t ∈ g, v ≤ t.start) ∧
      ∀ before w behind, source = before ++ w ++ behind → Text.Solid w → u ≤ before.length →
        before.length + w.length ≤ v → Kept statements w) ∨
    ∀ g ∈ groups, (∀ t ∈ g, t.stop ≤ u) ∨ ∀ t ∈ g, v ≤ t.start := by
  obtain ⟨before, newline, behind, htokens, hstop, hhead⟩ := h.exists_append htokens
  have hpairs := hordered
  rw [htokens, List.append_cons] at hpairs
  obtain ⟨hbefore, hbehind, -⟩ := List.pairwise_append.1 hpairs
  -- every token stands on one side of the bodies
  have hside : ∀ t ∈ tokens, t.stop ≤ u ∨ v ≤ t.start := by
    intro t ht
    rw [htokens, List.append_cons] at ht
    rcases List.mem_append.1 ht with ht | ht
    · rcases List.mem_append.1 ht with ht | ht
      · have hnext := (List.pairwise_append.1 hbefore).2.2 t ht newline (List.mem_singleton_self _)
        have hspan := (hspans newline (by simp [htokens])).1
        exact .inl (by omega)
      · rw [List.mem_singleton.1 ht]
        exact .inl (Nat.le_of_eq hstop)
    · cases behind with
      | nil => cases ht
      | cons next behind =>
        have hle := hhead next rfl
        rcases List.mem_cons.1 ht with rfl | ht
        · exact .inr hle
        · have hnext := (List.pairwise_cons.1 hbehind).1 t ht
          have hspan := (hspans next (by simp [htokens])).1
          exact .inr (by omega)
  by_cases hkept : ∃ g ∈ groups, (∃ t ∈ g, t.stop ≤ u) ∧ ∃ t ∈ g, v ≤ t.start
  · refine .inl ⟨hkept, fun before w behind hsource hw hle hle' => ?_⟩
    obtain ⟨g, hg, ⟨t, ht, htu⟩, t', ht', hvt⟩ := hkept
    have hspan := (hspans t ((hgroups.isInfix hg).subset ht)).1
    have hspan' := (hspans t' ((hgroups.isInfix hg).subset ht')).1
    exact Kept.of_group hkeep hgroups hordered hspans hsource hw hg ht ht' (by omega) (by omega)
  · refine .inr fun g hg => ?_
    by_contra hnone
    rw [not_or, not_forall₂, not_forall₂] at hnone
    obtain ⟨⟨t, ht, htu⟩, t', ht', hvt⟩ := hnone
    have hmem := (hgroups.isInfix hg).subset
    exact hkept ⟨g, hg, ⟨t', ht', (hside t' (hmem ht')).resolve_right hvt⟩,
      t, ht, (hside t (hmem ht)).resolve_left htu⟩

end Kept

theorem BlockContent.read_eq_ok {lines : LineMap} {source : List Char}
    {statements : List Statement} {line : Option Int} :
    read lines source = .ok ⟨statements, line⟩ ↔
      ∃ tokens, tokenize lines source = .ok tokens ∧
        (BlockSource.mk source lines).statements tokens = .ok (statements, line) := by
  unfold read
  simp only [bind_eq_ok_iff, pure_eq_ok_iff]
  refine exists_congr fun tokens => and_congr_right fun _ => ⟨?_, fun h => ⟨_, h, rfl⟩⟩
  rintro ⟨r, hr, heq⟩
  cases heq
  exact hr

/-- Code outside the grammar is kept line by line. Where a text has only such code, its tokens fall
into groups between separators, and each statement keeps the text of a group, from its first token
to its last. Every character of the text is in a token, in filler, or in the body of a heredoc. If
the tokens stand in order, as they do where no line that announces a heredoc is run over, every line
of code is kept, and a body is kept if its statement goes on behind it. What is kept is shown in the
comments of the manifest. -/
theorem read_keeps_code {lines : LineMap} {source : List Char} {statements : List Statement}
    (hread : BlockContent.read lines source = .ok ⟨statements, none⟩)
    (hall : ∀ s ∈ statements, ∃ code line, s = .unsupported code line) :
    ∃ tokens eof groups, tokenize lines source = .ok (tokens ++ [eof]) ∧
      Divides tokens groups ∧
      List.Forall₂ (BlockSource.mk source lines).Keeps statements groups ∧
      (∀ p < source.length, Lexer.Covered source tokens p) ∧
      ((Lexer.start source).overruns = false →
        tokens.Pairwise fun t u => t.stop ≤ u.start) ∧
      (tokens.Pairwise (fun t u => t.stop ≤ u.start) →
        KeepsCode source tokens groups statements) ∧
      ∀ style name, ∃ text, (Section.blockToManifest style name source lines).result = .ok text ∧
        ∀ w, Kept statements w → Text.Solid w → (∀ c ∈ w, Text.isLineBreak c = false) →
          HasComment style.settings.headerIndent text w := by
  obtain ⟨all, htokens, hstatements⟩ := BlockContent.read_eq_ok.1 hread
  obtain ⟨tokens, l, hreads, hend, rfl⟩ := Lexer.run_eq_ok (tokenize_eq_ok.1 htokens)
  obtain ⟨groups, hgroups, hkeep⟩ :=
    BlockSource.statements_groups _ hreads.lexeme_ne_eof rfl hstatements hall
  have hspans := hreads.spans (Lexer.inText_start source)
  refine ⟨tokens, _, groups, htokens, hgroups, hkeep, fun p hp => ?_, fun hno => ?_,
    fun hordered => ?_, ?_⟩
  · exact Lexer.Reads.covered (.refl _) hreads hend (Nat.zero_le p) hp
  · exact (hreads.ordered (by rintro r ⟨⟩) (Lexer.placed_start source) hno).2
  · exact ⟨fun _ _ _ => Kept.of_line hkeep hgroups hordered hspans,
      fun _ _ => kept_or_lost hkeep hgroups hordered hspans htokens⟩
  · intro style name
    obtain ⟨text, htext, hcomments⟩ := Statement.textOf_unsupported style name hall
    refine ⟨text, (Section.blockToManifest_of_read hread).trans htext, ?_⟩
    rintro w ⟨code, line, hmem, hwithin⟩ hw hbreaks
    exact (hasComment_commentedOut _ hwithin hw hbreaks).of_isInfix (hcomments code line hmem)

/-- Code with a body inside brackets, and with one at the end of a statement. -/
def twoBodies : List Char :=
  "x = [<<A,\n #k\nA\n'1\n2']; y = <<B # n\nlost\nB\n".toList

def twoBodiesTokens : List Token :=
  [⟨.ident "x", 1, 0, 1, false⟩, ⟨.op .assign, 1, 2, 3, true⟩, ⟨.op .bracketL, 1, 4, 5, true⟩,
    ⟨.string [.text " #k\n".toList], 1, 5, 8, false⟩, ⟨.op .comma, 1, 8, 9, false⟩,
    ⟨.newline, 1, 9, 10, false⟩, ⟨.string [.text "1\n2".toList], 4, 16, 21, false⟩,
    ⟨.op .bracketR, 5, 21, 22, false⟩, ⟨.semicolon, 5, 22, 23, false⟩,
    ⟨.ident "y", 5, 24, 25, true⟩, ⟨.op .assign, 5, 26, 27, true⟩,
    ⟨.string [.text "lost\n".toList], 5, 28, 31, true⟩, ⟨.newline, 5, 35, 36, false⟩]

/-- The first body is kept, with the sign of a comment, and the second is not. -/
theorem read_keeps_code_around_bodies :
    BlockContent.read [] twoBodies =
        .ok ⟨[.unsupported "x = [<<A,\n #k\nA\n'1\n2']" 1, .unsupported "y = <<B" 5], none⟩ ∧
      twoBodiesTokens.Pairwise (fun t u => t.stop ≤ u.start) ∧
      ∃ groups, KeepsCode twoBodies twoBodiesTokens groups
        [.unsupported "x = [<<A,\n #k\nA\n'1\n2']" 1, .unsupported "y = <<B" 5] := by
  have htokens : tokenize [] twoBodies = .ok (twoBodiesTokens ++ [⟨.eof, 8, 43, 43, false⟩]) := by
    decide +kernel
  have hread : BlockContent.read [] twoBodies =
      .ok ⟨[.unsupported "x = [<<A,\n #k\nA\n'1\n2']" 1, .unsupported "y = <<B" 5], none⟩ :=
    BlockContent.read_eq_ok.2 ⟨_, htokens, by with_unfolding_all rfl⟩
  have hordered : twoBodiesTokens.Pairwise fun t u => t.stop ≤ u.start := by decide
  obtain ⟨tokens, eof, groups, htokens', -, -, -, -, hkeeps, -⟩ := read_keeps_code hread (by simp)
  rw [htokens, Except.ok.injEq] at htokens'
  obtain ⟨rfl, -⟩ := List.append_inj' htokens' rfl
  exact ⟨hread, hordered, groups, hkeeps hordered⟩

/-- The body of a heredoc is lost at the end of a statement. So is a line of code that a literal
runs over, with the end of the body in it: reading goes back and takes the line for a comment. -/
theorem read_loses_lines :
    let runOver : List Statement :=
      [.unsupported "x = [<<A, \"b\nA\n]" 1, .unsupported "1]" 6]
    BlockContent.read [] "x = <<A\nbody\nA\n".toList =
        .ok ⟨[.unsupported "x = <<A" 1], none⟩ ∧
      ¬ Kept [.unsupported "x = <<A" 1] "body".toList ∧
      BlockContent.read [] "x = [<<A, \"b\nA\n]# c\",\n1]\n".toList = .ok ⟨runOver, none⟩ ∧
      ¬ Kept runOver "]# c\",".toList := by
  intro runOver
  have hbody : tokenize [] "x = <<A\nbody\nA\n".toList = .ok
      [⟨.ident "x", 1, 0, 1, false⟩, ⟨.op .assign, 1, 2, 3, true⟩,
        ⟨.string [.text "body\n".toList], 1, 4, 7, true⟩, ⟨.newline, 1, 7, 8, false⟩,
        ⟨.eof, 4, 15, 15, false⟩] := by
    decide +kernel
  have hover : tokenize [] "x = [<<A, \"b\nA\n]# c\",\n1]\n".toList = .ok
      [⟨.ident "x", 1, 0, 1, false⟩, ⟨.op .assign, 1, 2, 3, true⟩,
        ⟨.op .bracketL, 1, 4, 5, true⟩, ⟨.string [.text []], 1, 5, 8, false⟩,
        ⟨.op .comma, 1, 8, 9, false⟩, ⟨.string [.text "b\nA\n]# c".toList], 1, 10, 20, true⟩,
        ⟨.op .comma, 3, 20, 21, false⟩, ⟨.newline, 3, 21, 22, false⟩,
        ⟨.op .bracketR, 5, 15, 16, false⟩, ⟨.newline, 5, 21, 22, false⟩,
        ⟨.number "1", 6, 22, 23, false⟩, ⟨.op .bracketR, 6, 23, 24, false⟩,
        ⟨.newline, 6, 24, 25, false⟩, ⟨.eof, 7, 25, 25, false⟩] := by
    decide +kernel
  refine ⟨BlockContent.read_eq_ok.2 ⟨_, hbody, by with_unfolding_all rfl⟩, ?_,
    BlockContent.read_eq_ok.2 ⟨_, hover, by with_unfolding_all rfl⟩, ?_⟩
  · rintro ⟨code, line, hmem, hwithin⟩
    simp only [List.mem_singleton, Statement.unsupported.injEq] at hmem
    obtain ⟨rfl, -⟩ := hmem
    revert hwithin
    decide
  · rintro ⟨code, line, hmem, hwithin⟩
    simp only [runOver, List.mem_cons, List.not_mem_nil, or_false,
      Statement.unsupported.injEq] at hmem
    rcases hmem with ⟨rfl, -⟩ | ⟨rfl, -⟩
    · revert hwithin
      decide
    · revert hwithin
      decide

end RecipeManifest

import RecipeManifest.Proofs.ControlStructures
import RecipeManifest.Proofs.TokenLines

/-!
Where the tokens of a text stand, with heredocs in it.

Behind a line that announces heredocs reading goes on behind their bodies (`SkipsBodies`), so the
bodies are in no token. Every other character is in a token or in filler (`Reads.covered`). If a
literal runs over the end of such a line, reading goes back, and tokens overlap; otherwise they
stand in order (`Reads.ordered`).
-/

namespace RecipeManifest

namespace Lexer

variable {source : List Char} {l l' : Lexer} {c : Char} {more : List Char} {t : Option Token}
  {ts us : List Token} {p : Nat}

theorem Reads.inText (h : Reads l ts l') (hl : l.InText source) : l'.InText source := by
  induction h with
  | refl l => exact hl
  | step hr hs _ ih => exact ih (hl.step hr hs)

/-- A token has a span of its own, and a line end is a newline of the text. -/
def Spans (source : List Char) (t : Token) : Prop :=
  t.start < t.stop ∧ (t.lexeme = .newline → source[t.start]? = some '\n')

theorem InText.spans (hl : l.InText source) (hr : l.rest = c :: more)
    (hs : l.step c more = .ok (t, l')) : ∀ u ∈ t, Spans source u := by
  have hhere : source[l.pos]? = some c := by
    rw [← List.head?_drop, ← hl.rest, hr, List.head?_cons]
  have hspan (x : Lexeme) (used : Nat) : (l.token x used).start < (l.token x used).stop := by
    simp only [token]
    omega
  obtain ⟨used, lines, hf, rfl, rfl⟩ | ⟨x, used, lines, hf, rfl, rfl⟩ | ⟨hf, rfl, rfl⟩ |
    ⟨x, used, resume, hf, rfl, rfl⟩ := step_cases hs
  · simp
  · rintro _ ⟨⟩
    refine ⟨hspan x used, fun hx => hhere.trans ?_⟩
    have hspells := (front_fits hr hf).2
    rw [show x = .newline from hx] at hspells
    have hhead : '\n' :: [] = c :: more.take used := hspells
    rw [(List.cons.inj hhead).1]
  · rintro _ ⟨⟩
    refine ⟨hspan .newline 0, fun _ => hhere.trans ?_⟩
    exact front_fits hr hf
  · rintro _ ⟨⟩
    refine ⟨hspan x used, fun hx => ?_⟩
    obtain ⟨opener, hopener⟩ := front_eq_heredoc hr hf
    obtain ⟨-, body, parts, -, -, heq⟩ := frontHeredoc_eq_ok.1 hopener
    cases heq
    cases hx

theorem Reads.spans (h : Reads l ts l') (hl : l.InText source) : ∀ u ∈ ts, Spans source u := by
  induction h with
  | refl l => simp
  | step hr hs _ ih =>
    intro u hu
    rcases List.mem_append.1 hu with hu | hu
    · exact hl.spans hr hs u (Option.mem_toList.1 hu)
    · exact ih (hl.step hr hs) u hu

/-- Behind the line end before `u` reading goes on at `v`. The bodies of the heredocs that the line
announces lie between. -/
def SkipsBodies (source : List Char) (u v : Nat) : Prop :=
  ∃ ts l r, Reads (start source) ts l ∧ l.rest.head? = some '\n' ∧ l.resume = some r ∧
    u = l.pos + 1 ∧ v = r.pos

/-- What the character at a place belongs to: a token, filler that reading comes to, or the body of
a heredoc. -/
def Covered (source : List Char) (tokens : List Token) (p : Nat) : Prop :=
  (∃ t ∈ tokens, t.start ≤ p ∧ p < t.stop) ∨
    (∃ ts l gap behind, Reads (start source) ts l ∧ l.rest = gap ++ behind ∧ Filler gap behind ∧
      l.pos ≤ p ∧ p < l.pos + gap.length) ∨
    ∃ u v, SkipsBodies source u v ∧ u ≤ p ∧ p < v

theorem covered_step (hreads : Reads (start source) us l) (hr : l.rest = c :: more)
    (hs : l.step c more = .ok (t, l')) (hp : l.pos ≤ p) (hp' : p < l'.pos) :
    Covered source t.toList p := by
  have hplaced := hreads.placed (placed_start source)
  obtain ⟨used, lines, hf, rfl, rfl⟩ | ⟨x, used, lines, hf, rfl, rfl⟩ | ⟨hf, rfl, rfl⟩ |
    ⟨x, used, resume, hf, rfl, rfl⟩ := step_cases hs
  · obtain ⟨hused, hfill⟩ := front_fits hr hf
    have hgap : Filler ((c :: more).take (used + 1)) ((c :: more).drop (used + 1)) := by
      simpa using hfill [] _ rfl (.nil _)
    refine .inr (.inl ⟨us, l, _, _, hreads, ?_, hgap, hp, ?_⟩)
    · rw [hr, List.take_append_drop]
    · simp only [List.length_cons] at hused
      simp only [advance, List.length_take, List.length_cons] at hp' ⊢
      omega
  · exact .inl ⟨l.token x used, List.mem_singleton_self _, hp, hp'⟩
  · by_cases hhere : p = l.pos
    · exact .inl ⟨_, List.mem_singleton_self _, hp, by simp only [token]; omega⟩
    · refine .inr (.inr ?_)
      cases hresume : l.resume with
      | none =>
        rw [jump_of_resume_none hresume] at hp'
        simp only [advance] at hp'
        omega
      | some r =>
        rw [hplaced.jump_of_resume hresume] at hp'
        have hnewline : l.rest.head? = some '\n' := by
          rw [hr]
          exact front_fits hr hf
        exact ⟨_, _, ⟨us, l, r, hreads, hnewline, hresume, rfl, rfl⟩, by omega, hp'⟩
  · exact .inl ⟨l.token x used, List.mem_singleton_self _, hp, hp'⟩

/-- Nothing of a text that is read to its end is left out. -/
theorem Reads.covered (hreads : Reads (start source) us l) (h : Reads l ts l')
    (hend : l'.rest = []) (hp : l.pos ≤ p) (hp' : p < source.length) : Covered source ts p := by
  induction h generalizing us with
  | refl l =>
    have hplaced := hreads.placed (placed_start source)
    have hlength := hplaced.rest
    rw [hend, List.length_nil] at hlength
    omega
  | @step l l₁ l' c more t ts hr hs h ih =>
    have hmono {vs : List Token} (hsub : vs ⊆ t.toList ++ ts) (ha : Covered source vs p) :
        Covered source (t.toList ++ ts) p :=
      ha.imp_left fun ⟨u, hu, hplace⟩ => ⟨u, hsub hu, hplace⟩
    by_cases hlt : p < l₁.pos
    · exact hmono (List.subset_append_left _ _) (covered_step hreads hr hs hp hlt)
    · exact hmono (List.subset_append_right _ _)
        (ih (hreads.trans (.single hr hs)) hend (by omega))

/-- Where the line ends. -/
def lineEnd (l : Lexer) : Nat :=
  l.pos + (l.rest.takeWhile (· != '\n')).length

theorem lineEnd_eq {used : Nat} (hused : used < l.rest.length)
    (hnone : '\n' ∉ l.rest.take (used + 1)) (hpos : l'.pos = l.pos + 1 + used)
    (hrest : l'.rest = l.rest.drop (used + 1)) : l'.lineEnd = l.lineEnd := by
  have hsplit : l.rest.takeWhile (· != '\n') =
      l.rest.take (used + 1) ++ l'.rest.takeWhile (· != '\n') := by
    conv_lhs => rw [← List.take_append_drop (used + 1) l.rest]
    rw [hrest]
    refine List.takeWhile_append_of_pos fun c hc => ?_
    rw [bne_iff_ne]
    rintro rfl
    exact hnone hc
  simp only [lineEnd, hsplit, hpos, List.length_append, List.length_take]
  omega

/-- The line ends before the place where reading goes on behind it. -/
def EndsFirst (l : Lexer) : Prop :=
  ∀ r, l.resume = some r → l.lineEnd + 1 ≤ r.pos

theorem rest_advance (l : Lexer) (used lines : Nat) :
    (l.advance used lines).rest = l.rest.drop (used + 1) := by
  rw [advance, ← List.drop_one, List.drop_drop, Nat.add_comm]

/-- A step that does not run over the line goes forward, and not into the bodies that are
pending. -/
theorem EndsFirst.step (hl : l.EndsFirst) (hplaced : l.Placed source.length)
    (hr : l.rest = c :: more) (hs : l.step c more = .ok (t, l'))
    (hno : l.passesNewline l' = false) :
    l'.EndsFirst ∧ l.pos ≤ l'.pos ∧ ∀ u ∈ t, u.start = l.pos ∧ u.stop ≤ l'.pos := by
  have hline {f : Front} (hf : l.front c more = .ok f) (hne : f ≠ .newline)
      (hpos : l'.pos = l.pos + 1 + f.used) (hrest : l'.rest = l.rest.drop (f.used + 1))
      {r : Resume} (hresume : l.resume = some r) : l'.lineEnd + 1 ≤ r.pos := by
    have hc : c ≠ '\n' := by
      rintro rfl
      cases hf
      exact hne rfl
    have hnone : '\n' ∉ l.rest.take (f.used + 1) := by
      rw [passesNewline, hresume, hr, show l'.pos - l.pos = f.used + 1 by omega] at hno
      rw [hr]
      simpa [hc] using hno
    rw [lineEnd_eq (used_lt_of_front hr hf) hnone hpos hrest]
    exact hl r hresume
  obtain ⟨used, lines, hf, rfl, rfl⟩ | ⟨x, used, lines, hf, rfl, rfl⟩ | ⟨hf, rfl, rfl⟩ |
    ⟨x, used, resume, hf, rfl, rfl⟩ := step_cases hs
  · refine ⟨fun r hresume => hline hf (by simp) rfl (rest_advance _ _ _) hresume, ?_, by simp⟩
    simp only [advance]
    omega
  · refine ⟨fun r hresume => hline hf (by simp) rfl (rest_advance l used lines) hresume, ?_, ?_⟩
    · simp only [advance]
      omega
    · rintro _ ⟨⟩
      exact ⟨rfl, Nat.le_refl _⟩
  · have hc : c = '\n' := Option.some.inj (front_fits hr hf)
    cases hresume : l.resume with
    | none =>
      rw [jump_of_resume_none hresume]
      refine ⟨fun r hr => ?_, by simp only [advance]; omega, ?_⟩
      · cases hresume.symm.trans hr
      · rintro _ ⟨⟩
        exact ⟨rfl, Nat.le_refl _⟩
    | some r =>
      have hle := hl r hresume
      simp only [lineEnd, hr, hc, bne_self_eq_false, Bool.false_eq_true, not_false_eq_true,
        List.takeWhile_cons_of_neg, List.length_nil] at hle
      rw [hplaced.jump_of_resume hresume]
      refine ⟨by rintro r ⟨⟩, by dsimp only; omega, ?_⟩
      rintro _ ⟨⟩
      exact ⟨rfl, by simp only [token]; omega⟩
  · have hrest := rest_advance l used 0
    refine ⟨?_, by simp only [advance]; omega, ?_⟩
    · rintro _ ⟨⟩
      obtain ⟨opener, hopener⟩ := front_eq_heredoc hr hf
      obtain ⟨-, body, parts, -, -, heq⟩ := frontHeredoc_eq_ok.1 hopener
      cases heq
      refine Nat.le_trans ?_ (Nat.le_add_right _ _)
      cases hresume : l.resume with
      | none =>
        have hlength : opener.length - 1 + 1 = opener.length := by
          simp only [HeredocOpener.length]
          omega
        rw [hlength] at hrest
        rw [bodyStart, hresume, Option.getD_none, toBody, ← hrest]
        simp only [lineEnd, advance]
        omega
      | some r =>
        rw [bodyStart, hresume]
        exact hline hf (by simp) rfl hrest hresume
    · rintro _ ⟨⟩
      exact ⟨rfl, Nat.le_refl _⟩

/-- As long as no line that announces a heredoc is run over, the tokens stand in order. -/
theorem Reads.ordered (h : Reads l ts l') (hl : l.EndsFirst) (hplaced : l.Placed source.length)
    (hno : l.overruns = false) :
    (∀ u ∈ ts, l.pos ≤ u.start) ∧ ts.Pairwise fun u v => u.stop ≤ v.start := by
  induction h with
  | refl l => simp
  | @step l l₁ l' c more t ts hr hs _ ih =>
    rw [overruns_step hr hs, Bool.or_eq_false_iff] at hno
    obtain ⟨hl₁, hpos, htoken⟩ := hl.step hplaced hr hs hno.1
    obtain ⟨hstarts, hpairs⟩ := ih hl₁ (hplaced.step hr hs) hno.2
    cases t with
    | none => exact ⟨fun u hu => hpos.trans (hstarts u hu), hpairs⟩
    | some v =>
      obtain ⟨hstart, hstop⟩ := htoken v rfl
      refine ⟨fun u hu => ?_, List.pairwise_cons.2 ⟨fun u hu => hstop.trans (hstarts u hu), hpairs⟩⟩
      rcases List.mem_cons.1 hu with rfl | hu
      · exact Nat.le_of_eq hstart.symm
      · exact hpos.trans (hstarts u hu)

theorem Reads.pos_le_of_nil (h : Reads l ts l') (hts : ts = []) : l.pos ≤ l'.pos := by
  induction h with
  | refl l => exact Nat.le_refl _
  | @step l l₁ l' c more t ts hr hs _ ih =>
    obtain ⟨ht, rfl⟩ := List.append_eq_nil_iff.1 hts
    have hle := ih rfl
    obtain ⟨used, lines, hf, rfl, rfl⟩ | ⟨x, used, lines, hf, rfl, rfl⟩ | ⟨hf, rfl, rfl⟩ |
      ⟨x, used, resume, hf, rfl, rfl⟩ := step_cases hs
    · simp only [advance] at hle
      omega
    all_goals cases ht

/-- The tokens that are read before the bodies of some heredocs, and those that are read behind
them. -/
theorem SkipsBodies.exists_append {lines : LineMap} {eof : Token} {u v : Nat}
    (h : SkipsBodies source u v) (htokens : tokenize lines source = .ok (ts ++ [eof])) :
    ∃ before newline behind, ts = before ++ newline :: behind ∧ newline.stop = u ∧
      ∀ t ∈ behind.head?, v ≤ t.start := by
  obtain ⟨before, l, r, hreads, hnewline, hresume, rfl, rfl⟩ := h
  obtain ⟨more, hrest⟩ : ∃ more, l.rest = '\n' :: more := by
    cases hrest : l.rest with
    | nil =>
      rw [hrest] at hnewline
      cases hnewline
    | cons c more =>
      rw [hrest] at hnewline
      cases hnewline
      exact ⟨more, rfl⟩
  have hstep : l.step '\n' more = .ok (some (l.token .newline 0),
      { l.jump with previous := some .newline }) := rfl
  have hall := hreads.trans (.single hrest hstep)
  rw [tokenize_eq_ok, run_of_reads hall] at htokens
  obtain ⟨tokens, hrun, hsplit⟩ := map_eq_ok_iff.1 htokens
  obtain ⟨behind, l', hbehind, -, rfl⟩ := run_eq_ok hrun
  rw [← List.append_assoc] at hsplit
  obtain ⟨hsplit, -⟩ := List.append_inj' hsplit rfl
  refine ⟨before, l.token .newline 0, behind, by simpa using hsplit.symm, rfl, fun t ht => ?_⟩
  obtain ⟨tail, rfl⟩ : ∃ tail, behind = t :: tail := List.head?_eq_some_iff.1 ht
  obtain ⟨l₀, x, used, hskip, -, rfl⟩ := Control.exists_of_reads_cons hbehind rfl
  have hle := hskip.pos_le_of_nil rfl
  rw [(hreads.placed (placed_start source)).jump_of_resume hresume] at hle
  exact hle

end Lexer

end RecipeManifest

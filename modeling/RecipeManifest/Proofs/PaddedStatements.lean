import RecipeManifest.Proofs.PaddedValues
import RecipeManifest.Proofs.PlainReading

/-!
Reading statements from tokens with more line ends in them.

Statements are read in the same way from tokens with more line ends, but for their lines and the
text of code outside the grammar (`Statement.outline`), with one exception: such code goes on in the
next line behind a mark at the end of a line, and then it goes past one line end only. `openBreaks`
are the line ends behind which it goes on in this way, outside all blocks and brackets, and
`BlockSource.passedBreaks` are those of all statements that are read. Where none of them is doubled
the statements are the same (`matched_statements`).
-/

namespace RecipeManifest

/-! ## What is compared -/

namespace Statement

mutual

/-- The statement without its lines and without the text of code outside the grammar. -/
def outline : Statement → Statement
  | resource type name body hasBlock _ => .resource type name (outlineAll body) hasBlock 0
  | property name args block _ => .property name args (outlineBlock block) 0
  | expression expr _ => .expression expr 0
  | unsupported _ _ => .unsupported "" 0

def outlineAll : List Statement → List Statement
  | [] => []
  | s :: rest => outline s :: outlineAll rest

def outlineBlock : Option (List Statement) → Option (List Statement)
  | none => none
  | some body => some (outlineAll body)

end

end Statement

/-! ## Line ends in code outside the grammar -/

/-- The line ends outside all blocks and brackets behind which unsupported code goes on. -/
def openBreaks (closer : Option Closer) (depth : Nat) (last : Option Lexeme) (fresh : Bool) :
    List Token → List Token
  | [] => []
  | t :: more =>
    if t.lexeme = .eof ∨ (depth = 0 ∧ endsUnsupported closer last t.lexeme) then []
    else
      (if depth = 0 ∧ t.lexeme = .newline ∧ endsStatement closer (peek more) = false then [t]
        else []) ++
        openBreaks closer (depthAfter depth fresh t.lexeme) (some t.lexeme)
          (startsFresh t.lexeme) more

/-- What closes the block that a lexeme opens behind a command. -/
def blockCloser? : Lexeme → Option Closer
  | .keyword .doWord => some .endWord
  | .op .braceL => some .brace
  | _ => none

theorem afterBreaks_afterBreaks (ts : List Token) : afterBreaks (afterBreaks ts) = afterBreaks ts :=
  List.dropWhile_idempotent _ _

namespace BlockSource

variable (b : BlockSource)

/-- The statement here is kept as text. -/
def keepsAsText (closer : Option Closer) (ts : List Token) : Bool :=
  match b.supported closer ts with
  | .ok (_, rest) => !endsStatement closer (peek rest)
  | .error .mismatch => true
  | .error _ => false

/-- The block of the command that stands here: what closes it, and its statements on. -/
def blockOf? (ts : List Token) : Option (Closer × List Token) :=
  if opensBlock (peek ts) || !startsCommand ts then none
  else
    match b.commandHead ts with
    | .ok (_, t :: more) =>
      match blockCloser? t.lexeme, skipParameters (afterBreaks more) with
      | some c, .ok items => some (c, items)
      | _, _ => none
    | _ => none

/-- The line ends outside all blocks and brackets behind which code kept as text goes on, in all
statements from here on and in their blocks. -/
def passedBreaks (closer : Option Closer) (ts : List Token) : List Token :=
  match _hs : afterBreaks ts with
  | [] => []
  | t :: more =>
    if t.lexeme = .eof ∨ closer.any (·.isAt t.lexeme) then []
    else
      let own :=
        if b.keepsAsText closer (t :: more) then openBreaks closer 0 none true (t :: more) else []
      let inner :=
        match b.blockOf? (t :: more) with
        | some (c, items) =>
          if items.length < (t :: more).length then passedBreaks (some c) items else []
        | none => []
      let later :=
        match b.statement closer (t :: more) with
        | .ok (_, rest) =>
          if rest.length < (t :: more).length then passedBreaks closer rest else []
        | .error _ => []
      own ++ inner ++ later
termination_by ts.length
decreasing_by
  all_goals
    have := length_afterBreaks_le ts
    simp only [_hs] at this
    omega

theorem passedBreaks_congr {closer : Option Closer} {ts us : List Token}
    (h : afterBreaks ts = afterBreaks us) : b.passedBreaks closer ts = b.passedBreaks closer us := by
  rw [passedBreaks, passedBreaks.eq_def b closer us, h]

/-- Where the statement at the front stands no closer, the line ends that are passed are those of
its own text, of its block and of the statements behind it. -/
theorem passedBreaks_eq {closer : Option Closer} {ts : List Token} {t : Token} {more : List Token}
    (hs : afterBreaks ts = t :: more) (heof : t.lexeme ≠ .eof)
    (hcloser : (closer.any fun c => c.isAt t.lexeme) = false) {P : Token → Prop}
    (h : ∀ u ∈ b.passedBreaks closer ts, P u) :
    (b.keepsAsText closer (t :: more) = true →
      ∀ u ∈ openBreaks closer 0 none true (t :: more), P u) ∧
    (∀ c items, b.blockOf? (t :: more) = some (c, items) → items.length < (t :: more).length →
      ∀ u ∈ b.passedBreaks (some c) items, P u) ∧
    ∀ s rest, b.statement closer (t :: more) = .ok (s, rest) → rest.length < (t :: more).length →
      ∀ u ∈ b.passedBreaks closer rest, P u := by
  rw [passedBreaks] at h
  split at h
  · next hnil =>
    rw [hs] at hnil
    cases hnil
  · next t' more' hcons =>
    rw [hs] at hcons
    cases hcons
    rw [if_neg (by simp [heof, hcloser])] at h
    refine ⟨?_, ?_, ?_⟩
    · intro hkept u hu
      apply h u
      simp [hkept, hu]
    · intro c items hblock hlt u hu
      apply h u
      rw [hblock]
      dsimp only
      rw [if_pos hlt]
      simp [hu]
    · intro s rest hstatement hlt u hu
      apply h u
      rw [hstatement]
      dsimp only
      rw [if_pos hlt]
      simp [hu]

end BlockSource

/-- Behind a line end unsupported code ends where a statement does. -/
theorem skipUnsupported_of_ends {closer : Option Closer} {ts : List Token}
    (h : endsStatement closer (peek ts) = true) (fresh : Bool) (stop : Nat) :
    skipUnsupported closer 0 (some .newline) fresh stop ts = .ok (stop, ts) := by
  cases ts with
  | nil => rfl
  | cons t more =>
    rw [skipUnsupported]
    split
    · rfl
    · next heof =>
      have hends : endsUnsupported closer (some .newline) t.lexeme = true := by
        simpa [endsStatement, endsUnsupported, peek, heof, continuesLine] using h
      rw [if_pos ⟨rfl, hends⟩]

namespace Padding

/-- Both readers stop for the same reason, or make related values and leave tokens that are related
behind their line ends. -/
inductive Parted (p : Padding) {α β : Type} (R : α → β → Prop) (ts us : List Token) :
    Except Stop (α × List Token) → Except Stop (β × List Token) → Prop
  | error (e : Stop) : Parted p R ts us (.error e) (.error e)
  | ok {a : α} {b : β} {rest rest' : List Token} (hvalue : R a b)
      (honward : Onward ts us rest rest')
      (hpadded : p.Padded (afterBreaks rest) (afterBreaks rest')) :
      Parted p R ts us (.ok (a, rest)) (.ok (b, rest'))

variable {p : Padding} {ts us : List Token}

section Parted

variable {α β : Type} {R : α → β → Prop} {r : Except Stop (α × List Token)}
  {r' : Except Stop (β × List Token)}

theorem Matched.parted (h : p.Matched R ts us r r') : p.Parted R ts us r r' := by
  cases h with
  | error e => exact .error e
  | ok hvalue h => exact .ok hvalue h.onward h.padded.afterBreaks.padded

theorem Parted.from_leaves {ts₁ us₁ : List Token} (hleaves : p.Leaves ts us ts₁ us₁)
    (h : p.Parted R ts₁ us₁ r r') : p.Parted R ts us r r' := by
  cases h with
  | error e => exact .error e
  | ok hvalue honward hpadded => exact .ok hvalue (hleaves.onward.trans honward) hpadded

theorem Parted.cases (h : p.Parted R ts us r r') :
    (∃ e, r = .error e ∧ r' = .error e) ∨
      ∃ a b rest rest', r = .ok (a, rest) ∧ r' = .ok (b, rest') ∧ R a b ∧
        Onward ts us rest rest' ∧ p.Padded (afterBreaks rest) (afterBreaks rest') := by
  cases h with
  | error e => exact .inl ⟨e, rfl, rfl⟩
  | ok hvalue honward hpadded => exact .inr ⟨_, _, _, _, rfl, rfl, hvalue, honward, hpadded⟩

theorem Parted.goOn (h : p.Parted R ts us r r') {γ δ : Type} {S : γ → δ → Prop}
    {next : α → (rest : List Token) → rest.length < ts.length → Except Stop (γ × List Token)}
    {next' : β → (rest : List Token) → rest.length < us.length → Except Stop (δ × List Token)}
    (hnext : ∀ a b rest rest' hlt hlt', r = .ok (a, rest) → R a b →
      p.Padded (RecipeManifest.afterBreaks rest) (RecipeManifest.afterBreaks rest') →
      p.Matched S (RecipeManifest.afterBreaks rest) (RecipeManifest.afterBreaks rest')
        (next a rest hlt) (next' b rest' hlt')) :
    p.Matched S ts us (RecipeManifest.goOn ts .mismatch r next)
      (RecipeManifest.goOn us .mismatch r' next') := by
  obtain ⟨e, rfl, rfl⟩ | ⟨a, b, rest, rest', rfl, rfl, hvalue, honward, hpadded⟩ := h.cases
  · exact .error e
  · unfold RecipeManifest.goOn
    dsimp only
    by_cases hlt : rest.length < ts.length
    · have hlt' := honward.length_lt_iff.2 hlt
      rw [dif_pos hlt, dif_pos hlt']
      refine .from_leaves ⟨hpadded, .inr ⟨?_, ?_⟩⟩
        (hnext a b rest rest' hlt hlt' rfl hvalue hpadded)
      · exact Nat.lt_of_le_of_lt (length_afterBreaks_le rest) hlt
      · exact Nat.lt_of_le_of_lt (length_afterBreaks_le rest') hlt'
    · rw [dif_neg hlt, dif_neg (mt honward.length_lt_iff.1 hlt)]
      exact .error _

end Parted

/-- Where no line end behind which it goes on outside of brackets is doubled, unsupported code ends
at the same place, up to line ends. -/
theorem parted_skipUnsupported (h : p.Padded ts us) (closer : Option Closer) (depth : Nat)
    (last : Option Lexeme) (fresh : Bool) (stop stop' : Nat)
    (hopen : ∀ t ∈ openBreaks closer depth last fresh ts, ¬ p.doubled t) :
    p.Parted (fun _ _ => True) ts us (skipUnsupported closer depth last fresh stop ts)
      (skipUnsupported closer depth last fresh stop' us) := by
  induction h generalizing depth last fresh stop stop' with
  | nil =>
    rw [skipUnsupported, skipUnsupported]
    split
    · exact (Matched.ok trivial Padded.nil.leaves).parted
    · exact .error _
  | @cons t u ts us halike h ih =>
    have hself : p.Parted (fun _ _ => True) (t :: ts) (u :: us) (.ok (stop, t :: ts))
        (.ok (stop', u :: us)) :=
      (Matched.ok trivial (Padded.cons halike h).leaves).parted
    rw [skipUnsupported, skipUnsupported, halike.lexeme]
    rw [openBreaks] at hopen
    by_cases heof : t.lexeme = .eof
    · rw [if_pos heof, if_pos heof]
      split
      · exact hself
      · exact .error _
    · rw [if_neg heof, if_neg heof]
      split
      · exact hself
      · next hends =>
        rw [if_neg (by simp [heof, hends])] at hopen
        apply Parted.from_leaves (.tail h)
        apply ih
        exact fun v hv => hopen v (List.mem_append_right _ hv)
  | @extra t u n ts us halike ht hdoubled hn h ih =>
    have hu : u.lexeme = .newline := halike.lexeme.trans ht
    have heof : Lexeme.newline ≠ .eof := by simp
    rw [openBreaks, ht] at hopen
    rw [skipUnsupported, skipUnsupported, ht, hu, if_neg heof, if_neg heof]
    split
    · exact (Matched.ok trivial (Padded.extra halike ht hdoubled hn h).leaves).parted
    · next hends =>
      rw [if_neg (by simpa using hends)] at hopen
      by_cases hdepth : depth = 0
      · -- the code ends behind the first line end, so the second one is left
        subst hdepth
        have hstops : endsStatement closer (RecipeManifest.peek ts) = true := by
          by_contra hgoes
          exact hopen t (by simp [hgoes]) hdoubled
        have hstops' : endsStatement closer (RecipeManifest.peek (n :: us)) = true := by
          simp [endsStatement, hn, Lexeme.isSeparator]
        have hzero : depthAfter 0 fresh .newline = 0 := rfl
        rw [hzero, skipUnsupported_of_ends hstops, skipUnsupported_of_ends hstops']
        refine .ok trivial (.inr (by simp)) ?_
        rw [BlockSource.afterBreaks_separator (by simp [hn, Lexeme.isSeparator])]
        exact h.afterBreaks.padded
      · -- inside a block or brackets the second line end is passed like the first
        rw [skipUnsupported, hn, if_neg heof, if_neg (by simp [depthAfter, hdepth])]
        apply Parted.from_leaves (.tail_extra h)
        apply ih
        exact fun v hv => hopen v (List.mem_append_right _ hv)

theorem Padded.head_spaced (h : p.Padded ts us) :
    us.head?.any (·.spaced) = ts.head?.any (·.spaced) := by
  cases h with
  | nil => rfl
  | cons halike _ => simp [halike.spaced]
  | extra halike _ _ _ _ => simp [halike.spaced]

theorem Padded.startsCommand (h : p.Padded ts us) : startsCommand us = startsCommand ts := by
  cases ts with
  | nil => cases h; rfl
  | cons t more =>
    obtain ⟨⟨x, _, _, _, _⟩, more', rfl, halike, hmore⟩ := h.head
    obtain ⟨_, _, _, _, _⟩ := t
    cases halike.lexeme
    cases x with
    | ident name =>
      have hmore := hmore (by simp)
      unfold RecipeManifest.startsCommand
      dsimp only
      rw [hmore.peek, hmore.head_spaced]
      cases hpeek : RecipeManifest.peek more with
      | op o =>
        -- a mark is no line end, so what follows it is alike too
        rw [(hmore.tail_of_op (o := o) (by simp [atOp, hpeek])).padded.head_spaced]
      | _ => rfl
    | _ => rfl

theorem Padded.skipParameters (h : p.Padded ts us) :
    (skipParameters ts = .error .endOfBlock ∧ skipParameters us = .error .endOfBlock) ∨
      ∃ rest rest', skipParameters ts = .ok rest ∧ skipParameters us = .ok rest' ∧
        p.Leaves ts us rest rest' := by
  unfold RecipeManifest.skipParameters
  rw [atOp, atOp, h.peek]
  split
  · next hbar =>
    have htail := h.tail_of_op hbar
    have hdrop := htail.padded.dropWhile (f := fun x => x != .op .bar && x != .eof) rfl
    obtain ⟨hts, hus⟩ | ⟨t, more, u, more', hts, hus, halike, hmore⟩ := hdrop.padded.nil_or_cons
    · rw [hts, hus]
      exact .inl ⟨rfl, rfl⟩
    · rw [hts, hus] at hdrop ⊢
      dsimp only
      rw [halike.lexeme]
      have hne : t.lexeme ≠ .newline := by
        have := List.head_dropWhile_not (fun t : Token => t.lexeme != .op .bar && t.lexeme != .eof)
          (l := ts.tail) (by simp [hts])
        rintro heq
        simp [hts, heq] at this
      split
      · exact .inl ⟨rfl, rfl⟩
      · exact .inr ⟨more, more', rfl, rfl, (htail.trans hdrop).trans (.tail (hmore hne))⟩
  · exact .inr ⟨ts, us, rfl, rfl, h.leaves⟩

end Padding

/-! ## Statements -/

/-- The statements are the same but for what `outline` leaves out. -/
def Statement.SameOutline (s s' : Statement) : Prop :=
  s'.outline = s.outline

theorem sameOutline_resource (type : String) (name : Option Expr)
    {block block' : Option (List Statement)}
    (h : Statement.outlineBlock block' = Statement.outlineBlock block) (line line' : Int) :
    (Statement.resource type name (block.getD []) block.isSome line).SameOutline
      (.resource type name (block'.getD []) block'.isSome line') := by
  unfold Statement.SameOutline
  cases block <;> cases block' <;> simp_all [Statement.outline, Statement.outlineBlock]

theorem sameOutline_property (name : String) (args : List Expr)
    {block block' : Option (List Statement)}
    (h : Statement.outlineBlock block' = Statement.outlineBlock block) (line line' : Int) :
    (Statement.property name args block line).SameOutline (.property name args block' line') := by
  simp [Statement.SameOutline, Statement.outline, h]

namespace BlockSource

variable {b b' : BlockSource} {doubled : Token → Prop}

/-- The readings of two blocks, with some line ends of the first one doubled in the second. -/
abbrev padding (b b' : BlockSource) (doubled : Token → Prop) : Padding :=
  ⟨b.interpret, b'.interpret, doubled⟩

theorem parted_unsupported (closer : Option Closer) {ts us : List Token}
    (h : (b.padding b' doubled).Padded ts us)
    (hopen : ∀ t ∈ openBreaks closer 0 none true ts, ¬ doubled t) :
    (b.padding b' doubled).Parted Statement.SameOutline ts us (b.unsupported closer ts)
      (b'.unsupported closer us) := by
  have hskip := Padding.parted_skipUnsupported h closer 0 none true (ts.head?.elim 0 (·.stop))
    (us.head?.elim 0 (·.stop)) hopen
  unfold unsupported
  obtain ⟨e, hts, hus⟩ | ⟨stop, stop', rest, rest', hts, hus, -, honward, hpadded⟩ := hskip.cases
  · rw [hts, hus]
    exact .error e
  · rw [hts, hus]
    exact .ok rfl honward hpadded

theorem peek_ne_newline {ts : List Token} (h : startsCommand ts = true) : peek ts ≠ .newline := by
  cases ts with
  | nil => simp [peek]
  | cons t more =>
    obtain ⟨x, _, _, _, _⟩ := t
    rintro rfl
    cases h

theorem matched_commandHead {ts us : List Token} (h : (b.padding b' doubled).Padded ts us)
    (hname : peek ts ≠ .newline) :
    (b.padding b' doubled).Matched Eq ts us (b.commandHead ts) (b'.commandHead us) := by
  have htail : (b.padding b' doubled).Leaves ts us ts.tail us.tail := by
    match ts, h with
    | [], .nil => exact Padding.Padded.nil.leaves
    | t :: more, h =>
      obtain ⟨u, more', rfl, -, hmore⟩ := h.head
      exact .tail (hmore hname)
  have hhead : ∀ args rest rest', (b.padding b' doubled).Padded rest rest' →
      (b.padding b' doubled).Matched Eq rest rest'
        (pure (((peek ts).value,
          if (peek ts).value = "resources" then [Expr.resources (lookupTargets args)] else args),
          rest))
        (pure (((peek ts).value,
          if (peek ts).value = "resources" then [Expr.resources (lookupTargets args)] else args),
          rest')) :=
    fun args rest rest' hrest => .ok rfl hrest.leaves
  unfold commandHead
  rw [h.peek, htail.padded.atTightOp, htail.padded.peek]
  apply Padding.Matched.from_leaves htail
  split
  · next hparen =>
    have hargs := htail.padded.tail_of_op (atOp_of_atTightOp hparen)
    apply Padding.Matched.from_leaves hargs
    apply (Padding.matched_arguments (some .parenR) _ _ hargs.padded).bind
    rintro args _ rest rest' rfl hrest
    apply Padding.Matched.pastOp hrest
    intro rest rest' hrest
    exact hhead args rest rest' hrest
  · split
    · exact hhead [] _ _ htail.padded
    · apply (Padding.matched_arguments none _ _ htail.padded).bind
      rintro args _ rest rest' rfl hrest
      exact hhead args rest rest' hrest

/-- The statement here is read by the grammar, or kept as text. -/
theorem statement_eq (b : BlockSource) (closer : Option Closer) (ts : List Token) :
    b.statement closer ts =
      if b.keepsAsText closer ts then b.unsupported closer ts else b.supported closer ts := by
  rw [statement, keepsAsText]
  cases b.supported closer ts with
  | error e => cases e <;> rfl
  | ok r =>
    obtain ⟨s, rest⟩ := r
    cases hends : endsStatement closer (peek rest) <;> simp [hends]

mutual

theorem parted_statement (closer : Option Closer) (ts us : List Token)
    (h : (b.padding b' doubled).Padded ts us)
    (hopen : b.keepsAsText closer ts = true →
      ∀ t ∈ openBreaks closer 0 none true ts, ¬ doubled t)
    (hinner : ∀ c items, b.blockOf? ts = some (c, items) → items.length < ts.length →
      ∀ t ∈ b.passedBreaks (some c) items, ¬ doubled t) :
    (b.padding b' doubled).Parted Statement.SameOutline ts us (b.statement closer ts)
      (b'.statement closer us) := by
  have hsupported := matched_supported closer ts us h hinner
  have hkept : b'.keepsAsText closer us = b.keepsAsText closer ts := by
    unfold keepsAsText
    obtain ⟨e, hts, hus⟩ | ⟨s, s', rest, rest', hts, hus, -, hleaves⟩ := hsupported.cases
    · rw [hts, hus]
    · rw [hts, hus]
      dsimp only
      rw [hleaves.padded.peek]
  rw [statement_eq, statement_eq, hkept]
  split
  · next hkept => exact parted_unsupported closer h (hopen hkept)
  · exact hsupported.parted
termination_by 8 * ts.length + 1
decreasing_by all_goals omega

theorem matched_supported (closer : Option Closer) (ts us : List Token)
    (h : (b.padding b' doubled).Padded ts us)
    (hinner : ∀ c items, b.blockOf? ts = some (c, items) → items.length < ts.length →
      ∀ t ∈ b.passedBreaks (some c) items, ¬ doubled t) :
    (b.padding b' doubled).Matched Statement.SameOutline ts us (b.supported closer ts)
      (b'.supported closer us) := by
  rw [supported, supported, h.peek, h.startsCommand]
  split
  · exact .error _
  · next hopens =>
    split
    · next hcommand =>
      apply (matched_commandHead h (peek_ne_newline hcommand)).goOn_of_eq
      rintro ⟨name, args⟩ _ rest rest' hlt hlt' hhead rfl hrest
      have hitems : ∀ t more c items, rest = t :: more → blockCloser? t.lexeme = some c →
          skipParameters (afterBreaks more) = .ok items →
          ∀ t ∈ b.passedBreaks (some c) items, ¬ doubled t := by
        rintro t more c items rfl hcloser hitems
        apply hinner c items
        · simp [blockOf?, hopens, hcommand, hhead, hcloser, hitems]
        · have h1 := length_skipParameters_le hitems
          have h2 := length_afterBreaks_le more
          simp only [List.length_cons] at hlt
          omega
      obtain ⟨e, hts, hus⟩ | ⟨block, block', rest₁, rest₁', hts, hus, hblock, hleaves⟩ :=
        (matched_commandBlock rest rest' hrest hitems).cases
      · rw [hts, hus]
        exact .error e
      · rw [hts, hus]
        cases closer with
        | none => exact .ok (sameOutline_resource name args.head? hblock _ _) hleaves
        | some c => exact .ok (sameOutline_property name args hblock _ _) hleaves
    · split
      · exact .error _
      · apply (Padding.matched_expression 0 ts us h).map
          (f := fun e => Statement.expression e (b.lineInFile ts))
          (g := fun e => Statement.expression e (b'.lineInFile us))
        rintro e _ rfl
        rfl
termination_by 8 * ts.length
decreasing_by all_goals omega

theorem matched_commandBlock (ts us : List Token) (h : (b.padding b' doubled).Padded ts us)
    (hinner : ∀ t more c items, ts = t :: more → blockCloser? t.lexeme = some c →
      skipParameters (afterBreaks more) = .ok items →
      ∀ t ∈ b.passedBreaks (some c) items, ¬ doubled t) :
    (b.padding b' doubled).Matched
      (fun block block' => Statement.outlineBlock block' = Statement.outlineBlock block) ts us
      (b.commandBlock ts) (b'.commandBlock us) := by
  rw [commandBlock.eq_def, commandBlock.eq_def b']
  match ts, h with
  | [], .nil => exact .ok rfl Padding.Padded.nil.leaves
  | t :: more, h =>
    obtain ⟨u, more', rfl, halike, hmore⟩ := h.head
    dsimp only
    rw [halike.lexeme]
    split
    · next ht =>
      have hmore := hmore (by simp [ht])
      apply Padding.Matched.from_leaves (.tail hmore)
      apply (matched_block .endWord more more' hmore
        fun items hitems => hinner t more .endWord items rfl (by rw [ht]; rfl) hitems).map
      intro body body' hbody
      exact congrArg some hbody
    · next ht =>
      have hmore := hmore (by simp [ht])
      apply Padding.Matched.from_leaves (.tail hmore)
      apply (matched_block .brace more more' hmore
        fun items hitems => hinner t more .brace items rfl (by rw [ht]; rfl) hitems).map
      intro body body' hbody
      exact congrArg some hbody
    · exact .ok rfl h.leaves
termination_by 8 * ts.length + 1
decreasing_by all_goals simp only [List.length_cons]; omega

theorem matched_block (closer : Closer) (ts us : List Token)
    (h : (b.padding b' doubled).Padded ts us)
    (hinner : ∀ items, skipParameters (afterBreaks ts) = .ok items →
      ∀ t ∈ b.passedBreaks (some closer) items, ¬ doubled t) :
    (b.padding b' doubled).Matched
      (fun body body' => Statement.outlineAll body' = Statement.outlineAll body) ts us
      (b.block closer ts) (b'.block closer us) := by
  rw [block.eq_def, block.eq_def b']
  have hbreaks := h.afterBreaks
  obtain ⟨hts, hus⟩ | ⟨items, items', hts, hus, hleaves⟩ := hbreaks.padded.skipParameters
  · rw [hts, hus]
    exact .error _
  · rw [hts, hus]
    have hlength : items.length ≤ ts.length :=
      Nat.le_trans (length_skipParameters_le hts) (length_afterBreaks_le ts)
    apply Padding.Matched.from_leaves (hbreaks.trans hleaves)
    exact matched_blockItems closer items items' hleaves.padded (hinner items hts)
termination_by 8 * ts.length + 3
decreasing_by omega

theorem matched_blockItems (closer : Closer) (ts us : List Token)
    (h : (b.padding b' doubled).Padded ts us)
    (hinner : ∀ t ∈ b.passedBreaks (some closer) ts, ¬ doubled t) :
    (b.padding b' doubled).Matched
      (fun body body' => Statement.outlineAll body' = Statement.outlineAll body) ts us
      (b.blockItems closer ts) (b'.blockItems closer us) := by
  rw [blockItems.eq_def, blockItems.eq_def b']
  have hbreaks := h.afterBreaks
  apply Padding.Matched.from_leaves hbreaks
  obtain ⟨hts, hus⟩ | ⟨t, more, u, more', hts, hus, halike, hmore⟩ := hbreaks.padded.nil_or_cons
  · rw [hts, hus]
    exact .error _
  · have hle : (t :: more).length ≤ ts.length := hts ▸ length_afterBreaks_le ts
    rw [hts, hus] at hbreaks ⊢
    dsimp only
    rw [halike.lexeme]
    split
    · exact .error _
    · next heof =>
      split
      · next hcloser =>
        refine .ok rfl (.tail (hmore ?_))
        rintro heq
        cases closer <;> simp [heq, Closer.isAt] at hcloser
      · next hcloser =>
        obtain ⟨hopen, hblock, hlater⟩ := b.passedBreaks_eq hts heof (by simpa using hcloser) hinner
        apply (parted_statement (some closer) _ _ hbreaks.padded hopen hblock).goOn
        intro s s' rest rest' hlt hlt' hs hsame hrest
        have hle := length_afterBreaks_le rest
        have hlater := hlater s rest hs hlt
        rw [← passedBreaks_congr b (afterBreaks_afterBreaks rest)] at hlater
        rw [← blockItems_congr (afterBreaks_afterBreaks rest),
          ← blockItems_congr (afterBreaks_afterBreaks rest')]
        apply (matched_blockItems closer _ _ hrest hlater).map
        intro items items' hitems
        simp only [Statement.outlineAll]
        rw [hitems, hsame]
termination_by 8 * ts.length + 2
decreasing_by all_goals omega

end

/-- The statements of both texts are the same but for their lines and the text of code outside the
grammar, and both texts end inside a statement or neither does. -/
theorem matched_statements (ts us : List Token) (h : (b.padding b' doubled).Padded ts us)
    (hopen : ∀ t ∈ b.passedBreaks none ts, ¬ doubled t) :
    (∃ f, b.statements ts = .error f ∧ b'.statements us = .error f) ∨
      ∃ items items' line line', b.statements ts = .ok (items, line) ∧
        b'.statements us = .ok (items', line') ∧
        Statement.outlineAll items' = Statement.outlineAll items ∧
        line'.isSome = line.isSome := by
  rw [statements.eq_def, statements.eq_def b']
  have hbreaks := h.afterBreaks
  obtain ⟨hts, hus⟩ | ⟨t, more, u, more', hts, hus, halike, -⟩ := hbreaks.padded.nil_or_cons
  · rw [hts, hus]
    exact .inr ⟨[], [], none, none, rfl, rfl, rfl, rfl⟩
  · have hle : (t :: more).length ≤ ts.length := hts ▸ length_afterBreaks_le ts
    rw [hts, hus] at hbreaks ⊢
    dsimp only
    rw [halike.lexeme]
    by_cases heof : t.lexeme = .eof
    · rw [if_pos heof, if_pos heof]
      exact .inr ⟨[], [], none, none, rfl, rfl, rfl, rfl⟩
    · rw [if_neg heof, if_neg heof]
      obtain ⟨hown, hblock, hlater⟩ := b.passedBreaks_eq hts heof rfl hopen
      obtain ⟨e, hs, hs'⟩ | ⟨s, s', rest, rest', hs, hs', hsame, honward, hrest⟩ :=
        (parted_statement none _ _ hbreaks.padded hown hblock).cases
      · rw [hs, hs']
        cases e with
        | fault f => exact .inl ⟨f, rfl, rfl⟩
        | mismatch => exact .inr ⟨[], [], _, _, rfl, rfl, rfl, rfl⟩
        | endOfBlock => exact .inr ⟨[], [], _, _, rfl, rfl, rfl, rfl⟩
      · rw [hs, hs']
        dsimp only
        by_cases hlt : rest.length < (t :: more).length
        · rw [dif_pos hlt, dif_pos (honward.length_lt_iff.2 hlt)]
          have hle := length_afterBreaks_le rest
          have hlater := hlater s rest hs hlt
          rw [← passedBreaks_congr b (afterBreaks_afterBreaks rest)] at hlater
          rw [← statements_congr (afterBreaks_afterBreaks rest),
            ← statements_congr (afterBreaks_afterBreaks rest')]
          obtain ⟨f, hts, hus⟩ | ⟨items, items', line, line', hts, hus, hitems, hline⟩ :=
            matched_statements _ _ hrest hlater
          · rw [hts, hus]
            exact .inl ⟨f, rfl, rfl⟩
          · rw [hts, hus]
            refine .inr ⟨s :: items, s' :: items', line, line', rfl, rfl, ?_, hline⟩
            simp only [Statement.outlineAll]
            rw [hitems, hsame]
        · rw [dif_neg hlt, dif_neg (mt honward.length_lt_iff.1 hlt)]
          refine .inr ⟨[s], [s'], none, none, rfl, rfl, ?_, rfl⟩
          simp only [Statement.outlineAll]
          rw [hsame]
termination_by ts.length
decreasing_by omega

end BlockSource

end RecipeManifest

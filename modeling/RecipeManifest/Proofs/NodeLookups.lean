import RecipeManifest.Proofs.Precedence
import RecipeManifest.Proofs.WrittenLiterals

/-!
Node lookups in every notation.

A lookup goes from key to key, and each key can be written as a symbol or a quoted text in brackets,
or as a name after a point. What follows the word `node` is read whole, whatever the mix:

    attr node[:a].b['c']               means the lookup of a, b, c
    attr "x#{node[:a].b['c']}y"        means x, the lookup of a, b, c, and y      (read_nodeLookup)

A name after a point is only a name, also if it is spelled like a reserved word. In a string the
code is found first, as a stretch of text, and then read by itself from its own tokens.
-/

namespace RecipeManifest

open Plain

/-! ## Lookups -/

/-- One key of a lookup, in the notation that it is written in. -/
inductive Lookup where
  /-- `[:name]` -/
  | symbol (name : Ident)
  /-- `.name` -/
  | member (name : Ident)
  /-- `['text']` -/
  | quoted (text : String) (one_line : '\n' ∉ text.toList)

namespace Lookup

def segment : Lookup → String
  | symbol name | member name => name.text
  | quoted text _ => text

def chars : Lookup → List Char
  | symbol name => '[' :: ':' :: (name.chars ++ [']'])
  | member name => '.' :: name.chars
  | quoted text _ => '[' :: (singleQuoted text.toList ++ [']'])

end Lookup

/-- The word `node` with at least one key behind it. -/
structure NodeLookup where
  first : Lookup
  more : List Lookup

namespace NodeLookup

def lookups (n : NodeLookup) : List Lookup :=
  n.first :: n.more

def path (n : NodeLookup) : List String :=
  n.lookups.map Lookup.segment

def chars (n : NodeLookup) : List Char :=
  "node".toList ++ n.lookups.flatMap Lookup.chars

end NodeLookup

/-- The tokens spell the keys. -/
inductive LookupTokens : List Lookup → List Token → Prop
  | nil : LookupTokens [] []
  | symbol {name : Ident} {more : List Lookup} {o t c : Token} {us : List Token}
      (ho : o.lexeme = .op .bracketL) (hs : o.spaced = false) (ht : t.lexeme = .symbol name.text)
      (hc : c.lexeme = .op .bracketR) (hm : LookupTokens more us) :
      LookupTokens (.symbol name :: more) (o :: t :: c :: us)
  | member {name : Ident} {more : List Lookup} {d t : Token} {us : List Token}
      (hd : d.lexeme = .op .dot) (ht : t.lexeme = .ident name.text) (hm : LookupTokens more us) :
      LookupTokens (.member name :: more) (d :: t :: us)
  | quoted {text : String} {one_line : '\n' ∉ text.toList} {more : List Lookup} {o t c : Token}
      {us : List Token} (ho : o.lexeme = .op .bracketL) (hs : o.spaced = false)
      (ht : t.lexeme = .string [.text text.toList]) (hc : c.lexeme = .op .bracketR)
      (hm : LookupTokens more us) : LookupTokens (.quoted text one_line :: more) (o :: t :: c :: us)

/-! ## Tokens -/

namespace Lexer

variable {l : Lexer} {r : List Char}

/-- A key in brackets. -/
theorem scans_bracketed {v : Value} {x : Lexeme} (hx : v.lexeme? = some x) (hl : l.Settled)
    (hr : l.rest = '[' :: (v.chars ++ ']' :: r)) :
    ∃ o t c l', Scans l ('[' :: (v.chars ++ [']'])) [o, t, c] l' ∧ o.lexeme = .op .bracketL ∧
      o.spaced = l.spaced ∧ t.lexeme = x ∧ c.lexeme = .op .bracketR ∧ l'.spaced = false := by
  obtain ⟨o, l₁, ho, hox, hos⟩ := scans_mark hl hr rfl (by decide) (by decide) (by decide)
  have hr₁ := ho.rest_eq hr
  obtain ⟨t, l₂, ht, htx, -⟩ := scans_atom hx ho.settled hr₁ (endsWord_cons r (by decide))
  have hr₂ := ht.rest_eq hr₁
  have hclose : Scans l₂ [']'] [l₂.token (.op .bracketR) 0] (l₂.behind (.op .bracketR) 0 0) :=
    scans_lexeme (w := []) ht.settled.resume hr₂ rfl (by decide) (by simp) (by simp)
  exact ⟨o, t, _, _, ho.trans (ht.trans hclose), hox, hos, htx, rfl,
    spaced_behind (w := []) (c := ']') hr₂ rfl (by decide)⟩

theorem ofFront?_dot {c : Char} {more : List Char} (h : isNameStart c = true) :
    Operator.ofFront? ('.' :: c :: more) = some .dot := by
  have hdot : ('.' == c) = false := by
    rw [beq_eq_false_iff_ne]
    rintro rfl
    exact absurd h (by decide)
  simp [Operator.ofFront?, Operator.all, Operator.spelling, List.isPrefixOf, hdot]

/-- A point and a name. Between the two the lexer is not settled, and so takes any word for a
name. -/
theorem scans_member (n : Ident) (hl : l.Settled) (hr : l.rest = '.' :: (n.chars ++ r))
    (he : StopsName r) :
    ∃ d t l', Scans l ('.' :: n.chars) [d, t] l' ∧ d.lexeme = .op .dot ∧
      t.lexeme = .ident n.text ∧ l'.spaced = false := by
  have hfront : l.front '.' (n.chars ++ r) = .ok (.lexeme (.op .dot) 0 0) := by
    show frontOperator '.' (n.chars ++ r) = _
    rw [frontOperator, Ident.chars, List.cons_append, ofFront?_dot n.isNameStart_first]
    rfl
  have hstep : l.step '.' (n.chars ++ r) =
      .ok (some (l.token (.op .dot) 0), l.behind (.op .dot) 0 0) := by
    rw [step, hfront]
    rfl
  have hrest : (l.behind (.op .dot) 0 0).rest = n.chars ++ r := by simp [behind, advance, hr]
  obtain ⟨t, l', hname, ht, -, hspaced⟩ :=
    scans_ident (l := l.behind (.op .dot) 0 0) n hl.resume (.inl rfl) hrest he
  have hall : Scans l ('.' :: n.chars) [l.token (.op .dot) 0, t] l' := {
    reads := .step hr hstep hname.reads
    rest := by rw [hr, ← hname.rest_eq hrest]; rfl
    line := by
      rw [hname.line]
      simp [lineAfter, behind, advance]
    settled := hname.settled }
  exact ⟨_, t, l', hall, rfl, ht, hspaced⟩

theorem stopsName_lookups (ls : List Lookup) (he : StopsName r) :
    StopsName (ls.flatMap Lookup.chars ++ r) := by
  cases ls with
  | nil => exact he
  | cons key more =>
    cases key with
    | member name =>
      rintro _ ⟨⟩
      decide
    | symbol name | quoted text h =>
      rintro _ ⟨⟩
      decide

/-- Keys right behind each other are read as the tokens that spell them. -/
theorem scans_lookups (ls : List Lookup) : ∀ {l : Lexer}, l.Settled → l.spaced = false →
    l.rest = ls.flatMap Lookup.chars ++ r → StopsName r →
    ∃ ts l', Scans l (ls.flatMap Lookup.chars) ts l' ∧ LookupTokens ls ts := by
  induction ls with
  | nil =>
    intro l hl _ _ _
    exact ⟨[], l, .refl hl, .nil⟩
  | cons key more ih =>
    intro l hl hspaced hr he
    rw [List.flatMap_cons, List.append_assoc] at hr
    cases key with
    | symbol name =>
      obtain ⟨o, t, c, l₁, hkey, ho, hs, ht, hc, hspaced₁⟩ :=
        scans_bracketed (v := .symbol name) rfl hl (by simpa [Lookup.chars, Value.chars] using hr)
      obtain ⟨us, l₂, hmore, htokens⟩ := ih hkey.settled hspaced₁ (hkey.rest_eq hr) he
      exact ⟨o :: t :: c :: us, l₂, hkey.trans hmore, .symbol ho (hs.trans hspaced) ht hc htokens⟩
    | member name =>
      obtain ⟨d, t, l₁, hkey, hd, ht, hspaced₁⟩ :=
        scans_member name hl hr (stopsName_lookups more he)
      obtain ⟨us, l₂, hmore, htokens⟩ := ih hkey.settled hspaced₁ (hkey.rest_eq hr) he
      exact ⟨d :: t :: us, l₂, hkey.trans hmore, .member hd ht htokens⟩
    | quoted text h =>
      obtain ⟨o, t, c, l₁, hkey, ho, hs, ht, hc, hspaced₁⟩ :=
        scans_bracketed (v := .string text) rfl hl
          (by simpa [Lookup.chars, singleQuoted, Value.chars] using hr)
      obtain ⟨us, l₂, hmore, htokens⟩ := ih hkey.settled hspaced₁ (hkey.rest_eq hr) he
      exact ⟨o :: t :: c :: us, l₂, hkey.trans hmore, .quoted ho (hs.trans hspaced) ht hc htokens⟩

theorem scans_nodeLookup (n : NodeLookup) (hl : l.Settled) (hr : l.rest = n.chars ++ r)
    (he : StopsName r) :
    ∃ t ts l', Scans l n.chars (t :: ts) l' ∧ t.lexeme = .ident "node" ∧
      LookupTokens n.lookups ts := by
  rw [NodeLookup.chars, List.append_assoc] at hr
  let word : Ident := ⟨'n', "ode".toList, by decide, by decide⟩
  obtain ⟨t, l₁, hword, ht, -, hspaced⟩ :=
    scans_ident word hl.resume (.inr (by decide)) hr (stopsName_lookups n.lookups he)
  obtain ⟨ts, l₂, hkeys, htokens⟩ :=
    scans_lookups n.lookups hword.settled hspaced (hword.rest_eq hr) he
  exact ⟨t, ts, l₂, hword.trans hkeys, ht, htokens⟩

end Lexer

/-! ## Reading -/

/-- No key can follow: the line ends, or the text. -/
def endsLookup (x : Lexeme) : Prop :=
  x = .newline ∨ x = .eof

/-- Can start a value that is not in brackets. -/
def startsValue (x : Lexeme) : Prop :=
  (∃ name, x = .ident name) ∨ ∃ parts, x = .string parts

section Values

variable (interpret : List Char → Except LexFault Expr) {e : Expr} {w t : Token}
  {ts rest : List Token}

theorem nodePath_of_endsLookup (h : endsLookup t.lexeme) :
    nodePath (t :: rest) = ([], t :: rest) := by
  cases rest with
  | nil => rfl
  | cons key rest =>
    cases rest with
    | nil => rfl
    | cons close more => rcases h with h | h <;> simp [nodePath, h]

theorem LookupTokens.not_paren {ls : List Lookup} (h : LookupTokens ls ts)
    (ht : endsLookup t.lexeme) : peek (ts ++ t :: rest) ≠ .op .parenL := by
  cases h with
  | nil => rcases ht with ht | ht <;> simp [ht]
  | symbol ho | quoted ho => simp [ho]
  | member hd => simp [hd]

/-- The keys are read one after the other, up to the end of the lookup. -/
theorem nodePath_lookups {ls : List Lookup} (h : LookupTokens ls ts) (ht : endsLookup t.lexeme) :
    nodePath (ts ++ t :: rest) = (ls.map Lookup.segment, t :: rest) := by
  induction h with
  | nil => exact nodePath_of_endsLookup ht
  | symbol ho hs hkey hc _ ih | quoted ho hs hkey hc _ ih =>
    simp [nodePath, ho, hs, hkey, hc, ih, isLiteralKey, Part.isCode, Lexeme.value, Part.plain,
      Lookup.segment]
  | @member name more d key us hd hkey hm ih =>
    -- a name after a point needs one more token, which tells that it takes no arguments
    have hparen : peek (us ++ t :: rest) ≠ .op .parenL := hm.not_paren ht
    obtain ⟨next, more', hnext⟩ := List.exists_cons_of_ne_nil
      (show us ++ t :: rest ≠ [] by simp)
    rw [hnext] at hparen ih
    simp only [peek_cons] at hparen
    simp [nodePath, hd, hkey, hnext, hparen, ih, Lookup.segment]

theorem primary_nodeLookup {n : NodeLookup} (hw : w.lexeme = .ident "node")
    (h : LookupTokens n.lookups ts) (ht : endsLookup t.lexeme) :
    primary interpret (w :: (ts ++ t :: rest)) = .ok (.nodeRef n.path, t :: rest) := by
  have hlookup : nodeLookup (ts ++ t :: rest) = (.nodeRef n.path, t :: rest) := by
    rw [nodeLookup, nodePath_lookups h ht]
    rfl
  rw [primary.eq_def]
  simp [hw, atom?, Lexeme.literal?, hlookup]

/-- A value is a whole expression where the line or the text ends behind it. -/
theorem expression_of_primary (hw : startsValue w.lexeme)
    (h : primary interpret (w :: (ts ++ t :: rest)) = .ok (e, t :: rest))
    (ht : endsLookup t.lexeme) :
    expression interpret 0 (w :: (ts ++ t :: rest)) = .ok (e, t :: rest) := by
  have hstarts : startsPrimary w.lexeme := by
    rcases hw with ⟨name, hw⟩ | ⟨parts, hw⟩ <;> simp [startsPrimary, hw]
  have hselection : NoSelection (t :: rest) := by
    rintro _ ⟨⟩
    rcases ht with ht | ht <;> simp [opensSelection, ht]
  have hlt := length_lt_cons_append w ts (t :: rest)
  have hunary : unary interpret ((w :: ts) ++ t :: rest) = .ok (e, t :: rest) :=
    unary_eq_primary hstarts h hlt hselection
  rw [← List.cons_append, expression_eq_climb hunary (by simp)]
  refine climb_of_le fun u op p hu hop => ?_
  cases hu
  rcases ht with ht | ht <;> simp [ht, binaryOperator?] at hop

/-- Code that is a lookup has the lookup for its value. -/
theorem codeValue_nodeLookup (n : NodeLookup) (depth : Nat) :
    codeValue (depth + 1) n.chars = .ok (.nodeRef n.path) := by
  obtain ⟨w, ts, l, hscan, hw, htokens⟩ :=
    Lexer.scans_nodeLookup n (Lexer.settled_start n.chars) (List.append_nil _).symm
      (by simp [StopsName])
  obtain ⟨t, ht, htokenize⟩ := tokenize_of_scans [] hscan
  have hread : expression (codeValue depth) 0 (w :: (ts ++ [t])) = .ok (.nodeRef n.path, [t]) :=
    expression_of_primary _ (.inl ⟨_, hw⟩) (primary_nodeLookup _ hw htokens (.inr ht)) (.inr ht)
  have hstart : afterBreaks (w :: (ts ++ [t])) = w :: (ts ++ [t]) :=
    afterBreaks_cons _ (by simp [hw, Lexeme.isSeparator])
  have hend : afterBreaks [t] = [t] := afterBreaks_cons _ (by simp [ht, Lexeme.isSeparator])
  rw [codeValue, htokenize]
  simp [hstart, hread, hend, atEnd, ht]

theorem arguments_of_expression (hw : startsValue w.lexeme) (ht : t.lexeme = .newline)
    (h : expression interpret 0 (w :: (ts ++ t :: rest)) = .ok (e, t :: rest)) :
    arguments interpret none (w :: (ts ++ t :: rest)) = .ok ([e], t :: rest) := by
  have hlt := length_lt_cons_append w ts (t :: rest)
  have hargument : argument interpret (w :: (ts ++ t :: rest)) = .ok (.value e, t :: rest) := by
    rw [argument.eq_def]
    rcases hw with ⟨name, hw⟩ | ⟨parts, hw⟩
    all_goals
      simp only [hw]
      rw [h, goOn_ok _ _ _ hlt]
      simp [atOp, ht]
  rw [arguments, argumentItems_last hargument hlt (by simp) (by simp [ht])]
  simp [Except.map, collectArguments]

end Values

namespace BlockSource

variable {b : BlockSource} {k : Closer} {name : Name} {e : Expr} {u w t : Token}
  {ts rest : List Token}

/-- A name with one value behind it is read as a property. -/
theorem statement_property (hu : u.lexeme = .ident name.text) (hw : startsValue w.lexeme)
    (ht : t.lexeme = .newline)
    (h : expression b.interpret 0 (w :: (ts ++ t :: rest)) = .ok (e, t :: rest)) :
    b.statement (some k) (u :: w :: (ts ++ t :: rest)) =
      .ok (.property name.text [e] none (b.lines.lineInFile u.line), t :: rest) := by
  have hargs := arguments_of_expression _ hw ht h
  have hstart : startsCommand (u :: w :: (ts ++ t :: rest)) = true := by
    obtain ⟨x, line, start, stop, spaced⟩ := u
    cases hu
    rcases hw with ⟨word, hw⟩ | ⟨parts, hw⟩ <;> simp [startsCommand, name.no_sigil, hw]
  have hhead : b.commandHead (u :: w :: (ts ++ t :: rest)) =
      .ok ((name.text, [e]), t :: rest) := by
    have hlookup : name.text ≠ "resources" := name.not_lookup
    have htight : atTightOp .parenL (w :: (ts ++ t :: rest)) = false := by
      rcases hw with ⟨word, hw⟩ | ⟨parts, hw⟩ <;> simp [atTightOp, hw]
    have hcommand : endsCommand w.lexeme = false := by
      rcases hw with ⟨word, hw⟩ | ⟨parts, hw⟩ <;> simp [endsCommand, hw]
    simp [commandHead, hu, Lexeme.value, htight, hcommand, hargs, hlookup, bind, Except.bind, pure,
      Except.pure]
  have hlt : (t :: rest).length < (u :: w :: (ts ++ t :: rest)).length :=
    length_lt_cons_append u (w :: ts) (t :: rest)
  rw [statement, supported.eq_def, hstart, hhead, goOn_ok _ _ _ hlt, commandBlock_newline ht]
  simp [hu, opensBlock, Except.map, endsStatement, ht, Lexeme.isSeparator, lineInFile]

end BlockSource

/-! ## Declarations around a value -/

/-- A declaration with a property whose value is left open, among other properties. -/
structure PropertyFrame where
  indent : Nat
  type : Name
  title : String
  tight : Bool
  closer : Closer
  before : List Call
  name : Name
  after : List Call

namespace PropertyFrame

variable (f : PropertyFrame)

def head : Call :=
  ⟨f.type, [.string f.title], f.tight⟩

/-- The declaration up to the line of the property. -/
def opening : List Char :=
  openChars f.indent f.head ⟨f.closer, f.before⟩

def line (value : List Char) : List Char :=
  List.replicate f.indent ' ' ++ (f.name.chars ++ ' ' :: (value ++ ['\n']))

/-- The declaration with the value put in. -/
def chars (value : List Char) : List Char :=
  f.opening ++ (f.line value ++ (callsChars f.indent f.after ++ (closerChars f.closer ++ ['\n'])))

/-- The declaration with a value that means the expression. -/
def statement (lines : LineMap) (value : List Char) (e : Expr) : Statement :=
  let line := lineAfter 1 f.opening
  .resource f.type.text (some (.literal .string f.title))
    (properties lines f.indent (lineAfter 1 (openingChars f.head f.closer)) f.before ++
      .property f.name.text [e] none (lines.lineInFile line) ::
        properties lines f.indent (lineAfter line (f.line value)) f.after)
    true (lines.lineInFile 1)

end PropertyFrame

/-- At the end of a line the text is read as the expression. -/
def Means (interpret : List Char → Except LexFault Expr) (value : List Char) (e : Expr) : Prop :=
  ∀ (l : Lexer) (r : List Char), l.Settled → l.rest = value ++ '\n' :: r →
    ∃ w ts l', Lexer.Scans l value (w :: ts) l' ∧ startsValue w.lexeme ∧
      ∀ t rest, t.lexeme = .newline →
        expression interpret 0 (w :: (ts ++ t :: rest)) = .ok (e, t :: rest)

namespace PropertyFrame

variable (f : PropertyFrame)

/-- The line of the property is read as the property, and then what follows it. -/
theorem scans_line (b : BlockSource) {value : List Char} {e : Expr} (h : Means b.interpret value e)
    {l : Lexer} {r : List Char} (hl : l.Settled) (hr : l.rest = f.line value ++ r) :
    ∃ ts l', Lexer.Scans l (f.line value) ts l' ∧
      (∃ u us, ts = u :: us ∧ u.lexeme = .ident f.name.text) ∧
      ∀ k rest, b.blockItems k (ts ++ rest) = (b.blockItems k rest).map fun (items, rest) =>
        (.property f.name.text [e] none (b.lines.lineInFile l.line) :: items, rest) := by
  simp only [line, List.append_assoc, List.cons_append, List.nil_append] at hr
  obtain ⟨l₁, hindent⟩ := Lexer.scans_blanks f.indent hl hr
  have hr₁ := hindent.rest_eq hr
  obtain ⟨u, l₂, hname, hu, huline, -⟩ :=
    Lexer.scans_name f.name hindent.settled hr₁ (endsWord_cons _ (by decide))
  have hr₂ := hname.rest_eq hr₁
  obtain ⟨l₃, hblank, -⟩ := Lexer.scans_blank hname.settled hr₂
  have hr₃ := hblank.rest_eq hr₂
  obtain ⟨w, ts, l₄, hvalue, hw, hread⟩ := h _ _ hblank.settled hr₃
  obtain ⟨t, l₅, hend, ht⟩ := Lexer.scans_newline hvalue.settled (hvalue.rest_eq hr₃)
  have hline : u.line = l.line := by rw [huline, hindent.line, Lexer.lineAfter_replicate]
  refine ⟨u :: w :: (ts ++ [t]), l₅, ?_, ⟨u, _, rfl, hu⟩, fun k rest => ?_⟩
  · simpa [line] using hindent.trans (hname.trans (hblank.trans (hvalue.trans hend)))
  · have hstatement := BlockSource.statement_property (k := k) hu hw ht (hread t rest ht)
    have hlt : (t :: rest).length < (u :: w :: (ts ++ t :: rest)).length :=
      length_lt_cons_append u (w :: ts) (t :: rest)
    rw [hline] at hstatement
    simpa using BlockSource.blockItems_statement hu ht hlt hstatement

/-- A value that means an expression is read as that in the middle of a declaration. -/
theorem read_chars (lines : LineMap) {value : List Char} {e : Expr}
    (h : Means (BlockSource.mk (f.chars value) lines).interpret value e) :
    BlockContent.read lines (f.chars value) = .ok ⟨[f.statement lines value e], none⟩ := by
  have hr : (Lexer.start (f.chars value)).rest = f.opening ++ (f.line value ++
      (callsChars f.indent f.after ++ (closerChars f.closer ++ '\n' :: []))) := rfl
  obtain ⟨ts, l₁, hopen, hhead⟩ :=
    Lexer.scans_open f.head ⟨f.closer, f.before⟩ (Lexer.settled_start _) hr
  have hr₁ := hopen.rest_eq hr
  obtain ⟨us, l₂, hline, ⟨u, us', hus, hu⟩, hitem⟩ := f.scans_line _ h hopen.settled hr₁
  have hr₂ := hline.rest_eq hr₁
  obtain ⟨vs, l₃, hafter, hcalls⟩ := Lexer.scans_calls f.after hline.settled hr₂
  have hr₃ := hafter.rest_eq hr₂
  obtain ⟨c, l₄, hclose, hc⟩ :=
    Lexer.scans_closer f.closer hafter.settled hr₃ (endsWord_cons _ (by decide))
  obtain ⟨t, l₅, hlast, ht⟩ := Lexer.scans_newline hclose.settled (hclose.rest_eq hr₃)
  have hall := hopen.trans (hline.trans (hafter.trans (hclose.trans hlast)))
  obtain ⟨e', he', htokenize⟩ := tokenize_of_scans lines hall
  refine read_of_statements htokenize ?_
  -- the block is read up to its closer: the calls before the line, the line, the calls behind it
  have hbar : peek (afterBreaks (us ++ (vs ++ c :: t :: [e']))) ≠ .op .bar := by
    rw [hus, List.cons_append, afterBreaks_cons _ (by simp [hu, Lexeme.isSeparator])]
    simp [hu]
  have hsupported := BlockSource.supported_open (b := ⟨f.chars value, lines⟩) hhead hbar
  rw [hitem, BlockSource.blockItems_calls hcalls, BlockSource.blockItems_closed hc] at hsupported
  have hstatement : (BlockSource.mk (f.chars value) lines).statement none
      (ts ++ (us ++ (vs ++ c :: t :: [e']))) =
        .ok (f.statement lines value e, t :: [e']) := by
    rw [BlockSource.statement, hsupported, hline.line, hopen.line]
    simp [Except.map, endsStatement, ht, Lexeme.isSeparator, statement, head, exprs, Value.expr,
      Lexer.start, opening]
  obtain ⟨v, ts', rfl, hv, -⟩ := BlockSource.head_open hhead
  have hlt : (t :: [e']).length < (v :: (ts' ++ (us ++ (vs ++ c :: t :: [e'])))).length := by
    simp only [List.length_cons, List.length_append]
    omega
  have hread := BlockSource.statements_statement (by simp [hv, Lexeme.isSeparator]) (by simp [hv])
    ht hlt hstatement
  rw [BlockSource.statements_eof he'] at hread
  simpa [Except.map] using hread

end PropertyFrame

/-! ## Lookups in strings -/

/-- Code that is found whole: it leaves the reader of a string inside as many braces as it found
it, and outside quotes. -/
def IsCode (cs : List Char) : Prop :=
  ∀ (marks : Delimiters) (pairs braces : Nat) (r : List Char),
    readParts marks (.code pairs braces none) (cs ++ r) =
      (readParts marks (.code pairs braces none) r).map fun s =>
        s.after (fun parts => cs.foldr consCode parts) cs.length 0

theorem map_after {ε α β γ : Type} (x : Except ε (Reading α)) (f : α → β) (g : β → γ)
    (used used' lines lines' : Nat) :
    ((x.map fun s => s.after f used lines).map fun s => s.after g used' lines') =
      x.map fun s => s.after (fun a => g (f a)) (used' + used) (lines' + lines) := by
  cases x with
  | error e => rfl
  | ok s => simp [Except.map, Reading.after, Nat.add_assoc]

theorem IsCode.append {cs ds : List Char} (h : IsCode cs) (h' : IsCode ds) :
    IsCode (cs ++ ds) := by
  intro marks pairs braces r
  rw [List.append_assoc, h, h', map_after]
  simp

theorem isCode_of_unmarked {cs : List Char}
    (h : (cs.all fun c => c ∉ ['\'', '"', '{', '}']) = true) : IsCode cs := by
  have hnot {c : Char} (hc : c ∈ ['\'', '"', '{', '}']) : c ∉ cs := fun hmem =>
    of_decide_eq_true (List.all_eq_true.1 h c hmem) hc
  intro marks pairs braces r
  exact readParts_code (Nests.of_notMem (hnot (by decide)) (hnot (by decide))) (hnot (by decide))
    (hnot (by decide)) r

/-- Inside quotes an escaped text is code up to the quote that ends it. -/
theorem readParts_escape (marks : Delimiters) (pairs braces : Nat) (t r : List Char) :
    readParts marks (.code pairs braces (some '\'')) (t.flatMap escape ++ '\'' :: r) =
      (readParts marks (.code pairs braces none) r).map fun s =>
        s.after (fun parts => (t.flatMap escape ++ ['\'']).foldr consCode parts)
          (t.flatMap escape ++ ['\'']).length 0 := by
  induction t with
  | nil => simp [readParts]
  | cons c t ih =>
    have hstep : readParts marks (.code pairs braces (some '\''))
        (escape c ++ (t.flatMap escape ++ '\'' :: r)) =
          (readParts marks (.code pairs braces (some '\'')) (t.flatMap escape ++ '\'' :: r)).map
            fun s =>
              s.after (fun parts => (escape c).foldr consCode parts) (escape c).length 0 := by
      by_cases hc : c = '\'' ∨ c = '\\'
      · simp [escape, hc, readParts, Function.comp_def]
      · rw [not_or] at hc
        simp [escape, hc, readParts]
    rw [List.flatMap_cons, List.append_assoc, List.append_assoc, hstep, ih, map_after]
    simp only [List.foldr_append, List.length_append]

theorem isCode_singleQuoted (t : List Char) : IsCode (singleQuoted t) := by
  intro marks pairs braces r
  have hopen : readParts marks (.code pairs braces none) (singleQuoted t ++ r) =
      (readParts marks (.code pairs braces (some '\'')) (t.flatMap escape ++ '\'' :: r)).map
        fun s => s.after (consCode '\'') 1 0 := by
    simp [singleQuoted, readParts]
  rw [hopen, readParts_escape, map_after]
  simp [singleQuoted, Nat.add_comm]

theorem isCode_ident (name : Ident) : IsCode name.chars := by
  refine isCode_of_unmarked (List.all_eq_true.2 fun c hc => decide_eq_true fun hmark => ?_)
  have := name.isNameChar_of_mem hc
  simp only [List.mem_cons, List.not_mem_nil, or_false] at hmark
  rcases hmark with rfl | rfl | rfl | rfl <;> exact absurd this (by decide)

theorem isCode_lookup (key : Lookup) : IsCode key.chars := by
  have hclose : IsCode [']'] := isCode_of_unmarked (by decide)
  cases key with
  | symbol name =>
    have hopen : IsCode ['[', ':'] := isCode_of_unmarked (by decide)
    exact hopen.append ((isCode_ident name).append hclose)
  | member name =>
    have hdot : IsCode ['.'] := isCode_of_unmarked (by decide)
    exact hdot.append (isCode_ident name)
  | quoted text h =>
    have hopen : IsCode ['['] := isCode_of_unmarked (by decide)
    exact hopen.append ((isCode_singleQuoted _).append hclose)

theorem NodeLookup.isCode (n : NodeLookup) : IsCode n.chars := by
  have hkeys (ls : List Lookup) : IsCode (ls.flatMap Lookup.chars) := by
    induction ls with
    | nil => exact isCode_of_unmarked rfl
    | cons key more ih => exact (isCode_lookup key).append ih
  have hword : IsCode "node".toList := isCode_of_unmarked (by decide)
  exact hword.append (hkeys n.lookups)

/-- A text as parts of a string: none, if it is empty. -/
def textParts (cs : List Char) : List Part :=
  if cs = [] then [] else [.text cs]

/-- A text as pieces of a value: none, if it is empty. -/
def textPieces (cs : List Char) : List Piece :=
  if cs = [] then [] else [.text (String.ofList cs)]

theorem foldr_consText_eq_textParts {parts : List Part}
    (h : ∀ d, consText d parts = .text [d] :: parts) (cs : List Char) :
    cs.foldr consText parts = textParts cs ++ parts := by
  by_cases hcs : cs = []
  · simp [textParts, hcs]
  · simp [textParts, hcs, foldr_consText h hcs]

theorem flatMap_write_textParts (marks : Delimiters) (cs : List Char) :
    (textParts cs).flatMap marks.write = cs.flatMap (guarded ('\\' :: '#' :: marks.chars)) := by
  by_cases hcs : cs = []
  · simp [textParts, hcs]
  · simp [textParts, hcs, Delimiters.write]

theorem count_guarded {special : List Char} (cs : List Char) :
    (cs.flatMap (guarded special)).count '\n' = cs.count '\n' := by
  induction cs with
  | nil => rfl
  | cons c cs ih =>
    have hc : (guarded special c).count '\n' = [c].count '\n' := by
      by_cases h : c ∈ special <;> simp [guarded, h]
    rw [List.flatMap_cons, List.count_append, ih, hc, ← List.count_append]
    rfl

theorem Lookup.count_chars (key : Lookup) : key.chars.count '\n' = 0 := by
  have hname (name : Ident) : '\n' ∉ name.chars := fun h =>
    absurd (name.isNameChar_of_mem h) (by decide)
  cases key with
  | symbol name | member name => simpa [chars, List.count_eq_zero] using hname name
  | quoted text h => simpa [chars, singleQuoted, Lexer.count_escape, List.count_eq_zero] using h

namespace NodeLookup

variable (n : NodeLookup) (before after : List Char)

theorem count_chars : n.chars.count '\n' = 0 := by
  have hkeys (ls : List Lookup) : (ls.flatMap Lookup.chars).count '\n' = 0 := by
    induction ls with
    | nil => rfl
    | cons key more ih => rw [List.flatMap_cons, List.count_append, key.count_chars, ih]
  rw [chars, List.count_append, hkeys]
  rfl

/-- The parts of a string with the lookup between two texts. -/
def parts : List Part :=
  textParts before ++ .code n.chars :: textParts after

/-- What such a string means. -/
def inText : Expr :=
  .interpolated (textPieces before ++ .value (.nodeRef n.path) :: textPieces after)

theorem readParts_parts (r : List Char) :
    readParts (.same '"') (.text 0)
        ((n.parts before after).flatMap (Delimiters.same '"').write ++ '"' :: r) =
      .ok ⟨n.parts before after,
        ((n.parts before after).flatMap (Delimiters.same '"').write).length + 1,
        before.count '\n' + after.count '\n'⟩ := by
  have hmarks : (Delimiters.same '"').Usable := Quotation.double.marks_usable
  have hend : readParts (.same '"') (.text 0) ('"' :: r) = .ok ⟨[], 1, 0⟩ := by
    simp [readParts, Delimiters.same]
  have hcode : (Delimiters.same '"').write (.code n.chars) = '#' :: '{' :: (n.chars ++ ['}']) := rfl
  have hafter : after.foldr consText [] = textParts after := by
    simpa using foldr_consText_eq_textParts (fun d => (rfl : consText d [] = _)) after
  have hbefore : before.foldr consText (.code n.chars :: textParts after) =
      n.parts before after := foldr_consText_eq_textParts (fun _ => rfl) before
  have hsplit : (n.parts before after).flatMap (Delimiters.same '"').write ++ '"' :: r =
      before.flatMap (guarded ('\\' :: '#' :: (Delimiters.same '"').chars)) ++
        '#' :: '{' :: (n.chars ++ '}' ::
          (after.flatMap (guarded ('\\' :: '#' :: (Delimiters.same '"').chars)) ++ '"' :: r)) := by
    simp [parts, flatMap_write_textParts, hcode]
  rw [hsplit, readParts_guarded hmarks, readParts, n.isCode, readParts, readParts_guarded hmarks,
    hend]
  simp only [Except.map, Reading.after, hafter, foldr_consCode, id, hbefore]
  simp [parts, flatMap_write_textParts, hcode]
  omega

/-- The pieces are those of the texts, and what the code means. -/
theorem stringExpr_parts {interpret : List Char → Except LexFault Expr}
    (h : interpret n.chars = .ok (.nodeRef n.path)) :
    stringExpr interpret (n.parts before after) = .ok (n.inText before after) := by
  have htext (cs : List Char) :
      ((textParts cs).filter fun p => p != .text []).mapM (pieceOf interpret) =
        .ok (textPieces cs) := by
    by_cases hcs : cs = [] <;>
      simp [textParts, textPieces, hcs, pieceOf, bind, Except.bind, pure, Except.pure]
  have hcode : (n.parts before after).any Part.isCode = true := by simp [parts, Part.isCode]
  rw [stringExpr, if_pos hcode, parts, List.filter_append, List.filter_cons_of_pos (by simp),
    List.mapM_append, htext, List.mapM_cons, htext]
  simp [pieceOf, h, Except.map, bind, Except.bind, pure, Except.pure, inText]

open Lexer in
theorem means_string {interpret : List Char → Except LexFault Expr}
    (h : interpret n.chars = .ok (.nodeRef n.path)) :
    Means interpret (Quotation.double.write (n.parts before after)) (n.inText before after) := by
  intro l r hl hr
  have hfront : l.front '"' ((n.parts before after).flatMap (Delimiters.same '"').write ++ ['"'] ++
      '\n' :: r) = .ok (.lexeme (.string (n.parts before after))
        ((n.parts before after).flatMap (Delimiters.same '"').write ++ ['"']).length
        (before.count '\n' + after.count '\n')) := by
    show frontString (.same '"') _ = _
    have hne : (n.parts before after).isEmpty = false := by simp [parts]
    rw [frontString, readDelimited, List.append_assoc, List.singleton_append, readParts_parts,
      List.length_append]
    simp only [Except.map, Reading.map, hne, Bool.false_eq_true, if_false, List.length_singleton]
  have hcount : before.count '\n' + after.count '\n' = ('"' ::
      ((n.parts before after).flatMap (Delimiters.same '"').write ++ ['"'])).count '\n' := by
    simp [parts, flatMap_write_textParts, count_guarded, Delimiters.write, n.count_chars]
  refine ⟨_, [], _, scans_lexeme hl.resume hr hfront hcount (by simp) (by simp),
    .inr ⟨_, rfl⟩, fun t rest ht => ?_⟩
  refine expression_of_primary _ (.inr ⟨_, rfl⟩) ?_ (.inl ht)
  rw [primary.eq_def]
  simp [token, atom?, n.stringExpr_parts before after h, Except.map]

theorem means_chars (interpret : List Char → Except LexFault Expr) :
    Means interpret n.chars (.nodeRef n.path) := by
  intro l r hl hr
  have hstops : StopsName ('\n' :: r) := by
    rintro _ ⟨⟩
    decide
  obtain ⟨w, ts, l', hscan, hw, htokens⟩ := Lexer.scans_nodeLookup n hl hr hstops
  refine ⟨w, ts, l', hscan, .inl ⟨_, hw⟩, fun t rest ht => ?_⟩
  exact expression_of_primary _ (.inl ⟨_, hw⟩) (primary_nodeLookup _ hw htokens (.inl ht)) (.inl ht)

theorem renderPieces_textPieces {condition : Bool} (cs : List Char) {rest : List Piece}
    {text : String} (h : Expr.renderPieces condition rest = .ok text) :
    Expr.renderPieces condition (textPieces cs ++ rest) = .ok (String.ofList cs ++ text) := by
  by_cases hcs : cs = []
  · simp [textPieces, hcs, h]
  · simp [textPieces, hcs, Expr.renderPieces, h, bind, Except.bind, pure, Except.pure]

theorem render_inText (condition : Bool) :
    (n.inText before after).render condition =
      .ok (String.ofList before ++ (nodeVariable n.path ++ String.ofList after)) := by
  have hafter : Expr.renderPieces condition (textPieces after) = .ok (String.ofList after) := by
    simpa using renderPieces_textPieces after (rfl : Expr.renderPieces condition [] = .ok "")
  have hvalue : Expr.renderPieces condition (.value (.nodeRef n.path) :: textPieces after) =
      .ok (nodeVariable n.path ++ String.ofList after) := by
    simp [Expr.renderPieces, Expr.render, hafter, bind, Except.bind, pure, Except.pure]
  exact renderPieces_textPieces before hvalue

end NodeLookup

/-- The value of a property that is a lookup, in any mix of notations, is read as the lookup of just
its keys in their order. So is the code in a string, between what the texts around it mean. As text
the lookup is a variable, named by its keys with underscores between them. -/
theorem read_nodeLookup (lines : LineMap) (f : PropertyFrame) (n : NodeLookup)
    (before after : List Char) :
    let string := Quotation.double.write (n.parts before after)
    let name := "$\x7b" ++ "_".intercalate (n.lookups.map Lookup.segment) ++ "\x7d"
    BlockContent.read lines (f.chars n.chars) =
        .ok ⟨[f.statement lines n.chars (.nodeRef (n.lookups.map Lookup.segment))], none⟩ ∧
      BlockContent.read lines (f.chars string) =
        .ok ⟨[f.statement lines string (n.inText before after)], none⟩ ∧
      ∀ condition, (Expr.nodeRef (n.lookups.map Lookup.segment)).render condition = .ok name ∧
        (n.inText before after).render condition =
          .ok (String.ofList before ++ (name ++ String.ofList after)) := by
  intro string name
  have hstring : Means (BlockSource.mk (f.chars string) lines).interpret string
      (n.inText before after) := by
    have hpos : 0 < (f.chars string).length := by simp [PropertyFrame.chars]
    obtain ⟨depth, hdepth⟩ := Nat.exists_eq_succ_of_ne_zero (Nat.ne_of_gt hpos)
    refine n.means_string before after ?_
    rw [BlockSource.interpret, hdepth]
    exact codeValue_nodeLookup n depth
  exact ⟨f.read_chars lines (n.means_chars _), f.read_chars lines hstring, fun condition =>
    ⟨rfl, n.render_inText before after condition⟩⟩

/-- A reserved word after a point and a quote in a key. -/
example :
    let app : Ident := ⟨'a', "pp".toList, by decide, by decide⟩
    let word : Ident := ⟨'e', "nd".toList, by decide, by decide⟩
    let n : NodeLookup := ⟨.symbol app, [.member word, .quoted "it's" (by decide)]⟩
    n.chars = "node[:app].end['it\\'s']".toList ∧ n.path = ["app", "end", "it's"] := by
  decide

end RecipeManifest

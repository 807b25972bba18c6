import Mathlib.Data.List.Forall2
import RecipeManifest.Proofs.ReadValues

/-!
Reading expressions from tokens with more line ends in them.

`Padded` relates the tokens of a text to those of a text with empty lines in it: behind some line
ends there is one more. The readers go past any number of line ends wherever they go past one, so
they make the same of both and leave tokens that are related again (`Matched`). The lemmas
`matched_…` say this of each reader of expressions, by the recursion of the readers.
-/

namespace RecipeManifest

/-- Two readings that are compared: how each has the code in strings read, and behind which line
ends the second one can have one more. -/
structure Padding where
  interpret : List Char → Except LexFault Expr
  interpret' : List Char → Except LexFault Expr
  doubled : Token → Prop

theorem atOp_of_atTightOp {o : Operator} {ts : List Token} (h : atTightOp o ts = true) :
    atOp o ts = true := by
  cases ts with
  | nil => cases h
  | cons t more => exact (Bool.and_eq_true _ _ ▸ h).1

/-- Neither of two readers has gone on, or both have. -/
def Onward (ts us rest rest' : List Token) : Prop :=
  rest = ts ∧ rest' = us ∨ rest.length < ts.length ∧ rest'.length < us.length

namespace Onward

variable {ts us rest rest' : List Token}

theorem trans {ts₁ us₁ : List Token} (h : Onward ts us ts₁ us₁) (h' : Onward ts₁ us₁ rest rest') :
    Onward ts us rest rest' := by
  obtain ⟨rfl, rfl⟩ | ⟨hlt, hlt'⟩ := h
  · exact h'
  · obtain ⟨rfl, rfl⟩ | ⟨hlt₂, hlt₂'⟩ := h'
    · exact .inr ⟨hlt, hlt'⟩
    · exact .inr ⟨by omega, by omega⟩

theorem length_lt_iff (h : Onward ts us rest rest') :
    rest'.length < us.length ↔ rest.length < ts.length := by
  obtain ⟨rfl, rfl⟩ | ⟨hlt, hlt'⟩ := h
  · simp
  · simp [hlt, hlt']

end Onward

namespace Padding

variable (p : Padding)

/-- The tokens say the same to the readers, wherever they stand. -/
structure Alike (t u : Token) : Prop where
  lexeme : u.lexeme = t.lexeme
  spaced : u.spaced = t.spaced
  code : ∀ parts, t.lexeme = .string parts → ∀ code, Part.code code ∈ parts →
    p.interpret' code = p.interpret code

/-- The same tokens, with one more line end behind some of the doubled ones. -/
inductive Padded : List Token → List Token → Prop
  | nil : Padded [] []
  | cons {t u : Token} {ts us : List Token} (halike : p.Alike t u) (h : Padded ts us) :
      Padded (t :: ts) (u :: us)
  | extra {t u n : Token} {ts us : List Token} (halike : p.Alike t u) (ht : t.lexeme = .newline)
      (hdoubled : p.doubled t) (hn : n.lexeme = .newline) (h : Padded ts us) :
      Padded (t :: ts) (u :: n :: us)

/-- What two readers leave of related tokens: related tokens, and neither or both have gone on. -/
structure Leaves (ts us rest rest' : List Token) : Prop where
  padded : p.Padded rest rest'
  onward : Onward ts us rest rest'

/-- Both readers stop for the same reason, or make related values and leave related tokens. -/
inductive Matched {α β : Type} (R : α → β → Prop) (ts us : List Token) :
    Except Stop (α × List Token) → Except Stop (β × List Token) → Prop
  | error (e : Stop) : Matched R ts us (.error e) (.error e)
  | ok {a : α} {b : β} {rest rest' : List Token} (hvalue : R a b)
      (hleaves : p.Leaves ts us rest rest') : Matched R ts us (.ok (a, rest)) (.ok (b, rest'))

variable {p} {ts us rest rest' : List Token}

/-! ## Related tokens -/

namespace Padded

theorem append {xs ys : List Token} (h : List.Forall₂ p.Alike ts us) (hxs : p.Padded xs ys) :
    p.Padded (ts ++ xs) (us ++ ys) := by
  induction h with
  | nil => exact hxs
  | cons halike _ ih => exact .cons halike ih

theorem of_forall₂ (h : List.Forall₂ p.Alike ts us) : p.Padded ts us := by
  simpa using append h .nil

/-- The first tokens are alike. What follows them is related too, unless they are line ends. -/
theorem head {t : Token} {more : List Token} (h : p.Padded (t :: more) us) :
    ∃ u more', us = u :: more' ∧ p.Alike t u ∧ (t.lexeme ≠ .newline → p.Padded more more') := by
  cases h with
  | cons halike h => exact ⟨_, _, rfl, halike, fun _ => h⟩
  | extra halike ht _ _ h => exact ⟨_, _, rfl, halike, fun hne => absurd ht hne⟩

/-- Both are empty, or both have a first token. -/
theorem nil_or_cons (h : p.Padded ts us) :
    ts = [] ∧ us = [] ∨ ∃ t more u more', ts = t :: more ∧ us = u :: more' ∧ p.Alike t u ∧
      (t.lexeme ≠ .newline → p.Padded more more') := by
  cases ts with
  | nil =>
    cases h
    exact .inl ⟨rfl, rfl⟩
  | cons t more =>
    obtain ⟨u, more', hus, halike, hmore⟩ := h.head
    exact .inr ⟨t, more, u, more', rfl, hus, halike, hmore⟩

theorem peek (h : p.Padded ts us) : peek us = peek ts := by
  cases h with
  | nil => rfl
  | cons halike _ => exact halike.lexeme
  | extra halike _ _ _ _ => exact halike.lexeme

theorem leaves (h : p.Padded ts us) : p.Leaves ts us ts us :=
  ⟨h, .inl ⟨rfl, rfl⟩⟩

theorem atTightOp (h : p.Padded ts us) (o : Operator) : atTightOp o us = atTightOp o ts := by
  cases ts with
  | nil => cases h; rfl
  | cons t more =>
    obtain ⟨u, more', rfl, halike, -⟩ := h.head
    simp only [RecipeManifest.atTightOp, halike.lexeme, halike.spaced]

theorem startsBareArgument (h : p.Padded ts us) (name : String) :
    startsBareArgument name us = startsBareArgument name ts := by
  cases ts with
  | nil => cases h; rfl
  | cons t more =>
    obtain ⟨u, more', rfl, halike, -⟩ := h.head
    simp only [RecipeManifest.startsBareArgument, halike.lexeme, halike.spaced]

end Padded

namespace Leaves

theorem trans {ts₁ us₁ ts₂ us₂ : List Token} (h : p.Leaves ts us ts₁ us₁)
    (h' : p.Leaves ts₁ us₁ ts₂ us₂) : p.Leaves ts us ts₂ us₂ :=
  ⟨h'.padded, h.onward.trans h'.onward⟩

theorem tail {t u : Token} (h : p.Padded rest rest') :
    p.Leaves (t :: rest) (u :: rest') rest rest' :=
  ⟨h, .inr (by simp)⟩

theorem tail_extra {t u n : Token} (h : p.Padded rest rest') :
    p.Leaves (t :: rest) (u :: n :: rest') rest rest' :=
  ⟨h, .inr ⟨by simp, by simp only [List.length_cons]; omega⟩⟩

end Leaves

/-- A mark at the front is passed. -/
theorem Padded.tail_of_op (h : p.Padded ts us) {o : Operator} (ho : atOp o ts = true) :
    p.Leaves ts us ts.tail us.tail := by
  cases ts with
  | nil => cases ho
  | cons t more =>
    obtain ⟨u, more', rfl, -, hmore⟩ := h.head
    refine .tail (hmore ?_)
    rintro heq
    rw [atOp, RecipeManifest.peek, heq] at ho
    cases ho

/-- Any number of line ends is passed with what stands around them. -/
theorem Padded.dropWhile {f : Lexeme → Bool} (hf : f .newline = true) (h : p.Padded ts us) :
    p.Leaves ts us (ts.dropWhile fun t => f t.lexeme) (us.dropWhile fun t => f t.lexeme) := by
  induction h with
  | nil => exact Padded.nil.leaves
  | @cons t u ts us halike h ih =>
    simp only [List.dropWhile_cons, halike.lexeme]
    split
    · exact (Leaves.tail h).trans ih
    · exact (Padded.cons halike h).leaves
  | @extra t u n ts us halike ht hdoubled hn h ih =>
    simp only [List.dropWhile_cons, halike.lexeme, ht, hn, hf, if_true]
    exact (Leaves.tail_extra h).trans ih

theorem Padded.afterBreaks (h : p.Padded ts us) :
    p.Leaves ts us (afterBreaks ts) (afterBreaks us) :=
  h.dropWhile (f := Lexeme.isSeparator) rfl

/-! ## Matched readers -/

namespace Matched

variable {α β γ δ : Type} {R : α → β → Prop} {S : γ → δ → Prop}
  {r : Except Stop (α × List Token)} {r' : Except Stop (β × List Token)}

/-- Readers that match on what was left match from before. -/
theorem from_leaves {ts₁ us₁ : List Token} (hleaves : p.Leaves ts us ts₁ us₁)
    (h : p.Matched R ts₁ us₁ r r') : p.Matched R ts us r r' := by
  cases h with
  | error e => exact .error e
  | ok hvalue h => exact .ok hvalue (hleaves.trans h)

theorem map (h : p.Matched R ts us r r') {f : α → γ} {g : β → δ}
    (hfg : ∀ a b, R a b → S (f a) (g b)) :
    p.Matched S ts us (r.map fun (a, rest) => (f a, rest))
      (r'.map fun (b, rest) => (g b, rest)) := by
  cases h with
  | error e => exact .error e
  | ok hvalue h => exact .ok (hfg _ _ hvalue) h

theorem bind (h : p.Matched R ts us r r') {k : α × List Token → Except Stop (γ × List Token)}
    {k' : β × List Token → Except Stop (δ × List Token)}
    (hk : ∀ a b rest rest', R a b → p.Padded rest rest' →
      p.Matched S rest rest' (k (a, rest)) (k' (b, rest'))) :
    p.Matched S ts us (r >>= k) (r' >>= k') := by
  cases h with
  | error e => exact .error e
  | ok hvalue h => exact from_leaves h (hk _ _ _ _ hvalue h.padded)

theorem cases (h : p.Matched R ts us r r') :
    (∃ e, r = .error e ∧ r' = .error e) ∨
      ∃ a b rest rest', r = .ok (a, rest) ∧ r' = .ok (b, rest') ∧ R a b ∧
        p.Leaves ts us rest rest' := by
  cases h with
  | error e => exact .inl ⟨e, rfl, rfl⟩
  | ok hvalue h => exact .inr ⟨_, _, _, _, rfl, rfl, hvalue, h⟩

theorem goOn_of_eq (h : p.Matched R ts us r r')
    {next : α → (rest : List Token) → rest.length < ts.length → Except Stop (γ × List Token)}
    {next' : β → (rest : List Token) → rest.length < us.length → Except Stop (δ × List Token)}
    (hnext : ∀ a b rest rest' hlt hlt', r = .ok (a, rest) → R a b → p.Padded rest rest' →
      p.Matched S rest rest' (next a rest hlt) (next' b rest' hlt')) :
    p.Matched S ts us (RecipeManifest.goOn ts .mismatch r next)
      (RecipeManifest.goOn us .mismatch r' next') := by
  obtain ⟨e, rfl, rfl⟩ | ⟨a, b, rest, rest', rfl, rfl, hvalue, h⟩ := h.cases
  · exact .error e
  · unfold RecipeManifest.goOn
    dsimp only
    by_cases hlt : rest.length < ts.length
    · have hlt' := h.onward.length_lt_iff.2 hlt
      rw [dif_pos hlt, dif_pos hlt']
      exact from_leaves h (hnext a b rest rest' hlt hlt' rfl hvalue h.padded)
    · rw [dif_neg hlt, dif_neg (mt h.onward.length_lt_iff.1 hlt)]
      exact .error _

theorem goOn (h : p.Matched R ts us r r')
    {next : α → (rest : List Token) → rest.length < ts.length → Except Stop (γ × List Token)}
    {next' : β → (rest : List Token) → rest.length < us.length → Except Stop (δ × List Token)}
    (hnext : ∀ a b rest rest' hlt hlt', R a b → p.Padded rest rest' →
      p.Matched S rest rest' (next a rest hlt) (next' b rest' hlt')) :
    p.Matched S ts us (RecipeManifest.goOn ts .mismatch r next)
      (RecipeManifest.goOn us .mismatch r' next') :=
  h.goOn_of_eq fun a b rest rest' hlt hlt' _ => hnext a b rest rest' hlt hlt'

/-- A mark that has to stand here is passed by both. -/
theorem pastOp (h : p.Padded ts us) (o : Operator)
    {k : List Token → Except Stop (γ × List Token)} {k' : List Token → Except Stop (δ × List Token)}
    (hk : ∀ rest rest', p.Padded rest rest' → p.Matched S rest rest' (k rest) (k' rest')) :
    p.Matched S ts us (RecipeManifest.pastOp o ts >>= k) (RecipeManifest.pastOp o us >>= k') := by
  unfold RecipeManifest.pastOp
  rw [atEnd, atEnd, atOp, atOp, h.peek]
  split
  · exact .error _
  · split
    · next ho =>
      have htail := h.tail_of_op ho
      exact from_leaves htail (hk _ _ htail.padded)
    · exact .error _

end Matched

/-! ## Expressions -/

/-- The pieces of a string are the same if its code is. -/
theorem mapM_pieceOf (parts : List Part)
    (h : ∀ code, Part.code code ∈ parts → p.interpret' code = p.interpret code) :
    parts.mapM (pieceOf p.interpret') = parts.mapM (pieceOf p.interpret) := by
  induction parts with
  | nil => rfl
  | cons part rest ih =>
    rw [List.mapM_cons, List.mapM_cons, ih fun code hcode => h code (List.mem_cons_of_mem _ hcode)]
    cases part with
    | text chars => rfl
    | code code => rw [pieceOf, pieceOf, h code List.mem_cons_self]

theorem Alike.atom? {t u : Token} (h : p.Alike t u) :
    atom? p.interpret' u.lexeme = atom? p.interpret t.lexeme := by
  rw [h.lexeme]
  cases ht : t.lexeme with
  | string parts =>
    have hpieces := mapM_pieceOf (p := p) (parts.filter fun part => part != .text [])
      fun code hcode => h.code parts ht code (List.mem_filter.1 hcode).1
    simp only [RecipeManifest.atom?, stringExpr, hpieces]
  | keyword k => cases k <;> rfl
  | _ => rfl

/-- A line end stops the keys of a lookup, also behind a mark that could go on with them. -/
theorem nodePath_of_newline {t : Token} (more : List Token) (ht : t.lexeme = .newline) :
    nodePath (t :: more) = ([], t :: more) ∧
      ∀ mark : Token, nodePath (mark :: t :: more) = ([], mark :: t :: more) := by
  constructor
  · match more with
    | [] | [_] => rfl
    | _ :: _ :: _ => simp [nodePath, ht]
  · intro mark
    cases more with
    | nil => rfl
    | cons close rest => simp [nodePath, ht, isLiteralKey]

theorem Padded.nodePath {ts us : List Token} (h : p.Padded ts us) :
    (nodePath us).1 = (nodePath ts).1 ∧ p.Leaves ts us (nodePath ts).2 (nodePath us).2 := by
  cases h with
  | nil => exact ⟨rfl, Padded.nil.leaves⟩
  | extra halike ht hdoubled hn h =>
    have hu := halike.lexeme.trans ht
    rw [(nodePath_of_newline _ ht).1, (nodePath_of_newline _ hu).1]
    exact ⟨rfl, (Padded.extra halike ht hdoubled hn h).leaves⟩
  | @cons bracket bracket' ts us hbracket h =>
    cases h with
    | nil => exact ⟨rfl, (Padded.cons hbracket .nil).leaves⟩
    | extra halike ht hdoubled hn h =>
      have hu := halike.lexeme.trans ht
      rw [(nodePath_of_newline _ ht).2, (nodePath_of_newline _ hu).2]
      exact ⟨rfl, (Padded.cons hbracket (.extra halike ht hdoubled hn h)).leaves⟩
    | @cons key key' ts us hkey h =>
      match ts, h with
      | [], .nil => exact ⟨rfl, (Padded.cons hbracket (.cons hkey .nil)).leaves⟩
      | close :: rest, h =>
        obtain ⟨close', rest', rfl, hclose, hrest⟩ := h.head
        have hself := (Padded.cons hbracket (.cons hkey h)).leaves
        rw [RecipeManifest.nodePath, RecipeManifest.nodePath]
        simp only [hbracket.lexeme, hbracket.spaced, hkey.lexeme, hclose.lexeme]
        split
        · split
          · next hend =>
            have hrest := hrest (by simp [hend.2])
            obtain ⟨hpath, hleaves⟩ := hrest.nodePath
            refine ⟨by rw [hpath], ?_⟩
            exact ((Leaves.tail (.cons hkey h)).trans ((Leaves.tail h).trans (.tail hrest))).trans
              hleaves
          · exact ⟨rfl, hself⟩
        · split
          · split
            · exact ⟨rfl, hself⟩
            · obtain ⟨hpath, hleaves⟩ := h.nodePath
              refine ⟨by rw [hpath], ?_⟩
              exact ((Leaves.tail (.cons hkey h)).trans (.tail h)).trans hleaves
          · exact ⟨rfl, hself⟩
termination_by ts.length

theorem matched_nodeLookup (h : p.Padded ts us) :
    p.Matched Eq ts us (.ok (nodeLookup ts)) (.ok (nodeLookup us)) := by
  obtain ⟨hpath, hleaves⟩ := h.nodePath
  unfold nodeLookup
  cases hts : nodePath ts with
  | mk path rest =>
    cases hus : nodePath us with
    | mk path' rest' =>
      rw [hts, hus] at hpath hleaves
      cases hpath
      cases path <;> exact .ok rfl hleaves

/-- A negative number is one for both readers. -/
theorem Padded.negativeNumber (h : p.Padded ts us) :
    (negativeNumber? ts = none ∧ negativeNumber? us = none) ∨
      ∃ e rest rest', negativeNumber? ts = some (e, rest) ∧ negativeNumber? us = some (e, rest') ∧
        p.Leaves ts us rest rest' := by
  by_cases hminus : RecipeManifest.peek ts = .op .minus
  · cases ts with
    | nil => cases hminus
    | cons t more =>
      obtain ⟨⟨_, _, _, _, _⟩, more', rfl, ht, hmore⟩ := h.head
      obtain ⟨_, _, _, _, _⟩ := t
      cases ht.lexeme
      cases hminus
      have hmore := hmore (by simp)
      cases more with
      | nil =>
        cases hmore
        exact .inl ⟨rfl, rfl⟩
      | cons k rest =>
        obtain ⟨⟨y, _, _, _, spaced⟩, rest', rfl, hk, hrest⟩ := hmore.head
        obtain ⟨_, _, _, _, _⟩ := k
        cases hk.lexeme
        cases hk.spaced
        cases y with
        | number text =>
          cases spaced with
          | true => exact .inl ⟨rfl, rfl⟩
          | false =>
            have hrest := hrest (by simp)
            exact .inr ⟨_, rest, rest', rfl, rfl, (Leaves.tail hmore).trans (.tail hrest)⟩
        | _ => exact .inl ⟨rfl, rfl⟩
  · have hnone {vs : List Token} (hvs : RecipeManifest.peek vs ≠ .op .minus) :
        negativeNumber? vs = none := by
      unfold negativeNumber?
      split
      · exact absurd rfl hvs
      · rfl
    exact .inl ⟨hnone hminus, hnone (h.peek ▸ hminus)⟩

mutual

theorem matched_expression (floor : Nat) (ts us : List Token) (h : p.Padded ts us) :
    p.Matched Eq ts us (expression p.interpret floor ts) (expression p.interpret' floor us) := by
  rw [expression, expression]
  apply (matched_unary ts us h).goOn
  rintro left _ rest rest' hlt hlt' rfl hrest
  exact matched_climb floor left rest rest' hrest
termination_by 8 * ts.length + 3
decreasing_by all_goals omega

theorem matched_climb (floor : Nat) (left : Expr) (ts us : List Token) (h : p.Padded ts us) :
    p.Matched Eq ts us (climb p.interpret floor left ts) (climb p.interpret' floor left us) := by
  rw [climb.eq_def, climb.eq_def p.interpret']
  match ts, h with
  | [], .nil => exact .ok rfl Padded.nil.leaves
  | t :: more, h =>
    obtain ⟨u, more', rfl, halike, hmore⟩ := h.head
    dsimp only
    rw [halike.lexeme]
    split
    · exact .ok rfl h.leaves
    · next op precedence hop =>
      have hmore := hmore (by rintro heq; rw [heq] at hop; cases hop)
      split
      · exact .ok rfl h.leaves
      · apply Matched.from_leaves ((Leaves.tail hmore).trans hmore.afterBreaks)
        apply (matched_expression precedence _ _ hmore.afterBreaks.padded).goOn
        rintro right _ rest rest' hlt hlt' rfl hrest
        exact matched_climb floor (.binary op left right) rest rest' hrest
termination_by 8 * ts.length
decreasing_by
  all_goals
    have := length_afterBreaks_le more
    simp only [List.length_cons]
    omega

theorem matched_unary (ts us : List Token) (h : p.Padded ts us) :
    p.Matched Eq ts us (unary p.interpret ts) (unary p.interpret' us) := by
  rw [unary.eq_def, unary.eq_def p.interpret']
  match ts, h with
  | [], .nil => exact .error _
  | t :: more, h =>
    obtain ⟨u, more', rfl, halike, hmore⟩ := h.head
    dsimp only
    rw [halike.lexeme]
    split
    · next hnot =>
      have hmore := hmore (by rintro heq; simp [heq] at hnot)
      apply Matched.from_leaves (.tail hmore)
      apply (matched_unary more more' hmore).map
      rintro e _ rfl
      rfl
    · obtain ⟨hts, hus⟩ | ⟨e, rest, rest', hts, hus, hleaves⟩ := h.negativeNumber
      · rw [hts, hus]
        apply (matched_primary _ _ h).goOn
        rintro e _ rest rest' hlt hlt' rfl hrest
        exact matched_selections e rest rest' hrest
      · rw [hts, hus]
        exact .ok rfl hleaves
termination_by 8 * ts.length + 2
decreasing_by
  all_goals
    simp only [List.length_cons] at *
    omega

theorem matched_primary (ts us : List Token) (h : p.Padded ts us) :
    p.Matched Eq ts us (primary p.interpret ts) (primary p.interpret' us) := by
  rw [primary.eq_def, primary.eq_def p.interpret']
  match ts, h with
  | [], .nil => exact .error _
  | t :: more, h =>
    obtain ⟨u, more', rfl, halike, hmore⟩ := h.head
    dsimp only
    rw [halike.atom?, halike.lexeme]
    split
    · next value hvalue =>
      have hmore := hmore (by rintro heq; rw [heq] at hvalue; cases hvalue)
      cases value with
      | error e => exact .error e
      | ok e => exact .ok rfl (.tail hmore)
    · split
      · exact .error _
      · next ht =>
        have hmore := hmore (by simp [ht])
        apply Matched.from_leaves ((Leaves.tail hmore).trans hmore.afterBreaks)
        apply (matched_expression 0 _ _ hmore.afterBreaks.padded).bind
        rintro inner _ rest rest' rfl hrest
        apply Matched.from_leaves hrest.afterBreaks
        apply Matched.pastOp hrest.afterBreaks.padded
        intro rest rest' hrest
        exact .ok rfl hrest.leaves
      · next ht =>
        have hmore := hmore (by simp [ht])
        apply Matched.from_leaves (.tail hmore)
        apply (matched_arguments (some .bracketR) more more' hmore).bind
        rintro items _ rest rest' rfl hrest
        apply Matched.pastOp hrest
        intro rest rest' hrest
        exact .ok rfl hrest.leaves
      · next ht =>
        have hmore := hmore (by simp [ht])
        apply Matched.from_leaves (.tail hmore)
        apply (matched_arguments (some .braceR) more more' hmore).bind
        rintro items _ rest rest' rfl hrest
        apply Matched.pastOp hrest
        intro rest rest' hrest
        cases braceValue items with
        | error e => exact .error e
        | ok e => exact .ok rfl hrest.leaves
      · next ht =>
        have hmore := hmore (by simp [ht])
        match more, hmore with
        | [], .nil => exact .error _
        | k :: rest, hmore =>
          obtain ⟨⟨y, _, _, _, _⟩, rest', rfl, hk, hrest⟩ := hmore.head
          obtain ⟨_, _, _, _, _⟩ := k
          cases hk.lexeme
          cases y with
          | const name => exact .ok rfl ((Leaves.tail hmore).trans (.tail (hrest (by simp))))
          | _ => exact .error _
      · next name ht =>
        have hmore := hmore (by simp [ht])
        split
        · exact Matched.from_leaves (.tail hmore) (matched_nodeLookup hmore)
        · exact matched_method none _ _ h (by simp [RecipeManifest.peek, ht])
      · exact .error _
termination_by 8 * ts.length + 1
decreasing_by
  · have := length_afterBreaks_le more
    simp only [List.length_cons]
    omega
  all_goals simp only [List.length_cons]; omega

theorem matched_method (receiver : Option Expr) (ts us : List Token) (h : p.Padded ts us)
    (hname : RecipeManifest.peek ts ≠ .newline) :
    p.Matched Eq ts us (method p.interpret receiver ts) (method p.interpret' receiver us) := by
  rw [method.eq_def, method.eq_def p.interpret']
  match ts, h with
  | [], .nil => exact .error _
  | t :: more, h =>
    obtain ⟨u, more', rfl, halike, hmore⟩ := h.head
    have hmore := hmore hname
    have hcall : ∀ args rest rest', p.Padded rest rest' →
        p.Matched Eq rest rest'
          (if receiver.isNone && t.lexeme.value == "resources" then
            pure (.resources (lookupTargets args), rest)
          else pure (selectedCall receiver t.lexeme.value args, rest))
          (if receiver.isNone && t.lexeme.value == "resources" then
            pure (.resources (lookupTargets args), rest')
          else pure (selectedCall receiver t.lexeme.value args, rest')) := by
      intro args rest rest' hrest
      split <;> exact .ok rfl hrest.leaves
    dsimp only
    rw [halike.lexeme, hmore.atTightOp, hmore.startsBareArgument]
    apply Matched.from_leaves (.tail hmore)
    split
    · next hparen =>
      have htail := hmore.tail_of_op (atOp_of_atTightOp hparen)
      apply Matched.from_leaves htail
      apply (matched_arguments (some .parenR) _ _ htail.padded).bind
      rintro args _ rest rest' rfl hrest
      apply Matched.pastOp hrest
      intro rest rest' hrest
      exact hcall args rest rest' hrest
    · split
      · apply (matched_arguments none more more' hmore).bind
        rintro args _ rest rest' rfl hrest
        exact hcall args rest rest' hrest
      · exact hcall [] more more' hmore
termination_by 8 * ts.length
decreasing_by
  all_goals
    simp only [List.length_cons, List.length_tail]
    omega

theorem matched_selections (value : Expr) (ts us : List Token) (h : p.Padded ts us) :
    p.Matched Eq ts us (selections p.interpret value ts) (selections p.interpret' value us) := by
  rw [selections.eq_def, selections.eq_def p.interpret']
  match ts, h with
  | [], .nil => exact .ok rfl Padded.nil.leaves
  | t :: more, h =>
    obtain ⟨u, more', rfl, halike, hmore⟩ := h.head
    dsimp only
    rw [halike.lexeme, halike.spaced]
    split
    · next hdot =>
      have hmore := hmore (by rintro heq; simp [heq] at hdot)
      rw [hmore.peek]
      split
      · next hmember =>
        apply Matched.goOn (Matched.from_leaves (.tail hmore) (matched_method (some value) _ _ hmore
          (by rintro heq; rw [heq] at hmember; cases hmember)))
        rintro e _ rest rest' hlt hlt' rfl hrest
        exact matched_selections e rest rest' hrest
      · exact .error _
    · split
      · next hbracket =>
        have hmore := hmore (by rintro heq; simp [heq] at hbracket)
        apply Matched.goOn (R := Eq)
        · apply Matched.from_leaves (.tail hmore)
          apply (matched_arguments (some .bracketR) more more' hmore).bind
          rintro index _ rest rest' rfl hrest
          apply Matched.pastOp hrest
          intro rest rest' hrest
          exact .ok rfl hrest.leaves
        · rintro index _ rest rest' hlt hlt' rfl hrest
          exact matched_selections _ rest rest' hrest
      · exact .ok rfl h.leaves
termination_by 8 * ts.length
decreasing_by
  all_goals
    simp only [List.length_cons] at *
    omega

theorem matched_arguments (closer : Option Operator) (ts us : List Token) (h : p.Padded ts us) :
    p.Matched Eq ts us (arguments p.interpret closer ts) (arguments p.interpret' closer us) := by
  rw [arguments.eq_def, arguments.eq_def p.interpret']
  cases closer with
  | none =>
    apply (matched_argumentItems none ts us h).map
    rintro items _ rfl
    rfl
  | some o =>
    dsimp only
    apply Matched.from_leaves h.afterBreaks
    rw [atOp, atOp, h.afterBreaks.padded.peek]
    split
    · exact .ok rfl h.afterBreaks.padded.leaves
    · apply (matched_argumentItems (some o) _ _ h.afterBreaks.padded).map
      rintro items _ rfl
      rfl
termination_by 8 * ts.length + 6
decreasing_by
  · omega
  · have := length_afterBreaks_le ts
    omega

theorem matched_argumentItems (closer : Option Operator) (ts us : List Token)
    (h : p.Padded ts us) :
    p.Matched Eq ts us (argumentItems p.interpret closer ts)
      (argumentItems p.interpret' closer us) := by
  rw [argumentItems.eq_def, argumentItems.eq_def p.interpret']
  apply (matched_argument ts us h).goOn
  rintro item _ rest rest' hlt hlt' rfl hrest
  dsimp only
  have hnext : p.Leaves rest rest' (if closer.isSome = true then afterBreaks rest else rest)
      (if closer.isSome = true then afterBreaks rest' else rest') := by
    split
    · exact hrest.afterBreaks
    · exact hrest.leaves
  have hle : (if closer.isSome = true then afterBreaks rest else rest).length ≤ rest.length := by
    have := length_afterBreaks_le rest
    split <;> omega
  apply Matched.from_leaves hnext
  replace hnext := hnext.padded
  generalize (if closer.isSome = true then afterBreaks rest else rest) = ahead at hnext hle ⊢
  generalize (if closer.isSome = true then afterBreaks rest' else rest') = ahead' at hnext ⊢
  match ahead, hnext with
  | [], .nil => exact .ok rfl Padded.nil.leaves
  | t :: more, hnext =>
    obtain ⟨u, more', rfl, halike, hmore⟩ := hnext.head
    dsimp only
    rw [halike.lexeme]
    split
    · next hcomma =>
      have hmore := hmore (by simp [hcomma])
      have hitems : (afterBreaks more).length < ts.length := by
        have := length_afterBreaks_le more
        simp only [List.length_cons] at hle
        omega
      apply Matched.from_leaves ((Leaves.tail hmore).trans hmore.afterBreaks)
      have hcloser : (closer.any fun o => atOp o (afterBreaks more')) =
          closer.any fun o => atOp o (afterBreaks more) := by
        simp only [atOp, hmore.afterBreaks.padded.peek]
      rw [hcloser]
      split
      · exact .ok rfl hmore.afterBreaks.padded.leaves
      · apply (matched_argumentItems closer _ _ hmore.afterBreaks.padded).map
        rintro items _ rfl
        rfl
    · exact .ok rfl hnext.leaves
termination_by 8 * ts.length + 5
decreasing_by all_goals omega

theorem matched_argument (ts us : List Token) (h : p.Padded ts us) :
    p.Matched Eq ts us (argument p.interpret ts) (argument p.interpret' us) := by
  rw [argument.eq_def, argument.eq_def p.interpret']
  match ts, h with
  | [], .nil => exact .error _
  | t :: more, h =>
    obtain ⟨u, more', rfl, halike, hmore⟩ := h.head
    dsimp only
    rw [halike.lexeme]
    -- a value behind a splat mark
    have hsplat (hmore : p.Padded more more') : p.Matched Eq (t :: more) (u :: more')
        ((expression p.interpret 0 more).map fun (value, rest) => (Argument.value value, rest))
        ((expression p.interpret' 0 more').map fun (value, rest) =>
          (Argument.value value, rest)) := by
      apply Matched.from_leaves (.tail hmore)
      apply (matched_expression 0 more more' hmore).map
      rintro value _ rfl
      rfl
    split
    · next name ht =>
      have hmore := hmore (by simp [ht])
      apply Matched.from_leaves ((Leaves.tail hmore).trans hmore.afterBreaks)
      apply (matched_expression 0 _ _ hmore.afterBreaks.padded).map
      rintro value _ rfl
      rfl
    · next ht => exact hsplat (hmore (by simp [ht]))
    · next ht => exact hsplat (hmore (by simp [ht]))
    · next ht => exact hsplat (hmore (by simp [ht]))
    · apply (matched_expression 0 _ _ h).goOn
      rintro key _ rest rest' hlt hlt' rfl hrest
      rw [atOp, atOp, hrest.peek]
      split
      · next hrocket =>
        have htail := hrest.tail_of_op hrocket
        apply Matched.from_leaves (htail.trans htail.padded.afterBreaks)
        apply (matched_expression 0 _ _ htail.padded.afterBreaks.padded).map
        rintro value _ rfl
        rfl
      · exact .ok rfl hrest.leaves
termination_by 8 * ts.length + 4
decreasing_by
  all_goals
    first
      | have := length_afterBreaks_le more
        simp only [List.length_cons]
        omega
      | have := length_afterBreaks_le rest.tail
        simp only [List.length_tail, List.length_cons] at *
        omega

end

end Padding

end RecipeManifest

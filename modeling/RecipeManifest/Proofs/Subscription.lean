import Mathlib
import RecipeManifest.Manifest.Resource
import RecipeManifest.Proofs.Results
import RecipeManifest.Statement.Reference

/-!
Subscriptions and the titles they mean.

A lookup writes down the name it is given, and a declaration is titled by what its name says or,
where it runs a command, by the command. The two texts come from different renderings of one
expression. Main statement: a subscription to a declaration always has the right type, and it has
the right title exactly when the name says no more than a lookup writes down, or when the command
is that name.
-/

namespace RecipeManifest

/-! ## Texts -/

/-- A character as it stands between single quotes. -/
def escapedQuote (c : Char) : List Char :=
  if c = '\'' then ['\\', '\''] else [c]

theorem quoted_eq (text : String) :
    quoted text = "'" ++ String.ofList (text.toList.flatMap escapedQuote) ++ "'" :=
  rfl

/-- What is escaped never starts with a quote. -/
theorem escapedQuote_flatMap_ne (cs rest : List Char) :
    cs.flatMap escapedQuote ≠ '\'' :: rest := by
  cases cs with
  | nil => simp
  | cons c cs =>
    by_cases h : c = '\'' <;> simp [escapedQuote, h]

theorem escapedQuote_flatMap_injective {a b : List Char}
    (h : a.flatMap escapedQuote = b.flatMap escapedQuote) : a = b := by
  induction a generalizing b with
  | nil =>
    cases b with
    | nil => rfl
    | cons d b => by_cases hd : d = '\'' <;> simp [escapedQuote, hd] at h
  | cons c a ih =>
    cases b with
    | nil => by_cases hc : c = '\'' <;> simp [escapedQuote, hc] at h
    | cons d b =>
      -- Where just one of the two is a quote, the other is the backslash before it, and what
      -- follows that backslash would have to start with the quote.
      by_cases hc : c = '\'' <;> by_cases hd : d = '\'' <;>
        simp only [List.flatMap_cons, escapedQuote, hc, hd, if_true, if_false, List.cons_append,
          List.nil_append, List.cons.injEq, true_and] at h ⊢
      · exact ih h
      · exact absurd h.2.symm (escapedQuote_flatMap_ne b _)
      · exact absurd h.2 (escapedQuote_flatMap_ne a _)
      · exact ⟨h.1, ih h.2⟩

theorem quoted_inj {s t : String} : quoted s = quoted t ↔ s = t := by
  refine ⟨fun h => ?_, fun h => h ▸ rfl⟩
  rw [quoted_eq, quoted_eq] at h
  have hl := congrArg String.toList h
  simp only [String.toList_append, String.toList_ofList, List.append_cancel_left_eq,
    List.append_cancel_right_eq] at hl
  exact String.toList_inj.1 (escapedQuote_flatMap_injective hl)

/-- Two texts of which neither falls short are made of the same two parts. -/
theorem append_eq_of_length_le {s t s' t' : String} (h : s ++ t = s' ++ t')
    (hs : s'.length ≤ s.length) (ht : t'.length ≤ t.length) : s = s' ∧ t = t' := by
  have hl := congrArg String.toList h
  have hn := congrArg String.length h
  simp only [String.length_append] at hn
  rw [String.toList_append, String.toList_append] at hl
  have := List.append_inj hl (by simp only [String.length_toList]; omega)
  exact ⟨String.toList_inj.1 this.1, String.toList_inj.1 this.2⟩

theorem intercalate_eq_empty_iff {sep : String} (hsep : sep ≠ "") (texts : List String) :
    sep.intercalate texts = "" ↔ texts = [] ∨ texts = [""] := by
  match texts with
  | [] => simp
  | [t] => simp
  | t :: u :: rest => simp [String.intercalate_cons_cons, hsep]

namespace Expr

/-! ## Names that a lookup writes down in full -/

/-- The expression says nothing. -/
def Silent (e : Expr) : Prop :=
  e.render false = .ok ""

mutual

/-- The text of the expression is its name: there is nothing in it that a lookup leaves out. -/
def NamesItself : Expr → Prop
  | literal .. | nodeRef _ | absent | resources _ => True
  | interpolated parts => PiecesNameThemselves parts
  | call receiver name args =>
    (∀ e, receiver = some e → e.Silent) ∧
      (args = [] ∨ name = "[]" ∧ ∃ e, args = [e] ∧ e.Silent)
  | array items => items = [] ∨ ∃ e, items = [e] ∧ e.Silent
  | hash pairs => pairs = []
  | fileTest .. | not _ | binary .. | statement _ | block _ => False

def PiecesNameThemselves : List Piece → Prop
  | [] => True
  | .text _ :: rest => PiecesNameThemselves rest
  | .value e :: rest => e.NamesItself ∧ PiecesNameThemselves rest

end

theorem length_callText_subscript (receiver : String) (args : List String) :
    (callText false receiver "[]" args).length =
      receiver.length + (", ".intercalate args).length + "[]".length := by
  have h1 : "[".length = 1 := rfl
  have h2 : "]".length = 1 := rfl
  have h3 : "[]".length = 2 := rfl
  simp only [callText, if_true, toString, String.length_append]
  omega

theorem length_callText {name : String} (hname : name ≠ "[]") (receiver : String)
    (args : List String) :
    name.length ≤ (callText false receiver name args).length ∧
      ((callText false receiver name args).length = name.length → receiver = "" ∧ args = []) := by
  have h1 : ".".length = 1 := rfl
  have h2 : "(".length = 1 := rfl
  by_cases hr : receiver = "" <;> by_cases ha : args = [] <;>
    simp [callText, hname, hr, ha, toString] <;> omega

theorem length_le_callText (receiver name : String) (args : List String) :
    name.length ≤ (callText false receiver name args).length := by
  by_cases hname : name = "[]"
  · subst hname
    rw [length_callText_subscript]
    omega
  · exact (length_callText hname receiver args).1

/-- A call says just its name when it has neither receiver nor arguments to speak of. -/
theorem callText_eq_name_iff (receiver name : String) (args : List String) :
    callText false receiver name args = name ↔
      receiver = "" ∧ (args = [] ∨ name = "[]" ∧ args = [""]) := by
  constructor
  · intro h
    have hlen := congrArg String.length h
    by_cases hname : name = "[]"
    · subst hname
      rw [length_callText_subscript] at hlen
      have hr : receiver = "" := String.length_eq_zero_iff.1 (by omega)
      have hargs : ", ".intercalate args = "" := String.length_eq_zero_iff.1 (by omega)
      refine ⟨hr, ?_⟩
      simpa using (intercalate_eq_empty_iff (by decide) args).1 hargs
    · obtain ⟨hr, ha⟩ := (length_callText hname receiver args).2 hlen
      exact ⟨hr, .inl ha⟩
  · rintro ⟨rfl, rfl | ⟨rfl, rfl⟩⟩
    · by_cases hname : name = "[]" <;> simp [callText, hname, toString]
    · simp [callText, toString]

mutual

/-- A lookup never writes more than the expression says. -/
theorem length_namingText_le : (e : Expr) → {t : String} → e.render false = .ok t →
    e.namingText.length ≤ t.length
  | literal _ _, t, h | nodeRef _, t, h => by
    simp only [render, Except.ok.injEq] at h
    simp [namingText, h]
  | interpolated parts, t, h => length_namingTextOf_le parts h
  | call receiver name args, t, h => by
    simp only [render, bind_eq_ok_iff, pure_eq_ok_iff] at h
    obtain ⟨_, -, _, -, rfl⟩ := h
    exact length_le_callText _ _ _
  | absent, t, _ | resources _, t, _ | fileTest .., t, _ | not _, t, _ | binary .., t, _
  | array _, t, _ | hash _, t, _ | statement _, t, _ | block _, t, _ => by
    simp [namingText]

theorem length_namingTextOf_le : (parts : List Piece) → {t : String} →
    renderPieces false parts = .ok t → (namingTextOf parts).length ≤ t.length
  | [], t, _ => by simp [namingTextOf]
  | .text chars :: rest, t, h => by
    simp only [renderPieces, bind_eq_ok_iff, pure_eq_ok_iff] at h
    obtain ⟨s, hs, rfl⟩ := h
    have := length_namingTextOf_le rest hs
    simp only [namingTextOf, String.length_append]
    omega
  | .value e :: rest, t, h => by
    simp only [renderPieces, bind_eq_ok_iff, pure_eq_ok_iff] at h
    obtain ⟨u, hu, s, hs, rfl⟩ := h
    have := length_namingText_le e hu
    have := length_namingTextOf_le rest hs
    simp only [namingTextOf, String.length_append]
    omega

end

theorem renderAll_eq_nil_iff {items : List Expr} : renderAll false items = .ok [] ↔ items = [] := by
  cases items with
  | nil => simp [renderAll]
  | cons e rest => simp only [renderAll, bind_eq_ok_iff, pure_eq_ok_iff]; simp

theorem renderAll_eq_singleton_iff {items : List Expr} {t : String} :
    renderAll false items = .ok [t] ↔ ∃ e, items = [e] ∧ e.render false = .ok t := by
  cases items with
  | nil => simp [renderAll]
  | cons e rest =>
    simp only [renderAll, bind_eq_ok_iff, pure_eq_ok_iff, List.cons.injEq]
    constructor
    · rintro ⟨_, he, _, hrest, rfl, rfl⟩
      exact ⟨e, ⟨rfl, renderAll_eq_nil_iff.1 hrest⟩, he⟩
    · rintro ⟨_, ⟨rfl, rfl⟩, he⟩
      exact ⟨t, he, [], rfl, rfl, rfl⟩

/-- A list says nothing when it is empty or its one item says nothing. -/
theorem renderAll_silent_iff {sep : String} (hsep : sep ≠ "") {items : List Expr} :
    (∃ texts, renderAll false items = .ok texts ∧ sep.intercalate texts = "") ↔
      items = [] ∨ ∃ e, items = [e] ∧ e.Silent := by
  constructor
  · rintro ⟨texts, h, ht⟩
    rcases (intercalate_eq_empty_iff hsep texts).1 ht with rfl | rfl
    · exact .inl (renderAll_eq_nil_iff.1 h)
    · exact .inr (renderAll_eq_singleton_iff.1 h)
  · rintro (rfl | ⟨e, rfl, he⟩)
    · exact ⟨[], rfl, by simp⟩
    · exact ⟨[""], renderAll_eq_singleton_iff.2 ⟨e, rfl, he⟩, by simp⟩

theorem renderReceiver_silent_iff {receiver : Option Expr} :
    renderReceiver false receiver = .ok "" ↔ ∀ e, receiver = some e → e.Silent := by
  cases receiver <;> simp [renderReceiver, Silent]

theorem renderPairs_silent_iff {pairs : List (Expr × Expr)} :
    (∃ texts, renderPairs false pairs = .ok texts ∧ ", ".intercalate texts = "") ↔
      pairs = [] := by
  constructor
  · rintro ⟨texts, h, ht⟩
    cases pairs with
    | nil => rfl
    | cons pair rest =>
      -- Each pair has an arrow in its text.
      simp only [renderPairs, bind_eq_ok_iff, pure_eq_ok_iff] at h
      obtain ⟨key, -, value, -, more, -, rfl⟩ := h
      rcases (intercalate_eq_empty_iff (by decide) _).1 ht with h | h <;>
        simp [toString] at h
  · rintro rfl
    exact ⟨[], rfl, by simp⟩

mutual

/-- The text of an expression is the name that a lookup writes down exactly when it names
itself. -/
theorem render_eq_namingText_iff : (e : Expr) →
    (e.render false = .ok e.namingText ↔ e.NamesItself)
  | literal _ _ | nodeRef _ | absent | resources _ => by simp [render, namingText, NamesItself]
  | interpolated parts => by
    simp only [render, namingText, NamesItself]
    exact renderPieces_eq_namingTextOf_iff parts
  | call receiver name args => by
    simp only [render, bind_eq_ok_iff, pure_eq_ok_iff, namingText, callText_eq_name_iff,
      NamesItself, ← renderReceiver_silent_iff]
    constructor
    · rintro ⟨texts, hargs, _, hr, rfl, rfl | ⟨rfl, rfl⟩⟩
      · exact ⟨hr, .inl (renderAll_eq_nil_iff.1 hargs)⟩
      · exact ⟨hr, .inr ⟨rfl, renderAll_eq_singleton_iff.1 hargs⟩⟩
    · rintro ⟨hr, rfl | ⟨rfl, hargs⟩⟩
      · exact ⟨[], rfl, "", hr, rfl, .inl rfl⟩
      · exact ⟨[""], renderAll_eq_singleton_iff.2 hargs, "", hr, rfl, .inr ⟨rfl, rfl⟩⟩
  | array items => by
    simp only [render, bind_eq_ok_iff, pure_eq_ok_iff, namingText, NamesItself]
    exact renderAll_silent_iff (by decide)
  | hash pairs => by
    simp only [render, bind_eq_ok_iff, pure_eq_ok_iff, namingText, NamesItself]
    exact renderPairs_silent_iff
  | fileTest .. | not _ | binary .. => by
    simp only [render, bind_eq_ok_iff, pure_eq_ok_iff, namingText, NamesItself]
    simp [toString]
  | statement _ | block _ => by simp [render, NamesItself]

theorem renderPieces_eq_namingTextOf_iff : (parts : List Piece) →
    (renderPieces false parts = .ok (namingTextOf parts) ↔ PiecesNameThemselves parts)
  | [] => by simp [renderPieces, namingTextOf, PiecesNameThemselves]
  | .text chars :: rest => by
    rw [PiecesNameThemselves, ← renderPieces_eq_namingTextOf_iff rest]
    simp only [renderPieces, namingTextOf, bind_eq_ok_iff, pure_eq_ok_iff]
    simp
  | .value e :: rest => by
    rw [PiecesNameThemselves, ← render_eq_namingText_iff e,
      ← renderPieces_eq_namingTextOf_iff rest]
    simp only [renderPieces, namingTextOf, bind_eq_ok_iff, pure_eq_ok_iff]
    constructor
    · -- Neither part can say less than its name, so neither can say more.
      rintro ⟨t, ht, s, hs, heq⟩
      obtain ⟨rfl, rfl⟩ :=
        append_eq_of_length_le heq (length_namingText_le e ht) (length_namingTextOf_le rest hs)
      exact ⟨ht, hs⟩
    · rintro ⟨ht, hs⟩
      exact ⟨_, ht, _, hs, rfl⟩

end

end Expr

/-! ## Declarations and their titles -/

/-- A reference to the resource with that type and title. -/
def referenceText (type title : String) : String :=
  s!"{String.ofList (Text.capitalized type.toList)}[{title}]"

theorem referenceText_inj {type s t : String} :
    referenceText type s = referenceText type t ↔ s = t := by
  constructor
  · intro h
    have hl := congrArg String.toList h
    simp only [referenceText, toString, String.toList_append, List.append_cancel_left_eq,
      List.append_cancel_right_eq] at hl
    exact String.toList_inj.1 hl
  · rintro rfl
    rfl

namespace Resource

variable {style : Style} {r : Resource} {e : Expr} {block : ResourceBlock}

@[simp]
theorem withDefaultState_type (b : ResourceBlock) : (r.withDefaultState style b).type = b.type := by
  unfold withDefaultState
  split <;> try rfl
  dsimp only
  split <;> rfl

@[simp]
theorem withDefaultState_title (b : ResourceBlock) :
    (r.withDefaultState style b).title = b.title := by
  unfold withDefaultState
  split <;> try rfl
  dsimp only
  split <;> rfl

/-- A block has the type of its declaration and the title that the heading gives. -/
theorem toBlock_ok (hb : (r.toBlock style).result = .ok block) :
    block.type = style.tables.typeName r.type ∧
      ∃ comment, r.heading = .ok (block.title, comment) := by
  obtain ⟨⟨title, comment⟩, hhead, hb⟩ := Noted.bind_result_ok hb
  obtain ⟨statements, -, hb⟩ := Noted.bind_result_ok hb
  obtain rfl : r.withDefaultState style ⟨_, title, statements, comment⟩ = block := by
    simpa [pure] using hb
  refine ⟨by simp, comment, ?_⟩
  rw [withDefaultState_title]
  exact hhead

/-- What a declaration is titled by: its command if it runs one, or else its name. -/
def titleSource (r : Resource) (e : Expr) : Except Fault String :=
  if r.type = "execute" then r.command else e.render false

theorem titleText_eq (harr : ∀ items, e ≠ .array items) :
    Expr.titleText (some e) = (e.render false).map quoted := by
  unfold Expr.titleText
  split
  · next items h => exact absurd (Option.some.inj h) (harr items)
  · rfl

theorem titleSource_of_heading (hname : r.name = some e) (harr : ∀ items, e ≠ .array items)
    {title : String} {comment : Option String} (h : r.heading = .ok (title, comment)) :
    ∃ text, r.titleSource e = .ok text ∧ title = quoted text := by
  simp only [heading, bind_eq_ok_iff, hname, titleText_eq harr, map_eq_ok_iff] at h
  obtain ⟨_, ⟨text, htext, rfl⟩, h⟩ := h
  by_cases hx : r.type = "execute"
  · simp only [hx, if_true, bind_eq_ok_iff, pure_eq_ok_iff, Prod.mk.injEq] at h
    obtain ⟨command, hc, _, -, rfl, -⟩ := h
    exact ⟨command, by simp [titleSource, hx, hc], rfl⟩
  · simp only [hx, if_false, pure_eq_ok_iff, Prod.mk.injEq] at h
    exact ⟨text, by simp [titleSource, hx, htext], h.1.symm⟩

/-- The name in quotes is the title exactly when the title's source is the name. -/
theorem quoted_namingText_eq_title_iff (hname : r.name = some e)
    (harr : ∀ items, e ≠ .array items) (hb : (r.toBlock style).result = .ok block) :
    quoted e.namingText = block.title ↔ r.titleSource e = .ok e.namingText := by
  obtain ⟨-, comment, hhead⟩ := toBlock_ok hb
  obtain ⟨text, htext, htitle⟩ := titleSource_of_heading hname harr hhead
  rw [htitle, htext, quoted_inj, Except.ok.injEq]
  exact eq_comm

end Resource

namespace Property

variable {style : Style} {p : Property} {resourceType : String}

/-- The statements of a property are its subscriptions and then its own. -/
theorem statements_result :
    (p.statements style resourceType).result =
      (p.ownStatements style resourceType).result.map
        (p.args.flatMap (subscriptionsTo style) ++ ·) := by
  unfold statements
  cases h : (p.ownStatements style resourceType).result with
  | error e => simp [bind, h, Except.map]
  | ok own => split <;> simp [bind, h, Except.map, pure, Noted.note]

/-- A property that is given nothing but a reference, and no block, has no text to fail on. -/
theorem ownStatements_of_reference {targets : List (String × String)}
    (hargs : p.args = [.resources targets]) (hblock : p.block = none) :
    ∃ own, (p.ownStatements style resourceType).result = .ok own := by
  have htext : p.argumentText = .ok "" := by
    simp [argumentText, hargs, isReference, Expr.renderAll, bind, Except.bind, pure, Except.pure]
  have hplain : p.plainStatement = .ok [⟨p.name, quoted ""⟩] := by
    simp [plainStatement, htext, bind, Except.bind, pure, Except.pure, isNumeral]
  have hactions : ∃ own, p.actionStatements style = .ok own := by
    simp [actionStatements, hargs, actionItems, Expr.renderAll, Expr.render, bind, Except.bind,
      pure, Except.pure]
  have hsource : ∃ own, p.sourceStatement style resourceType = .ok own := by
    unfold sourceStatement
    split <;> simp [htext, hplain, bind, Except.bind, pure, Except.pure]
  unfold ownStatements
  split
  · exact hsource
  · simp [Noted.lift, htext, bind, Except.bind, pure, Except.pure]
  · simp [Noted.lift, htext, bind, Except.bind, pure, Except.pure]
  · exact ⟨_, rfl⟩
  · exact hactions
  · exact ⟨_, rfl⟩
  · exact ⟨_, rfl⟩
  · exact ⟨_, rfl⟩
  · exact ⟨_, rfl⟩
  · split
    · simp [guardStatement, hblock, hargs, bind, pure, Noted.note]
    · exact ⟨_, hplain⟩

end Property

/-- A property that refers to a declared resource by the type and the name of its declaration
subscribes to a resource of the right type, and to its very title exactly when the name says just
what a lookup writes down, or for a command when the command is that. -/
theorem subscription_meets_title_iff (style : Style) (r : Resource) (e : Expr)
    (block : ResourceBlock) (p : Property) (resourceType : String) (before after : List Expr)
    (hname : r.name = some e) (harr : ∀ items, e ≠ .array items)
    (hb : (r.toBlock style).result = .ok block)
    (hargs : p.args =
      before ++ .resources (lookupTargets [.hash [(.literal .symbol r.type, e)]]) :: after) :
    (p.statements style resourceType).result =
        (p.ownStatements style resourceType).result.map
          (before.flatMap (Property.subscriptionsTo style) ++
            ⟨"subscribe", referenceText block.type (quoted e.namingText)⟩ ::
              after.flatMap (Property.subscriptionsTo style) ++ ·) ∧
      (before = [] → after = [] → p.block = none →
        ∃ own, (p.ownStatements style resourceType).result = .ok own) ∧
      (referenceText block.type (quoted e.namingText) = referenceText block.type block.title ↔
        if r.type = "execute" then r.command = .ok e.namingText else e.NamesItself) := by
  obtain ⟨htype, -⟩ := Resource.toBlock_ok hb
  refine ⟨?_, ?_, ?_⟩
  · rw [Property.statements_result, hargs]
    simp [Property.subscriptionsTo, lookupTargets, Expr.namingText, referenceText, htype]
  · rintro rfl rfl hblock
    exact Property.ownStatements_of_reference hargs hblock
  · rw [referenceText_inj, Resource.quoted_namingText_eq_title_iff hname harr hb,
      Resource.titleSource]
    by_cases hx : r.type = "execute"
    · simp only [hx, if_true]
    · simp only [hx, if_false, Expr.render_eq_namingText_iff]

/-- A name with a node attribute in it is found, and so is the type of its resource. -/
theorem subscription_meets_title_of_interpolated_name :
    let name : Expr := .interpolated [.text "app-", .value (.nodeRef ["app", "version"])]
    let r : Resource := ⟨"gem_package", some name, [], false, 1⟩
    let p : Property :=
      ⟨"notifies", [.literal .symbol "run",
        .resources (lookupTargets [.hash [(.literal .symbol "gem_package", name)]])], none, 4⟩
    ∃ block, (r.toBlock {}).result = .ok block ∧ name.NamesItself ∧
      (p.statements {} "template").result =
        .ok [⟨"subscribe", referenceText block.type block.title⟩] := by
  intro name r p
  have hb : (r.toBlock {}).result = .ok ⟨"package", "'app-$\x7bapp_version\x7d'",
      [⟨"ensure", "'installed'"⟩], none⟩ := by decide
  have hself : name.NamesItself := ⟨trivial, trivial⟩
  obtain ⟨hp, -, ht⟩ := subscription_meets_title_iff {} r name _ p "template"
    [.literal .symbol "run"] [] rfl nofun hb rfl
  refine ⟨_, hb, hself, ?_⟩
  rw [← ht.2 hself, hp]
  rfl

/-- A command that is declared under a label has the command for a title, but subscriptions to it
have the label. -/
theorem subscription_misses_command :
    let r : Resource := ⟨"execute", some (.literal .string "restart"),
      [.property "command" [.literal .string "/etc/init.d/app restart"] none 2], true, 1⟩
    let p : Property :=
      ⟨"notifies", [.literal .symbol "run", .resources (lookupTargets
        [.hash [(.literal .symbol "execute", .literal .string "restart")]])], none, 6⟩
    (∃ block, (r.toBlock {}).result = .ok block ∧ block.type = "exec" ∧
        block.title = "'/etc/init.d/app restart'") ∧
      (p.statements {} "template").result = .ok [⟨"subscribe", "Exec['restart']"⟩] := by
  intro r p
  refine ⟨⟨⟨"exec", "'/etc/init.d/app restart'", [], some "restart"⟩, ?_, rfl, rfl⟩, ?_⟩
  · decide +kernel
  · decide

end RecipeManifest

import RecipeManifest.Manifest.Recipe
import RecipeManifest.Proofs.ReadStatements
import RecipeManifest.Proofs.Results

/-!
Conversion of declarations made of values.

An expression made of values has a text (`Expr.returns_render`), so a property of such arguments has
its statements, a declaration of such properties its resource, and every statement that can stand
outside all blocks its part of the manifest (`Statement.returns_toManifest`).
-/

namespace RecipeManifest

/-- The work has a result. -/
def Returns {ε α : Type} (x : Except ε α) : Prop :=
  ∃ a, x = .ok a

section Returns

variable {ε α β : Type} {x : Except ε α}

theorem returns_ok (a : α) : Returns (.ok a : Except ε α) :=
  ⟨a, rfl⟩

theorem Returns.bind {f : α → Except ε β} (hx : Returns x) (hf : ∀ a, Returns (f a)) :
    Returns (x >>= f) := by
  obtain ⟨a, rfl⟩ := hx
  exact hf a

theorem Returns.map (hx : Returns x) (f : α → β) : Returns (x.map f) := by
  obtain ⟨a, rfl⟩ := hx
  exact ⟨f a, rfl⟩

end Returns

/-! ## Texts of values -/

namespace Expr

mutual

/-- A value has a text. -/
theorem returns_render (condition : Bool) (e : Expr) (h : e.isValue = true) :
    Returns (e.render condition) := by
  match e with
  | .absent | .statement _ | .block _ =>
    rw [isValue] at h
    cases h
  | .literal _ _ | .nodeRef _ | .resources _ => exact returns_ok _
  | .interpolated parts =>
    rw [isValue] at h
    exact returns_renderPieces condition parts h
  | .fileTest flag path =>
    rw [isValue] at h
    exact (returns_render condition path h).bind fun _ => returns_ok _
  | .not operand =>
    rw [isValue] at h
    exact (returns_render condition operand h).bind fun _ => returns_ok _
  | .binary op left right =>
    rw [isValue, Bool.and_eq_true] at h
    apply (returns_render condition left h.1).bind
    intro _
    exact (returns_render condition right h.2).bind fun _ => returns_ok _
  | .array items =>
    rw [isValue] at h
    exact (returns_renderAll condition items h).bind fun _ => returns_ok _
  | .hash pairs =>
    rw [isValue] at h
    exact (returns_renderPairs condition pairs h).bind fun _ => returns_ok _
  | .call receiver name args =>
    rw [isValue, Bool.and_eq_true] at h
    apply (returns_renderAll condition args h.2).bind
    intro _
    exact (returns_renderReceiver condition receiver h.1).bind fun _ => returns_ok _

theorem returns_renderAll (condition : Bool) (items : List Expr) (h : areValues items = true) :
    Returns (renderAll condition items) := by
  match items with
  | [] => exact returns_ok _
  | e :: rest =>
    rw [areValues, Bool.and_eq_true] at h
    apply (returns_render condition e h.1).bind
    intro _
    exact (returns_renderAll condition rest h.2).bind fun _ => returns_ok _

theorem returns_renderPieces (condition : Bool) (parts : List Piece) (h : arePieces parts = true) :
    Returns (renderPieces condition parts) := by
  match parts with
  | [] => exact returns_ok _
  | .text chars :: rest =>
    rw [arePieces] at h
    exact (returns_renderPieces condition rest h).bind fun _ => returns_ok _
  | .value e :: rest =>
    rw [arePieces, Bool.and_eq_true] at h
    apply (returns_render condition e h.1).bind
    intro _
    exact (returns_renderPieces condition rest h.2).bind fun _ => returns_ok _

theorem returns_renderPairs (condition : Bool) (pairs : List (Expr × Expr))
    (h : arePairs pairs = true) : Returns (renderPairs condition pairs) := by
  match pairs with
  | [] => exact returns_ok _
  | (key, value) :: rest =>
    rw [arePairs, Bool.and_eq_true, Bool.and_eq_true] at h
    apply (returns_render condition key h.1.1).bind
    intro _
    apply (returns_render condition value h.1.2).bind
    intro _
    exact (returns_renderPairs condition rest h.2).bind fun _ => returns_ok _

theorem returns_renderReceiver (condition : Bool) (e : Option Expr)
    (h : isMaybeValue e = true) : Returns (renderReceiver condition e) := by
  match e with
  | none => exact returns_ok _
  | some e =>
    rw [isMaybeValue] at h
    exact returns_render condition e h

end

end Expr

namespace Expr

theorem returns_titleText {name : Option Expr} (h : isMaybeValue name = true) :
    Returns (titleText name) := by
  unfold titleText
  split
  · next items =>
    rw [isMaybeValue, isValue] at h
    exact (returns_renderAll false items h).bind fun _ => returns_ok _
  · exact (returns_renderReceiver false name h).map _

end Expr

/-- The value of a block of inner statements is made of values. -/
theorem isMaybeValue_blockValue {body : List Statement} (h : Statement.areInner body = true) :
    Expr.isMaybeValue (blockValue body) = true := by
  cases hvalue : blockValue body with
  | none => rfl
  | some e =>
    obtain ⟨s, hs, hse⟩ := List.exists_of_findSome?_eq_some hvalue
    have hinner := Statement.areInner_iff.1 h s (List.mem_reverse.1 hs)
    rw [Expr.isMaybeValue]
    cases s with
    | resource | unsupported => cases hse
    | expression =>
      cases hse
      rwa [Statement.isInner] at hinner
    | property =>
      cases hse
      rw [Statement.isInner, Bool.and_eq_true] at hinner
      rw [Expr.isValue, Expr.isMaybeValue, hinner.1]
      rfl

/-! ## Properties -/

namespace Property

/-- The arguments are values, and the block has statements that can stand in one. -/
def isInner (p : Property) : Bool :=
  Expr.areValues p.args && Statement.isMaybeBlock p.block

theorem isInner_of_property? {s : Statement} {p : Property} (hs : s.isInner = true)
    (hp : s.property? = some p) : p.isInner = true := by
  cases s with
  | property =>
    cases hp
    rwa [Statement.isInner] at hs
  | _ => cases hp

variable {p : Property}

theorem returns_argumentText (h : Expr.areValues p.args = true) : Returns p.argumentText := by
  have hkept : Expr.areValues (p.args.filter fun a => !isReference a) = true :=
    Expr.areValues_iff.2 fun e he => Expr.areValues_iff.1 h e (List.mem_filter.1 he).1
  exact (Expr.returns_renderAll false _ hkept).bind fun _ => returns_ok _

theorem returns_plainStatement (h : Expr.areValues p.args = true) : Returns p.plainStatement :=
  (returns_argumentText h).bind fun _ => returns_ok _

theorem returns_sourceStatement (style : Style) (resourceType : String)
    (h : Expr.areValues p.args = true) : Returns (p.sourceStatement style resourceType) := by
  unfold sourceStatement
  split
  · exact (returns_argumentText h).bind fun _ => returns_ok _
  · exact (returns_argumentText h).bind fun _ => returns_ok _
  · exact (returns_argumentText h).bind fun _ => returns_ok _
  · exact (returns_argumentText h).bind fun _ => returns_ok _
  · exact returns_plainStatement h

theorem isValue_of_mem_actionItems {e x : Expr} (he : e.isValue = true)
    (hx : x ∈ actionItems e) : x.isValue = true := by
  unfold actionItems at hx
  split at hx
  · rw [Expr.isValue] at he
    exact Expr.areValues_iff.1 he x hx
  · rw [List.mem_singleton] at hx
    rwa [hx]

theorem returns_actionStatements (style : Style) (h : Expr.areValues p.args = true) :
    Returns (p.actionStatements style) := by
  have hitems : Expr.areValues (p.args.flatMap actionItems) = true := by
    rw [Expr.areValues_iff]
    intro x hx
    obtain ⟨e, he, hxe⟩ := List.mem_flatMap.1 hx
    exact isValue_of_mem_actionItems (Expr.areValues_iff.1 h e he) hxe
  exact (Expr.returns_renderAll false _ hitems).bind fun _ => returns_ok _

theorem returns_guardStatement (resourceType name : String)
    (h : Statement.isMaybeBlock p.block = true) :
    Returns (p.guardStatement resourceType name).result := by
  unfold guardStatement
  split
  · rw [Noted.result_ite_note]
    exact returns_ok _
  · next body hbody =>
    rw [hbody, Statement.isMaybeBlock] at h
    rw [Noted.result_bind, Noted.result_lift]
    apply Returns.bind
    · exact (Expr.returns_renderReceiver true _ (isMaybeValue_blockValue h)).map _
    · exact fun _ => returns_ok _

theorem returns_ownStatements (style : Style) (resourceType : String) (h : p.isInner = true) :
    Returns (p.ownStatements style resourceType).result := by
  rw [isInner, Bool.and_eq_true] at h
  obtain ⟨hargs, hblock⟩ := h
  unfold ownStatements
  split
  · exact returns_sourceStatement style resourceType hargs
  · exact (returns_argumentText hargs).bind fun _ => returns_ok _
  · exact (returns_argumentText hargs).bind fun _ => returns_ok _
  · exact returns_ok _
  · exact returns_actionStatements style hargs
  · exact returns_ok _
  · exact returns_ok _
  · exact returns_ok _
  · exact returns_ok _
  · split
    · exact returns_guardStatement resourceType _ hblock
    · exact returns_plainStatement hargs

theorem returns_statements (style : Style) (resourceType : String) (h : p.isInner = true) :
    Returns (p.statements style resourceType).result := by
  unfold statements
  rw [Noted.result_bind]
  apply (returns_ownStatements style resourceType h).bind
  intro own
  rw [Noted.result_ite_note]
  exact returns_ok _

end Property

/-! ## Declarations -/

namespace Resource

variable {r : Resource}

theorem returns_command (hname : Expr.isMaybeValue r.name = true)
    (hbody : Statement.areInner r.body = true) : Returns r.command := by
  unfold command
  split
  · next e he =>
    obtain ⟨p, hfind, hhead⟩ := Option.bind_eq_some_iff.1 he
    obtain ⟨s, hs, hp⟩ := List.mem_filterMap.1 (List.mem_of_find?_eq_some hfind)
    have hinner := Property.isInner_of_property? (Statement.areInner_iff.1 hbody s hs) hp
    rw [Property.isInner, Bool.and_eq_true] at hinner
    have hvalue := Expr.areValues_iff.1 hinner.1 e (List.mem_of_mem_head? hhead)
    exact (Expr.returns_render false e hvalue).map _
  · exact (Expr.returns_renderReceiver false _ hname).map _

theorem returns_heading (hname : Expr.isMaybeValue r.name = true)
    (hbody : Statement.areInner r.body = true) : Returns r.heading := by
  unfold heading
  apply (Expr.returns_titleText hname).bind
  intro title
  split
  · apply (returns_command hname hbody).bind
    intro command
    exact (Expr.returns_renderReceiver false _ hname).bind fun _ => returns_ok _
  · exact returns_ok _

theorem returns_bodyStatements (style : Style) (r : Resource) {body : List Statement}
    (h : Statement.areInner body = true) : Returns (r.bodyStatements style body).result := by
  induction body with
  | nil => exact returns_ok _
  | cons s rest ih =>
    rw [Statement.areInner, Bool.and_eq_true] at h
    obtain ⟨hs, hrest⟩ := h
    have hmore (own : List Assignment) : Returns (do
        let more ← r.bodyStatements style rest
        return own ++ more : Noted (List Assignment)).result := by
      rw [Noted.result_bind]
      exact (ih hrest).bind fun _ => returns_ok _
    rw [bodyStatements]
    split
    · next p hp =>
      have hp := Property.isInner_of_property? hs hp
      rw [Noted.result_bind]
      exact (Property.returns_statements style r.type hp).bind hmore
    · exact hmore []

theorem returns_toBlock (style : Style) (hname : Expr.isMaybeValue r.name = true)
    (hbody : Statement.areInner r.body = true) : Returns (r.toBlock style).result := by
  unfold toBlock
  rw [Noted.result_bind, Noted.result_lift]
  apply (returns_heading hname hbody).bind
  intro ⟨title, comment⟩
  rw [Noted.result_bind]
  exact (returns_bodyStatements style r hbody).bind fun _ => returns_ok _

end Resource

namespace Statement

/-- A statement that can stand outside all blocks has its part of the manifest. -/
theorem returns_toManifest (style : Style) (source : String) {s : Statement}
    (h : s.isTopLevel = true) : Returns (s.toManifest style source).result := by
  cases s with
  | property | expression => cases h
  | unsupported code line => exact returns_ok _
  | resource type name body hasBlock line =>
    rw [isTopLevel, Bool.and_eq_true] at h
    obtain ⟨hname, hbody⟩ := h
    unfold toManifest
    dsimp only
    rw [Noted.result_bind]
    apply Returns.bind (returns_ok ())
    intro _
    split
    · rw [Noted.result_bind, Noted.result_lift]
      exact (Expr.returns_renderReceiver false _ hname).bind fun _ => returns_ok _
    · rw [Noted.result_bind]
      apply Returns.bind
      · exact Resource.returns_toBlock style hname hbody
      · exact fun _ => returns_ok _

theorem returns_allToManifest (style : Style) (source : String) {statements : List Statement}
    (h : ∀ s ∈ statements, s.isTopLevel = true) :
    Returns (allToManifest style source statements).result := by
  induction statements with
  | nil => exact returns_ok _
  | cons s rest ih =>
    rw [allToManifest, Noted.result_bind]
    apply (returns_toManifest style source (h s (by simp))).bind
    intro text
    rw [Noted.result_bind]
    exact (ih fun x hx => h x (by simp [hx])).bind fun _ => returns_ok _

end Statement

end RecipeManifest

import RecipeManifest.Proofs.PropertyTraces
import RecipeManifest.Proofs.QuotedTexts
import RecipeManifest.Proofs.ValueConversion

/-!
States that go without saying.

A resource of some types has a state even if its declaration says nothing of it. The translator
looks for that state among the statements as they are written, by what they start with, and adds it
behind them where it does not find it. What a property can give (`Property.Gives`) shows that only
the statement itself is found so.

    no statement of the default state     it is added                 (toBlock_adds_missing_state)
    one action that sets another state    its state, and behind it the default
                                                                      (states_of_single_action)
-/

namespace RecipeManifest

/-! ## What properties give -/

namespace Property

/-- The statements that a property can give, by its name. -/
inductive Gives (p : Property) : Assignment → Prop
  | subscription (type title : String) : Gives p ⟨"subscribe", s!"{type}[{quoted title}]"⟩
  | numeral {value : String} (h : isNumeral value = true) : Gives p ⟨p.name, value⟩
  | text (value : String) : Gives p ⟨p.name, quoted value⟩
  | content (hname : p.name = "source") (value : String) :
      Gives p ⟨"content", s!"template({quoted value})"⟩
  | backup (hname : p.name = "backup") (value : String) : Gives p ⟨"backup", value⟩
  | target (hname : p.name = "to") (value : String) : Gives p ⟨"ensure", quoted value⟩
  | running (hname : p.name = "running") : Gives p ⟨"ensure", "running"⟩
  | action (hname : p.name = "action") (hitems : p.args.flatMap actionItems ≠ [])
      (value : String) : Gives p ⟨"ensure", quoted value⟩
  | guard {name : String} (hname : guardName? p.name = some name) (value : String) :
      Gives p ⟨name, quoted value⟩

section Gives

variable {style : Style} {p : Property} {resourceType : String} {own given : List Assignment}
  {s : Assignment}

theorem eq_of_mem_subscriptions (hs : s ∈ p.args.flatMap (subscriptionsTo style)) :
    ∃ type title : String, s = ⟨"subscribe", s!"{type}[{quoted title}]"⟩ := by
  obtain ⟨e, -, hs⟩ := List.mem_flatMap.1 hs
  unfold subscriptionsTo at hs
  split at hs
  · obtain ⟨⟨type, name⟩, -, rfl⟩ := List.mem_map.1 hs
    exact ⟨_, name, rfl⟩
  · cases hs

theorem gives_of_plainStatement (h : p.plainStatement = .ok own) (hs : s ∈ own) : p.Gives s := by
  simp only [plainStatement, bind_eq_ok_iff, pure_eq_ok_iff] at h
  obtain ⟨value, -, rfl⟩ := h
  obtain rfl := List.mem_singleton.1 hs
  split
  · next hnumeral => exact .numeral hnumeral
  · exact .text value

theorem gives_of_sourceStatement (hname : p.name = "source")
    (h : p.sourceStatement style resourceType = .ok own) (hs : s ∈ own) : p.Gives s := by
  unfold sourceStatement at h
  split at h
  case h_1 =>
    simp only [bind_eq_ok_iff, pure_eq_ok_iff] at h
    obtain ⟨value, -, rfl⟩ := h
    obtain rfl := List.mem_singleton.1 hs
    exact .content hname value
  case h_5 => exact gives_of_plainStatement h hs
  all_goals
    simp only [bind_eq_ok_iff, pure_eq_ok_iff] at h
    obtain ⟨value, -, rfl⟩ := h
    obtain rfl := List.mem_singleton.1 hs
    rw [← hname]
    exact .text _

theorem gives_of_actionStatements (hname : p.name = "action")
    (h : p.actionStatements style = .ok own) (hs : s ∈ own) : p.Gives s := by
  simp only [actionStatements, bind_eq_ok_iff, pure_eq_ok_iff] at h
  obtain ⟨actions, hactions, rfl⟩ := h
  obtain ⟨action, haction, rfl⟩ := List.mem_map.1 hs
  refine .action hname (fun hnone => ?_) _
  rw [hnone] at hactions
  cases hactions
  cases haction

theorem gives_of_guardStatement {name : String} (hname : guardName? p.name = some name)
    (h : (p.guardStatement resourceType name).result = .ok own) (hs : s ∈ own) : p.Gives s := by
  unfold guardStatement at h
  split at h
  · rw [Noted.result_ite_note, Noted.result_pure] at h
    cases h
    cases hs
  · rw [Noted.result_bind, Noted.result_lift, bind_eq_ok_iff] at h
    obtain ⟨condition, -, hpure⟩ := h
    cases hpure
    split at hs
    · cases hs
    · obtain rfl := List.mem_singleton.1 hs
      exact .guard hname condition

theorem gives_of_ownStatements (h : (p.ownStatements style resourceType).result = .ok own)
    (hs : s ∈ own) : p.Gives s := by
  unfold ownStatements at h
  split at h
  case h_1 hname => exact gives_of_sourceStatement hname h hs
  case h_2 hname =>
    simp only [Noted.result_lift, bind_eq_ok_iff, pure_eq_ok_iff] at h
    obtain ⟨value, -, rfl⟩ := h
    obtain rfl := List.mem_singleton.1 hs
    exact .backup hname value
  case h_3 hname =>
    simp only [Noted.result_lift, bind_eq_ok_iff, pure_eq_ok_iff] at h
    obtain ⟨value, -, rfl⟩ := h
    obtain rfl := List.mem_singleton.1 hs
    exact .target hname value
  case h_4 hname =>
    cases h
    obtain rfl := List.mem_singleton.1 hs
    exact .running hname
  case h_5 hname => exact gives_of_actionStatements hname h hs
  case h_10 =>
    split at h
    · next guard hguard => exact gives_of_guardStatement hguard h hs
    · exact gives_of_plainStatement h hs
  all_goals
    cases h
    cases hs

/-- Nothing else is given. -/
theorem gives_of_mem_statements (h : (p.statements style resourceType).result = .ok given)
    (hs : s ∈ given) : p.Gives s := by
  rw [statements_result, map_eq_ok_iff] at h
  obtain ⟨own, hown, rfl⟩ := h
  obtain hs | hs := List.mem_append.1 hs
  · obtain ⟨type, title, rfl⟩ := eq_of_mem_subscriptions hs
    exact .subscription type title
  · exact gives_of_ownStatements hown hs

end Gives

end Property

/-! ## Statements as they are written -/

theorem Assignment.toList_text (s : Assignment) :
    s.text.toList = s.name.toList ++ ' ' :: '=' :: '>' :: ' ' :: s.value.toList := by
  simp [text, toString]

/-- A written statement stands in front of another one if the names are the same and the one value
stands in front of the other, as long as the names can be told from what follows them. -/
theorem Assignment.text_isPrefix_iff {s t : Assignment} (hs : ' ' ∉ s.name.toList)
    (ht : ' ' ∉ t.name.toList) :
    s.text.toList <+: t.text.toList ↔ s.name = t.name ∧ s.value.toList <+: t.value.toList := by
  rw [toList_text, toList_text]
  constructor
  · rintro ⟨more, h⟩
    -- A name goes up to the first blank.
    have hup (name rest : List Char) (hname : ' ' ∉ name) :
        (name ++ ' ' :: rest).takeWhile (· != ' ') = name :=
      Plain.takeWhile_of_head (fun c hc => bne_iff_ne.2 (ne_of_mem_of_not_mem hc hname)) (by simp)
    have hname := congrArg (List.takeWhile (· != ' ')) h
    rw [List.append_assoc, List.cons_append, hup _ _ hs, hup _ _ ht] at hname
    simp only [hname, List.append_assoc, List.append_cancel_left_eq, List.cons_append,
      List.cons.injEq, true_and] at h
    exact ⟨String.toList_inj.1 hname, more, h⟩
  · rintro ⟨hname, more, hvalue⟩
    exact ⟨more, by simp [hname, ← hvalue]⟩

/-- The statement of a state. -/
def stateStatement (state : String) : Assignment :=
  ⟨"ensure", quoted state⟩

theorem stateStatement_inj {s t : String} : stateStatement s = stateStatement t ↔ s = t := by
  simp [stateStatement, quoted_inj]

namespace Property

variable {p : Property} {s : Assignment}

/-- The name of a statement has a blank in it only if the name of the property has. -/
theorem Gives.blank_notMem_name (h : p.Gives s) (hp : ' ' ∉ p.name.toList) :
    ' ' ∉ s.name.toList := by
  cases h with
  | numeral | text => exact hp
  | guard hname =>
    unfold guardName? at hname
    split at hname <;> cases hname <;> simp
  | _ => simp

/-- No guard of a manifest is named as a state is. -/
theorem guardName?_ne {name : String} : guardName? name ≠ some "ensure" := by
  unfold guardName?
  split <;> simp

/-- A number has no quotes around it. -/
theorem not_quoted_isPrefix_of_isNumeral {text value : String} (h : isNumeral value = true) :
    ¬ (quoted text).toList <+: value.toList := by
  rw [toList_quoted]
  intro hfront
  cases hvalue : value.toList with
  | nil => simp [hvalue] at hfront
  | cons c rest =>
    rw [hvalue, List.cons_prefix_cons] at hfront
    obtain ⟨rfl, -⟩ := hfront
    simp [isNumeral, hvalue] at h

/-- The only statement that starts as that of a state does is that statement. -/
theorem Gives.stateStatement_isPrefix_iff (h : p.Gives s) (hp : ' ' ∉ p.name.toList)
    {state : String} (hstate : state.toList.getLast? ≠ some '\\') :
    (stateStatement state).text.toList <+: s.text.toList ↔ s = stateStatement state := by
  rw [Assignment.text_isPrefix_iff (by simp [stateStatement]) (h.blank_notMem_name hp)]
  refine ⟨?_, fun hs => hs ▸ ⟨rfl, List.prefix_refl _⟩⟩
  rintro ⟨hname, hvalue⟩
  have hsame {value : String} (h : (quoted state).toList <+: (quoted value).toList) :
      (⟨"ensure", quoted value⟩ : Assignment) = stateStatement state := by
    rw [(quoted_isPrefix_iff hstate).1 h]
    rfl
  cases h with
  | subscription | content | backup => simp [stateStatement] at hname
  | guard hguard => exact absurd (hguard.trans (congrArg some hname.symm)) guardName?_ne
  | numeral h => exact absurd hvalue (not_quoted_isPrefix_of_isNumeral h)
  | running => simp [stateStatement, toList_quoted] at hvalue
  | text value =>
    rw [← show "ensure" = p.name from hname]
    exact hsame hvalue
  | target _ value => exact hsame hvalue
  | action _ _ value => exact hsame hvalue

end Property

/-! ## Declarations -/

/-- What is collected comes from a member of the list. -/
theorem exists_of_mem_mapM {ε α β : Type} {f : α → Except ε β} {l : List α} {ys : List β}
    (h : l.mapM f = .ok ys) {y : β} (hy : y ∈ ys) : ∃ x ∈ l, f x = .ok y := by
  induction l generalizing ys with
  | nil =>
    cases h
    cases hy
  | cons x rest ih =>
    simp only [List.mapM_cons, bind_eq_ok_iff, pure_eq_ok_iff] at h
    obtain ⟨z, hz, zs, hzs, rfl⟩ := h
    obtain rfl | hy := List.mem_cons.1 hy
    · exact ⟨x, by simp, hz⟩
    · obtain ⟨w, hw, hfw⟩ := ih hzs hy
      exact ⟨w, by simp [hw], hfw⟩

namespace Resource

variable {style : Style} {r : Resource} {block : ResourceBlock}

/-- The statements of the properties of a declaration, one property after the other. -/
def propertyStatements (style : Style) (r : Resource) : Except Fault (List Assignment) := do
  let given ← r.properties.mapM fun p => (p.statements style r.type).result
  return given.flatten

theorem result_bodyStatements (body : List Statement) :
    (r.bodyStatements style body).result = do
      let given ← (body.filterMap Statement.property?).mapM
        fun p => (p.statements style r.type).result
      return given.flatten := by
  induction body with
  | nil => rfl
  | cons s rest ih =>
    simp only [bodyStatements_cons, Noted.result_bind, ih, bind_assoc, pure_bind]
    cases hp : s.property? with
    | none =>
      rw [List.filterMap_cons_none hp, given, hp]
      rfl
    | some p =>
      rw [List.filterMap_cons_some hp, given, hp, List.mapM_cons]
      simp only [bind_assoc, pure_bind, List.flatten_cons]
      rfl

/-- A block has the statements of the properties and maybe a state behind them. -/
theorem result_toBlock :
    (r.toBlock style).result = do
      let (title, comment) ← r.heading
      let statements ← r.propertyStatements style
      return r.withDefaultState style
        ⟨style.tables.typeName r.type, title, statements, comment⟩ := by
  unfold toBlock
  rw [Noted.result_bind, Noted.result_lift]
  refine congrArg (r.heading >>= ·) (funext fun (title, comment) => ?_)
  rw [Noted.result_bind, result_bodyStatements]
  rfl

/-- Each of these statements is given by a property. -/
theorem gives_of_mem_propertyStatements {statements : List Assignment} {s : Assignment}
    (h : r.propertyStatements style = .ok statements) (hs : s ∈ statements) :
    ∃ p ∈ r.properties, p.Gives s := by
  simp only [propertyStatements, bind_eq_ok_iff, pure_eq_ok_iff] at h
  obtain ⟨given, hgiven, rfl⟩ := h
  obtain ⟨own, hown, hs⟩ := List.mem_flatten.1 hs
  obtain ⟨p, hp, hstatements⟩ := exists_of_mem_mapM hgiven hown
  exact ⟨p, hp, Property.gives_of_mem_statements hstatements hs⟩

/-- The only statement of a declaration that starts as that of a state does is that statement. -/
theorem stateStatement_isPrefix_iff (hnames : ∀ p ∈ r.properties, ' ' ∉ p.name.toList)
    {state : String} (hlast : state.toList.getLast? ≠ some '\\') {given : List Assignment}
    (hgiven : r.propertyStatements style = .ok given) :
    ∀ s ∈ given,
      (stateStatement state).text.toList <+: s.text.toList ↔ s = stateStatement state := by
  intro s hs
  obtain ⟨p, hp, hgives⟩ := gives_of_mem_propertyStatements hgiven hs
  exact hgives.stateStatement_isPrefix_iff (hnames p hp) hlast

/-! ### States that are added -/

theorem withDefaultState_eq_self
    (h : style.tables.defaultState? r.type = none ∨ style.tables.defaultState? r.type = some "")
    (b : ResourceBlock) : r.withDefaultState style b = b := by
  unfold withDefaultState
  rcases h with h | h <;> simp [h]

/-- The default state is added if no statement starts as it does. -/
theorem withDefaultState_eq {state : String}
    (h : style.tables.defaultState? r.type = some state) (hne : state ≠ "") (b : ResourceBlock) :
    r.withDefaultState style b =
      if b.anyStartsWith (stateStatement state).text then b
      else { b with statements := b.statements ++ [stateStatement state] } := by
  unfold withDefaultState
  rw [h]
  split
  · next heq => cases heq
  · next heq => exact absurd (Option.some.inj heq) hne
  · next heq =>
    cases heq
    rfl

theorem anyStartsWith_of_mem {b : ResourceBlock} {s : Assignment} (h : s ∈ b.statements) :
    b.anyStartsWith s.text = true :=
  List.any_eq_true.2 ⟨s, h, List.isPrefixOf_iff_prefix.2 (List.prefix_refl _)⟩

/-- Where only the statement itself starts so, the state is added if it is not there. -/
theorem withDefaultState_of_isPrefix_iff {state : String}
    (h : style.tables.defaultState? r.type = some state) (hne : state ≠ "") {b : ResourceBlock}
    (hexact : ∀ s ∈ b.statements,
      (stateStatement state).text.toList <+: s.text.toList ↔ s = stateStatement state) :
    r.withDefaultState style b =
      { b with statements := b.statements ++
          if stateStatement state ∈ b.statements then [] else [stateStatement state] } := by
  have hany : b.anyStartsWith (stateStatement state).text = true ↔
      stateStatement state ∈ b.statements := by
    rw [ResourceBlock.anyStartsWith, List.any_eq_true]
    constructor
    · rintro ⟨s, hs, hstart⟩
      exact (hexact s hs).1 (List.isPrefixOf_iff_prefix.1 hstart) ▸ hs
    · exact fun hs => List.any_eq_true.1 (anyStartsWith_of_mem hs)
  rw [withDefaultState_eq h hne]
  by_cases hmem : stateStatement state ∈ b.statements
  · rw [if_pos (hany.2 hmem), if_pos hmem, List.append_nil]
  · rw [if_neg (hany.not.2 hmem), if_neg hmem]

end Resource

/-- The state that goes without saying is added behind the statements of the properties exactly if
it is not among them: no other statement starts with its text. Where there is no such state,
nothing is added. -/
theorem toBlock_adds_missing_state (style : Style) (r : Resource)
    (hnames : ∀ p ∈ r.properties, ' ' ∉ p.name.toList) :
    (∀ state, style.tables.defaultState? r.type = some state → state ≠ "" →
      state.toList.getLast? ≠ some '\\' →
      (r.toBlock style).result = (do
        let (title, comment) ← r.heading
        let given ← r.propertyStatements style
        return ⟨style.tables.typeName r.type, title,
          given ++ if stateStatement state ∈ given then [] else [stateStatement state],
          comment⟩) ∧
      ∀ given, r.propertyStatements style = .ok given → ∀ s ∈ given,
        ((stateStatement state).text.toList <+: s.text.toList ↔ s = stateStatement state)) ∧
    (style.tables.defaultState? r.type = none ∨ style.tables.defaultState? r.type = some "" →
      (r.toBlock style).result = do
        let (title, comment) ← r.heading
        let given ← r.propertyStatements style
        return ⟨style.tables.typeName r.type, title, given, comment⟩) ∧
    (Expr.isMaybeValue r.name = true → Statement.areInner r.body = true →
      Returns (r.toBlock style).result) := by
  refine ⟨fun state hdefault hne hlast => ?_, fun hdefault => ?_,
    fun hname hbody => Resource.returns_toBlock style hname hbody⟩
  · have hexact (given : List Assignment) (hgiven : r.propertyStatements style = .ok given) :=
      Resource.stateStatement_isPrefix_iff hnames hlast hgiven
    refine ⟨?_, hexact⟩
    rw [Resource.result_toBlock]
    refine congrArg (r.heading >>= ·) (funext fun (title, comment) => ?_)
    cases hgiven : r.propertyStatements style with
    | error e => rfl
    | ok given =>
      show Except.ok _ = Except.ok _
      rw [Resource.withDefaultState_of_isPrefix_iff hdefault hne (hexact given hgiven)]
  · rw [Resource.result_toBlock]
    simp only [Resource.withDefaultState_eq_self hdefault]

/-- Statements that start nearly as the default state does, and one that sets another state. -/
theorem toBlock_adds_missing_state_behind_others :
    let r : Resource := ⟨"package", some (.literal .string "nginx"),
      [.property "ensure" [.literal .string "installed' => 'x"] none 2,
        .property "version" [.literal .number "12"] none 3,
        .property "action" [.literal .symbol "upgrade"] none 4], true, 1⟩
    (∀ p ∈ r.properties, ' ' ∉ p.name.toList) ∧
      ({} : Style).tables.defaultState? r.type = some "installed" ∧
      (r.toBlock {}).result = .ok ⟨"package", "'nginx'",
        [⟨"ensure", "'installed\\' => \\'x'"⟩, ⟨"version", "12"⟩, ⟨"ensure", "'latest'"⟩,
          ⟨"ensure", "'installed'"⟩], none⟩ := by
  intro r
  have hnames : ∀ p ∈ r.properties, ' ' ∉ p.name.toList := by
    simp [r, Resource.properties, Statement.property?]
  have hheading : r.heading = .ok ("'nginx'", none) := rfl
  have hgiven : r.propertyStatements {} = .ok [⟨"ensure", "'installed\\' => \\'x'"⟩,
      ⟨"version", "12"⟩, ⟨"ensure", "'latest'"⟩] := rfl
  refine ⟨hnames, rfl, ?_⟩
  rw [((toBlock_adds_missing_state {} r hnames).1 "installed" rfl (by decide) (by decide)).1,
    hheading, hgiven]
  rfl

/-! ## States that are set -/

/-- The statements that set a state of the resource. -/
def states (statements : List Assignment) : List Assignment :=
  statements.filter fun s => s.name == "ensure"

theorem states_append (a b : List Assignment) : states (a ++ b) = states a ++ states b :=
  List.filter_append ..

theorem states_eq_nil {statements : List Assignment} (h : ∀ s ∈ statements, s.name ≠ "ensure") :
    states statements = [] :=
  List.filter_eq_nil_iff.2 fun s hs => by simpa using h s hs

theorem mem_states_iff {state : String} {statements : List Assignment} :
    stateStatement state ∈ states statements ↔ stateStatement state ∈ statements := by
  simp [states, stateStatement]

namespace Property

/-- The property sets a state. -/
def SetsState (p : Property) : Prop :=
  p.name ∈ ["to", "running", "ensure"] ∨ p.name = "action" ∧ p.args.flatMap actionItems ≠ []

variable {style : Style} {p : Property} {resourceType : String} {own given : List Assignment}

theorem Gives.setsState {s : Assignment} (h : p.Gives s) (hs : s.name = "ensure") :
    p.SetsState := by
  cases h with
  | subscription | content | backup => simp at hs
  | guard hguard => exact absurd (hguard.trans (congrArg some hs)) guardName?_ne
  | numeral | text => exact .inl (by simp [show p.name = "ensure" from hs])
  | target hname | running hname => exact .inl (by simp [hname])
  | action hname hitems => exact .inr ⟨hname, hitems⟩

theorem exists_state_of_ownStatements (hp : p.SetsState)
    (h : (p.ownStatements style resourceType).result = .ok own) :
    ∃ s ∈ own, s.name = "ensure" := by
  obtain hname | ⟨hname, hitems⟩ := hp
  · simp only [List.mem_cons, List.not_mem_nil, or_false] at hname
    obtain hname | hname | hname := hname
    · simp only [ownStatements, hname, Noted.result_lift, bind_eq_ok_iff, pure_eq_ok_iff] at h
      obtain ⟨_, -, rfl⟩ := h
      exact ⟨_, List.mem_singleton_self _, rfl⟩
    · simp only [ownStatements, hname, Noted.result_pure] at h
      cases h
      exact ⟨_, List.mem_singleton_self _, rfl⟩
    · have hplain : p.plainStatement = .ok own := by
        simp only [ownStatements, hname] at h
        exact h
      simp only [plainStatement, bind_eq_ok_iff, pure_eq_ok_iff] at hplain
      obtain ⟨_, -, rfl⟩ := hplain
      exact ⟨_, List.mem_singleton_self _, hname⟩
  · simp only [ownStatements, hname, Noted.result_lift, actionStatements, bind_eq_ok_iff,
      pure_eq_ok_iff] at h
    obtain ⟨actions, hactions, rfl⟩ := h
    cases actions with
    | nil => exact absurd (Expr.renderAll_eq_nil_iff.1 hactions) hitems
    | cons => exact ⟨_, List.mem_cons_self, rfl⟩

/-- The properties that set a state are those that give a statement of it. -/
theorem setsState_iff (h : (p.statements style resourceType).result = .ok given) :
    p.SetsState ↔ ∃ s ∈ given, s.name = "ensure" := by
  constructor
  · intro hp
    rw [statements_result, map_eq_ok_iff] at h
    obtain ⟨own, hown, rfl⟩ := h
    obtain ⟨s, hs, hname⟩ := exists_state_of_ownStatements hp hown
    exact ⟨s, by simp [hs], hname⟩
  · rintro ⟨s, hs, hname⟩
    exact (gives_of_mem_statements h hs).setsState hname

/-- A single action sets the state that it brings about. -/
theorem states_of_action {action : String} (hname : p.name = "action")
    (hsingle : Expr.renderAll false (p.args.flatMap actionItems) = .ok [action])
    (h : (p.statements style resourceType).result = .ok given) :
    states given = [stateStatement (style.tables.stateOf action)] := by
  have hown : (p.ownStatements style resourceType).result =
      .ok [stateStatement (style.tables.stateOf action)] := by
    simp only [ownStatements, hname, Noted.result_lift, actionStatements, hsingle]
    rfl
  rw [statements_result, hown] at h
  cases h
  have hsubscriptions : states (p.args.flatMap (subscriptionsTo style)) = [] := by
    refine states_eq_nil fun s hs => ?_
    obtain ⟨type, title, rfl⟩ := eq_of_mem_subscriptions hs
    simp
  rw [states_append, hsubscriptions]
  rfl

end Property

namespace Resource

variable {style : Style} {r : Resource}

/-- Properties that set no state leave no trace among the states. -/
theorem states_of_mapM {properties : List Property} {given : List (List Assignment)}
    (h : properties.mapM (fun p => (p.statements style r.type).result) = .ok given)
    (hnone : ∀ p ∈ properties, ¬ p.SetsState) : states given.flatten = [] := by
  refine states_eq_nil fun s hs hname => ?_
  obtain ⟨own, hown, hs⟩ := List.mem_flatten.1 hs
  obtain ⟨p, hp, hstatements⟩ := exists_of_mem_mapM h hown
  exact hnone p hp ((Property.setsState_iff hstatements).2 ⟨s, hs, hname⟩)

/-- The state of the one property that sets one is the only state before the default is added. -/
theorem states_of_propertyStatements {before after : List Property} {p : Property}
    {action : String} {given : List Assignment} (hproperties : r.properties = before ++ p :: after)
    (hname : p.name = "action")
    (hsingle : Expr.renderAll false (p.args.flatMap Property.actionItems) = .ok [action])
    (hothers : ∀ q ∈ before ++ after, ¬ q.SetsState)
    (h : r.propertyStatements style = .ok given) :
    states given = [stateStatement (style.tables.stateOf action)] := by
  simp only [propertyStatements, hproperties, List.mapM_append, List.mapM_cons, bind_eq_ok_iff,
    pure_eq_ok_iff] at h
  obtain ⟨_, ⟨front, hfront, _, ⟨own, hown, back, hback, rfl⟩, rfl⟩, rfl⟩ := h
  rw [List.flatten_append, List.flatten_cons, states_append, states_append,
    states_of_mapM hfront fun q hq => hothers q (by simp [hq]),
    states_of_mapM hback fun q hq => hothers q (by simp [hq]),
    Property.states_of_action hname hsingle hown, List.nil_append, List.append_nil]

/-- What is added is the default state, and only where it is not set. -/
theorem withDefaultState_adds (style : Style) (r : Resource) (b : ResourceBlock) :
    ∃ back, (r.withDefaultState style b).statements = b.statements ++ back ∧
      (back = [] ∨ ∃ state, style.tables.defaultState? r.type = some state ∧
        stateStatement state ∉ b.statements ∧ back = [stateStatement state]) := by
  cases hdefault : style.tables.defaultState? r.type with
  | none => exact ⟨[], by simp [withDefaultState_eq_self (.inl hdefault)], .inl rfl⟩
  | some state =>
    by_cases hempty : state = ""
    · exact ⟨[], by simp [withDefaultState_eq_self (.inr (hempty ▸ hdefault))], .inl rfl⟩
    · rw [withDefaultState_eq hdefault hempty]
      by_cases hany : b.anyStartsWith (stateStatement state).text = true
      · exact ⟨[], by simp [hany], .inl rfl⟩
      · refine ⟨[stateStatement state], by simp [hany], .inr ⟨state, rfl, ?_, rfl⟩⟩
        exact fun hmem => hany (anyStartsWith_of_mem hmem)

end Resource

/-- A state that is set by a single action stands first among the states of the resource. The
default state stands behind it if it is another one. -/
theorem states_of_single_action (style : Style) (r : Resource) (before after : List Property)
    (p : Property) (action : String) (hproperties : r.properties = before ++ p :: after)
    (hname : p.name = "action")
    (hsingle : Expr.renderAll false (p.args.flatMap Property.actionItems) = .ok [action])
    (hothers : ∀ q ∈ before ++ after, ¬ q.SetsState) :
    (Expr.isMaybeValue r.name = true → Statement.areInner r.body = true →
      Returns (r.toBlock style).result) ∧
    ∀ block, (r.toBlock style).result = .ok block →
      (states block.statements = [stateStatement (style.tables.stateOf action)] ∨
        ∃ state, style.tables.defaultState? r.type = some state ∧
          state ≠ style.tables.stateOf action ∧
          states block.statements =
            [stateStatement (style.tables.stateOf action), stateStatement state]) ∧
      ∀ state, style.tables.defaultState? r.type = some state → state ≠ "" →
        state.toList.getLast? ≠ some '\\' → (∀ q ∈ before ++ after, ' ' ∉ q.name.toList) →
        states block.statements =
          if style.tables.stateOf action = state then [stateStatement state]
          else [stateStatement (style.tables.stateOf action), stateStatement state] := by
  refine ⟨Resource.returns_toBlock style, fun block hblock => ?_⟩
  rw [Resource.result_toBlock] at hblock
  simp only [bind_eq_ok_iff, pure_eq_ok_iff] at hblock
  obtain ⟨⟨title, comment⟩, -, given, hgiven, rfl⟩ := hblock
  have hstates := Resource.states_of_propertyStatements hproperties hname hsingle hothers hgiven
  have hset : stateStatement (style.tables.stateOf action) ∈ given := by
    rw [← mem_states_iff, hstates]
    exact List.mem_singleton_self _
  constructor
  · obtain ⟨back, hback, rfl | ⟨state, hdefault, hmissing, rfl⟩⟩ :=
      Resource.withDefaultState_adds style r ⟨style.tables.typeName r.type, title, given, comment⟩
    · exact .inl (by rw [hback, List.append_nil, hstates])
    · refine .inr ⟨state, hdefault, ?_, by rw [hback, states_append, hstates]; rfl⟩
      rintro rfl
      exact hmissing hset
  · intro state hdefault hne hlast hnames
    have hnames' : ∀ q ∈ r.properties, ' ' ∉ q.name.toList := by
      intro q hq
      rw [hproperties, List.mem_append, List.mem_cons] at hq
      obtain hq | rfl | hq := hq
      · exact hnames q (by simp [hq])
      · simp [hname]
      · exact hnames q (by simp [hq])
    have hmem : stateStatement state ∈ given ↔ style.tables.stateOf action = state := by
      rw [← mem_states_iff, hstates, List.mem_singleton, stateStatement_inj, eq_comm]
    rw [Resource.withDefaultState_of_isPrefix_iff hdefault hne
      (Resource.stateStatement_isPrefix_iff hnames' hlast hgiven)]
    dsimp only
    rw [states_append, hstates]
    by_cases hsame : style.tables.stateOf action = state
    · rw [if_pos (hmem.2 hsame), if_pos hsame, hsame]
      rfl
    · rw [if_neg (hmem.not.2 hsame), if_neg hsame]
      rfl

/-- A list of one action between two other properties. -/
theorem states_of_single_action_upgrade :
    let p : Property := ⟨"action", [.array [.literal .symbol "upgrade"]], none, 3⟩
    let before : List Property := [⟨"version", [.literal .number "2"], none, 2⟩]
    let after : List Property := [⟨"source", [.literal .string "https://gems"], none, 4⟩]
    let r : Resource := ⟨"gem_package", some (.literal .string "bundler"),
      (before ++ p :: after).map fun q => .property q.name q.args q.block q.line, true, 1⟩
    r.properties = before ++ p :: after ∧ p.name = "action" ∧
      Expr.renderAll false (p.args.flatMap Property.actionItems) = .ok ["upgrade"] ∧
      (∀ q ∈ before ++ after, ¬ q.SetsState) ∧
      ∃ block, (r.toBlock {}).result = .ok block ∧
        states block.statements = [stateStatement "latest", stateStatement "installed"] := by
  intro p before after r
  have hothers : ∀ q ∈ before ++ after, ¬ q.SetsState := by
    simp [before, after, Property.SetsState]
  obtain ⟨hreturns, hstates⟩ :=
    states_of_single_action {} r before after p "upgrade" rfl rfl rfl hothers
  obtain ⟨block, hblock⟩ := hreturns rfl rfl
  refine ⟨rfl, rfl, rfl, hothers, block, hblock, ?_⟩
  rw [(hstates block hblock).2 "installed" rfl (by decide) (by decide) (by simp [before, after])]
  rfl

/-- A package that is removed is installed too. -/
theorem removed_package_is_installed :
    let p : Property := ⟨"action", [.literal .symbol "remove"], none, 2⟩
    let r : Resource := ⟨"package", some (.literal .string "nginx"),
      [.property p.name p.args p.block p.line], true, 1⟩
    r.properties = [p] ∧
      Expr.renderAll false (p.args.flatMap Property.actionItems) = .ok ["remove"] ∧
      ({} : Style).tables.stateOf "remove" = "absent" ∧
      ∃ block, (r.toBlock {}).result = .ok block ∧
        states block.statements = [⟨"ensure", "'absent'"⟩, ⟨"ensure", "'installed'"⟩] ∧
        (states block.statements).length ≠ 1 := by
  intro p r
  refine ⟨rfl, rfl, rfl, ⟨"package", "'nginx'", [⟨"ensure", "'absent'"⟩, ⟨"ensure", "'installed'"⟩],
    none⟩, rfl, rfl, ?_⟩
  decide

end RecipeManifest

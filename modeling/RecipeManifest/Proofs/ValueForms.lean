import RecipeManifest.Proofs.DefaultStates

/-!
The forms of values.

What a recipe says comes into the values of a manifest as a number or between quotes, and it does
not get out of the quotes. Each value has one form (`ValueForm.eq_of_fits`), which its last
character tells:

    80             a number, by the plain rule of properties only
    'x'            a quoted text
    template('x')  the content of a template, for its source
    running        a state
    C['x']         a subscription, one for each resource that the arguments refer to

Main statement (`statements_forms`): the statements of a property are the subscriptions, in the
order of the arguments, and behind them its own statements, each with a value of a form that may
stand there. The property `backup` is left out: its arguments are given as they are.
-/

namespace RecipeManifest

/-! ## Forms -/

/-- A text between single quotes, in which each quote has a backslash before it. -/
def IsQuotation (cs : List Char) : Prop :=
  ∃ body, cs = '\'' :: (body ++ ['\'']) ∧
    ∀ i, body[i]? = some '\'' → ∃ j, i = j + 1 ∧ body[j]? = some '\\'

theorem isQuotation_quoted (t : String) : IsQuotation (quoted t).toList := by
  refine ⟨t.toList.flatMap escapedQuote, toList_quoted t, ?_⟩
  induction t.toList with
  | nil => simp
  | cons c cs ih =>
    intro i hi
    by_cases hc : c = '\''
    · rw [hc, flatMap_escapedQuote_quote] at hi ⊢
      match i, hi with
      | 1, _ => exact ⟨0, rfl, rfl⟩
      | i + 2, hi =>
        obtain ⟨j, rfl, hj⟩ := ih i hi
        exact ⟨j + 2, rfl, hj⟩
    · rw [flatMap_escapedQuote_cons hc] at hi ⊢
      match i, hi with
      | 0, hi => exact absurd (Option.some.inj hi) hc
      | i + 1, hi =>
        obtain ⟨j, rfl, hj⟩ := ih i hi
        exact ⟨j + 1, rfl, hj⟩

/-- What the value of a statement can look like. -/
inductive ValueForm where
  | numeral | text | template | running | reference
  deriving DecidableEq, Repr

namespace ValueForm

/-- The value has the form. -/
def Fits : ValueForm → String → Prop
  | numeral, value => ∃ digits : List Char, digits ≠ [] ∧ (∀ c ∈ digits, '0' ≤ c ∧ c ≤ '9') ∧
      (value.toList = digits ∨ value.toList = digits ++ ['\n'])
  | text, value => ∃ x, value = quoted x
  | template, value => ∃ x, value = "template(" ++ quoted x ++ ")"
  | running, value => value = "running"
  | reference, value => ∃ type x, value = type ++ "[" ++ quoted x ++ "]"

/-- The form of the values that end with the character. -/
def ofLast : Char → ValueForm
  | '\'' => text
  | ')' => template
  | 'g' => running
  | ']' => reference
  | _ => numeral

theorem ofLast_digit {c : Char} (h : '0' ≤ c ∧ c ≤ '9') : ofLast c = numeral := by
  unfold ofLast
  split
  case h_5 => rfl
  all_goals exact absurd h (by decide)

theorem getLast?_append_singleton (s : String) (c : Char) :
    (s ++ String.ofList [c]).toList.getLast? = some c := by
  rw [String.toList_append, String.toList_ofList, List.getLast?_concat]

/-- The last character of a value tells its form. -/
theorem getLast?_of_fits {form : ValueForm} {value : String} (h : form.Fits value) :
    ∃ c, value.toList.getLast? = some c ∧ ofLast c = form := by
  cases form with
  | numeral =>
    obtain ⟨digits, hne, hdigits, hvalue | hvalue⟩ := h
    · rw [hvalue, List.getLast?_eq_getLast_of_ne_nil hne]
      exact ⟨_, rfl, ofLast_digit (hdigits _ (List.getLast_mem hne))⟩
    · exact ⟨'\n', by rw [hvalue, List.getLast?_concat], rfl⟩
  | text =>
    obtain ⟨x, rfl⟩ := h
    exact ⟨'\'', getLast?_append_singleton _ '\'', rfl⟩
  | template =>
    obtain ⟨x, rfl⟩ := h
    exact ⟨')', getLast?_append_singleton _ ')', rfl⟩
  | running =>
    cases h
    exact ⟨'g', by simp, rfl⟩
  | reference =>
    obtain ⟨type, x, rfl⟩ := h
    exact ⟨']', getLast?_append_singleton _ ']', rfl⟩

/-- A value has one form. -/
theorem eq_of_fits {form form' : ValueForm} {value : String} (h : form.Fits value)
    (h' : form'.Fits value) : form = form' := by
  obtain ⟨c, hc, rfl⟩ := getLast?_of_fits h
  obtain ⟨c', hc', rfl⟩ := getLast?_of_fits h'
  rw [Option.some.inj (hc.symm.trans hc')]

end ValueForm

theorem fits_of_isNumeral {value : String} (h : isNumeral value = true) :
    ValueForm.numeral.Fits value := by
  simp only [isNumeral, Bool.and_eq_true, Bool.or_eq_true, Bool.not_eq_true', beq_iff_eq,
    List.isEmpty_eq_false_iff] at h
  obtain ⟨hne, hrest⟩ := h
  have hdigits : ∀ c ∈ value.toList.takeWhile Char.isDigit, '0' ≤ c ∧ c ≤ '9' := by
    intro c hc
    have := List.mem_takeWhile_imp hc
    simp only [Char.isDigit, Bool.and_eq_true, decide_eq_true_eq] at this
    exact this
  have hsplit := List.prefix_iff_eq_append.1 (List.takeWhile_prefix Char.isDigit (l := value.toList))
  refine ⟨_, hne, hdigits, hrest.imp (fun h => ?_) fun h => ?_⟩
  · rw [h, List.append_nil] at hsplit
    exact hsplit.symm
  · rw [h] at hsplit
    exact hsplit.symm

/-! ## Properties -/

namespace Property

variable {style : Style} {p : Property} {resourceType : String} {own given : List Assignment}
  {s : Assignment}

/-- The resources that the arguments refer to, in their order. -/
def targets (p : Property) : List (String × String) :=
  p.args.flatMap fun
    | .resources targets => targets
    | _ => []

/-- The subscription to a resource of that type and name. -/
def subscription (style : Style) (target : String × String) : Assignment :=
  ⟨"subscribe",
    String.ofList (Text.capitalized (style.tables.typeName target.1).toList) ++
      "[" ++ quoted target.2 ++ "]"⟩

theorem flatMap_subscriptionsTo (style : Style) (p : Property) :
    p.args.flatMap (subscriptionsTo style) = p.targets.map (subscription style) := by
  rw [targets, List.map_flatMap]
  congr 1
  funext e
  cases e with
  | resources targets => rfl
  | _ => rfl

/-- The names of the properties that have rules of their own. -/
def ruled : List String :=
  ["source", "backup", "to", "running", "action", "not_if", "only_if", "resources", "command",
    "subscribes", "notifies"]

/-- The property is given under its own name: it has no rule of its own, or it is the source of a
resource that is neither a template nor a file. -/
def IsPlain (p : Property) (resourceType : String) : Prop :=
  p.name ∉ ruled ∨
    p.name = "source" ∧ resourceType ∉ ["template", "file", "remote_file", "cookbook_file"]

/-- The source of a resource that is neither a template nor a file has no rule of its own. -/
theorem sourceStatement_eq_plainStatement
    (h : resourceType ∉ ["template", "file", "remote_file", "cookbook_file"]) :
    p.sourceStatement style resourceType = p.plainStatement := by
  unfold sourceStatement
  split
  case h_5 => rfl
  all_goals simp at h

theorem guardName?_eq_none (h : p.name ∉ ruled) : guardName? p.name = none := by
  unfold guardName?
  split
  · next hname => simp [ruled, hname] at h
  · next hname => simp [ruled, hname] at h
  · rfl

theorem ownStatements_of_isPlain (h : p.IsPlain resourceType) :
    p.ownStatements style resourceType = Noted.lift p.plainStatement := by
  obtain h | ⟨hname, htype⟩ := h
  · have hguard := guardName?_eq_none h
    unfold ownStatements
    split
    case h_10 => rw [hguard]
    all_goals
      next hname => simp [ruled, hname] at h
  · simp only [ownStatements, hname, sourceStatement_eq_plainStatement htype]

/-- The states that actions bring about are quoted. -/
theorem quoted_of_actionStatements (h : p.actionStatements style = .ok own) :
    ∀ s ∈ own, ∃ x, s.value = quoted x := by
  simp only [actionStatements, bind_eq_ok_iff, pure_eq_ok_iff] at h
  obtain ⟨actions, -, rfl⟩ := h
  intro s hs
  obtain ⟨action, -, rfl⟩ := List.mem_map.1 hs
  exact ⟨_, rfl⟩

theorem quoted_of_guardStatement {name : String}
    (h : (p.guardStatement resourceType name).result = .ok own) :
    ∀ s ∈ own, ∃ x, s.value = quoted x := by
  unfold guardStatement at h
  split at h
  · rw [Noted.result_ite_note, Noted.result_pure] at h
    cases h
    simp
  · rw [Noted.result_bind, Noted.result_lift, bind_eq_ok_iff] at h
    obtain ⟨condition, -, hpure⟩ := h
    cases hpure
    split
    · simp
    · simp

theorem sourceStatement_cases
    (htype : resourceType ∈ ["template", "file", "remote_file", "cookbook_file"])
    (h : p.sourceStatement style resourceType = .ok own) :
    (resourceType = "template" ∧ ∃ x, own = [⟨"content", "template(" ++ quoted x ++ ")"⟩]) ∨
      ∀ s ∈ own, ∃ x, s.value = quoted x := by
  simp only [List.mem_cons, List.not_mem_nil, or_false] at htype
  obtain rfl | rfl | rfl | rfl := htype
  all_goals
    simp only [sourceStatement, bind_eq_ok_iff, pure_eq_ok_iff] at h
    obtain ⟨x, -, rfl⟩ := h
  · exact .inl ⟨rfl, x, rfl⟩
  all_goals exact .inr (by simp)

/-- What a property other than `backup` gives by a rule of its own. -/
theorem ownStatements_cases (hbackup : p.name ≠ "backup") (hplain : ¬ p.IsPlain resourceType)
    (h : (p.ownStatements style resourceType).result = .ok own) :
    (p.name = "source" ∧ resourceType = "template" ∧
        ∃ x, own = [⟨"content", "template(" ++ quoted x ++ ")"⟩]) ∨
      (p.name = "running" ∧ own = [⟨"ensure", "running"⟩]) ∨
      ∀ s ∈ own, ∃ x, s.value = quoted x := by
  simp only [IsPlain, not_or, not_and, not_not] at hplain
  obtain ⟨hruled, htype⟩ := hplain
  unfold ownStatements at h
  split at h
  case h_1 hname =>
    obtain ⟨htemplate, hown⟩ | hown := sourceStatement_cases (htype hname) h
    · exact .inl ⟨hname, htemplate, hown⟩
    · exact .inr (.inr hown)
  case h_2 hname => exact absurd hname hbackup
  case h_3 =>
    simp only [Noted.result_lift, bind_eq_ok_iff, pure_eq_ok_iff] at h
    obtain ⟨x, -, rfl⟩ := h
    exact .inr (.inr (by simp))
  case h_4 hname =>
    cases h
    exact .inr (.inl ⟨hname, rfl⟩)
  case h_5 => exact .inr (.inr (quoted_of_actionStatements h))
  case h_10 =>
    split at h
    · exact .inr (.inr (quoted_of_guardStatement h))
    · next hguard =>
      -- of the names with rules only those of the guards are left
      have hname : p.name = "not_if" ∨ p.name = "only_if" := by simp_all [ruled]
      obtain hname | hname := hname <;> rw [hname] at hguard <;> cases hguard
  all_goals
    cases h
    exact .inr (.inr (by simp))

/-- The property under its own name is a number or a quoted text. -/
theorem plainStatement_cases (h : p.plainStatement = .ok own) :
    ∃ value, own = [⟨p.name, value⟩] ∧ (ValueForm.numeral.Fits value ∨ ∃ x, value = quoted x) := by
  simp only [plainStatement, bind_eq_ok_iff, pure_eq_ok_iff] at h
  obtain ⟨value, -, rfl⟩ := h
  refine ⟨_, rfl, ?_⟩
  split
  · next hnumeral => exact .inl (fits_of_isNumeral hnumeral)
  · exact .inr ⟨value, rfl⟩

end Property

/-- Where a value of the form may stand: what the property is, and what the statement is called. -/
def ValueForm.MayStand (p : Property) (resourceType name : String) : ValueForm → Prop
  | numeral => p.IsPlain resourceType ∧ name = p.name
  | text => True
  | template => name = "content" ∧ p.name = "source" ∧ resourceType = "template"
  | running => name = "ensure" ∧ p.name = "running"
  | reference => name = "subscribe"

theorem ValueForm.exists_of_mem_ownStatements {style : Style} {p : Property} {resourceType : String}
    {own : List Assignment} (hbackup : p.name ≠ "backup")
    (h : (p.ownStatements style resourceType).result = .ok own) {s : Assignment} (hs : s ∈ own) :
    ∃ form : ValueForm, form ≠ .reference ∧ form.Fits s.value ∧
      form.MayStand p resourceType s.name := by
  by_cases hplain : p.IsPlain resourceType
  · rw [Property.ownStatements_of_isPlain hplain] at h
    obtain ⟨value, rfl, hvalue⟩ := Property.plainStatement_cases h
    obtain rfl := List.mem_singleton.1 hs
    obtain hnumeral | hquoted := hvalue
    · exact ⟨.numeral, by decide, hnumeral, hplain, rfl⟩
    · exact ⟨.text, by decide, hquoted, trivial⟩
  · obtain ⟨hname, htype, x, rfl⟩ | ⟨hname, rfl⟩ | hquoted :=
      Property.ownStatements_cases hbackup hplain h
    · obtain rfl := List.mem_singleton.1 hs
      exact ⟨.template, by decide, ⟨x, rfl⟩, rfl, hname, htype⟩
    · obtain rfl := List.mem_singleton.1 hs
      exact ⟨.running, by decide, rfl, rfl, hname⟩
    · exact ⟨.text, by decide, hquoted s hs, trivial⟩

/-- The statements of a property are the subscriptions to the resources that its arguments refer to,
in their order, and then its own statements. Each value has exactly one form, which may stand there,
and no quote gets out of its quotes. -/
theorem statements_forms (style : Style) (p : Property) (resourceType : String)
    (hbackup : p.name ≠ "backup") :
    (p.isInner = true → Returns (p.statements style resourceType).result) ∧
    (∀ given, (p.statements style resourceType).result = .ok given →
      ∃ own, given = p.targets.map (Property.subscription style) ++ own ∧
        (∀ s ∈ given, ∃ form : ValueForm, form.Fits s.value ∧
          form.MayStand p resourceType s.name ∧ ∀ other, other.Fits s.value → other = form) ∧
        (∀ s ∈ own, ¬ ValueForm.reference.Fits s.value) ∧
        (p.IsPlain resourceType → p.plainStatement = .ok own)) ∧
    ∀ text, IsQuotation (quoted text).toList := by
  refine ⟨Property.returns_statements style resourceType, fun given h => ?_, isQuotation_quoted⟩
  rw [Property.statements_result, map_eq_ok_iff] at h
  obtain ⟨own, hown, rfl⟩ := h
  rw [Property.flatMap_subscriptionsTo]
  refine ⟨own, rfl, fun s hs => ?_, fun s hs href => ?_, fun hplain => ?_⟩
  · obtain hs | hs := List.mem_append.1 hs
    · obtain ⟨target, -, rfl⟩ := List.mem_map.1 hs
      exact ⟨.reference, ⟨_, _, rfl⟩, rfl, fun other hother =>
        ValueForm.eq_of_fits hother ⟨_, _, rfl⟩⟩
    · obtain ⟨form, -, hfits, hstands⟩ := ValueForm.exists_of_mem_ownStatements hbackup hown hs
      exact ⟨form, hfits, hstands, fun other hother => ValueForm.eq_of_fits hother hfits⟩
  · obtain ⟨form, hne, hfits, -⟩ := ValueForm.exists_of_mem_ownStatements hbackup hown hs
    exact hne (ValueForm.eq_of_fits hfits href)
  · rwa [Property.ownStatements_of_isPlain hplain] at hown

/-- A number behind references to two resources, of which one has a quote in its name. -/
theorem statements_forms_of_port :
    let p : Property := ⟨"port",
      [.resources [("template", "it's"), ("package", "nginx")], .literal .number "80"], none, 3⟩
    let given : List Assignment :=
      [⟨"subscribe", "File['it\\'s']"⟩, ⟨"subscribe", "Package['nginx']"⟩, ⟨"port", "80"⟩]
    p.name ≠ "backup" ∧ p.isInner = true ∧ (p.statements {} "service").result = .ok given ∧
      ∀ s ∈ given, ∃ form : ValueForm, form.Fits s.value ∧ form.MayStand p "service" s.name ∧
        ∀ other, other.Fits s.value → other = form := by
  intro p given
  have hname : p.name ≠ "backup" := by decide
  have hgiven : (p.statements {} "service").result = .ok given := by decide
  obtain ⟨-, hforms, -⟩ := statements_forms {} p "service" hname
  obtain ⟨own, -, hall, -⟩ := hforms given hgiven
  exact ⟨hname, rfl, hgiven, hall⟩

end RecipeManifest

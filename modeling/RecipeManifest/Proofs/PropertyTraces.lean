import RecipeManifest.Proofs.Subscription

/-!
What the properties of a declaration leave behind.

A property becomes statements of the resource, or a warning says that it was left out, or it is the
command that a resource is titled by. Main statement: a property with a block, or with arguments
that say something, does one of these, unless it is there for the references among its arguments
alone, lists no action or is a guard whose block has no condition.
-/

namespace RecipeManifest

/-- A warning that names the property, the type of its resource and its line. -/
def Note.IsAbout (note : Note) (p : Property) (resourceType : String) : Prop :=
  note.level = .warning ∧ note.channel = .property ∧
    ∃ deed manner reason : String, note.message =
      s!"{deed} '{p.name}'{manner} in {resourceType} resource (line {p.line}){reason}"

namespace Property

variable {style : Style} {p : Property} {resourceType : String} {notes : List Note}
  {own given : List Assignment}

/-- The property has a block, or arguments whose text is not empty. -/
def Speaks (p : Property) : Prop :=
  p.block.isSome ∨ ∃ text, p.argumentText = .ok text ∧ text ≠ ""

/-- The property is there for the references among its arguments, and for the title. -/
def PassesOn (p : Property) : Prop :=
  p.block = none ∧ p.name ∈ ["resources", "command", "subscribes", "notifies"]

/-- The property lists actions, and there is none in its lists. -/
def ListsNoAction (p : Property) : Prop :=
  p.block = none ∧ p.name = "action" ∧ ∀ e ∈ p.args, e = .array []

/-- The property is a guard whose block has no condition. -/
def GuardsNothing (p : Property) : Prop :=
  (guardName? p.name).isSome ∧
    ∃ body, p.block = some body ∧ Expr.conditionText (blockValue body) = .ok ""

/-- The warning for a block that is not translated. -/
def ignoredBlock (p : Property) (resourceType : String) : Note :=
  ⟨.warning, .property, s!"Ignoring nested block of '{p.name}' in {resourceType} " ++
    s!"resource (line {p.line})"⟩

/-- The warning for a guard that is given arguments in place of a block. -/
def skippedGuard (p : Property) (resourceType : String) : Note :=
  ⟨.warning, .property, s!"Skipping '{p.name}' without a block in {resourceType} " ++
    s!"resource (line {p.line}); only block guards are translated"⟩

theorem isAbout_ignoredBlock : (p.ignoredBlock resourceType).IsAbout p resourceType := by
  refine ⟨rfl, rfl, "Ignoring nested block of", "", "", ?_⟩
  apply String.toList_inj.1
  simp [ignoredBlock, toString]

theorem isAbout_skippedGuard : (p.skippedGuard resourceType).IsAbout p resourceType := by
  refine ⟨rfl, rfl, "Skipping", " without a block", "; only block guards are translated", ?_⟩
  apply String.toList_inj.1
  simp [skippedGuard, toString]

/-- A property's statements and notes are its own, with its subscriptions before them and the
warning for its block behind. -/
theorem statements_eq_ok (h : p.statements style resourceType = ⟨notes, .ok given⟩) :
    ∃ own before, p.ownStatements style resourceType = ⟨before, .ok own⟩ ∧
      given = p.args.flatMap (subscriptionsTo style) ++ own ∧
      notes = before ++ if p.block.isSome && (guardName? p.name).isNone then
        [p.ignoredBlock resourceType] else [] := by
  obtain ⟨before, own, after, hown, hrest, rfl⟩ := Noted.bind_eq_ok_iff.1 h
  obtain ⟨rfl, hgiven⟩ := Noted.mk.inj ((Noted.ite_note_pure ..).symm.trans hrest)
  exact ⟨own, before, hown, (Except.ok.inj hgiven).symm, rfl⟩

theorem plainStatement_ne_nil (h : p.plainStatement = .ok own) : own ≠ [] := by
  simp only [plainStatement, bind_eq_ok_iff, pure_eq_ok_iff] at h
  obtain ⟨_, -, rfl⟩ := h
  simp

theorem sourceStatement_ne_nil (h : p.sourceStatement style resourceType = .ok own) :
    own ≠ [] := by
  unfold sourceStatement at h
  split at h
  case h_5 => exact plainStatement_ne_nil h
  all_goals
    simp only [bind_eq_ok_iff, pure_eq_ok_iff] at h
    obtain ⟨_, -, rfl⟩ := h
    simp

/-- There is a state for each action, so none only where there is no action. -/
theorem eq_array_nil_of_actionStatements (h : p.actionStatements style = .ok []) :
    ∀ e ∈ p.args, e = .array [] := by
  simp only [actionStatements, bind_eq_ok_iff, pure_eq_ok_iff, List.map_eq_nil_iff] at h
  obtain ⟨_, h, rfl⟩ := h
  have hnone := List.flatMap_eq_nil_iff.1 (Expr.renderAll_eq_nil_iff.1 h)
  intro e he
  have hitems := hnone e he
  cases e <;> simp_all [actionItems]

theorem args_ne_nil_of_speaks (hspeaks : p.Speaks) (hblock : p.block = none) : p.args ≠ [] := by
  intro hargs
  obtain hsome | ⟨text, htext, hne⟩ := hspeaks
  · simp [hblock] at hsome
  · simp [argumentText, hargs, Expr.renderAll, bind, Except.bind, pure, Except.pure] at htext
    exact hne htext

/-- A guard becomes a statement, or there is a warning, unless it has nothing to say. -/
theorem guardStatement_trace {guard : String} (hguard : guardName? p.name = some guard)
    (hspeaks : p.Speaks) (h : p.guardStatement resourceType guard = ⟨notes, .ok own⟩) :
    own ≠ [] ∨ p.skippedGuard resourceType ∈ notes ∨ p.GuardsNothing := by
  unfold guardStatement at h
  split at h
  · next hblock =>
    obtain ⟨rfl, -⟩ := Noted.mk.inj ((Noted.ite_note_pure ..).symm.trans h)
    have hargs : p.args ≠ [] := args_ne_nil_of_speaks hspeaks hblock
    exact .inr (.inl (by simp [hargs, skippedGuard]))
  · next body hblock =>
    obtain ⟨_, condition, _, hlift, hrest, -⟩ := Noted.bind_eq_ok_iff.1 h
    have hcondition : Expr.conditionText (blockValue body) = .ok condition :=
      (Noted.mk.inj hlift).2
    obtain rfl := Except.ok.inj (Noted.mk.inj hrest).2
    by_cases hempty : condition = ""
    · exact .inr (.inr ⟨by simp [hguard], body, hblock, hempty ▸ hcondition⟩)
    · exact .inl (by simp [hempty])

/-- What a property itself gives, by its name, where no warning for its block makes up for it. -/
theorem ownStatements_trace (hspeaks : p.Speaks)
    (hblock : p.block = none ∨ (guardName? p.name).isSome)
    (h : p.ownStatements style resourceType = ⟨notes, .ok own⟩) :
    own ≠ [] ∨ p.skippedGuard resourceType ∈ notes ∨
      p.PassesOn ∨ p.ListsNoAction ∨ p.GuardsNothing := by
  -- A name with a rule of its own is no guard.
  have hnone {name : String} (hname : p.name = name) (hguard : guardName? name = none) :
      p.block = none := by
    simpa [hname, hguard] using hblock
  unfold ownStatements at h
  split at h
  · exact .inl (sourceStatement_ne_nil (Noted.mk.inj h).2)
  · simp only [Noted.lift, Noted.mk.injEq, bind_eq_ok_iff, pure_eq_ok_iff] at h
    obtain ⟨-, _, -, rfl⟩ := h
    exact .inl (by simp)
  · simp only [Noted.lift, Noted.mk.injEq, bind_eq_ok_iff, pure_eq_ok_iff] at h
    obtain ⟨-, _, -, rfl⟩ := h
    exact .inl (by simp)
  · obtain rfl := Except.ok.inj (Noted.mk.inj h).2
    exact .inl (by simp)
  · next hname =>
    by_cases hown : own = []
    · refine .inr (.inr (.inr (.inl ⟨hnone hname rfl, hname, ?_⟩)))
      exact eq_array_nil_of_actionStatements (hown ▸ (Noted.mk.inj h).2)
    · exact .inl hown
  iterate 4
    · next hname => exact .inr (.inr (.inl ⟨hnone hname rfl, by simp [hname]⟩))
  · split at h
    · next guard hguard =>
      obtain hown | hskipped | hnothing := guardStatement_trace hguard hspeaks h
      · exact .inl hown
      · exact .inr (.inl hskipped)
      · exact .inr (.inr (.inr (.inr hnothing)))
    · exact .inl (plainStatement_ne_nil (Noted.mk.inj h).2)

/-- A property that speaks gives a statement, or there is a warning about it, unless it is one of
those that give none themselves. -/
theorem statements_trace (hspeaks : p.Speaks)
    (h : p.statements style resourceType = ⟨notes, .ok given⟩) :
    given ≠ [] ∨ (∃ note ∈ notes, note.IsAbout p resourceType) ∨
      p.PassesOn ∨ p.ListsNoAction ∨ p.GuardsNothing := by
  obtain ⟨own, before, hown, rfl, rfl⟩ := statements_eq_ok h
  by_cases hblock : p.block = none ∨ (guardName? p.name).isSome
  · obtain hown | hskipped | hrest := ownStatements_trace hspeaks hblock hown
    · exact .inl (by simp [hown])
    · exact .inr (.inl ⟨_, List.mem_append_left _ hskipped, isAbout_skippedGuard⟩)
    · exact .inr (.inr hrest)
  · have hignored : (p.block.isSome && (guardName? p.name).isNone) = true := by
      simpa [Option.isSome_iff_ne_none] using hblock
    exact .inr (.inl ⟨_, by simp [hignored], isAbout_ignoredBlock⟩)

/-- A property that is there for its references gives just the subscriptions to them. -/
theorem statements_of_passesOn (hp : p.PassesOn) :
    p.statements style resourceType = ⟨[], .ok (p.args.flatMap (subscriptionsTo style))⟩ := by
  obtain ⟨hblock, hname⟩ := hp
  have hown : p.ownStatements style resourceType = ⟨[], .ok []⟩ := by
    simp only [List.mem_cons, List.not_mem_nil, or_false] at hname
    obtain hname | hname | hname | hname := hname <;> simp [ownStatements, hname, pure]
  unfold statements
  rw [hown, hblock]
  simp [bind, pure]

end Property

namespace Resource

variable {style : Style} {r : Resource} {notes : List Note} {block : ResourceBlock}

/-- The property that follows these statements is the one that says what the resource runs. -/
def RunBy (r : Resource) (before : List Statement) (p : Property) : Prop :=
  r.type = "execute" ∧ p.name = "command" ∧
    ∀ q ∈ before.filterMap Statement.property?, q.name ≠ "command"

/-- What one statement of a body gives. -/
def given (style : Style) (r : Resource) (s : Statement) : Noted (List Assignment) :=
  match s.property? with
  | some p => p.statements style r.type
  | none => ⟨[⟨.warning, .resource, s!"Ignoring statement in {r.type} resource " ++
      s!"(line {s.line}): not an attribute call"⟩], .ok []⟩

theorem bodyStatements_cons (s : Statement) (rest : List Statement) :
    r.bodyStatements style (s :: rest) = do
      let own ← r.given style s
      return own ++ (← r.bodyStatements style rest) := by
  rw [bodyStatements, given]
  cases s.property? <;> rfl

theorem bodyStatements_append {a b : List Statement} {all : List Assignment}
    (h : r.bodyStatements style (a ++ b) = ⟨notes, .ok all⟩) :
    ∃ front earlier back later, r.bodyStatements style a = ⟨earlier, .ok front⟩ ∧
      r.bodyStatements style b = ⟨later, .ok back⟩ ∧ all = front ++ back ∧
      notes = earlier ++ later := by
  induction a generalizing notes all with
  | nil => exact ⟨[], [], all, notes, rfl, h, rfl, rfl⟩
  | cons s a ih =>
    rw [List.cons_append, bodyStatements_cons] at h
    obtain ⟨first, own, _, hown, hrest, rfl⟩ := Noted.bind_eq_ok_iff.1 h
    obtain ⟨_, more, _, hmore, hpure, rfl⟩ := Noted.bind_eq_ok_iff.1 hrest
    obtain ⟨rfl, hall⟩ := Noted.mk.inj hpure
    obtain ⟨front, earlier, back, later, ha, hb, rfl, rfl⟩ := ih hmore
    refine ⟨own ++ front, first ++ earlier, back, later, ?_, hb, ?_, by simp⟩
    · rw [bodyStatements_cons]
      exact Noted.bind_eq_ok_iff.2 ⟨first, own, earlier, hown,
        Noted.bind_eq_ok_iff.2 ⟨earlier, front, [], ha, rfl, by simp⟩, rfl⟩
    · simpa using (Except.ok.inj hall).symm

theorem bodyStatements_property {p : Property} {rest : List Statement} {all : List Assignment}
    (h : r.bodyStatements style (.property p.name p.args p.block p.line :: rest) =
      ⟨notes, .ok all⟩) :
    ∃ own written back later, p.statements style r.type = ⟨written, .ok own⟩ ∧
      r.bodyStatements style rest = ⟨later, .ok back⟩ ∧ all = own ++ back ∧
      notes = written ++ later := by
  rw [bodyStatements_cons] at h
  obtain ⟨written, own, _, hown, hrest, rfl⟩ := Noted.bind_eq_ok_iff.1 h
  obtain ⟨later, back, _, hback, hpure, rfl⟩ := Noted.bind_eq_ok_iff.1 hrest
  obtain ⟨rfl, hall⟩ := Noted.mk.inj hpure
  exact ⟨own, written, back, later, hown, hback, (Except.ok.inj hall).symm, by simp⟩

/-- Nothing but a state is added to a block, and that behind its statements. -/
theorem exists_withDefaultState (style : Style) (r : Resource) (b : ResourceBlock) :
    ∃ state, r.withDefaultState style b = { b with statements := b.statements ++ state } := by
  unfold withDefaultState
  split
  · exact ⟨[], by simp⟩
  · exact ⟨[], by simp⟩
  · dsimp only
    split
    · exact ⟨[], by simp⟩
    · exact ⟨_, rfl⟩

/-- A block has the statements of the declaration's body and then its default state, and all that is
noted is noted on the body. -/
theorem toBlock_eq_ok (h : r.toBlock style = ⟨notes, .ok block⟩) :
    ∃ all state, r.bodyStatements style r.body = ⟨notes, .ok all⟩ ∧
      block = r.withDefaultState style { block with statements := all } ∧
      block.statements = all ++ state := by
  obtain ⟨_, ⟨title, comment⟩, _, hhead, hrest, rfl⟩ := Noted.bind_eq_ok_iff.1 h
  obtain ⟨rfl, -⟩ := Noted.mk.inj hhead
  obtain ⟨_, all, _, hall, hpure, rfl⟩ := Noted.bind_eq_ok_iff.1 hrest
  obtain ⟨rfl, hblock⟩ := Noted.mk.inj hpure
  obtain ⟨state, hstate⟩ := exists_withDefaultState style r
    ⟨style.tables.typeName r.type, title, all, comment⟩
  obtain rfl := (Except.ok.inj hblock).symm
  refine ⟨all, state, by simpa using hall, ?_, by rw [hstate]⟩
  have hsame : { r.withDefaultState style ⟨style.tables.typeName r.type, title, all, comment⟩ with
      statements := all } = ⟨style.tables.typeName r.type, title, all, comment⟩ := by
    rw [hstate]
  rw [hsame]

/-- The first command among the properties of an `execute` resource is what it is titled by. -/
theorem title_of_runBy {before after : List Statement} {p : Property}
    (hbody : r.body = before ++ .property p.name p.args p.block p.line :: after)
    (hrun : r.RunBy before p) (hargs : p.args ≠ [])
    (h : (r.toBlock style).result = .ok block) :
    ∃ e text, p.args.head? = some e ∧ Expr.commandText (some e) = .ok text ∧
      block.title = quoted text := by
  obtain ⟨htype, hname, hfirst⟩ := hrun
  obtain ⟨e, he⟩ : ∃ e, p.args.head? = some e := by
    simpa [← Option.isSome_iff_exists] using hargs
  have hfind : r.find? "command" = some p := by
    have hnone : (before.filterMap Statement.property?).find? (fun q => q.name == "command") =
        none :=
      List.find?_eq_none.2 fun q hq => by simpa using hfirst q hq
    have hp : Statement.property? (.property p.name p.args p.block p.line) = some p := rfl
    rw [find?, properties, hbody, List.filterMap_append, List.find?_append, hnone,
      List.filterMap_cons_some hp]
    simp [hname]
  obtain ⟨-, comment, hhead⟩ := toBlock_ok h
  simp only [heading, htype, if_true, command, hfind, Option.bind_some, he, bind_eq_ok_iff,
    pure_eq_ok_iff, Prod.mk.injEq] at hhead
  obtain ⟨_, -, text, htext, _, -, htitle, -⟩ := hhead
  exact ⟨e, text, he, htext, htitle.symm⟩

end Resource

/-- Every property that speaks is heard of: it gives statements at its place in the block, between
those of the properties around it and before the default state, or there is a warning about it at
its place in the log, or it is the command that the block is titled by. The exceptions are the
properties that are there for their references, which give just the subscriptions to these, lists
without an action and guards without a condition. -/
theorem property_leaves_trace (style : Style) (r : Resource) (before after : List Statement)
    (p : Property) (block : ResourceBlock)
    (hbody : r.body = before ++ .property p.name p.args p.block p.line :: after)
    (hspeaks : p.Speaks) (hblock : (r.toBlock style).result = .ok block) :
    ∃ (front own back state : List Assignment) (earlier written later : List Note),
      r.bodyStatements style before = ⟨earlier, .ok front⟩ ∧
      p.statements style r.type = ⟨written, .ok own⟩ ∧
      r.bodyStatements style after = ⟨later, .ok back⟩ ∧
      block = r.withDefaultState style { block with statements := front ++ own ++ back } ∧
      block.statements = front ++ own ++ back ++ state ∧
      (r.toBlock style).notes = earlier ++ written ++ later ∧
      (own ≠ [] ∨ (∃ note ∈ written, note.IsAbout p r.type) ∨
        (r.RunBy before p ∧ ∃ e text, p.args.head? = some e ∧
          Expr.commandText (some e) = .ok text ∧ block.title = quoted text) ∨
        (p.PassesOn ∧ ¬ r.RunBy before p) ∨ p.ListsNoAction ∨ p.GuardsNothing) ∧
      (p.PassesOn → own = p.args.flatMap (Property.subscriptionsTo style) ∧ written = []) := by
  have htoBlock : r.toBlock style = ⟨(r.toBlock style).notes, .ok block⟩ := by
    rw [← hblock]
  obtain ⟨all, state, hall, hdefault, hstatements⟩ := Resource.toBlock_eq_ok htoBlock
  rw [hbody] at hall
  obtain ⟨front, earlier, _, _, hfront, hrest, rfl, hnotes⟩ := Resource.bodyStatements_append hall
  obtain ⟨own, written, back, later, hown, hback, rfl, rfl⟩ :=
    Resource.bodyStatements_property hrest
  rw [← List.append_assoc] at hdefault hstatements hnotes
  refine ⟨front, own, back, state, earlier, written, later, hfront, hown, hback, hdefault,
    hstatements, hnotes, ?_, fun hp => ?_⟩
  · obtain hgiven | hwarned | hp | hrest := Property.statements_trace hspeaks hown
    · exact .inl hgiven
    · exact .inr (.inl hwarned)
    · by_cases hrun : r.RunBy before p
      · have hargs := Property.args_ne_nil_of_speaks hspeaks hp.1
        exact .inr (.inr (.inl ⟨hrun, Resource.title_of_runBy hbody hrun hargs hblock⟩))
      · exact .inr (.inr (.inr (.inl ⟨hp, hrun⟩)))
    · exact .inr (.inr (.inr (.inr hrest)))
  · rw [Property.statements_of_passesOn hp] at hown
    obtain ⟨rfl, hgiven⟩ := Noted.mk.inj hown
    exact ⟨(Except.ok.inj hgiven).symm, rfl⟩

/-- A guard that is given a text, between two other properties of a command. -/
theorem property_leaves_trace_of_text_guard :
    let p : Property := ⟨"not_if", [.literal .string "test -f /x"], none, 3⟩
    let r : Resource := ⟨"execute", some (.literal .string "restart"),
      [.property "user" [.literal .string "root"] none 2,
        .property p.name p.args p.block p.line,
        .property "command" [.literal .string "/etc/init.d/app restart"] none 4], true, 1⟩
    p.Speaks ∧ (∃ block, (r.toBlock {}).result = .ok block) ∧
      ∃ note ∈ (r.toBlock {}).notes, note.IsAbout p r.type := by
  intro p r
  have hspeaks : p.Speaks := .inr ⟨"test -f /x", rfl, by decide⟩
  have hblock : (r.toBlock {}).result = .ok ⟨"exec", "'/etc/init.d/app restart'",
      [⟨"user", "'root'"⟩], some "restart"⟩ := by decide +kernel
  refine ⟨hspeaks, ⟨_, hblock⟩, ?_⟩
  obtain ⟨_, own, _, _, earlier, written, later, -, hown, -, -, -, hnotes, htrace, -⟩ :=
    property_leaves_trace {} r [.property "user" [.literal .string "root"] none 2]
      [.property "command" [.literal .string "/etc/init.d/app restart"] none 4] p _ rfl hspeaks
      hblock
  obtain ⟨-, hnone⟩ := Noted.mk.inj hown
  obtain hgiven | ⟨note, hnote, habout⟩ | ⟨⟨-, hname, -⟩, -⟩ | ⟨⟨-, hname⟩, -⟩ | ⟨-, hname, -⟩ |
    ⟨-, _, hbody, -⟩ := htrace
  · exact absurd (Except.ok.inj hnone).symm hgiven
  · exact ⟨note, by rw [hnotes]; simp [hnote], habout⟩
  · exact absurd hname (by decide)
  · exact absurd hname (by decide)
  · exact absurd hname (by decide)
  · cases hbody

/-- What a scheduled job runs is neither in its resource nor in the log. -/
theorem command_lost_outside_execute :
    let p : Property := ⟨"command", [.literal .string "/usr/bin/backup"], none, 2⟩
    let r : Resource := ⟨"cron", some (.literal .string "backup"),
      [.property p.name p.args p.block p.line], true, 1⟩
    p.Speaks ∧ ¬ r.RunBy [] p ∧
      r.toBlock {} = ⟨[], .ok ⟨"cron", "'backup'", [], none⟩⟩ := by
  intro p r
  refine ⟨.inr ⟨"/usr/bin/backup", rfl, by decide⟩, fun h => absurd h.1 (by decide), ?_⟩
  rfl

end RecipeManifest

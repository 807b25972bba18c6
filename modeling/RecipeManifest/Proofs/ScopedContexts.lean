import RecipeManifest.Command.Run
import RecipeManifest.Proofs.ManifestFiles

/-!
The contexts that a conversion logs in.

A context is set for the whole operation, inside it for the cookbook, and inside that for each
recipe while it is read and translated. Whatever stops the work, each of them is taken back, so that
the log of a run is settled by the files and the host (`conversion_contexts`):

    Starting ...                     the operation, and what was set before
      notes on the first recipe      the operation, the cookbook, the recipe
      Wrote ...                      the operation, the cookbook, and the recipe set before
      ...
    Completed ... or Failed ...      the operation, and what was set before
-/

namespace RecipeManifest

open Work FileSystem

/-! ## Entries -/

/-- The entries for notes that are written in a context. -/
def noteEntries (context : Context) (notes : List Note) : List LogEntry :=
  notes.map fun n =>
    { level := n.level, logger := n.channel.name, message := n.message, context := context }

/-- The entry for a manifest that was written. -/
def wroteEntry (context : Context) (manifest : Path) : LogEntry :=
  { level := .info, logger := Channel.module.name, message := s!"Wrote {manifest.text}",
    context := context }

namespace Work

variable (name function logger : String) (context : Context)

/-- The entry for an operation that starts. -/
def startEntry : LogEntry :=
  { level := .info, logger := logger, message := s!"Starting {name}",
    extra := [("function", .string function)], context := context }

/-- The entry for an operation that ends with a result, or with a fault that is told as `display`
shows it. The end of the whole program is not told. -/
def endEntries {α : Type} (display : String → String) : Except Fault α → List LogEntry
  | .ok _ =>
    [{ level := .info, logger := logger, message := s!"Completed {name}",
       extra := [("function", .string function)], context := context }]
  | .error (.report r) =>
    [{ level := .debug, logger := logger, message := s!"Failed {name}: {r.text display}",
       extra := [("function", .string function)], context := context }]
  | .error (.exit _) | .error .interrupt => []
  | .error f =>
    [{ level := .error, logger := logger, message := s!"Failed {name}: {f.text display}",
       extra := [("function", .string function)], failure := some ⟨f.kind, f.text display⟩,
       context := context }]

/-- The work ends with the end of the whole program. -/
def isExit {α : Type} : Except Fault α → Bool
  | .ok _ => false
  | .error f => f.isExit

end Work

/-- The entry tells that an operation has ended, one way or the other. -/
def LogEntry.ends (name : String) (e : LogEntry) : Bool :=
  e.message == s!"Completed {name}" || s!"Failed {name}: ".toList.isPrefixOf e.message.toList

/-! ## Scopes -/

/-- The context is the one before, and these entries were logged. -/
structure Logged (w : World) (entries : List LogEntry) (w' : World) : Prop where
  context : w'.context = w.context
  log : w'.log = w.log ++ entries

theorem Logged.refl (w : World) : Logged w [] w :=
  ⟨rfl, by simp⟩

theorem Logged.trans {w w₁ w₂ : World} {entries entries₁ : List LogEntry}
    (h : Logged w entries w₁) (h₁ : Logged w₁ entries₁ w₂) : Logged w (entries ++ entries₁) w₂ :=
  ⟨h₁.context.trans h.context, by rw [h₁.log, h.log, List.append_assoc]⟩

namespace Work

variable {α β : Type}

/-- The context of the work is taken back, whether the work returns or fails. -/
theorem run_inContext (change : Context) (work : Work α) (w : World) :
    (inContext change work).run.run w =
      ((work.run.run { w with context := w.context.update change }).1,
        { (work.run.run { w with context := w.context.update change }).2 with
          context := w.context }) := by
  unfold inContext
  rw [run_bind, run_get]
  dsimp only
  rw [run_bind, run_modify]
  dsimp only
  rw [run_bind, run_tryCatch]
  rcases work.run.run { w with context := w.context.update change } with ⟨e | a, w₁⟩ <;> rfl

theorem inContext_run (change : Context) {work : Work α} {w v : World} {r : Except Fault α}
    (h : work.run.run { w with context := w.context.update change } = (r, v)) :
    (inContext change work).run.run w = (r, { v with context := w.context }) := by
  rw [run_inContext, h]

theorem logged_inContext (change : Context) {work : Work α} {w : World} {entries : List LogEntry}
    (h : Logged { w with context := w.context.update change } entries
      (work.run.run { w with context := w.context.update change }).2) :
    Logged w entries ((inContext change work).run.run w).2 := by
  rw [run_inContext]
  exact ⟨rfl, h.log⟩

/-- Notes are logged in the context of the moment, also those of work that fails. -/
theorem run_noting (noted : Noted α) (w : World) :
    (noting noted).run.run w =
      (noted.result, { w with log := w.log ++ noteEntries w.context noted.notes }) := by
  obtain ⟨notes, result⟩ := noted
  unfold noting
  induction notes generalizing w with
  | nil =>
    simp only [noteEntries, List.map_nil, List.append_nil]
    rfl
  | cons n rest ih =>
    rw [List.forIn_cons]
    simp only [bind_assoc, pure_bind] at ih ⊢
    rw [run_bind]
    refine (ih _).trans ?_
    simp [noteEntries]

theorem run_log (e : LogEntry) (w : World) : (log e).run.run w =
    (.ok (), { w with log := w.log ++ [{ e with context := w.context }] }) :=
  rfl

/-- An operation logs its start before the work, and its end behind what the work logs. -/
theorem run_operation (name function logger : String) (work : Work α) (w : World) :
    let inside := w.context.update { operation := some name }
    let before : World :=
      { w with context := inside, log := w.log ++ [startEntry name function logger inside] }
    let result := (work.run.run before).1
    let after := (work.run.run before).2
    (operation name function logger work).run.run w =
      (result, { after with
        context := w.context
        log := after.log ++
          endEntries name function logger after.context after.files.display result }) := by
  intro inside before result after
  refine inContext_run _ (v := { after with
    log := after.log ++
      endEntries name function logger after.context after.files.display result }) ?_
  rw [run_bind, run_log]
  change (tryCatch work _ >>= _ : Work α).run.run before = _
  rw [run_bind, run_tryCatch]
  rcases hrun : work.run.run before with ⟨f | a, w₁⟩
  · have hresult : result = .error f := congrArg Prod.fst hrun
    have hafter : after = w₁ := congrArg Prod.snd hrun
    rw [hresult, hafter]
    cases f with
    | exit code | interrupt => simp only [endEntries, List.append_nil]; rfl
    | _ => rfl
  · have hresult : result = .ok a := congrArg Prod.fst hrun
    have hafter : after = w₁ := congrArg Prod.snd hrun
    rw [hresult, hafter]
    rfl

/-- Where the work logs in the context that it is given, so do the start and the end. -/
theorem logged_operation (name function logger : String) {work : Work α} {w v : World}
    {entries : List LogEntry}
    (hv : v = { w with
      context := w.context.update { operation := some name }
      log := w.log ++
        [startEntry name function logger (w.context.update { operation := some name })] })
    (h : Logged v entries (work.run.run v).2) :
    let run := (operation name function logger work).run.run w
    Logged w (startEntry name function logger v.context :: entries ++
      endEntries name function logger v.context run.2.files.display run.1) run.2 := by
  subst hv
  have hlog := h.log
  have hcontext := h.context
  rw [run_operation]
  refine ⟨rfl, ?_⟩
  dsimp only at hlog hcontext ⊢
  rw [hlog, hcontext]
  simp

end Work

/-! ## What is logged -/

/-- The notes on a recipe, of which there are none if it cannot be read. -/
def FileSystem.notesOn (style : Style) (recipe base : Path) (fs : FileSystem) : List Note :=
  match fs.readTextWithin recipe base with
  | .ok content =>
    (Manifest.ofRecipe style (recipeClass style.settings recipe) recipe.text content).notes
  | .error _ => []

namespace Host

variable (host : Host) (style : Style)

/-- The entries for a recipe in the context of its cookbook: the notes on it, with the recipe in
their context, and the manifest if it is written. A recipe that the listener stops is not read. -/
def recipeLog (layout : Layout) (manifests : Path) (context : Context) (count : Nat)
    (fs : FileSystem) (recipe : Path) : List LogEntry :=
  match host.listener (.starting recipe) with
  | .error _ => []
  | .ok () =>
    noteEntries { context with recipe := some recipe.name }
        (fs.notesOn style recipe layout.cookbookPath) ++
      match host.outputOf count style layout manifests recipe fs with
      | .ok o => [wroteEntry context o.manifest]
      | .error _ => []

/-- The entries for recipes one after the other, up to the first that fails. -/
def recipesLog (layout : Layout) (manifests : Path) (context : Context) :
    Nat → FileSystem → List Path → List LogEntry
  | _, _, [] => []
  | count, fs, recipe :: rest =>
    host.recipeLog style layout manifests context count fs recipe ++
      match host.outputOf count style layout manifests recipe fs with
      | .ok o => recipesLog layout manifests context (count + 1) (fs.writeOutput o) rest
      | .error _ => []

/-- The entries for all recipes, once the directories are made. -/
def manifestsLog (layout : Layout) (context : Context) (count : Nat) (fs : FileSystem) :
    Except Fault (List LogEntry) := do
  let manifests ← fs.manifestsPath layout
  let recipes ← fs.recipes layout
  return host.recipesLog style layout manifests context count fs recipes

/-- The entries in the context of a cookbook. Making the directories logs nothing. -/
def cookbookLog (layout : Layout) (context : Context) (count : Nat) (fs : FileSystem) :
    Except Fault (List LogEntry) := do
  ((layout.makeDirectories style.settings).run.run { files := fs }).1
  host.manifestsLog style layout context count (layout.madeFiles style.settings fs)

/-- The entries of a conversion between its start and its end. There are none if it does not come to
its recipes. -/
def moduleLog (cookbook output : String) (context : Context) (count : Nat) (fs : FileSystem) :
    List LogEntry :=
  let entries : Except Fault (List LogEntry) := do
    let layout ← fs.plan cookbook output
    host.listener (.planned layout)
    host.cookbookLog style layout { context with cookbook := some layout.cookbookName } count fs
  entries.toOption.getD []

end Host

section Runs

variable {style : Style} {layout : Layout} {manifests : Path} {w : World}

/-- While a recipe is read and translated, its name is in the context. -/
theorem logged_ofFile (style : Style) (recipe base : Path) (w : World) :
    Logged w (noteEntries { w.context with recipe := some recipe.name }
        (w.files.notesOn style recipe base))
      ((Manifest.ofFile style recipe base).run.run w).2 := by
  unfold Manifest.ofFile notesOn
  rw [run_inContext, run_bind, run_look]
  cases w.files.readTextWithin recipe base with
  | error e => exact ⟨rfl, by simp [noteEntries]⟩
  | ok content =>
    dsimp only
    rw [run_noting]
    exact ⟨rfl, rfl⟩

/-- Once a recipe is translated, its name is in no context any more. -/
theorem logged_writeManifest (style : Style) (layout : Layout) (manifests recipe : Path)
    (w : World) :
    Logged w (w.host.recipeLog style layout manifests w.context w.manifests.length w.files recipe)
      ((layout.writeManifest style manifests recipe).run.run w).2 := by
  rw [Layout.writeManifest, run_bind, run_tell, Host.recipeLog, Host.outputOf]
  cases w.host.listener (.starting recipe) with
  | error fault => exact ⟨rfl, (List.append_nil _).symm⟩
  | ok =>
    have hnotes := logged_ofFile style recipe layout.cookbookPath
      { w with events := w.events ++ [.starting recipe] }
    obtain ⟨hfile, hsame⟩ := run_ofFile style recipe layout.cookbookPath
      { w with events := w.events ++ [.starting recipe] }
    rcases hrun : (Manifest.ofFile style recipe layout.cookbookPath).run.run
      { w with events := w.events ++ [.starting recipe] } with ⟨result, w₁⟩
    rw [hrun] at hfile hsame hnotes
    dsimp only at hfile hsame hnotes ⊢
    have hfiles : w₁.files = w.files := hsame.files
    have hmanifests : w₁.manifests = w.manifests := hsame.manifests
    have hhost : w₁.host = w.host := hsame.host
    have hlog : w₁.log = w.log ++ noteEntries { w.context with recipe := some recipe.name }
      (w.files.notesOn style recipe layout.cookbookPath) := hnotes.log
    have hcontext : w₁.context = w.context := hnotes.context
    have hstopped : Logged w (noteEntries { w.context with recipe := some recipe.name }
        (w.files.notesOn style recipe layout.cookbookPath) ++ []) w₁ := ⟨hcontext, by simp [hlog]⟩
    rw [run_bind, hrun, outputOf_eq_bind hfile]
    cases result with
    | error e => exact hstopped
    | ok converted =>
      simp only [run_bind, run_look, hfiles]
      simp only [bind, Except.bind]
      rw [← manifestName]
      cases w.files.join manifests [manifestName style.settings recipe] with
      | error e => exact hstopped
      | ok manifest =>
        simp only [run_write, hhost, hmanifests, run_change, writeTextWithin,
          writeBytesWithin_eq_map, hfiles]
        cases w.files.writePlaceWithin manifest layout.outputRoot with
        | error e => cases w.host.disk w.manifests.length <;> exact hstopped
        | ok place =>
          cases w.host.disk w.manifests.length with
          | some breakdown => exact ⟨hcontext, hstopped.log⟩
          | none =>
            refine ⟨hcontext, ?_⟩
            show w₁.log ++ [wroteEntry w₁.context manifest] = _
            rw [hlog, hcontext, List.append_assoc]
            rfl

/-- The log of recipes is put together from the logs of the single ones. -/
theorem logged_recipes (recipes : List Path) :
    Logged w (w.host.recipesLog style layout manifests w.context w.manifests.length w.files recipes)
      ((recipes.forM (layout.writeManifest style manifests)).run.run w).2 := by
  induction recipes generalizing w with
  | nil => exact .refl w
  | cons recipe rest ih =>
    rw [List.forM, run_bind, Host.recipesLog]
    have hfirst := logged_writeManifest style layout manifests recipe w
    have hstep := run_writeManifest style layout manifests recipe w
    cases houtput : w.host.outputOf w.manifests.length style layout manifests recipe w.files with
    | error stopped =>
      rw [houtput] at hstep
      obtain ⟨w₁, hrun, -⟩ := hstep
      rw [hrun] at hfirst ⊢
      simpa using hfirst
    | ok o =>
      rw [houtput] at hstep
      obtain ⟨w₁, hrun, hadvanced⟩ := hstep
      rw [hrun] at hfirst ⊢
      have hrest := ih (w := w₁)
      rw [hfirst.context, hadvanced.files, hadvanced.host, hadvanced.manifests,
        List.length_append] at hrest
      exact hfirst.trans hrest

theorem logged_writeManifests (style : Style) (layout : Layout) (w : World) :
    Logged w ((w.host.manifestsLog style layout w.context w.manifests.length
        w.files).toOption.getD [])
      ((layout.writeManifests style).run.run w).2 := by
  unfold Layout.writeManifests Host.manifestsLog
  simp only [run_bind, run_look]
  cases w.files.manifestsPath layout with
  | error e => exact .refl w
  | ok manifests =>
    dsimp only
    cases w.files.recipes layout with
    | error e => exact .refl w
    | ok recipes => exact logged_recipes recipes

theorem logged_inCookbook (style : Style) (layout : Layout) (w : World) :
    Logged w ((w.host.cookbookLog style layout w.context w.manifests.length
        w.files).toOption.getD [])
      ((do
        layout.makeDirectories style.settings
        layout.writeManifests style : Work Unit).run.run w).2 := by
  rw [run_bind, layout.onFiles_makeDirectories style.settings w, Host.cookbookLog]
  cases ((layout.makeDirectories style.settings).run.run { files := w.files }).1 with
  | error e => exact ⟨rfl, (List.append_nil _).symm⟩
  | ok u =>
    have hmade := logged_writeManifests style layout
      { w with files := layout.madeFiles style.settings w.files }
    exact ⟨hmade.context, hmade.log⟩

/-- Behind the plan all is logged with the cookbook in the context. -/
theorem logged_planned (style : Style) (layout : Layout) (w : World) :
    Logged w ((do
        w.host.listener (.planned layout)
        w.host.cookbookLog style layout { w.context with cookbook := some layout.cookbookName }
          w.manifests.length w.files : Except Fault (List LogEntry)).toOption.getD [])
      ((do
        Work.tell (.planned layout)
        Work.inContext { cookbook := some layout.cookbookName } do
          layout.makeDirectories style.settings
          layout.writeManifests style
        return { layout with manifests := (← get).manifests } : Work Layout).run.run w).2 := by
  rw [run_bind, run_tell]
  cases w.host.listener (.planned layout) with
  | error e => exact ⟨rfl, (List.append_nil _).symm⟩
  | ok u =>
    have hcookbook := logged_inContext { cookbook := some layout.cookbookName }
      (w := { w with events := w.events ++ [.planned layout] })
      (logged_inCookbook style layout _)
    dsimp only
    rw [run_bind]
    rcases hrun : (inContext { cookbook := some layout.cookbookName } do
      layout.makeDirectories style.settings
      layout.writeManifests style).run.run
        { w with events := w.events ++ [.planned layout] } with ⟨e | u, w₁⟩
    · rw [hrun] at hcookbook
      exact ⟨hcookbook.context, hcookbook.log⟩
    · rw [hrun] at hcookbook
      exact ⟨hcookbook.context, hcookbook.log⟩

theorem logged_plan (style : Style) (cookbook output : String) (w : World) :
    Logged w (w.host.moduleLog style cookbook output w.context w.manifests.length w.files)
      ((do
        let layout ← Work.look fun fs => fs.plan cookbook output
        Work.tell (.planned layout)
        Work.inContext { cookbook := some layout.cookbookName } do
          layout.makeDirectories style.settings
          layout.writeManifests style
        return { layout with manifests := (← get).manifests } : Work Layout).run.run w).2 := by
  rw [run_bind, run_look, Host.moduleLog]
  cases w.files.plan cookbook output with
  | error e => exact .refl w
  | ok layout => exact logged_planned style layout w

end Runs

/-! ## How messages start -/

/-- The message starts with none of the letters that the end of an operation is told with. -/
def Ongoing (message : String) : Prop :=
  message.toList.head?.any (fun c => c != 'C' && c != 'F') = true

theorem Ongoing.not_ends {e : LogEntry} (h : Ongoing e.message) (name : String) :
    e.ends name = false := by
  rw [Bool.eq_false_iff]
  intro hends
  simp only [LogEntry.ends, Bool.or_eq_true, beq_iff_eq, List.isPrefixOf_iff_prefix] at hends
  rcases hends with heq | ⟨more, heq⟩
  · rw [heq] at h
    simp [Ongoing, toString] at h
  · rw [Ongoing, ← heq] at h
    simp [toString] at h

namespace Noted

variable {α β : Type}

/-- No note tells that something has ended. -/
def IsOngoing (x : Noted α) : Prop :=
  ∀ n ∈ x.notes, Ongoing n.message

theorem IsOngoing.pure (a : α) : IsOngoing (Pure.pure a : Noted α) := by
  intro n hn
  cases hn

theorem IsOngoing.lift (r : Except Fault α) : IsOngoing (lift r) := by
  intro n hn
  cases hn

theorem IsOngoing.note {message : String} (level : Level) (channel : Channel)
    (h : Ongoing message) : IsOngoing (note level channel message) := by
  intro n hn
  obtain rfl := List.mem_singleton.1 hn
  exact h

theorem IsOngoing.bind {x : Noted α} {f : α → Noted β} (hx : x.IsOngoing)
    (hf : ∀ a, (f a).IsOngoing) : (x >>= f).IsOngoing := by
  intro n hn
  obtain ⟨notes, result⟩ := x
  cases result with
  | error e => exact hx n hn
  | ok a =>
    rcases List.mem_append.1 hn with hn | hn
    · exact hx n hn
    · exact hf a n hn

end Noted

section Notes

variable (style : Style)

theorem Property.isOngoing_guardStatement (p : Property) (resourceType name : String) :
    (p.guardStatement resourceType name).IsOngoing := by
  unfold guardStatement
  split
  · split
    · exact .bind (.note _ _ (by simp [Ongoing, toString])) fun _ => .pure _
    · exact .pure _
  · exact .bind (.lift _) fun _ => .pure _

theorem Property.isOngoing_ownStatements (p : Property) (resourceType : String) :
    (p.ownStatements style resourceType).IsOngoing := by
  unfold ownStatements
  split
  case h_10 =>
    split
    · exact p.isOngoing_guardStatement resourceType _
    · exact .lift _
  all_goals exact .lift _

theorem Property.isOngoing_statements (p : Property) (resourceType : String) :
    (p.statements style resourceType).IsOngoing := by
  refine .bind (p.isOngoing_ownStatements style resourceType) fun own => ?_
  split
  · exact .bind (.note _ _ (by simp [Ongoing, toString])) fun _ => .pure _
  · exact .pure _

theorem Resource.isOngoing_bodyStatements (r : Resource) (body : List Statement) :
    (r.bodyStatements style body).IsOngoing := by
  induction body with
  | nil => exact .pure _
  | cons s rest ih =>
    unfold bodyStatements
    split
    · exact .bind (Property.isOngoing_statements style _ r.type) fun _ => .bind ih fun _ => .pure _
    · refine .bind (.note _ _ (by simp [Ongoing, toString])) fun _ => ?_
      exact .bind (.pure _) fun _ => .bind ih fun _ => .pure _

theorem Statement.isOngoing_toManifest (source : String) (s : Statement) :
    (s.toManifest style source).IsOngoing := by
  unfold toManifest
  dsimp only
  split
  · exact .bind (.note _ _ (by simp [Ongoing, toString])) fun _ => .pure _
  · refine .bind (.note _ _ (by simp [Ongoing, toString])) fun _ => ?_
    split
    · exact .bind (.lift _) fun _ => .pure _
    · refine .bind (.bind (.lift _) fun _ => .bind ?_ fun _ => .pure _) fun _ => .pure _
      exact Resource.isOngoing_bodyStatements style _ _
  · exact .bind (.note _ _ (by simp [Ongoing, toString])) fun _ => .pure _

theorem Statement.isOngoing_allToManifest (source : String) (items : List Statement) :
    (allToManifest style source items).IsOngoing := by
  induction items with
  | nil => exact .pure _
  | cons s rest ih =>
    exact .bind (s.isOngoing_toManifest style source) fun _ => .bind ih fun _ => .pure _

theorem Section.isOngoing_blockToManifest (source : String) (text : List Char) (lines : LineMap) :
    (blockToManifest style source text lines).IsOngoing := by
  unfold blockToManifest
  split
  · refine .bind (.pure _) fun parsed => ?_
    have hitems := Statement.isOngoing_allToManifest style source parsed.statements
    dsimp only
    split
    · exact .bind (.note _ _ (by simp [Ongoing, toString])) fun _ => hitems
    · exact hitems
  · intro n hn
    cases hn

theorem Section.isOngoing_allToManifest (className source : String) (opened : Bool)
    (sections : List Section) :
    (allToManifest style className source opened sections).IsOngoing := by
  induction sections generalizing opened with
  | nil => exact .pure _
  | cons s rest ih =>
    cases s with
    | comment text line => exact .bind (ih opened) fun _ => .pure _
    | block text lines terminated =>
      refine .bind (isOngoing_blockToManifest style source text lines) fun _ => ?_
      exact .bind (ih true) fun _ => .pure _

/-- Notes on a recipe tell of what is being done. -/
theorem Manifest.isOngoing_ofRecipe (className source content : String) :
    (ofRecipe style className source content).IsOngoing :=
  .bind (Section.isOngoing_allToManifest style className source false _) fun _ => .pure _

end Notes

/-! ## The log of a run -/

section

variable {host : Host} {style : Style} {layout : Layout} {manifests : Path} {context : Context}
  {count : Nat} {fs : FileSystem} {e : LogEntry}

theorem ongoing_of_mem_noteEntries {notes : List Note} (h : ∀ n ∈ notes, Ongoing n.message)
    (he : e ∈ noteEntries context notes) : Ongoing e.message := by
  obtain ⟨n, hn, rfl⟩ := List.mem_map.1 he
  exact h n hn

theorem ongoing_of_mem_recipeLog {recipe : Path}
    (he : e ∈ host.recipeLog style layout manifests context count fs recipe) :
    Ongoing e.message := by
  rw [Host.recipeLog] at he
  split at he
  · cases he
  · rcases List.mem_append.1 he with he | he
    · refine ongoing_of_mem_noteEntries ?_ he
      unfold notesOn
      split
      · exact Manifest.isOngoing_ofRecipe style _ _ _
      · simp
    · split at he
      · obtain rfl := List.mem_singleton.1 he
        simp [wroteEntry, Ongoing, toString]
      · cases he

theorem ongoing_of_mem_recipesLog {recipes : List Path}
    (he : e ∈ host.recipesLog style layout manifests context count fs recipes) :
    Ongoing e.message := by
  induction recipes generalizing fs count with
  | nil => cases he
  | cons recipe rest ih =>
    rw [Host.recipesLog] at he
    rcases List.mem_append.1 he with he | he
    · exact ongoing_of_mem_recipeLog he
    · split at he
      · exact ih he
      · cases he

theorem ongoing_of_mem_moduleLog {cookbook output : String}
    (he : e ∈ host.moduleLog style cookbook output context count fs) : Ongoing e.message := by
  unfold Host.moduleLog at he
  generalize hentries : (do
    let layout ← fs.plan cookbook output
    host.listener (.planned layout)
    host.cookbookLog style layout { context with cookbook := some layout.cookbookName } count fs :
    Except Fault (List LogEntry)) = entries at he
  cases entries with
  | error f => cases he
  | ok entries =>
    simp only [Host.cookbookLog, Host.manifestsLog, bind_eq_ok_iff, pure_eq_ok_iff] at hentries
    obtain ⟨_, -, _, -, _, -, _, -, _, -, rfl⟩ := hentries
    exact ongoing_of_mem_recipesLog he

/-- The end is told once, unless it is the end of the whole program. -/
theorem length_endEntries {α : Type} (name function logger : String) (context : Context)
    (display : String → String) (result : Except Fault α) :
    (endEntries name function logger context display result).length =
      if Work.isExit result then 0 else 1 := by
  cases result with
  | ok a => rfl
  | error f => cases f <;> rfl

theorem ends_of_mem_endEntries {α : Type} {name function logger : String} {context : Context}
    {display : String → String} {result : Except Fault α}
    (he : e ∈ endEntries name function logger context display result) : e.ends name = true := by
  cases result with
  | ok a =>
    obtain rfl := List.mem_singleton.1 he
    simp [LogEntry.ends]
  | error f =>
    cases f with
    | exit code | interrupt => cases he
    | _ =>
      obtain rfl := List.mem_singleton.1 he
      simp [LogEntry.ends]

end

/-- The log of a conversion: its start, what is logged between, and its end. -/
theorem logged_makeModule (style : Style) (cookbook output : String) (w : World) :
    let inside : Context := { w.context with operation := some "convert_cookbook" }
    let run := (makeModule style cookbook output).run.run w
    Logged w (startEntry "convert_cookbook" "convert_cookbook" Channel.module.name inside ::
        w.host.moduleLog style cookbook output inside w.manifests.length w.files ++
      endEntries "convert_cookbook" "convert_cookbook" Channel.module.name inside
        run.2.files.display run.1) run.2 :=
  logged_operation _ _ _ rfl (logged_plan style cookbook output _)

/-- After a conversion the context is the one before, whether the conversion returns or fails, be it
on a call of the listener. Its log starts and ends in the context of the operation alone. Between
the two, what is noted on a recipe has the cookbook and the recipe in its context, and a manifest is
logged with the cookbook in it. The end is told once, in the last entry, unless the whole program is
to end: then it is not told. -/
theorem conversion_contexts (style : Style) (cookbook output : String) (w : World) :
    let inside : Context := { w.context with operation := some "convert_cookbook" }
    let run := (makeModule style cookbook output).run.run w
    let entries := startEntry "convert_cookbook" "convert_cookbook" Channel.module.name inside ::
      w.host.moduleLog style cookbook output inside w.manifests.length w.files
    let ending := endEntries "convert_cookbook" "convert_cookbook" Channel.module.name inside
      run.2.files.display run.1
    run.2.context = w.context ∧
      run.2.log = w.log ++ (entries ++ ending) ∧
      (entries ++ ending).filter (·.ends "convert_cookbook") = ending ∧
      ending.length = if Work.isExit run.1 then 0 else 1 := by
  intro inside run entries ending
  have hrun : Logged w (entries ++ ending) run.2 := logged_makeModule style cookbook output w
  refine ⟨hrun.context, hrun.log, ?_, length_endEntries _ _ _ _ _ _⟩
  have hongoing : ∀ e ∈ entries, ¬ e.ends "convert_cookbook" = true := by
    intro e he
    rw [Bool.not_eq_true]
    apply Ongoing.not_ends
    rcases List.mem_cons.1 he with rfl | he
    · simp [startEntry, Ongoing, toString]
    · exact ongoing_of_mem_moduleLog he
  rw [List.filter_append, List.filter_eq_nil_iff.2 hongoing, List.nil_append,
    List.filter_eq_self.2 fun _ => ends_of_mem_endEntries]

/-! ## Ends that are not told -/

/-- A recipe that becomes an output is logged with its notes and its manifest. -/
theorem Host.recipesLog_cons {host : Host} {style : Style} {layout : Layout} {manifests : Path}
    {count : Nat} {fs : FileSystem} {recipe : Path} {o : RecipeOutput}
    (h : host.outputOf count style layout manifests recipe fs = .ok o) (context : Context)
    (rest : List Path) :
    host.recipesLog style layout manifests context count fs (recipe :: rest) =
      noteEntries { context with recipe := some recipe.name }
          (fs.notesOn style recipe layout.cookbookPath) ++
        wroteEntry context o.manifest ::
          host.recipesLog style layout manifests context (count + 1) (fs.writeOutput o) rest := by
  obtain ⟨hlistener, -, -⟩ := Host.outputOf_eq_ok_iff.1 h
  rw [Host.recipesLog, Host.recipeLog, hlistener, h]
  simp

theorem notesOn_twin {fs : FileSystem} (hlinks : fs.LinksAt []) {name : String} (content : String)
    (hrecipe : fs.Direct ["cb", "recipes", name])
    (hholds : fs.tree.holds ["cb", "recipes"] name (some (Text.encodeUtf8 content)) = true)
    (hcontent : (Text.decodeUtf8 (Text.encodeUtf8 content)).map
      (fun chars => String.ofList (Text.withNewlines chars)) = .ok content)
    (hnotes : ∀ className source, (Manifest.ofRecipe {} className source content).notes = []) :
    fs.notesOn {} (Location.path ["cb", "recipes", name]) twinLayout.cookbookPath = [] := by
  have hread : fs.readTextWithin (Location.path ["cb", "recipes", name]) (Location.path ["cb"]) =
      .ok content :=
    readTextWithin_of_holds (hlinks.direct (by decide)) hrecipe.normalize (by simp) hholds
      hcontent
  simp only [notesOn, twinLayout, hread, hnotes]

/-- Both recipes are translated without a note. -/
theorem recipesLog_twins (context : Context) :
    ({} : Host).recipesLog {} twinLayout (Location.path ["out", "w", "manifests"]) context 0
        (twins madeDirectories) twinRecipes =
      [wroteEntry context (Location.path twinManifest),
        wroteEntry context (Location.path twinManifest)] := by
  have hlinks := linksAt_madeDirectories
  have hlinks' : (twins (madeManifest "# one\n")).LinksAt [] := linksAt_of_all (by decide)
  have hput : (twins madeDirectories).writeOutput (twinOutput "# one\n") =
      twins (madeManifest "# one\n") := rfl
  have hprocessed := processed_twins
  rw [twinRecipes] at hprocessed ⊢
  obtain - | ⟨hfirst, - | ⟨hsecond, -⟩⟩ := hprocessed
  rw [Host.recipesLog_cons (Host.outputOf_eq_ok_iff.2 ⟨rfl, hfirst, rfl⟩),
    Host.recipesLog_cons (Host.outputOf_eq_ok_iff.2 ⟨rfl, hsecond, rfl⟩), hput,
    notesOn_twin hlinks "# one" (hlinks.direct (by decide)) (by with_unfolding_all rfl)
      (by with_unfolding_all rfl) fun _ _ => rfl,
    notesOn_twin hlinks' "# two" (hlinks'.direct (by decide)) (by with_unfolding_all rfl)
      (by with_unfolding_all rfl) fun _ _ => rfl]
  rfl

theorem moduleLog_twins (context : Context) :
    ({} : Host).moduleLog {} "/cb" "/out" context 0 (twins []) =
      [wroteEntry { context with cookbook := some "w" } (Location.path twinManifest),
        wroteEntry { context with cookbook := some "w" } (Location.path twinManifest)] := by
  have hmade : twinLayout.madeFiles {} (twins []) = twins madeDirectories :=
    congrArg (fun made => made.2.files) makeDirectories_twins
  have hdirectories : ((twinLayout.makeDirectories {}).run.run { files := twins [] }).1 = .ok () :=
    congrArg Prod.fst makeDirectories_twins
  rw [Host.moduleLog, plan_twins]
  show ((do
    ((twinLayout.makeDirectories {}).run.run { files := twins [] }).1
    ({} : Host).manifestsLog {} twinLayout { context with cookbook := some "w" } 0
      (twinLayout.madeFiles {} (twins [])) : Except Fault (List LogEntry)).toOption.getD []) = _
  rw [hdirectories, hmade]
  show ((({} : Host).manifestsLog {} twinLayout { context with cookbook := some "w" } 0
    (twins madeDirectories)).toOption.getD []) = _
  rw [Host.manifestsLog, manifestsPath_twins, recipes_twins]
  exact recipesLog_twins _

/-- A host whose listener ends the whole program. -/
def exitingHost : Host where
  listener := fun _ => .error (.exit 0)

theorem makeModule_exiting :
    ((makeModule {} "/cb" "/out").run.run { files := twins [], host := exitingHost }).1 =
      .error (.exit 0) := by
  obtain ⟨w₀, hw₀, hresult, -⟩ := wraps_operation "convert_cookbook" "convert_cookbook"
    Channel.module.name _ { files := twins [], host := exitingHost }
  refine hresult.trans ?_
  rw [run_bind, run_look, hw₀.files, plan_twins]
  dsimp only
  rw [run_bind, run_tell, hw₀.host]
  rfl

/-- The command converts the cookbook. -/
theorem run_twins (time : Timestamp) : Command.run (twins []) time ["-c", "/cb", "-o", "/out"] =
    Command.convert (twins []) time "/cb" "/out" := by
  have hgiven : Command.Given.read ["-c", "/cb", "-o", "/out"] =
      .ok ⟨[(.cookbook, "/cb"), (.output, "/out")], []⟩ := by decide +kernel
  have hrequest : Command.Given.request? ⟨[(.cookbook, "/cb"), (.output, "/out")], []⟩ = none := by
    decide
  have harguments : Command.checkArguments (twins [])
      ⟨[(.cookbook, "/cb"), (.output, "/out")], []⟩ = .ok ("/cb", "/out") := by cbv
  simp only [Command.run, hgiven, hrequest, harguments]

theorem LogSetup.text_eq_empty {setup : LogSetup} {entries : List LogEntry}
    (h : ∀ e ∈ entries, setup.lets e = false) (time : Timestamp) :
    setup.text time entries = "" := by
  induction entries with
  | nil => rfl
  | cons e rest ih =>
    rw [List.forall_mem_cons] at h
    have hrest := ih h.2
    rw [LogSetup.text] at hrest
    simp [LogSetup.text, LogSetup.written, h.1, String.join_cons, hrest]

/-- Two conversions of which no end is told: one is left because the whole program is to end, and
the other returns, but the command shows nothing of its log. -/
theorem conversion_end_untold :
    (∃ after, (makeModule {} "/cb" "/out").run.run { files := twins [], host := exitingHost } =
        (.error (.exit 0), after) ∧
      ∀ e ∈ after.log, e.ends "convert_cookbook" = false) ∧
    ∀ time, (Command.run (twins []) time ["-c", "/cb", "-o", "/out"]).result = .ok 0 ∧
      (Command.run (twins []) time ["-c", "/cb", "-o", "/out"]).errors = "" := by
  refine ⟨?_, fun time => ?_⟩
  · have hlog := (logged_makeModule {} "/cb" "/out"
      { files := twins [], host := exitingHost }).log
    dsimp only at hlog
    rw [makeModule_exiting, Host.moduleLog, plan_twins] at hlog
    refine ⟨_, Prod.ext makeModule_exiting rfl, ?_⟩
    rw [hlog]
    intro e he
    obtain rfl : e = _ := List.mem_singleton.1 he
    decide
  · obtain ⟨after, hrun, -⟩ := makeModule_twins
    have hlogged := logged_makeModule {} "/cb" "/out" { files := twins [] }
    rw [hrun] at hlogged
    have hlog := hlogged.log
    dsimp only at hlog
    rw [List.length_nil, moduleLog_twins] at hlog
    rw [run_twins, Command.convert, hrun]
    refine ⟨rfl, LogSetup.text_eq_empty ?_ time⟩
    rw [hlog]
    simp [startEntry, wroteEntry, endEntries, LogSetup.lets, Command.logSetup, Level.weight]

end RecipeManifest

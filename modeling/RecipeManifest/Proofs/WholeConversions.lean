import RecipeManifest.Proofs.ManifestSteps
import RecipeManifest.Proofs.RecipeFiles

/-!
The steps of a whole conversion.

A conversion that succeeds is planned, makes its directories, and writes its manifests
(`Converted`), on a host that lets all of this pass (`Host.Carries`). Both ways: what a run has done
(`converted_of_run`), and that the steps make a run (`Converted.run`). The last part is about
cookbooks that are reached by their names alone, whose steps can be evaluated one by one.
-/

namespace RecipeManifest

open Work FileSystem

variable {style : Style} {layout : Layout} {fs : FileSystem}

/-- What is left to do of a conversion once the layout is planned. -/
def Layout.convert (layout : Layout) (style : Style) : Work Layout := do
  Work.tell (.planned layout)
  inContext { cookbook := some layout.cookbookName } do
    layout.makeDirectories style.settings
    layout.writeManifests style
  return { layout with manifests := (← get).manifests }

theorem wraps_makeModule (style : Style) (cookbook output : String) :
    Wraps (makeModule style cookbook output)
      (look (fun fs => fs.plan cookbook output) >>= fun layout => layout.convert style) :=
  wraps_operation _ _ _ _

/-- The output root is the given one, and the module is in it. -/
theorem plan_output {fs : FileSystem} {cookbook output : String} {layout : Layout}
    (h : fs.plan cookbook output = .ok layout) :
    fs.normalizeText output = .ok layout.outputRoot ∧
      fs.join layout.outputRoot [layout.cookbookName] = .ok layout.outputPath := by
  simp only [FileSystem.plan, bind_eq_ok_iff, mapError_eq_ok_iff] at h
  obtain ⟨_, _, _, _, _, _, name, _, outputRoot, houtput, _, _, outputPath, hpath, h⟩ := h
  cases h
  exact ⟨houtput, hpath⟩

/-- A conversion whose layout cannot be planned does nothing. -/
theorem makeModule_of_plan_error (style : Style) {cookbook output : String} {w : World}
    {fault : Fault} (hplan : w.files.plan cookbook output = .error fault) :
    ∃ w', (makeModule style cookbook output).run.run w = (.error fault, w') ∧ Alike w w' := by
  obtain ⟨w₀, hw₀, hresult, hafter⟩ := wraps_makeModule style cookbook output w
  rw [run_bind, run_look, hw₀.files, hplan] at hresult hafter
  refine ⟨((makeModule style cookbook output).run.run w).2, Prod.ext hresult rfl, ?_⟩
  exact hw₀.trans hafter

/-- The files once the directories of the module are made. -/
def Layout.madeFiles (settings : Settings) (layout : Layout) (fs : FileSystem) : FileSystem :=
  ((layout.makeDirectories settings).run.run { files := fs }).2.files

theorem Layout.onFiles_makeDirectories (settings : Settings) (layout : Layout) :
    OnFiles (layout.makeDirectories settings) := by
  refine .bind (.attempt _) fun _ => .forM (fun directory => ?_) _
  exact .bind (.look _) fun _ => .attempt _

/-- The steps of a conversion that succeeds, once its layout is planned. -/
structure Converted (style : Style) (layout : Layout) (fs made : FileSystem) (recipes : List Path)
    (outputs : List RecipeOutput) : Prop where
  directories : (layout.makeDirectories style.settings).run.run { files := fs } =
    (.ok (), { files := made })
  found : made.recipes layout = .ok recipes
  manifests : ∃ manifests, made.manifestsPath layout = .ok manifests ∧
    Processed style layout manifests made recipes outputs

/-- The host lets a whole conversion pass. -/
structure Host.Carries (host : Host) (layout : Layout) (recipes : List Path) : Prop
    extends host.Admits 0 recipes where
  planned : host.listener (.planned layout) = .ok ()

theorem Host.carries_default (layout : Layout) (recipes : List Path) :
    ({} : Host).Carries layout recipes :=
  ⟨Host.admits_default 0 recipes, rfl⟩

/-- A conversion that succeeds is planned, makes its directories, and then writes its manifests. -/
theorem makeModule_steps {cookbook output : String} {fs : FileSystem} {host : Host} {after : World}
    (h : (makeModule style cookbook output).run.run { files := fs, host := host } =
      (.ok layout, after)) :
    ∃ planned w₁ w₂, fs.plan cookbook output = .ok planned ∧
      layout = { planned with manifests := after.manifests } ∧
      host.listener (.planned planned) = .ok () ∧
      (planned.makeDirectories style.settings).run.run { files := fs } =
        (.ok (), { files := w₁.files }) ∧
      w₁.manifests = [] ∧ w₁.host = host ∧
      (planned.writeManifests style).run.run w₁ = (.ok (), w₂) ∧ Alike w₂ after := by
  obtain ⟨w₀, w₃, hw₀, hinner, hw₃⟩ := (wraps_makeModule style cookbook output).run_eq_ok h
  obtain ⟨planned, w₄, hplan, hconvert⟩ := run_bind_eq_ok hinner
  rw [run_look, Prod.mk.injEq, hw₀.files] at hplan
  obtain ⟨hplan, rfl⟩ := hplan
  obtain ⟨⟨⟩, w₅, htell, hconvert⟩ := run_bind_eq_ok hconvert
  rw [run_tell, Prod.mk.injEq, hw₀.host] at htell
  obtain ⟨hlistener, rfl⟩ := htell
  obtain ⟨⟨⟩, w₆, hcontext, hreturn⟩ := run_bind_eq_ok hconvert
  cases hreturn
  obtain ⟨w₇, w₈, hw₇, hwork, hw₈⟩ := (wraps_inContext _ _).run_eq_ok hcontext
  obtain ⟨⟨⟩, w₁, hmake, hwrite⟩ := run_bind_eq_ok hwork
  have hfiles : w₇.files = fs := hw₇.files.trans hw₀.files
  have honFiles := planned.onFiles_makeDirectories style.settings
  rw [honFiles w₇, Prod.mk.injEq, hfiles] at hmake
  obtain ⟨hmade, rfl⟩ := hmake
  refine ⟨planned, _, w₈, hplan, by rw [hw₃.manifests], hlistener, ?_, ?_, ?_, hwrite,
    hw₈.trans hw₃⟩
  · rw [honFiles { files := fs }, hmade]
  · exact hw₇.manifests.trans hw₀.manifests
  · exact hw₇.host

theorem makeModule_eq_ok {cookbook output : String} {fs : FileSystem} {host : Host} {after : World}
    (h : (makeModule style cookbook output).run.run { files := fs, host := host } =
      (.ok layout, after)) :
    (∃ planned, fs.plan cookbook output = .ok planned ∧
      layout = { planned with manifests := after.manifests }) ∧
    ∃ w₁ w₂, w₁.files = layout.madeFiles style.settings fs ∧ w₁.manifests = [] ∧
      (layout.writeManifests style).run.run w₁ = (.ok (), w₂) ∧ Alike w₂ after := by
  obtain ⟨planned, w₁, w₂, hplan, rfl, -, hmake, hempty, -, hwrite, hw₂⟩ := makeModule_steps h
  refine ⟨⟨planned, hplan, rfl⟩, w₁, w₂, ?_, hempty, hwrite, hw₂⟩
  show _ = planned.madeFiles style.settings fs
  rw [Layout.madeFiles, hmake]

theorem Converted.run {cookbook output : String} {fs made : FileSystem} {recipes : List Path}
    {outputs : List RecipeOutput} {host : Host} (hplan : fs.plan cookbook output = .ok layout)
    (h : Converted style layout fs made recipes outputs) (hhost : host.Carries layout recipes) :
    ∃ after, (makeModule style cookbook output).run.run { files := fs, host := host } =
        (.ok { layout with manifests := outputs.map (·.manifest) }, after) ∧
      after.files = outputs.foldl writeOutput made ∧
      after.manifests = outputs.map (·.manifest) := by
  obtain ⟨hmake, hrecipes, manifests, hmanifests, hprocessed⟩ := h
  refine (wraps_makeModule style cookbook output).exists_run fun w₀ hw₀ => ?_
  have hwork : ∀ w₁, Alike { w₀ with events := w₀.events ++ [.planned layout] } w₁ →
      ∃ w₂, (layout.makeDirectories style.settings >>= fun _ =>
        layout.writeManifests style).run.run w₁ = (.ok (), w₂) ∧
      w₂.files = outputs.foldl writeOutput made ∧ w₂.manifests = outputs.map (·.manifest) := by
    intro w₁ hw₁
    have hfiles : w₁.files = fs := hw₁.files.trans hw₀.files
    have hempty : w₁.manifests = [] := hw₁.manifests.trans hw₀.manifests
    have hmake₁ : (layout.makeDirectories style.settings).run.run w₁ =
        (.ok (), { w₁ with files := made }) := by
      rw [layout.onFiles_makeDirectories style.settings w₁, hfiles, hmake]
    have hadmits : w₁.host.Admits w₁.manifests.length recipes := by
      rw [hempty, hw₁.host, hw₀.host]
      exact hhost.toAdmits
    obtain ⟨w₂, hrun, hadvanced⟩ := Processed.writeManifests (w := { w₁ with files := made })
      hmanifests hrecipes hprocessed hadmits
    refine ⟨w₂, ?_, hadvanced.files, ?_⟩
    · rw [run_bind, hmake₁]
      exact hrun
    · rw [hadvanced.manifests]
      simp [hempty]
  obtain ⟨w₃, hrun, hw₃, hlist⟩ :=
    (wraps_inContext { cookbook := some layout.cookbookName } _).exists_run hwork
  have hplan : w₀.files.plan cookbook output = .ok layout := by
    rw [hw₀.files]
    exact hplan
  have hlistener : w₀.host.listener (.planned layout) = .ok () := by
    rw [hw₀.host]
    exact hhost.planned
  refine ⟨w₃, ?_, hw₃, hlist⟩
  simp only [run_bind, run_look, hplan, Layout.convert, run_tell, hlistener, hrun, run_get,
    run_pure, hlist]

/-! ## Conversions of plain cookbooks -/

namespace FileTree

variable {t : FileTree} {l : Location} {name : String}

/-- The names of a place are plain, and the system takes them. -/
def isUsable (l : Location) : Bool :=
  l.isPlain && l.all (fun name => decide (name.utf8ByteSize ≤ longestName)) &&
    !(Location.path l).isTooLong

/-- Directories can be made on the way to a place. -/
def isOpen (t : FileTree) (l : Location) : Bool :=
  isUsable l && l.inits.all fun q => t.entry? q = none || t.entry? q = some .directory

/-- A file can be written at a place. -/
def takesFile (t : FileTree) (l : Location) (name : String) : Bool :=
  isUsable (l ++ [name]) && l.inits.all (fun q => t.entry? q = some .directory) &&
    match t.entry? (l ++ [name]) with
    | none | some (.file _) => true
    | _ => false

/-- This is what is at a place: a file with its bytes, or nothing. -/
def holds (t : FileTree) (l : Location) (name : String) (bytes : Option (List UInt8)) : Bool :=
  isUsable (l ++ [name]) && l.inits.all (fun q => t.entry? q = some .directory) &&
    t.entry? (l ++ [name]) = bytes.map .file

/-- A directory is at a place. -/
def hasDirectory (t : FileTree) (l : Location) : Bool :=
  isUsable l && l.inits.all fun q => t.entry? q = some .directory

/-- These are the names in a directory, and they stand in the tree in order. -/
def lists (t : FileTree) (l : Location) (names : List String) : Bool :=
  t.hasDirectory l && decide (names.Pairwise (· ≤ ·)) &&
    t.entries.filterMap (fun x => if x.1.parent = l then x.1.getLast? else none) == names

theorem isUsable_iff : isUsable l = true ↔ l.isPlain = true ∧ Usable l := by
  simp only [isUsable, Bool.and_eq_true, List.all_eq_true, decide_eq_true_eq, Bool.not_eq_true',
    and_assoc]
  refine and_congr_right fun hplain => ?_
  have hproper := (Location.isPlain_iff.1 hplain).1
  exact ⟨fun h => ⟨hproper, h.1, h.2⟩, fun h => ⟨h.short, h.notTooLong⟩⟩

theorem isOpen_iff : t.isOpen l = true ↔ l.isPlain = true ∧ t.Open l := by
  simp only [isOpen, Bool.and_eq_true, isUsable_iff, List.all_eq_true, decide_eq_true_eq,
    Bool.or_eq_true, List.mem_inits, and_assoc]
  exact and_congr_right fun _ => ⟨fun h => ⟨h.1, h.2⟩, fun h => ⟨h.toUsable, h.way⟩⟩

theorem hasDirectory_iff :
    t.hasDirectory l = true ↔ l.isPlain = true ∧ Usable l ∧ t.Paved l := by
  simp only [hasDirectory, Bool.and_eq_true, isUsable_iff, List.all_eq_true, decide_eq_true_eq,
    List.mem_inits, and_assoc]
  rfl

theorem reach_of_hasDirectory (h : t.hasDirectory l = true) :
    t.reach false (Location.path l) = .ok l := by
  obtain ⟨-, husable, hpaved⟩ := hasDirectory_iff.1 h
  exact Open.reach_of_paved ⟨husable, fun q hq => .inr (hpaved q hq)⟩ hpaved

theorem entryAt_of_hasDirectory (h : t.hasDirectory l = true) :
    t.entryAt (Location.path l) = .ok .directory := by
  obtain ⟨-, husable, hpaved⟩ := hasDirectory_iff.1 h
  have hreach := reach_of_hasDirectory h
  rw [FileTree.reach, husable.notTooLong, if_neg (by simp)] at hreach
  rw [entryAt, husable.notTooLong, if_neg (by simp), status, hreach]
  simp only [bind, Except.bind, hpaved l (List.prefix_refl l)]

theorem list_of_lists {names : List String} (h : t.lists l names = true) :
    t.list (Location.path l) = .ok names := by
  simp only [lists, Bool.and_eq_true, decide_eq_true_eq, beq_iff_eq] at h
  obtain ⟨⟨hdirectory, hsorted⟩, hnames⟩ := h
  obtain ⟨-, -, hpaved⟩ := hasDirectory_iff.1 hdirectory
  have hsame : t.names l = names := by
    refine (congrArg (List.mergeSort · fun a b => decide (a ≤ b)) hnames).trans ?_
    exact List.mergeSort_of_pairwise (by simpa using hsorted)
  rw [list, reach_of_hasDirectory hdirectory]
  simp [bind, Except.bind, isDirectory, hpaved l (List.prefix_refl l), hsame]

theorem writePlace_of_takesFile (h : t.takesFile l name = true) :
    t.writePlace (Location.path (l ++ [name])) = .ok (l ++ [name]) := by
  simp only [takesFile, Bool.and_eq_true, isUsable_iff, List.all_eq_true, decide_eq_true_eq,
    List.mem_inits] at h
  obtain ⟨⟨⟨-, husable⟩, hpaved⟩, hentry⟩ := h
  refine Paved.writePlace hpaved husable ?_
  split at hentry
  · next hnone => exact .inl hnone
  · next bytes hfile => exact .inr ⟨bytes, hfile⟩
  · cases hentry

theorem entryAt_of_holds {bytes : List UInt8} (h : t.holds l name (some bytes) = true) :
    t.entryAt (Location.path (l ++ [name])) = .ok (.file bytes) := by
  simp only [holds, Bool.and_eq_true, isUsable_iff, List.all_eq_true, decide_eq_true_eq,
    List.mem_inits] at h
  obtain ⟨⟨⟨-, husable⟩, hpaved⟩, hentry⟩ := h
  exact Paved.entryAt hpaved husable hentry (by simp)

theorem entryAt_of_holds_none (h : t.holds l name none = true) :
    t.entryAt (Location.path (l ++ [name])) = .error .noEntry := by
  simp only [holds, Bool.and_eq_true, isUsable_iff, List.all_eq_true, decide_eq_true_eq,
    List.mem_inits] at h
  obtain ⟨⟨⟨-, husable⟩, hpaved⟩, hentry⟩ := h
  exact Paved.entryAt_missing hpaved husable hentry

theorem leadsToFile_of_holds {bytes : Option (List UInt8)} (h : t.holds l name bytes = true) :
    t.leadsToFile (Location.path (l ++ [name])) = .ok bytes.isSome := by
  cases bytes with
  | some bytes =>
    rw [leadsToFile, entryAt_of_holds h]
    rfl
  | none =>
    rw [leadsToFile, entryAt_of_holds_none h]
    rfl

end FileTree

/-- The text of a file that a path means. -/
theorem readTextWithin_of_holds {p : Path} {b l : Location} {name text : String} (h : fs.Direct b)
    (hp : fs.normalize p = .ok (Location.path (l ++ [name]))) (hin : b <+: l ++ [name])
    (hfile : fs.tree.holds l name (some (Text.encodeUtf8 text)) = true)
    (htext : (Text.decodeUtf8 (Text.encodeUtf8 text)).map
      (fun chars => String.ofList (Text.withNewlines chars)) = .ok text) :
    fs.readTextWithin p (Location.path b) = .ok text := by
  obtain ⟨chars, hdecode, htext⟩ := map_eq_ok_iff.1 htext
  exact h.readTextWithin hp hin (FileTree.readFile_eq_ok (FileTree.entryAt_of_holds hfile)) hdecode
    htext

/-- All names in the directory are recipes if they mean files of the cookbook. -/
theorem recipes_of_direct {c l : Location} (names : List String)
    (hcookbook : layout.cookbookPath = Location.path c)
    (hrecipes : layout.recipesPath = Location.path l) (h : fs.Direct l) (hin : c <+: l)
    (hlist : fs.tree.lists l names = true)
    (hnames : ∀ name ∈ names, ∃ front last bytes, c <+: front ++ [last] ∧
      fs.normalize (Location.path (l ++ [name])) = .ok (Location.path (front ++ [last])) ∧
      fs.tree.holds front last (some bytes) = true) :
    fs.recipes layout = .ok (names.map fun name => Location.path (l ++ [name])) := by
  have hplaces := h.listWithin hin (FileTree.list_of_lists hlist) fun name hname => by
    obtain ⟨front, last, _, hm, hplace, -⟩ := hnames name hname
    exact ⟨front ++ [last], hm, hplace⟩
  have hfiles : ∀ some ⊆ names,
      fs.filesAmong (Location.path c) (some.map fun name => Location.path (l ++ [name])) =
        .ok (some.map fun name => Location.path (l ++ [name])) := by
    intro some hsome
    induction some with
    | nil => rfl
    | cons name rest ih =>
      obtain ⟨hname, hrest⟩ := List.cons_subset.1 hsome
      obtain ⟨front, last, _, hm, hplace, hholds⟩ := hnames name hname
      have hfile := (h.of_isPrefix hin).isFileWithin hplace hm
        (FileTree.leadsToFile_of_holds hholds)
      simp only [List.map_cons, filesAmong, hfile, ih hrest, bind, Except.bind]
      rfl
  rw [recipes, hcookbook, hrecipes, hplaces]
  exact hfiles names (List.Subset.refl names)

theorem found?_of_entryAt {l : Location} {e : Entry} (hl : l.isPlain = true)
    (h : fs.tree.entryAt (Location.path l) = .ok e) :
    fs.found? (Location.path l) = .ok (some e) := by
  obtain ⟨-, -, hnull⟩ := Location.isPlain_iff.1 hl
  have hstatus : fs.status (Location.path l) = .ok e := h
  rw [found?, if_neg (by simpa [Location.path] using hnull), hstatus]

theorem found?_of_missing {l : Location} (hl : l.isPlain = true)
    (h : fs.tree.entryAt (Location.path l) = .error .noEntry) :
    fs.found? (Location.path l) = .ok none := by
  obtain ⟨-, -, hnull⟩ := Location.isPlain_iff.1 hl
  have hstatus : fs.status (Location.path l) = .error .noEntry := h
  rw [found?, if_neg (by simpa [Location.path] using hnull), hstatus]

theorem requireDirectory_of_hasDirectory {l : Location} {path : String} (kind : String)
    (hpath : Path.ofString path = Location.path l) (h : fs.tree.hasDirectory l = true) :
    fs.requireDirectory path kind = .ok (Path.ofString path) := by
  obtain ⟨hplain, -⟩ := FileTree.hasDirectory_iff.1 h
  have hfound := found?_of_entryAt hplain (FileTree.entryAt_of_hasDirectory h)
  simp only [requireDirectory, hpath, hfound, bind, Except.bind]
  rfl

/-- A text without null characters means what its path means. -/
theorem normalizeText_of_normalize {text : String} {p q : Path}
    (hnull : text.contains '\x00' = false) (hpath : Path.ofString text = p)
    (h : fs.normalize p = .ok q) : fs.normalizeText text = .ok q := by
  rw [normalizeText, hnull, hpath, h]
  rfl

/-- A cookbook with recipes and with a script as its only metadata, whose text gives it a name.
Links are at these places alone, none of which is on the way. -/
def FileSystem.isScripted (fs : FileSystem) (links : List Location) (c : Location)
    (text name : String) : Bool :=
  ([c ++ [metadataJson], c ++ [metadataScript], c ++ [recipesDirectory]].all fun l =>
    l.isPlain && links.all fun q => !q.isPrefixOf l) &&
  fs.tree.hasDirectory c && fs.tree.hasDirectory (c ++ [recipesDirectory]) &&
  fs.tree.holds c metadataJson none &&
  fs.tree.holds c metadataScript (some (Text.encodeUtf8 text)) &&
  (Text.decodeUtf8 (Text.encodeUtf8 text)).map
    (fun chars => String.ofList (Text.withNewlines chars)) = .ok text &&
  String.ofList (Text.trim ((Metadata.scriptName? text).getD "").toList) = name && name ≠ ""

section Scripted

variable {links : List Location} {c : Location} {text name cookbook : String}

theorem requireCookbook_of_isScripted (h : fs.isScripted links c text name = true)
    (hcookbook : Path.ofString cookbook = Location.path c)
    (hrecipes : Path.ofString (Location.path (c ++ [recipesDirectory])).text =
      Location.path (c ++ [recipesDirectory])) :
    fs.requireCookbook cookbook = .ok (Location.path c) := by
  simp only [isScripted, Bool.and_eq_true, List.all_cons, List.all_nil, and_true] at h
  obtain ⟨⟨⟨⟨⟨⟨⟨⟨hjson, hscript, -⟩, hthere⟩, hinside⟩, hmissing⟩, hfile⟩, -⟩, -⟩, -⟩ := h
  have hdirectory := requireDirectory_of_hasDirectory "cookbook" hcookbook hthere
  have hbelow := requireDirectory_of_hasDirectory "recipes directory" hrecipes hinside
  have hnone := found?_of_missing hjson.1 (FileTree.entryAt_of_holds_none hmissing)
  have hsome := found?_of_entryAt hscript.1 (FileTree.entryAt_of_holds hfile)
  rw [hcookbook] at hdirectory
  rw [FileSystem.requireCookbook, hdirectory]
  show (do
    let json ← fs.found? (Location.path (c ++ [metadataJson]))
    let metadata ← if json.isSome then pure json
      else fs.found? (Location.path (c ++ [metadataScript]))
    if metadata.isNone then _
    else
      let _ ← fs.requireDirectory (Location.path (c ++ [recipesDirectory])).text
        "recipes directory"
      return Location.path c : Except Fault Path) = _
  simp [hnone, hsome, hbelow, bind, Except.bind, pure, Except.pure]

theorem FileSystem.LinksAt.cookbookNameAt (hlinks : fs.LinksAt links)
    (h : fs.isScripted links c text name = true) :
    fs.cookbookNameAt (Location.path c) = .ok name := by
  simp only [isScripted, Bool.and_eq_true, List.all_cons, List.all_nil, and_true,
    decide_eq_true_eq] at h
  obtain ⟨⟨⟨⟨⟨⟨⟨⟨hjson, hscript, -⟩, -⟩, -⟩, hmissing⟩, hfile⟩, htext⟩, hname⟩, hne⟩ := h
  have hscript := hlinks.direct (Bool.and_eq_true_iff.2 hscript)
  have hread := readTextWithin_of_holds (hscript.of_isPrefix (List.prefix_append c _))
    hscript.normalize (List.prefix_append c _) hfile htext
  have hnone := FileTree.leadsToFile_of_holds hmissing
  have hthere := FileTree.leadsToFile_of_holds hfile
  simp only [FileSystem.cookbookNameAt, metadataName?,
    (hlinks.direct (Bool.and_eq_true_iff.2 hjson)).join, hscript.join, hnone, hthere, bind,
    Except.bind, Errno.at, metadataText, hread]
  simp only [Option.isSome_none, Option.isSome_some, Bool.false_eq_true, if_false, if_true,
    Except.map, hname, if_neg hne]
  rfl

/-- The layout of such a cookbook. -/
theorem FileSystem.LinksAt.plan (hlinks : fs.LinksAt links)
    (h : fs.isScripted links c text name = true) {r : Location} {output : String}
    (hcookbook : Path.ofString cookbook = Location.path c)
    (hrecipes : Path.ofString (Location.path (c ++ [recipesDirectory])).text =
      Location.path (c ++ [recipesDirectory]))
    (houtput : fs.normalizeText output = .ok (Location.path r)) (hpath : fs.Direct (r ++ [name])) :
    fs.plan cookbook output = .ok
      { cookbookName := name, cookbookPath := Location.path c,
        recipesPath := Location.path (c ++ [recipesDirectory]), outputRoot := Location.path r,
        outputPath := Location.path (r ++ [name]) } := by
  have hrequire := requireCookbook_of_isScripted h hcookbook hrecipes
  have hname := hlinks.cookbookNameAt h
  simp only [isScripted, Bool.and_eq_true, List.all_cons, List.all_nil, and_true] at h
  obtain ⟨⟨⟨⟨⟨⟨⟨⟨-, -, hinside⟩, -⟩, -⟩, -⟩, -⟩, -⟩, -⟩, -⟩ := h
  have hinside := hlinks.direct (Bool.and_eq_true_iff.2 hinside)
  have hroot := (hinside.of_isPrefix (List.prefix_append c _)).normalize
  simp only [FileSystem.plan, hrequire, hroot, hname, houtput, hinside.join, hpath.join, bind,
    Except.bind, Except.mapError]
  rfl

end Scripted

/-- The names on the way to a directory of the module. -/
def directoryNames (directory : String) : Except Fault (List String) :=
  relativeParts ((Text.pieces (· == '/') directory.toList).map String.ofList)

/-- The names on the way to the directories that every module has. -/
def usualNames : List (List String) := [
  ["files"], ["manifests"], ["lib"], ["lib", "puppet"], ["lib", "puppet", "parser"],
  ["lib", "puppet", "provider"], ["lib", "puppet", "type"], ["lib", "facter"], ["templates"]]

theorem mapM_directoryNames :
    ({} : Settings).moduleDirectories.mapM directoryNames = .ok usualNames := by
  decide

/-- A module at a place with its directories. -/
def usualDirectories (o : Location) : List (Location × Entry) :=
  ([] :: usualNames).map fun names => (o ++ names, .directory)

section Directories

variable {r o : Location} {directories : List String} {names : List (List String)}
  (hroot : layout.outputRoot = Location.path r) (hpath : layout.outputPath = Location.path o)
  (hin : r <+: o)

include hroot hpath hin

theorem run_makeDirectory_of_open {directory : String} {parts : List String}
    (hparts : directoryNames directory = .ok parts) (hplain : Location.isPlain (o ++ parts) = true)
    (hopen : fs.tree.Open (o ++ parts)) :
    (layout.makeDirectory directory).run.run { files := fs } =
      (.ok (), { files := { fs with tree := fs.tree.withDirectories (o ++ parts) } }) := by
  have hdirect : fs.Direct (o ++ parts) := ⟨hopen.resolved, hplain⟩
  have hjoin := hdirect.join_parts hparts
  have hmake := hdirect.makeDirectoryWithin (hin.trans (List.prefix_append o parts))
    hopen.provideDirectories
  rw [Layout.makeDirectory, hpath, hroot, run_bind, run_look, hjoin]
  dsimp only
  rw [run_attempt, hmake]

theorem run_forM_makeDirectory_of_open (hnames : directories.mapM directoryNames = .ok names)
    (hplain : ∀ parts ∈ names, Location.isPlain (o ++ parts) = true)
    (hopen : ∀ parts ∈ names, fs.tree.Open (o ++ parts)) :
    (directories.forM layout.makeDirectory).run.run { files := fs } = (.ok (), { files :=
      { fs with tree := (names.map (o ++ ·)).foldl FileTree.withDirectories fs.tree } }) := by
  induction directories generalizing fs names with
  | nil =>
    cases hnames
    rfl
  | cons directory rest ih =>
    rw [List.mapM_cons] at hnames
    obtain ⟨parts, hparts, hnames⟩ := bind_eq_ok_iff.1 hnames
    obtain ⟨more, hmore, hnames⟩ := bind_eq_ok_iff.1 hnames
    cases hnames
    have hfirst := run_makeDirectory_of_open hroot hpath hin hparts (hplain parts (by simp))
      (hopen parts (by simp))
    rw [List.forM, run_bind, hfirst]
    exact ih hmore (fun p hp => hplain p (by simp [hp]))
      fun p hp => (hopen p (by simp [hp])).withDirectories _

/-- The directories of the module are made at their names. -/
theorem run_makeDirectories_of_open {settings : Settings} {t : FileTree}
    (hnames : settings.moduleDirectories.mapM directoryNames = .ok names)
    (hopen : (r :: names.map (o ++ ·)).all fs.tree.isOpen = true)
    (hmade : (r :: names.map (o ++ ·)).foldl FileTree.withDirectories fs.tree = t) :
    (layout.makeDirectories settings).run.run { files := fs } =
      (.ok (), { files := { fs with tree := t } }) := by
  subst hmade
  simp only [List.all_cons, Bool.and_eq_true, List.all_eq_true, List.forall_mem_map,
    FileTree.isOpen_iff] at hopen
  obtain ⟨⟨hplain, hr⟩, hall⟩ := hopen
  have hparent : (Location.path r).parent = Location.path r.dropLast := by
    simp [Path.parent, Location.path, Path.isAbsolute]
  have hmake := FileSystem.Direct.makeDirectoryWithin ⟨hr.resolved, hplain⟩
    (List.dropLast_prefix r) hr.provideDirectories
  rw [Layout.makeDirectories, run_bind, run_attempt, hroot, hparent, hmake]
  exact run_forM_makeDirectory_of_open hroot hpath hin hnames (fun p hp => (hall p hp).1)
    fun p hp => (hall p hp).2.withDirectories r

end Directories

/-- What a recipe becomes whose manifest has a plain path. -/
theorem outputOf_of_direct {c r b l : Location} {content name : String} {m : Manifest}
    (hcookbook : layout.cookbookPath = Location.path c)
    (hroot : layout.outputRoot = Location.path r)
    (hread : fs.readTextWithin (Location.path l) (Location.path c) = .ok content)
    (hresult : (Manifest.ofRecipe style (recipeClass style.settings (Location.path l))
      (Location.path l).text content).result = .ok m)
    (hname : manifestName style.settings (Location.path l) = name)
    (hmanifest : fs.Direct (b ++ [name])) (hin : r <+: b)
    (htakes : fs.tree.takesFile b name = true) :
    fs.outputOf style layout (Location.path b) (Location.path l) =
      .ok ⟨Location.path (b ++ [name]), b ++ [name], m.text⟩ := by
  have hwithin := hmanifest.within (hin.trans (List.prefix_append b [name]))
  refine outputOf_eq_ok_iff.2 ⟨content, m, by rw [hcookbook]; exact hread, hresult,
    by rw [hname]; exact hmanifest.join, ?_, rfl⟩
  simp only [writePlaceWithin, hroot, hwithin, bind, Except.bind, Errno.at,
    FileTree.writePlace_of_takesFile htakes]

end RecipeManifest

import RecipeManifest.Proofs.Arrangement
import RecipeManifest.Proofs.ScannedHeredoc

/-!
Recipes of declarations on one line.

No line of such a recipe ends a block, so the whole recipe is one block that the file ends in. It
is read as one declaration a line, and each becomes a resource with nothing in it but the state
that goes without saying. Main statement (`ofRecipe_lineDeclarations`): the manifest, text and all.
-/

namespace RecipeManifest

open Plain

/-- A type and a title on one line. The type is one of those that have no rules of their own. -/
structure LineDeclaration where
  type : Name
  title : String
  type_ne_execute : type.text ≠ "execute"
  type_ne_include : type.text ≠ "include_recipe"
  title_ok : title.toList.any Text.isLineBreak = false

namespace LineDeclaration

variable (d : LineDeclaration)

/-- The line of the recipe. -/
def line : List Char :=
  d.type.chars ++ ' ' :: '\'' :: (d.title.toList.flatMap escape ++ ['\''])

/-- The statement on the state that goes without saying, if the type has one. -/
def stateText (tables : Tables) : String :=
  match tables.defaultState? d.type.text with
  | none => ""
  | some state => if state = "" then "" else "ensure => " ++ quoted state

/-- The resource of the manifest. -/
def manifestText (tables : Tables) : String :=
  "  " ++ tables.typeName d.type.text ++ " \x7b " ++ quoted d.title ++ ":\n    " ++
    d.stateText tables ++ ";\n  \x7d\n\n"

/-! ## Scanning -/

theorem isLineBreak_line : ∀ c ∈ d.line, Text.isLineBreak c = false := by
  have htype : ∀ c ∈ d.type.chars, Text.isLineBreak c = false :=
    isLineBreak_of_word fun _ => d.type.isNameChar_of_mem
  have htitle : ∀ c ∈ d.title.toList.flatMap escape, Text.isLineBreak c = false :=
    isLineBreak_escape (by simpa using List.any_eq_false.1 d.title_ok)
  intro c hc
  simp only [line, List.mem_append, List.mem_cons, List.not_mem_nil, or_false] at hc
  rcases hc with hc | rfl | rfl | hc | rfl
  · exact htype c hc
  · decide
  · decide
  · exact htitle c hc
  · decide

theorem isCode_line : Section.isCode d.line = true :=
  Section.isCode_of_isNameChar (d.type.isNameChar_of_mem (List.mem_cons_self ..)) _

theorem endsBlock_line : Section.endsBlock d.line = false := by
  apply Section.endsBlock_name
  rintro _ ⟨⟩
  decide +kernel

end LineDeclaration

namespace Section

/-- Lines of code that do not end a block are all gathered. -/
theorem scanBehind_open {lines : List (List Char)}
    (hlines : ∀ line ∈ lines, ∀ c ∈ line, Text.isLineBreak c = false)
    (hcode : ∀ line ∈ lines, isCode line = true)
    (hopen : ∀ line ∈ lines, endsBlock line = false) :
    ∀ (number : Nat) (gathered : List NumberedLine),
      scanBehind number gathered lines =
        scanBehind (number + lines.length) (gathered ++ lines.zipIdx number) [] := by
  induction lines with
  | nil =>
    intro number gathered
    simp
  | cons line rest ih =>
    intro number gathered
    have ih := ih (fun l hl => hlines l (by simp [hl])) (fun l hl => hcode l (by simp [hl]))
      (fun l hl => hopen l (by simp [hl]))
    have hlength : number + (line :: rest).length = number + 1 + rest.length := by
      simp only [List.length_cons]
      omega
    have hline := Text.withoutLineEnd_eq_self (hlines line (by simp))
    rw [scanBehind_cons number gathered hline, if_pos (hcode line (by simp)),
      hopen line (by simp), hlength, List.zipIdx_cons]
    simp only [Bool.false_eq_true, if_false]
    rw [ih, List.append_assoc, List.singleton_append]

/-- A recipe of such lines is one block, which the file ends in. -/
theorem scan_open {lines : List (List Char)} (hne : lines ≠ [])
    (hlines : ∀ line ∈ lines, ∀ c ∈ line, Text.isLineBreak c = false)
    (hcode : ∀ line ∈ lines, isCode line = true)
    (hopen : ∀ line ∈ lines, endsBlock line = false) :
    ∃ numbers, scan lines = [.block (Text.unlines lines) numbers false] := by
  have hopen' : ∀ l ∈ lines.zipIdx 1, endsBlock l.1 = false := fun l hl =>
    hopen l.1 (List.fst_mem_of_mem_zipIdx hl)
  have hne' : lines.zipIdx 1 ≠ [] := by simpa using hne
  have hscan : scan lines = scanBehind (1 + lines.length) (lines.zipIdx 1) [] :=
    scanBehind_open hlines hcode hopen 1 []
  rw [hscan, scanBehind_nil _ _ hopen', if_neg hne', ofCode_open hopen', List.zipIdx_map_fst]
  exact ⟨_, rfl⟩

end Section

namespace LineDeclaration

/-! ## Reading -/

/-- The declaration as a plain one. -/
def plain (d : LineDeclaration) : Declaration :=
  ⟨d.type, d.title, false, none⟩

theorem print_plain (ds : List LineDeclaration) :
    Plain.print 0 (ds.map plain) = Text.unlines (ds.map line) := by
  have hchars (d : LineDeclaration) : d.plain.chars 0 = d.line ++ ['\n'] := by
    simp [Declaration.chars, plain, Declaration.head, Call.chars, listChars, tailChars,
      Value.chars, line]
  simp only [Plain.print, Text.unlines, List.flatMap_map, hchars]

theorem read_lines (map : LineMap) (ds : List LineDeclaration) :
    BlockContent.read map (Text.unlines (ds.map line)) =
      .ok ⟨Plain.statements map 0 1 (ds.map plain), none⟩ := by
  rw [← print_plain]
  obtain ⟨ts, l, hscan, htokens⟩ := Lexer.scans_print (ds.map plain)
    (Lexer.settled_start (Plain.print 0 (ds.map plain))) (List.append_nil _).symm
  obtain ⟨e, he, htokenize⟩ := tokenize_of_scans map hscan
  refine read_of_statements htokenize ?_
  rw [BlockSource.statements_print htokens, BlockSource.statements_eof he]
  simp [Except.map, Lexer.start]

/-! ## Writing -/

section Writing

variable (tables : Tables) (source : String) (d : LineDeclaration)

theorem heading_plain (line : Int) :
    (Resource.mk d.type.text (some (.literal .string d.title)) [] false line).heading =
      .ok (quoted d.title, none) := by
  simp [Resource.heading, Expr.titleText, Expr.valueText, Expr.renderReceiver, Expr.render,
    Except.map, bind, Except.bind, pure, Except.pure, d.type_ne_execute]

/-- A resource without statements is given the state that goes without saying, and no other. -/
theorem text_withDefaultState {r : Resource} (hr : r.type = d.type.text) (type title : String) :
    (r.withDefaultState ⟨tables, {}⟩ ⟨type, title, [], none⟩).text {} "  " =
      "  " ++ type ++ " \x7b " ++ title ++ ":\n    " ++ d.stateText tables ++
        ";\n  \x7d\n\n" := by
  have htext (statements : List Assignment) :
      (ResourceBlock.mk type title statements none).text {} "  " =
        "  " ++ type ++ " \x7b " ++ title ++ ":\n    " ++
          (Settings.separator {}).intercalate (statements.map Assignment.text) ++
          ";\n  \x7d\n\n" := by
    have hindent : ":\n    " = ":\n" ++ "    " := by decide
    have hclose : ";\n  \x7d\n\n" = ";\n" ++ ("  " ++ "\x7d\n\n") := by decide
    rw [hindent, hclose]
    simp only [ResourceBlock.text, toString, String.empty_append, String.append_assoc]
  unfold Resource.withDefaultState stateText
  rw [hr]
  split
  · next h => rw [h, htext]; rfl
  · next h => rw [h, htext]; rfl
  · next state hne h =>
    have hstate : state ≠ "" := fun he => hne he
    rw [h]
    simp only [ResourceBlock.anyStartsWith, List.any_nil, Bool.false_eq_true, if_false,
      List.nil_append, hstate]
    rw [htext]
    simp [Assignment.text, toString]

theorem toManifest_plain (map : LineMap) (n : Nat) :
    ((d.plain.statement map 0 n).toManifest ⟨tables, {}⟩ source).result =
      .ok (d.manifestText tables) := by
  have hblock : ((Resource.mk d.type.text (some (.literal .string d.title)) [] false
        (map.lineInFile n)).toBlock ⟨tables, {}⟩).result =
      .ok (Resource.withDefaultState ⟨tables, {}⟩
        ⟨d.type.text, some (.literal .string d.title), [], false, map.lineInFile n⟩
        ⟨tables.typeName d.type.text, quoted d.title, [], none⟩) := by
    simp only [Resource.toBlock, Noted.result_bind, Noted.result_lift, heading_plain]
    rfl
  show ((Statement.resource d.type.text (some (.literal .string d.title)) [] false
    (map.lineInFile n)).toManifest ⟨tables, {}⟩ source).result = _
  simp only [Statement.toManifest, Noted.result_bind, Noted.result_note, d.type_ne_include,
    if_false, hblock]
  exact congrArg Except.ok (d.text_withDefaultState tables rfl _ _)

end Writing

/-- The resources stand one after the other. -/
theorem textOf_plain (tables : Tables) (source : String) (map : LineMap)
    (ds : List LineDeclaration) : ∀ n,
    Statement.textOf ⟨tables, {}⟩ source (Plain.statements map 0 n (ds.map plain)) =
      .ok (String.join (ds.map fun d => d.manifestText tables)) := by
  induction ds with
  | nil =>
    intro n
    rfl
  | cons d rest ih =>
    intro n
    rw [List.map_cons, Plain.statements, ← Statement.allToManifest_result]
    simp only [Statement.allToManifest, Noted.result_bind, Noted.result_pure,
      Statement.allToManifest_result, toManifest_plain, ih, List.map_cons, String.join_cons]
    rfl

end LineDeclaration

/-- The manifest of a recipe that has one declaration on each line: each becomes a resource of the
class, with the state that goes without saying and nothing else. -/
theorem ofRecipe_lineDeclarations (tables : Tables) (className source : String)
    (ds : List LineDeclaration) (hne : ds ≠ []) :
    Text.splitLines (Text.unlines (ds.map LineDeclaration.line)) = ds.map LineDeclaration.line ∧
      ∀ content : String, Text.splitLines content.toList = ds.map LineDeclaration.line →
        (Manifest.ofRecipe ⟨tables, {}⟩ className source content).result =
          .ok ⟨className, "class " ++ className ++ " \x7b\n" ++
            String.join (ds.map fun d => d.manifestText tables) ++ "\x7d\n", true⟩ := by
  have hlines : ∀ line ∈ ds.map LineDeclaration.line, ∀ c ∈ line,
      Text.isLineBreak c = false := by
    simpa using fun d _ => LineDeclaration.isLineBreak_line d
  refine ⟨Text.splitLines_unlines hlines, fun content hcontent => ?_⟩
  obtain ⟨numbers, hscan⟩ := Section.scan_open (by simpa using hne) hlines
    (by simpa using fun d _ => LineDeclaration.isCode_line d)
    (by simpa using fun d _ => LineDeclaration.endsBlock_line d)
  have hblock : Section.blockText ⟨tables, {}⟩ source
      (Text.unlines (ds.map LineDeclaration.line)) =
      .ok (String.join (ds.map fun d => d.manifestText tables)) := by
    rw [Section.blockText, LineDeclaration.read_lines]
    exact LineDeclaration.textOf_plain tables source [] ds 1
  refine ofRecipe_eq_ok_iff.2 ⟨"class " ++ className ++ " \x7b\n" ++
    String.join (ds.map fun d => d.manifestText tables), true, ?_, rfl⟩
  rw [hcontent, hscan, Section.openText, hblock]
  simp [Section.openText, bind, Except.bind, pure, Except.pure, toString]

/-- Two declarations on lines with different ends, of which the first has a state that goes without
saying and a title with a quote and a backslash in it. -/
theorem ofRecipe_lineDeclarations_quoted :
    let package : LineDeclaration :=
      ⟨⟨⟨'p', "ackage".toList, by decide, by decide⟩, by decide, by decide⟩, "it's \\", by decide,
        by decide, by decide⟩
    let user : LineDeclaration :=
      ⟨⟨⟨'_', "u2".toList, by decide, by decide⟩, by decide, by decide⟩, "# a", by decide,
        by decide, by decide⟩
    let content := "package 'it\\'s \\\\'\r\n_u2 '# a'"
    [package, user] ≠ [] ∧
      Text.splitLines content.toList = [package, user].map LineDeclaration.line ∧
      (Manifest.ofRecipe {} "default" "<recipe>" content).result =
        .ok ⟨"default", "class default \x7b\n  package \x7b 'it\\'s \\':\n" ++
          "    ensure => 'installed';\n  \x7d\n\n" ++
          "  _u2 \x7b '# a':\n    ;\n  \x7d\n\n\x7d\n", true⟩ := by
  intro package user content
  have hcontent : Text.splitLines content.toList = [package, user].map LineDeclaration.line := by
    decide
  refine ⟨by simp, hcontent, ?_⟩
  rw [(ofRecipe_lineDeclarations {} "default" "<recipe>" [package, user] (by simp)).2 content
    hcontent]
  decide

end RecipeManifest

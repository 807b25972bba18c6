import RecipeManifest.Manifest.Recipe
import RecipeManifest.Proofs.Results

/-!
Where a block stands in its file.

The map from the lines of a block to those of its file is carried through reading, and shows in
the lines of statements and faults alone. `read_eq_ok_iff` says so for reading: a block is read
with one map exactly when it is read with none, and the statements differ in their line numbers.
`Section.blockToManifest_eq_ok_iff` says it for conversion: the manifest's text does not show the
map at all.
-/

namespace RecipeManifest

/-! ## Other line numbers -/

namespace Statement

variable (f : Int → Int)

mutual

/-- The statement with other line numbers, also on the statements inside it. -/
def relabel : Statement → Statement
  | resource type name body hasBlock line =>
    .resource type name (relabelAll body) hasBlock (f line)
  | property name args block line => .property name args (relabelBlock block) (f line)
  | expression expr line => .expression expr (f line)
  | unsupported source line => .unsupported source (f line)

def relabelAll : List Statement → List Statement
  | [] => []
  | s :: rest => relabel s :: relabelAll rest

def relabelBlock : Option (List Statement) → Option (List Statement)
  | none => none
  | some body => some (relabelAll body)

end

theorem relabelAll_eq_map (body : List Statement) :
    relabelAll f body = body.map (relabel f) := by
  induction body with
  | nil => rfl
  | cons s rest ih => rw [relabelAll, ih, List.map_cons]

end Statement

theorem goOn_map {τ ε α β γ : Type} (before : List τ) (stuck : ε) (g : α → β)
    (result : Except ε (α × List τ))
    (next : β → (rest : List τ) → rest.length < before.length → Except ε γ) :
    goOn before stuck (result.map (Prod.map g id)) next =
      goOn before stuck result fun a rest h => next (g a) rest h := by
  cases result <;> rfl

theorem goOn_stuck {τ ε α β : Type} {before : List τ} (stuck : ε) (r : α × List τ)
    (next : α → (rest : List τ) → rest.length < before.length → Except ε β)
    (h : ¬ r.2.length < before.length) : goOn before stuck (.ok r) next = .error stuck :=
  dif_neg h

/-! ## Reading -/

namespace BlockSource

variable (b : BlockSource)

/-- The same text with no place in a file. -/
def unplaced : BlockSource :=
  ⟨b.text, []⟩

/-- What the lines of the block are called in the file. -/
def label (line : Int) : Int :=
  b.lines.lineInFile line

theorem lineInFile_eq_label (ts : List Token) :
    b.lineInFile ts = b.label (b.unplaced.lineInFile ts) := by
  have hplain : b.unplaced.lineInFile ts = ts.head?.elim 0 fun t => (t.line : Int) := by
    simp [lineInFile, unplaced, LineMap.lineInFile]
  rw [hplain]
  rfl

theorem unsupported_relabel (closer : Option Closer) (ts : List Token) :
    b.unsupported closer ts =
      (b.unplaced.unsupported closer ts).map (Prod.map (Statement.relabel b.label) id) := by
  unfold unsupported
  rw [lineInFile_eq_label]
  cases skipUnsupported closer 0 none true (ts.head?.elim 0 (·.stop)) ts <;> rfl

mutual

theorem statement_relabel (closer : Option Closer) (ts : List Token) :
    b.statement closer ts =
      (b.unplaced.statement closer ts).map (Prod.map (Statement.relabel b.label) id) := by
  rw [statement, statement, supported_relabel closer ts, unsupported_relabel]
  cases b.unplaced.supported closer ts with
  | error e => cases e <;> rfl
  | ok r =>
    simp only [Except.map, Prod.map, id]
    split <;> rfl
termination_by 8 * ts.length + 1
decreasing_by all_goals omega

theorem supported_relabel (closer : Option Closer) (ts : List Token) :
    b.supported closer ts =
      (b.unplaced.supported closer ts).map (Prod.map (Statement.relabel b.label) id) := by
  have hhead : b.commandHead ts = b.unplaced.commandHead ts := rfl
  have hexpr : b.interpret = b.unplaced.interpret := rfl
  rw [supported, supported, lineInFile_eq_label, hhead, hexpr]
  split
  · rfl
  split
  · cases b.unplaced.commandHead ts with
    | error e => rfl
    | ok r =>
      by_cases hlt : r.2.length < ts.length
      · rw [goOn_ok _ _ _ hlt, goOn_ok _ _ _ hlt, commandBlock_relabel r.2]
        cases b.unplaced.commandBlock r.2 with
        | error e => rfl
        | ok r =>
          obtain ⟨block, rest⟩ := r
          cases closer <;> cases block <;> rfl
      · rw [goOn_stuck _ _ _ hlt, goOn_stuck _ _ _ hlt]
        rfl
  · split
    · rfl
    · cases expression b.unplaced.interpret 0 ts <;> rfl
termination_by 8 * ts.length
decreasing_by all_goals omega

theorem commandBlock_relabel (ts : List Token) :
    b.commandBlock ts =
      (b.unplaced.commandBlock ts).map (Prod.map (Statement.relabelBlock b.label) id) := by
  rw [commandBlock.eq_def, commandBlock.eq_def]
  cases ts with
  | nil => rfl
  | cons t more =>
    dsimp only
    split
    · rw [block_relabel .endWord more]
      cases b.unplaced.block .endWord more <;> rfl
    · rw [block_relabel .brace more]
      cases b.unplaced.block .brace more <;> rfl
    · rfl
termination_by 8 * ts.length + 1
decreasing_by all_goals simp only [List.length_cons]; omega

theorem block_relabel (closer : Closer) (ts : List Token) :
    b.block closer ts =
      (b.unplaced.block closer ts).map (Prod.map (Statement.relabelAll b.label) id) := by
  rw [block.eq_def, block.eq_def]
  cases h : skipParameters (afterBreaks ts) with
  | error e => rfl
  | ok rest => exact blockItems_relabel closer rest
termination_by 8 * ts.length + 3
decreasing_by
  have h1 := length_skipParameters_le h
  have h2 := length_afterBreaks_le ts
  omega

theorem blockItems_relabel (closer : Closer) (ts : List Token) :
    b.blockItems closer ts =
      (b.unplaced.blockItems closer ts).map (Prod.map (Statement.relabelAll b.label) id) := by
  rw [blockItems.eq_def, blockItems.eq_def]
  cases hs : afterBreaks ts with
  | nil => rfl
  | cons t more =>
    dsimp only
    split
    · rfl
    split
    · rfl
    rw [statement_relabel (some closer) (t :: more), goOn_map]
    cases b.unplaced.statement (some closer) (t :: more) with
    | error e => rfl
    | ok r =>
      by_cases hlt : r.2.length < (t :: more).length
      · rw [goOn_ok _ _ _ hlt, goOn_ok _ _ _ hlt, blockItems_relabel closer r.2]
        cases b.unplaced.blockItems closer r.2 <;> rfl
      · rw [goOn_stuck _ _ _ hlt, goOn_stuck _ _ _ hlt]
        rfl
termination_by 8 * ts.length + 2
decreasing_by
  all_goals
    have := length_afterBreaks_le ts
    simp only [hs] at this
    omega

end

/-- The statements of a text are the same but for their lines, and so is what is reported of its
end. -/
theorem statements_relabel (ts : List Token) :
    b.statements ts =
      (b.unplaced.statements ts).map
        (Prod.map (Statement.relabelAll b.label) (Option.map b.label)) := by
  rw [statements.eq_def, statements.eq_def]
  cases hs : afterBreaks ts with
  | nil => rfl
  | cons t more =>
    dsimp only
    split
    · rfl
    rw [statement_relabel b none (t :: more), lineInFile_eq_label]
    cases b.unplaced.statement none (t :: more) with
    | error e => cases e <;> rfl
    | ok r =>
      simp only [Except.map, Prod.map, id]
      by_cases hlt : r.2.length < (t :: more).length
      · rw [dif_pos hlt, dif_pos hlt, statements_relabel r.2]
        cases b.unplaced.statements r.2 <;> rfl
      · rw [dif_neg hlt, dif_neg hlt]
        rfl
termination_by ts.length
decreasing_by
  have := length_afterBreaks_le ts
  simp only [hs] at this
  omega

end BlockSource

/-- The content of a block with other line numbers. -/
def BlockContent.relabel (f : Int → Int) (c : BlockContent) : BlockContent :=
  ⟨Statement.relabelAll f c.statements, c.unterminatedLine.map f⟩

/-- A block is read with a map of its lines exactly when it is read with none, and then only the
lines are mapped. -/
theorem read_eq_ok_iff {lines : LineMap} {source : List Char} {content : BlockContent} :
    BlockContent.read lines source = .ok content ↔
      ∃ plain, BlockContent.read [] source = .ok plain ∧
        plain.relabel lines.lineInFile = content := by
  unfold BlockContent.read tokenize
  cases (Lexer.start source).run with
  | error e => simp [bind, Except.bind]
  | ok tokens =>
    have h : (BlockSource.mk source lines).statements tokens =
        ((BlockSource.mk source []).statements tokens).map
          (Prod.map (Statement.relabelAll lines.lineInFile) (Option.map lines.lineInFile)) :=
      BlockSource.statements_relabel ⟨source, lines⟩ tokens
    simp only [bind, Except.bind, h, pure, Except.pure]
    cases (BlockSource.mk source []).statements tokens <;>
      simp [Except.map, BlockContent.relabel]

/-! ## Conversion -/

section

variable (style : Style) (f : Int → Int)

theorem blockValue_relabel (body : List Statement) :
    blockValue (Statement.relabelAll f body) = blockValue body := by
  have hvalue : Statement.value? ∘ Statement.relabel f = Statement.value? := by
    funext s
    cases s <;> rfl
  unfold blockValue
  rw [Statement.relabelAll_eq_map, ← List.map_reverse, List.findSome?_map, hvalue]

namespace Property

def relabel (p : Property) : Property :=
  ⟨p.name, p.args, Statement.relabelBlock f p.block, f p.line⟩

variable (p : Property) (type : String)

theorem guardStatement_relabel (name : String) :
    ((p.relabel f).guardStatement type name).result = (p.guardStatement type name).result := by
  obtain ⟨own, args, block, line⟩ := p
  cases block with
  | none => cases args <;> rfl
  | some body =>
    simp only [guardStatement, relabel, Statement.relabelBlock, Noted.result_bind,
      Noted.result_lift, blockValue_relabel]

theorem statements_relabel :
    ((p.relabel f).statements style type).result = (p.statements style type).result := by
  have hown : ((p.relabel f).ownStatements style type).result =
      (p.ownStatements style type).result := by
    unfold ownStatements
    dsimp only [relabel]
    split <;> try rfl
    split
    · exact guardStatement_relabel f p type _
    · rfl
  simp only [statements, Noted.result_bind, hown, Noted.result_ite_note]
  rfl

end Property

namespace Resource

def relabel (r : Resource) : Resource :=
  ⟨r.type, r.name, Statement.relabelAll f r.body, r.hasBlock, f r.line⟩

variable (r : Resource)

theorem property?_relabel (s : Statement) :
    (s.relabel f).property? = s.property?.map (Property.relabel f) := by
  cases s <;> rfl

theorem find?_relabel (name : String) :
    (r.relabel f).find? name = (r.find? name).map (Property.relabel f) := by
  have hname : (fun p : Property => p.name == name) ∘ Property.relabel f =
      fun p => p.name == name := rfl
  have hproperties : (r.relabel f).properties = r.properties.map (Property.relabel f) := by
    simp only [properties, relabel, Statement.relabelAll_eq_map, List.filterMap_map,
      List.map_filterMap]
    congr 1
    funext s
    exact property?_relabel f s
  rw [find?, hproperties, List.find?_map, hname]
  rfl

theorem heading_relabel : (r.relabel f).heading = r.heading := by
  have hcommand : (r.relabel f).command = r.command := by
    unfold command
    rw [find?_relabel]
    cases r.find? "command" <;> rfl
  unfold heading
  rw [hcommand]
  rfl

theorem bodyStatements_relabel (body : List Statement) :
    ((r.relabel f).bodyStatements style (Statement.relabelAll f body)).result =
      (r.bodyStatements style body).result := by
  induction body with
  | nil => rfl
  | cons s rest ih =>
    rw [Statement.relabelAll, bodyStatements, bodyStatements, property?_relabel]
    cases s.property? with
    | none => simp only [Option.map_none, Noted.result_bind, Noted.result_note, ih]
    | some p =>
      have hown := Property.statements_relabel style f p r.type
      simp only [Option.map_some, Noted.result_bind, ih]
      rw [← hown]
      rfl

theorem toBlock_relabel : ((r.relabel f).toBlock style).result = (r.toBlock style).result := by
  simp only [toBlock, Noted.result_bind, Noted.result_lift, heading_relabel]
  congr 1
  funext h
  have := bodyStatements_relabel style f r r.body
  rw [show (r.relabel f).body = Statement.relabelAll f r.body from rfl, this]
  rfl

end Resource

namespace Statement

variable (source : String)

theorem toManifest_relabel (s : Statement) :
    ((s.relabel f).toManifest style source).result = (s.toManifest style source).result := by
  cases s with
  | resource type name body hasBlock line =>
    have hblock := Resource.toBlock_relabel style f ⟨type, name, body, hasBlock, line⟩
    simp only [relabel, toManifest, Noted.result_bind, Noted.result_note]
    split
    · rfl
    · simp only [Noted.result_bind]
      congr 1
      funext _
      congr 1
  | property | expression | unsupported => rfl

/-- The texts of some statements, one after the other. -/
def textOf (statements : List Statement) : Except Fault String := do
  let texts ← statements.mapM fun s => (s.toManifest style source).result
  return String.join texts

theorem allToManifest_result (statements : List Statement) :
    (allToManifest style source statements).result = textOf style source statements := by
  induction statements with
  | nil => rfl
  | cons s rest ih =>
    simp only [allToManifest, Noted.result_bind, ih, textOf, List.mapM_cons]
    cases (s.toManifest style source).result with
    | error e => rfl
    | ok text =>
      cases rest.mapM fun s => (s.toManifest style source).result with
      | error e => rfl
      | ok texts => exact congrArg Except.ok String.join_cons.symm

theorem textOf_relabel (statements : List Statement) :
    textOf style source (relabelAll f statements) = textOf style source statements := by
  have heach : (fun s => (toManifest style source s).result) ∘ relabel f =
      fun s => (toManifest style source s).result := by
    funext s
    exact toManifest_relabel style f source s
  unfold textOf
  rw [relabelAll_eq_map, List.mapM_map, heach]

end Statement

end

namespace Section

/-- What a block of statements becomes, wherever it stands. -/
def blockText (style : Style) (source : String) (text : List Char) : Except Fault String :=
  match BlockContent.read [] text with
  | .error f => .error (.ofLex source f)
  | .ok content => Statement.textOf style source content.statements

theorem blockToManifest_of_read {style : Style} {source : String} {text : List Char}
    {lines : LineMap} {content : BlockContent} (h : BlockContent.read lines text = .ok content) :
    (blockToManifest style source text lines).result =
      Statement.textOf style source content.statements := by
  unfold blockToManifest
  obtain ⟨statements, line⟩ := content
  rw [h, Noted.result_bind, ← Statement.allToManifest_result]
  cases line with
  | none => rfl
  | some line => exact Noted.result_bind _ _

/-- A block is converted to the same text wherever it stands. -/
theorem blockToManifest_eq_ok_iff {style : Style} {source : String} {text : List Char}
    {lines : LineMap} {t : String} :
    (blockToManifest style source text lines).result = .ok t ↔
      blockText style source text = .ok t := by
  cases hplain : BlockContent.read [] text with
  | ok plain =>
    have hread : BlockContent.read lines text = .ok (plain.relabel lines.lineInFile) :=
      read_eq_ok_iff.2 ⟨plain, hplain, rfl⟩
    rw [blockToManifest_of_read hread, blockText, hplain]
    show Statement.textOf style source (Statement.relabelAll _ _) = _ ↔ _
    rw [Statement.textOf_relabel]
  | error e =>
    cases hread : BlockContent.read lines text with
    | ok content =>
      obtain ⟨plain, h, -⟩ := read_eq_ok_iff.1 hread
      rw [hplain] at h
      cases h
    | error e' =>
      simp only [blockToManifest, hread, blockText, hplain, Noted.result_bind, Noted.result_lift]
      constructor <;> intro h <;> cases h

end Section

end RecipeManifest

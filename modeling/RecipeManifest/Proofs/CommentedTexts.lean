import RecipeManifest.Proofs.DefaultStates

/-!
Comments that a manifest is given.

Code outside the grammar becomes comment lines, and the label of a command becomes a comment above
its resource. Code is put in line by line, whatever its lines end with, so that no part of it leaves
its comment. A label is put in as it is.

    x = 1                             # x = 1
    if x                              # if x
      y                               #   y
    end                               # end

    execute "say-hello"               # say hello
                                      exec { 'say-hello': ...

    execute "two\nlines"              # two
                                    lines
                                      exec { 'two\nlines': ...

Main statement (`toManifest_comments`): both comments as lines. The lines of a label behind its first
one stand outside the comment.
-/

namespace RecipeManifest

/-- What a comment line starts with. -/
def commentMark (indent : String) : List Char :=
  (indent ++ "# ").toList

/-- Code as comment lines. -/
def commentLines (indent code : String) : List (List Char) :=
  (Text.splitLines code.toList).map fun line => commentMark indent ++ Text.trimEnd line

/-- A label as it is shown in a comment. -/
def shownLabel (label : String) : String :=
  label.map fun c => if c = '-' ∨ c = '_' then ' ' else c

/-! ## Code -/

theorem toList_commentedOut (indent code : String) :
    (commentedOut indent code).toList = Text.unlines (commentLines indent code) := by
  simp [commentedOut, commentLines, commentMark, Text.unlines, String.toList_join, List.flatMap_map]

section Indent

variable {indent : String} (hindent : ∀ c ∈ indent.toList, c = ' ' ∨ c = '\t')

include hindent

theorem isLineBreak_commentMark : ∀ c ∈ commentMark indent, Text.isLineBreak c = false := by
  intro c hc
  rw [commentMark, String.toList_append, List.mem_append] at hc
  obtain hc | hc := hc
  · obtain rfl | rfl := hindent c hc <;> decide
  · have hc : c = '#' ∨ c = ' ' := by simpa using hc
    obtain rfl | rfl := hc <;> decide

/-- Whatever the lines of the code end with, there is no line break inside a comment line. -/
theorem isLineBreak_commentLines (code : String) :
    ∀ line ∈ commentLines indent code, ∀ c ∈ line, Text.isLineBreak c = false := by
  intro line hline c hc
  obtain ⟨given, hgiven, rfl⟩ := List.mem_map.1 hline
  obtain hc | hc := List.mem_append.1 hc
  · exact isLineBreak_commentMark hindent c hc
  · obtain ⟨back, -, hsplit⟩ := Text.exists_of_trimEndBy (p := Text.isBlank) given
    refine Text.isLineBreak_of_mem_splitLines hgiven ?_
    rw [hsplit]
    exact List.mem_append_left back hc

end Indent

/-! ## Labels -/

/-- A label is shown with the newlines that it has. -/
theorem count_shownLabel (label : String) :
    (shownLabel label).toList.count '\n' = label.toList.count '\n' := by
  rw [shownLabel, String.toList_map, List.count, List.countP_map]
  refine List.countP_congr fun c _ => ?_
  by_cases hc : c = '-' ∨ c = '_'
  · obtain rfl | rfl := hc <;> decide
  · simp [hc]

/-- A comment stands before the rest of its resource. -/
theorem ResourceBlock.toList_text {b : ResourceBlock} {comment : String}
    (h : b.comment = some comment) (settings : Settings) (indent : String) :
    ∃ block, (b.text settings indent).toList =
        commentMark indent ++ comment.toList ++ '\n' :: block ∧
      (indent ++ b.type ++ " \x7b ").toList <+: block := by
  refine ⟨({ b with comment := none }.text settings indent).toList, ?_, ?_⟩
  · simp [text, h, commentMark, toString]
  · simp [text, toString]

theorem Resource.withDefaultState_comment (style : Style) (r : Resource) (b : ResourceBlock) :
    (r.withDefaultState style b).comment = b.comment := by
  unfold withDefaultState
  split
  · rfl
  · rfl
  · dsimp only
    split <;> rfl

/-- The comment above a command is its label. -/
theorem Resource.comment_of_toBlock {style : Style} {r : Resource} {block : ResourceBlock}
    (htype : r.type = "execute") (h : (r.toBlock style).result = .ok block) :
    ∃ label, Expr.valueText false r.name = .ok label ∧ block.comment = some (shownLabel label) := by
  rw [result_toBlock] at h
  simp only [bind_eq_ok_iff, pure_eq_ok_iff] at h
  obtain ⟨⟨title, comment⟩, hhead, given, -, rfl⟩ := h
  simp only [heading, htype, if_true, bind_eq_ok_iff, pure_eq_ok_iff, Prod.mk.injEq] at hhead
  obtain ⟨_, -, command, -, label, hlabel, -, rfl⟩ := hhead
  exact ⟨label, hlabel, by rw [withDefaultState_comment]; rfl⟩

theorem Statement.text_of_toManifest {style : Style} {source type : String} {name : Option Expr}
    {body : List Statement} {hasBlock : Bool} {line : Int} {text : String}
    (htype : type ≠ "include_recipe")
    (h : ((resource type name body hasBlock line).toManifest style source).result = .ok text) :
    ∃ block, (Resource.toBlock style ⟨type, name, body, hasBlock, line⟩).result = .ok block ∧
      text = block.text style.settings style.settings.headerIndent := by
  simp only [toManifest, if_neg htype] at h
  obtain ⟨_, -, h⟩ := Noted.bind_result_ok h
  obtain ⟨block, hblock, h⟩ := Noted.bind_result_ok h
  exact ⟨block, hblock, (pure_eq_ok_iff.1 h).symm⟩

/-- The lines of a text with a label in its first line: those of the label behind the first one stand
as they are. -/
theorem newlineLines_label {mark : List Char} (hmark : '\n' ∉ mark) (label block : List Char) :
    ∃ first others, label ++ ['\n'] = Text.unlines (first :: others) ∧
      others.length = label.count '\n' ∧
      Text.newlineLines (mark ++ label ++ '\n' :: block) =
        (mark ++ first) :: others ++ Text.newlineLines block := by
  have hwhole : Whole (label ++ ['\n']) := .inr (by simp [EndsLine])
  obtain ⟨lines, hlines, hlabel⟩ := hwhole.exists_lines
  have hcount := Text.count_unlines hlines
  rw [← hlabel, List.count_append, List.count_singleton_self] at hcount
  cases lines with
  | nil => simp at hcount
  | cons first others =>
    have hmarked : ∀ line ∈ (mark ++ first) :: others, '\n' ∉ line := by
      rw [List.forall_mem_cons] at hlines ⊢
      exact ⟨by simp [hmark, hlines.1], hlines.2⟩
    have htext : mark ++ label ++ '\n' :: block =
        Text.unlines ((mark ++ first) :: others) ++ block := by
      have hlabel := congrArg (mark ++ · ++ block) hlabel
      simpa [Text.unlines] using hlabel
    refine ⟨first, others, hlabel, by simpa using hcount.symm, ?_⟩
    rw [htext, Text.newlineLines_unlines_append hmarked]

/-- Code outside the grammar becomes comment lines, whatever its lines end with. The label of a
command becomes a comment above its resource, of one line exactly if there is no newline in it: its
lines behind the first one stand outside the comment. -/
theorem toManifest_comments (style : Style) (source : String)
    (hindent : ∀ c ∈ style.settings.headerIndent.toList, c = ' ' ∨ c = '\t') :
    (∀ (code : String) (line : Int), ∃ text,
      ((Statement.unsupported code line).toManifest style source).result = .ok text ∧
      text.toList = Text.unlines (commentLines style.settings.headerIndent code) ∧
      Text.splitLines text.toList = commentLines style.settings.headerIndent code ∧
      ∀ l ∈ Text.splitLines text.toList, commentMark style.settings.headerIndent <+: l) ∧
    ∀ (name : Option Expr) (body : List Statement) (hasBlock : Bool) (line : Int),
      style.tables = {} →
      ((Statement.resource "execute" name body hasBlock line).isTopLevel = true →
        Returns ((Statement.resource "execute" name body hasBlock line).toManifest style
          source).result) ∧
      ∀ text, ((Statement.resource "execute" name body hasBlock line).toManifest style
          source).result = .ok text →
        ∃ label first others block,
          Expr.valueText false name = .ok label ∧
          (style.settings.headerIndent ++ "exec \x7b ").toList <+: block ∧
          ((∃ comment, '\n' ∉ comment ∧
            text.toList = commentMark style.settings.headerIndent ++ comment ++ '\n' :: block) ↔
              '\n' ∉ label.toList) ∧
          (shownLabel label).toList ++ ['\n'] = Text.unlines (first :: others) ∧
          others.length = label.toList.count '\n' ∧
          Text.newlineLines text.toList =
            (commentMark style.settings.headerIndent ++ first) :: others ++
              Text.newlineLines block := by
  have hbreaks := isLineBreak_commentLines hindent
  have hmark : '\n' ∉ commentMark style.settings.headerIndent := fun hmem => by
    have := isLineBreak_commentMark hindent '\n' hmem
    cases this
  refine ⟨fun code line => ?_, fun name body hasBlock line htables =>
    ⟨Statement.returns_toManifest style source, fun text htext => ?_⟩⟩
  · have htext := toList_commentedOut style.settings.headerIndent code
    have hlines := (congrArg Text.splitLines htext).trans (Text.splitLines_unlines (hbreaks code))
    refine ⟨_, rfl, htext, hlines, fun l hl => ?_⟩
    rw [hlines] at hl
    obtain ⟨given, -, rfl⟩ := List.mem_map.1 hl
    exact List.prefix_append _ _
  · obtain ⟨block, hblock, rfl⟩ := Statement.text_of_toManifest (by decide) htext
    obtain ⟨label, hlabel, hcomment⟩ := Resource.comment_of_toBlock rfl hblock
    obtain ⟨htype, -⟩ := Resource.toBlock_ok hblock
    obtain ⟨rest, hrest, hfront⟩ :=
      ResourceBlock.toList_text hcomment style.settings style.settings.headerIndent
    obtain ⟨first, others, hlines, hcount, hall⟩ :=
      newlineLines_label hmark (shownLabel label).toList rest
    rw [count_shownLabel] at hcount
    have hexec : ({} : Tables).typeName "execute" = "exec" := by decide
    rw [htype, htables, hexec, String.append_assoc] at hfront
    rw [hrest]
    refine ⟨label, first, others, rest, hlabel, hfront, ?_, hlines, hcount, hall⟩
    rw [← List.count_eq_zero, ← count_shownLabel, List.count_eq_zero]
    constructor
    · rintro ⟨comment, hnone, heq⟩
      have hsame := List.append_cancel_left (List.append_cancel_right heq)
      rwa [hsame]
    · exact fun hnone => ⟨_, hnone, rfl⟩

/-- Code with two kinds of line ends, and a label that is shown without its hyphen. -/
theorem toManifest_comments_of_default :
    let command : Statement := .resource "execute" (some (.literal .string "say-hello"))
      [.property "command" [.literal .string "echo hello"] none 2] true 1
    (∀ c ∈ ({} : Style).settings.headerIndent.toList, c = ' ' ∨ c = '\t') ∧
      ({} : Style).tables = {} ∧
      (∃ text, ((Statement.unsupported "if x\r  y\nend" 4).toManifest {} "default.rb").result =
          .ok text ∧
        Text.splitLines text.toList =
          ["  # if x".toList, "  #   y".toList, "  # end".toList]) ∧
      ∃ text others block, (command.toManifest {} "default.rb").result = .ok text ∧
        others.length = 0 ∧ "  exec \x7b ".toList <+: block ∧
        Text.newlineLines text.toList =
          "  # say hello".toList :: others ++ Text.newlineLines block := by
  intro command
  have hindent : ∀ c ∈ ({} : Style).settings.headerIndent.toList, c = ' ' ∨ c = '\t' := by simp
  obtain ⟨hcode, hlabel⟩ := toManifest_comments {} "default.rb" hindent
  refine ⟨hindent, rfl, ?_, ?_⟩
  · obtain ⟨text, htext, -, hlines, -⟩ := hcode "if x\r  y\nend" 4
    exact ⟨text, htext, hlines.trans (by decide)⟩
  · obtain ⟨hreturns, htext⟩ := hlabel (some (.literal .string "say-hello"))
      [.property "command" [.literal .string "echo hello"] none 2] true 1 rfl
    obtain ⟨text, hresult⟩ := hreturns rfl
    obtain ⟨label, first, others, block, hvalue, hfront, -, hfirst, hcount, hlines⟩ :=
      htext text hresult
    obtain rfl : "say-hello" = label := Except.ok.inj hvalue
    obtain rfl : others = [] := List.eq_nil_of_length_eq_zero hcount
    have hshown : "say hello".toList ++ ['\n'] = first ++ ['\n'] := by
      simpa [Text.unlines, shownLabel] using hfirst
    obtain rfl := List.append_cancel_right hshown
    exact ⟨text, [], block, hresult, rfl, hfront, hlines⟩

/-- A label of two lines: the second one stands between the comment and the resource. -/
theorem label_leaves_comment :
    let command : Statement :=
      .resource "execute" (some (.literal .string "two\nlines")) [] false 1
    let text := "  # two\nlines\n  exec \x7b 'two\nlines':\n    ;\n  \x7d\n\n"
    BlockContent.read [] "execute \"two\\nlines\"\n".toList = .ok ⟨[command], none⟩ ∧
      (command.toManifest {} "default.rb").result = .ok text ∧
      ¬ ∃ comment block, '\n' ∉ comment ∧ "  exec \x7b ".toList <+: block ∧
        text.toList = commentMark "  " ++ comment ++ '\n' :: block := by
  intro command text
  have htokens : tokenize [] "execute \"two\\nlines\"\n".toList = .ok
      [⟨.ident "execute", 1, 0, 7, false⟩, ⟨.string [.text "two\nlines".toList], 1, 8, 20, true⟩,
        ⟨.newline, 1, 20, 21, false⟩, ⟨.eof, 2, 21, 21, false⟩] := by
    decide +kernel
  refine ⟨?_, by decide +kernel, ?_⟩
  · rw [BlockContent.read, htokens]
    with_unfolding_all rfl
  · -- the first newline is that of the label
    rintro ⟨comment, block, hnone, hfront, htext⟩
    have hline : ∀ c ∈ commentMark "  " ++ comment, (c != '\n') = true := by
      intro c hc
      rw [bne_iff_ne]
      rintro rfl
      simp [commentMark, hnone] at hc
    have hblock := congrArg (List.dropWhile (· != '\n')) htext
    rw [List.dropWhile_append_of_pos hline] at hblock
    obtain ⟨more, rfl⟩ := hfront
    simp [text] at hblock

end RecipeManifest

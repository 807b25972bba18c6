import Mathlib.Data.List.Forall2
import RecipeManifest.Proofs.Concatenation

/-!
Where the comments and the blocks of a recipe stand in its manifest.

`Arranged` says which sections a list of lines has and in which order, without scanning: each
comment line once, the lines of code cut behind those that end a block, and all of them in the
order in which they are complete. The scanner arranges every list of lines so (`scan_arranged`).
Main statement (`ofRecipe_arranges`): a manifest is the comments before the first complete block,
as they are, and then the class with the texts of all other sections in this order.
-/

namespace RecipeManifest

/-- A list cut behind each member that the test accepts. What is left behind the last of these is a
piece too, if there is anything. -/
def cutBehind {α : Type} (p : α → Bool) : List α → List (List α)
  | [] => []
  | x :: rest =>
    if p x then [x] :: cutBehind p rest
    else
      match cutBehind p rest with
      | [] => [[x]]
      | piece :: more => (x :: piece) :: more

section

variable {α : Type} {p : α → Bool} {piece : List α}

theorem cutBehind_open (hne : piece ≠ []) (hp : ∀ x ∈ piece, p x = false) :
    cutBehind p piece = [piece] := by
  induction piece with
  | nil => exact absurd rfl hne
  | cons x rest ih =>
    have hrest : ∀ y ∈ rest, p y = false := fun y hy => hp y (by simp [hy])
    rw [cutBehind, hp x (by simp)]
    cases rest with
    | nil => rfl
    | cons y more => rw [ih (by simp) hrest]; rfl

theorem cutBehind_append (hp : ∀ x ∈ piece, p x = false) {x : α} (hx : p x = true)
    (rest : List α) :
    cutBehind p (piece ++ x :: rest) = (piece ++ [x]) :: cutBehind p rest := by
  induction piece with
  | nil => rw [List.nil_append, cutBehind, hx]; rfl
  | cons y more ih =>
    have hmore : ∀ z ∈ more, p z = false := fun z hz => hp z (by simp [hz])
    rw [List.cons_append, cutBehind, hp y (by simp), ih hmore]
    rfl

end

namespace Section

/-! ## Sections of numbered lines -/

/-- A line and its number in the file. -/
abbrev NumberedLine := List Char × Nat

/-- A comment line as a section. -/
def ofComment (l : NumberedLine) : Section :=
  .comment (String.ofList l.1) l.2

/-- Some lines of code as a section. It is terminated if the last of them ends a block. -/
def ofCode (ls : List NumberedLine) : Section :=
  .block (Text.unlines (ls.map Prod.fst)) (ls.map fun l => Int.ofNat l.2)
    (ls.getLast?.any fun l => endsBlock l.1)

/-- The number of the line with which the section is complete. A block that is not terminated is
complete when the file ends, behind its last line. -/
def completedAt (last : Nat) : Section → Int
  | comment _ line => line
  | block _ lines true => lines.getLast?.getD 0
  | block _ _ false => last + 1

/-- The sections are those of the lines, in the order in which they are complete. -/
structure Arranged (lines : List (List Char)) (sections : List Section) : Prop where
  /-- Each line that starts with the comment mark is a comment, once. -/
  comments : sections.filter (!·.isBlock) =
    ((lines.zipIdx 1).filter fun l => l.1.head? == some '#').map ofComment
  /-- The lines of code make the blocks, one for each line that ends a block, and one for what is
  left. -/
  blocks : sections.filter (·.isBlock) =
    (cutBehind (fun l => endsBlock l.1) ((lines.zipIdx 1).filter fun l => isCode l.1)).map ofCode
  ordered : sections.Pairwise fun a b =>
    a.completedAt lines.length < b.completedAt lines.length

theorem isBlank_hash : Text.isBlank '#' = false := by
  decide

/-- A comment line is no line of code, and it is not blank. -/
theorem isCode_eq_false_of_hash {line : List Char} (h : line.head? = some '#') :
    isCode line = false ∧ line.all Text.isBlank = false := by
  cases line with
  | nil => cases h
  | cons c rest =>
    obtain rfl : c = '#' := by simpa using h
    simp [isCode, isBlank_hash]

theorem head?_ne_hash_of_blank {line : List Char} (h : line.all Text.isBlank = true) :
    (line.head? == some '#') = false := by
  rw [beq_eq_false_iff_ne]
  intro hhash
  rw [(isCode_eq_false_of_hash hhash).2] at h
  cases h

theorem ofCode_open {ls : List NumberedLine} (h : ∀ l ∈ ls, endsBlock l.1 = false) :
    ofCode ls =
      .block (Text.unlines (ls.map Prod.fst)) (ls.map fun l => Int.ofNat l.2) false := by
  unfold ofCode
  cases hlast : ls.getLast? with
  | none => rfl
  | some l => simp [h l (List.mem_of_getLast? hlast)]

theorem ofCode_closed (ls : List NumberedLine) {l : NumberedLine} (h : endsBlock l.1 = true) :
    ofCode (ls ++ [l]) =
      .block (Text.unlines ((ls ++ [l]).map Prod.fst)) ((ls ++ [l]).map fun l => Int.ofNat l.2)
        true := by
  simp [ofCode, h]

/-! ## The scanner -/

/-- The scanner with some lines gathered for an open block, given in the order of the file. -/
def scanBehind (number : Nat) (gathered : List NumberedLine) (lines : List (List Char)) :
    List Section :=
  scanFrom number (gathered.map Prod.fst).reverse
    (gathered.map fun l => Int.ofNat l.2).reverse lines

section Scanning

variable (number : Nat) (gathered : List NumberedLine)

theorem scanBehind_nil (hopen : ∀ l ∈ gathered, endsBlock l.1 = false) :
    scanBehind number gathered [] = if gathered = [] then [] else [ofCode gathered] := by
  unfold scanBehind
  rw [scanFrom, ofCode_open hopen]
  cases gathered with
  | nil => rfl
  | cons l more => simp

/-- What the scanner makes of one line, which it takes without its end. -/
theorem scanBehind_cons {raw line : List Char} (hline : Text.withoutLineEnd raw = line)
    (rest : List (List Char)) :
    scanBehind number gathered (raw :: rest) =
      if isCode line then
        if endsBlock line then
          ofCode (gathered ++ [(line, number)]) :: scanBehind (number + 1) [] rest
        else scanBehind (number + 1) (gathered ++ [(line, number)]) rest
      else if line.head? == some '#' then
        ofComment (line, number) :: scanBehind (number + 1) gathered rest
      else scanBehind (number + 1) gathered rest := by
  unfold scanBehind
  rw [scanFrom_cons hline]
  by_cases hcode : isCode line = true
  · rw [if_pos hcode, if_pos hcode]
    by_cases hend : endsBlock line = true
    · rw [if_pos hend, if_pos hend, ofCode_closed gathered hend]
      simp
    · rw [if_neg hend, if_neg hend]
      simp
  · rw [if_neg hcode, if_neg hcode]
    by_cases hblank : line.all Text.isBlank = true
    · rw [if_pos hblank, head?_ne_hash_of_blank hblank]
      rfl
    · have hhash : (line.head? == some '#') = true := by
        simpa [isCode, hblank] using hcode
      rw [if_neg hblank, if_pos hhash]
      rfl

end Scanning

/-- The sections are those of the lines from `number` on, up to the last line of the file, and of
the lines gathered before them. -/
structure FromLine (last number : Nat) (gathered : List NumberedLine) (lines : List (List Char))
    (sections : List Section) : Prop where
  comments : sections.filter (!·.isBlock) =
    ((lines.zipIdx number).filter fun l => l.1.head? == some '#').map ofComment
  blocks : sections.filter (·.isBlock) =
    (cutBehind (fun l => endsBlock l.1)
      (gathered ++ (lines.zipIdx number).filter fun l => isCode l.1)).map ofCode
  later : ∀ s ∈ sections, (number : Int) ≤ s.completedAt last
  ordered : sections.Pairwise fun a b => a.completedAt last < b.completedAt last

section Steps

variable {last number : Nat} {gathered : List NumberedLine} {line : List Char}
  {rest : List (List Char)} {sections : List Section}

theorem fromLine_nil (hopen : ∀ l ∈ gathered, endsBlock l.1 = false) :
    FromLine last (last + 1) gathered [] (if gathered = [] then [] else [ofCode gathered]) := by
  by_cases hne : gathered = []
  · rw [if_pos hne, hne]
    exact ⟨rfl, rfl, by simp, .nil⟩
  · rw [if_neg hne]
    refine ⟨rfl, ?_, ?_, List.pairwise_singleton _ _⟩
    · rw [List.zipIdx_nil, List.filter_nil, List.append_nil, cutBehind_open hne hopen]
      rfl
    · intro s hs
      obtain rfl : s = ofCode gathered := by simpa using hs
      rw [ofCode_open hopen]
      simp [completedAt]

theorem FromLine.weaken (h : FromLine last (number + 1) gathered rest sections) :
    ∀ s ∈ sections, (number : Int) ≤ s.completedAt last := by
  intro s hs
  have := h.later s hs
  omega

/-- A section that is complete at this line stands before all that come later. -/
theorem FromLine.before (h : FromLine last (number + 1) gathered rest sections) {s : Section}
    (hs : s.completedAt last = number) :
    (s :: sections).Pairwise fun a b => a.completedAt last < b.completedAt last := by
  rw [List.pairwise_cons]
  refine ⟨fun b hb => ?_, h.ordered⟩
  have := h.later b hb
  omega

theorem FromLine.blank (hcode : isCode line = false) (hhash : (line.head? == some '#') = false)
    (h : FromLine last (number + 1) gathered rest sections) :
    FromLine last number gathered (line :: rest) sections where
  comments := by
    rw [h.comments, List.zipIdx_cons, List.filter_cons_of_neg (by simp only [hhash]; decide)]
  blocks := by
    rw [h.blocks, List.zipIdx_cons, List.filter_cons_of_neg (by simp only [hcode]; decide)]
  later := h.weaken
  ordered := h.ordered

theorem FromLine.comment (hhash : line.head? = some '#')
    (h : FromLine last (number + 1) gathered rest sections) :
    FromLine last number gathered (line :: rest) (ofComment (line, number) :: sections) where
  comments := by
    rw [List.zipIdx_cons, List.filter_cons_of_pos rfl, h.comments,
      List.filter_cons_of_pos (by simp [hhash]), List.map_cons]
  blocks := by
    rw [List.zipIdx_cons, List.filter_cons_of_neg (by simp [ofComment, isBlock]), h.blocks,
      List.filter_cons_of_neg (by simp [isCode_eq_false_of_hash hhash])]
  later := by
    rw [List.forall_mem_cons]
    exact ⟨Int.le_refl _, h.weaken⟩
  ordered := h.before rfl

theorem FromLine.gather (hcode : isCode line = true)
    (h : FromLine last (number + 1) (gathered ++ [(line, number)]) rest sections) :
    FromLine last number gathered (line :: rest) sections where
  comments := by
    have hhash : line.head? ≠ some '#' := fun hhash => by
      rw [(isCode_eq_false_of_hash hhash).1] at hcode
      cases hcode
    rw [h.comments, List.zipIdx_cons, List.filter_cons_of_neg (by simp [hhash])]
  blocks := by
    rw [h.blocks, List.zipIdx_cons, List.filter_cons_of_pos (by exact hcode), List.append_assoc,
      List.singleton_append]
  later := h.weaken
  ordered := h.ordered

theorem FromLine.close (hopen : ∀ l ∈ gathered, endsBlock l.1 = false)
    (hcode : isCode line = true) (hend : endsBlock line = true)
    (h : FromLine last (number + 1) [] rest sections) :
    FromLine last number gathered (line :: rest)
      (ofCode (gathered ++ [(line, number)]) :: sections) := by
  have hcomplete : (ofCode (gathered ++ [(line, number)])).completedAt last = number := by
    rw [ofCode_closed gathered hend]
    simp [completedAt]
  refine ⟨?_, ?_, ?_, h.before hcomplete⟩
  · have hhash : line.head? ≠ some '#' := fun hhash => by
      rw [(isCode_eq_false_of_hash hhash).1] at hcode
      cases hcode
    rw [List.zipIdx_cons, List.filter_cons_of_neg (by simp [ofCode, isBlock]), h.comments,
      List.filter_cons_of_neg (by simp [hhash])]
  · rw [List.zipIdx_cons, List.filter_cons_of_pos rfl, h.blocks,
      List.filter_cons_of_pos (by exact hcode), cutBehind_append hopen (by exact hend),
      List.map_cons, List.nil_append]
  · rw [List.forall_mem_cons]
    exact ⟨Int.le_of_eq hcomplete.symm, h.weaken⟩

end Steps

/-- The lines from any line on are scanned into their sections. -/
theorem fromLine_scanBehind (lines : List (List Char)) :
    ∀ (last number : Nat) (gathered : List NumberedLine), number + lines.length = last + 1 →
      (∀ l ∈ gathered, endsBlock l.1 = false) →
      FromLine last number gathered (lines.map Text.withoutLineEnd)
        (scanBehind number gathered lines) := by
  induction lines with
  | nil =>
    intro last number gathered hlast hopen
    obtain rfl : number = last + 1 := hlast
    rw [scanBehind_nil _ _ hopen]
    exact fromLine_nil hopen
  | cons raw rest ih =>
    intro last number gathered hlast hopen
    have hlast' : number + 1 + rest.length = last + 1 := by
      simp only [List.length_cons] at hlast
      omega
    have ih (gathered : List NumberedLine) := ih last (number + 1) gathered hlast'
    rw [List.map_cons]
    generalize hline : Text.withoutLineEnd raw = line
    rw [scanBehind_cons number gathered hline]
    by_cases hcode : isCode line = true
    · rw [if_pos hcode]
      by_cases hend : endsBlock line = true
      · rw [if_pos hend]
        exact (ih [] (by simp)).close hopen hcode hend
      · rw [if_neg hend]
        refine (ih _ ?_).gather hcode
        simpa [or_imp, forall_and, hend] using hopen
    · rw [if_neg hcode]
      rw [Bool.not_eq_true] at hcode
      by_cases hhash : (line.head? == some '#') = true
      · rw [if_pos hhash]
        exact (ih _ hopen).comment (by simpa using hhash)
      · rw [if_neg hhash]
        rw [Bool.not_eq_true] at hhash
        exact (ih _ hopen).blank hcode hhash

/-- The scanner finds the sections of the lines, which it takes without their ends. -/
theorem scan_arranged_withoutLineEnd (lines : List (List Char)) :
    Arranged (lines.map Text.withoutLineEnd) (scan lines) := by
  have h := fromLine_scanBehind lines lines.length 1 [] (by omega) (by simp)
  refine ⟨h.comments, h.blocks, ?_⟩
  rw [List.length_map]
  exact h.ordered

/-- The scanner finds the sections of lines that have no line breaks in them. -/
theorem scan_arranged {lines : List (List Char)}
    (hlines : ∀ line ∈ lines, ∀ c ∈ line, Text.isLineBreak c = false) :
    Arranged lines (scan lines) := by
  have h := scan_arranged_withoutLineEnd lines
  rwa [List.map_congr_left fun line hline => Text.withoutLineEnd_eq_self (hlines line hline),
    List.map_id'] at h

/-! ## Texts -/

/-- A comment outside a class stands as it is. -/
def plainText : Section → String
  | comment text _ => text ++ "\n"
  | block .. => ""

section

variable (style : Style) (className source : String)

/-- The section adds that text to an open class: a comment itself, behind the indent of the class,
and a block what its statements become. -/
def Adds : Section → String → Prop
  | comment text _, t => t = style.settings.headerIndent ++ text ++ "\n"
  | block text lines _, t => (blockToManifest style source text lines).result = .ok t

theorem adds_of_bodyText {sections : List Section} {body : String}
    (h : bodyText style source sections = .ok body) :
    ∃ texts, List.Forall₂ (Adds style source) sections texts ∧ body = String.join texts := by
  induction sections generalizing body with
  | nil =>
    cases h
    exact ⟨[], .nil, rfl⟩
  | cons s rest ih =>
    cases s with
    | comment text line =>
      simp only [bodyText, bind_eq_ok_iff, pure_eq_ok_iff] at h
      obtain ⟨more, hmore, rfl⟩ := h
      obtain ⟨texts, htexts, rfl⟩ := ih hmore
      exact ⟨_, .cons rfl htexts, by rw [String.join_cons]⟩
    | block text lines terminated =>
      simp only [bodyText, bind_eq_ok_iff, pure_eq_ok_iff] at h
      obtain ⟨own, hown, more, hmore, rfl⟩ := h
      obtain ⟨texts, htexts, rfl⟩ := ih hmore
      exact ⟨own :: texts, .cons (blockToManifest_eq_ok_iff.2 hown) htexts,
        by rw [String.join_cons]⟩

/-- What opens the class and stands in it. -/
def classText (texts : List String) : String :=
  s!"class {className} \x7b\n" ++ String.join texts

/-- The class opens at the first block, and everything from there on stands in it. -/
theorem openText_false {sections : List Section} {t : String} {o : Bool}
    (h : openText style className source false sections = .ok (t, o)) :
    ∃ before after texts, sections = before ++ after ∧
      (∀ s ∈ before, s.isBlock = false) ∧ (∀ s, after.head? = some s → s.isBlock = true) ∧
      List.Forall₂ (Adds style source) after texts ∧ (o = true ↔ after ≠ []) ∧
      t = String.join (before.map plainText) ++ if o then classText className texts else "" := by
  induction sections generalizing t with
  | nil =>
    cases h
    exact ⟨[], [], [], rfl, by simp, by simp, .nil, by simp, rfl⟩
  | cons s rest ih =>
    cases s with
    | comment text line =>
      simp only [openText, bind_eq_ok_iff, pure_eq_ok_iff] at h
      obtain ⟨⟨more, o⟩, hmore, ⟨⟩⟩ := h
      obtain ⟨before, after, texts, rfl, hbefore, hafter, htexts, ho, ht⟩ := ih hmore
      refine ⟨.comment text line :: before, after, texts, rfl, ?_, hafter, htexts, ho, ?_⟩
      · simpa [isBlock] using hbefore
      · simp [ht, plainText, String.join_cons, String.append_assoc]
    | block text lines terminated =>
      simp only [openText, bind_eq_ok_iff, pure_eq_ok_iff, openText_true, map_eq_ok_iff] at h
      obtain ⟨own, hown, _, ⟨more, hmore, rfl⟩, ⟨⟩⟩ := h
      obtain ⟨texts, htexts, rfl⟩ := adds_of_bodyText style source hmore
      refine ⟨[], _, own :: texts, rfl, by simp, by simp [isBlock],
        .cons (blockToManifest_eq_ok_iff.2 hown) htexts, by simp, ?_⟩
      simp [classText, String.join_cons, String.append_assoc]

end

end Section

/-! ## Recipes -/

/-- The manifest of a recipe has a class exactly when there is a line of code. Before it stand the
comments that come before the first complete block, and in it the texts of all other sections, in
the order of the recipe. -/
theorem ofRecipe_arranges {style : Style} {className source content : String} {m : Manifest}
    (h : (Manifest.ofRecipe style className source content).result = .ok m) :
    m.className = className ∧
      m.classOpened = (Text.splitLines content.toList).any Section.isCode ∧
      ∃ before after texts,
        Section.Arranged (Text.splitLines content.toList) (before ++ after) ∧
        (∀ s ∈ before, s.isBlock = false) ∧ (∀ s, after.head? = some s → s.isBlock = true) ∧
        (m.classOpened = true ↔ after ≠ []) ∧
        List.Forall₂ (Section.Adds style source) after texts ∧
        m.text = String.join (before.map Section.plainText) ++
          if m.classOpened then s!"class {className} \x7b\n" ++ String.join texts ++ "\x7d\n"
          else "" := by
  have hlines : ∀ line ∈ Text.splitLines content.toList, ∀ c ∈ line,
      Text.isLineBreak c = false := fun line hline c =>
    Text.isLineBreak_of_mem_splitLines hline
  obtain ⟨t, o, hopen, rfl⟩ := ofRecipe_eq_ok_iff.1 h
  have ho : o = (Text.splitLines content.toList).any Section.isCode := by
    rw [Section.opened_of_openText style className source hopen, Section.scan,
      Section.any_isBlock_scanFrom hlines]
    rfl
  obtain ⟨before, after, texts, hscan, hbefore, hafter, htexts, hiff, rfl⟩ :=
    Section.openText_false style className source hopen
  have harranged := Section.scan_arranged hlines
  rw [hscan] at harranged
  refine ⟨rfl, ho, before, after, texts, harranged, hbefore, hafter, hiff, htexts, ?_⟩
  cases o <;> simp [Section.closingText, Section.classText, String.append_assoc]

/-- A comment inside a block that is closed stands before the class. One inside the block that the
file ends in stands in the class, before the text of that block. -/
theorem ofRecipe_arranges_comments_in_blocks :
    let content := "# a\nlog 'b' do\n# c\nend\nlog 'd'\n# e"
    let text := "# a\n# c\nclass default \x7b\n  log \x7b 'b':\n    ;\n  \x7d\n\n" ++
      "  # e\n  log \x7b 'd':\n    ;\n  \x7d\n\n\x7d\n"
    (Manifest.ofRecipe {} "default" "<recipe>" content).result = .ok ⟨"default", text, true⟩ ∧
      ∃ before after texts,
        Section.Arranged (Text.splitLines content.toList) (before ++ after) ∧
        (∀ s ∈ before, s.isBlock = false) ∧ (∀ s, after.head? = some s → s.isBlock = true) ∧
        after ≠ [] ∧ List.Forall₂ (Section.Adds {} "<recipe>") after texts ∧
        text = String.join (before.map Section.plainText) ++
          ("class default \x7b\n" ++ String.join texts ++ "\x7d\n") := by
  intro content text
  have h : (Manifest.ofRecipe {} "default" "<recipe>" content).result =
      .ok ⟨"default", text, true⟩ := by decide +kernel
  obtain ⟨-, -, before, after, texts, harranged, hbefore, hafter, hopened, htexts, htext⟩ :=
    ofRecipe_arranges h
  exact ⟨h, before, after, texts, harranged, hbefore, hafter, hopened.1 rfl, htexts, htext⟩

end RecipeManifest

import RecipeManifest.Proofs.Arrangement
import RecipeManifest.Proofs.ScannedHeredoc

/-!
The lines of a recipe in its sections.

`Partitioned` says of some sections that they are made of the lines that are not blank, each of them
once: comments of the lines that start with the comment mark, and blocks of the others, cut behind
the lines that end a block. Main statement (`scan_partitions`): the scanner partitions every list of
lines so, whatever the lines end with.
-/

namespace RecipeManifest

/-! ## Lines and their ends -/

namespace Text

/-- A line is what is left of it and the carriage returns and newlines behind that. -/
theorem exists_lineEnd (line : List Char) :
    ∃ ends, (∀ c ∈ ends, c = '\r' ∨ c = '\n') ∧ line = withoutLineEnd line ++ ends := by
  obtain ⟨ends, hends, hline⟩ := exists_of_trimEndBy (p := fun c => c == '\r' || c == '\n') line
  exact ⟨ends, fun c hc => by simpa using hends c hc, hline⟩

/-- The end of a line does not count when the line is looked at for being blank. -/
theorem all_isBlank_withoutLineEnd (line : List Char) :
    (withoutLineEnd line).all isBlank = line.all isBlank := by
  obtain ⟨ends, hends, hline⟩ := exists_lineEnd line
  have hblank : ends.all isBlank = true := by
    rw [List.all_eq_true]
    intro c hc
    rcases hends c hc with rfl | rfl <;> decide
  conv_rhs => rw [hline, List.all_append, hblank, Bool.and_true]

/-- Nor does it count for what the line starts with. -/
theorem head?_withoutLineEnd (line : List Char) :
    ((withoutLineEnd line).head? == some '#') = (line.head? == some '#') := by
  obtain ⟨ends, hends, hline⟩ := exists_lineEnd line
  cases hleft : withoutLineEnd line with
  | cons c rest => rw [hline, hleft]; rfl
  | nil =>
    rw [hline, hleft, List.nil_append]
    cases ends with
    | nil => rfl
    | cons c more => rcases hends c (by simp) with rfl | rfl <;> rfl

end Text

namespace Section

theorem isWordChar_lineEnd {c : Char} (h : c = '\r' ∨ c = '\n') : Text.isWordChar c = false := by
  rcases h with rfl | rfl <;> decide +kernel

/-- A line end behind a word ends the word as nothing does. -/
theorem endsBlock_append {ends : List Char} (hends : ∀ c ∈ ends, c = '\r' ∨ c = '\n')
    (line : List Char) : endsBlock (line ++ ends) = endsBlock line := by
  have hstop : ends.takeWhile Text.isWordChar = [] := by
    cases ends with
    | nil => rfl
    | cons c more => simp [isWordChar_lineEnd (hends c (by simp))]
  rw [Bool.eq_iff_iff, endsBlock_iff, endsBlock_iff, List.takeWhile_append, hstop,
    List.append_nil]
  split
  · next hall => rw [(List.takeWhile_sublist _).eq_of_length hall]
  · rfl

theorem endsBlock_withoutLineEnd (line : List Char) :
    endsBlock (Text.withoutLineEnd line) = endsBlock line := by
  obtain ⟨ends, hends, hline⟩ := Text.exists_lineEnd line
  conv_rhs => rw [hline, endsBlock_append hends]

end Section

/-! ## Pieces -/

section

variable {α : Type} {p : α → Bool}

theorem flatten_cutBehind (l : List α) : (cutBehind p l).flatten = l := by
  fun_induction cutBehind p l with
  | case1 => rfl
  | case2 x rest hx ih => simp [ih]
  | case3 x rest hx hnil ih => simpa [hnil] using ih
  | case4 x rest hx piece more hcut ih => simpa [hcut] using ih

/-- Only the last member of a piece can be one that the list is cut behind. -/
theorem cutBehind_piece {l piece : List α} (h : piece ∈ cutBehind p l) :
    piece ≠ [] ∧ ∀ x ∈ piece.dropLast, p x = false := by
  fun_induction cutBehind p l generalizing piece with
  | case1 => cases h
  | case2 x rest hx ih =>
    obtain rfl | h := List.mem_cons.1 h
    · simp
    · exact ih h
  | case3 x rest hx hnil ih =>
    obtain rfl := List.mem_singleton.1 h
    simp
  | case4 x rest hx first more hcut ih =>
    obtain rfl | h := List.mem_cons.1 h
    · obtain ⟨hne, hfirst⟩ := ih (hcut ▸ List.mem_cons_self)
      refine ⟨by simp, ?_⟩
      rw [List.dropLast_cons_of_ne_nil hne]
      simpa [hx] using hfirst
    · exact ih (by simp [hcut, h])

end

namespace Section

/-! ## Sections -/

/-- The numbers of the lines that a section is made of. -/
def lineNumbers : Section → List Int
  | comment _ line => [line]
  | block _ lines _ => lines

/-- The section is a block that no line ends. -/
def isOpen : Section → Bool
  | block _ _ false => true
  | _ => false

/-- The line of a number. -/
def lineAt (lines : List (List Char)) (number : Int) : List Char :=
  lines.getD (number - 1).toNat []

/-- The sections are made of the lines that are not blank. -/
structure Partitioned (lines : List (List Char)) (sections : List Section) : Prop where
  /-- No line is in two sections, or in one of them twice. -/
  once : (sections.flatMap lineNumbers).Nodup
  covered : ∀ n, n ∈ sections.flatMap lineNumbers ↔
    1 ≤ n ∧ n ≤ lines.length ∧ (lineAt lines n).all Text.isBlank = false
  /-- The comments are the lines that start with the comment mark, in their order. -/
  comments : sections.filter (!·.isBlock) =
    ((lines.zipIdx 1).filter fun l => l.1.head? == some '#').map
      fun l => .comment (String.ofList (Text.withoutLineEnd l.1)) l.2
  /-- Line numbers grow within blocks and from block to block. -/
  increasing : ((sections.filter (·.isBlock)).flatMap lineNumbers).Pairwise (· < ·)
  text : ∀ text numbers terminated, .block text numbers terminated ∈ sections →
    text = Text.unlines (numbers.map fun n => Text.withoutLineEnd (lineAt lines n))
  /-- The last line of a terminated block ends it, and no other line does. -/
  terminated : ∀ text numbers, .block text numbers true ∈ sections →
    ∃ earlier last, numbers = earlier ++ [last] ∧ endsBlock (lineAt lines last) = true ∧
      ∀ n ∈ earlier, endsBlock (lineAt lines n) = false
  unterminated : ∀ text numbers, .block text numbers false ∈ sections →
    numbers ≠ [] ∧ ∀ n ∈ numbers, endsBlock (lineAt lines n) = false
  /-- A block that is not terminated is the last section. -/
  openLast : ∀ s ∈ sections.dropLast, s.isOpen = false
  openOnce : sections.countP isOpen ≤ 1
  /-- The sections stand in the order in which they are complete. -/
  ordered : sections.Pairwise fun a b =>
    a.completedAt lines.length < b.completedAt lines.length
  /-- So a comment inside a block stands before the block. -/
  commentsFirst : sections.Pairwise fun a b =>
    ∀ n ∈ a.lineNumbers, ∀ text (line : Nat), b = .comment text line → n < (line : Int)

/-! ### Numbered lines -/

/-- The lines without their ends, with their numbers. -/
def numbered (lines : List (List Char)) : List NumberedLine :=
  (lines.map Text.withoutLineEnd).zipIdx 1

/-- The number of a line as sections have it. -/
def lineNumber (l : NumberedLine) : Int :=
  l.2

theorem mem_numbered {lines : List (List Char)} {l : NumberedLine} :
    l ∈ numbered lines ↔
      1 ≤ l.2 ∧ l.2 ≤ lines.length ∧ Text.withoutLineEnd (lineAt lines (lineNumber l)) = l.1 := by
  obtain ⟨line, n⟩ := l
  rw [numbered, List.mk_mem_zipIdx_iff_le_and_getElem?_sub]
  have hindex : ((n : Int) - 1).toNat = n - 1 := by omega
  simp only [lineAt, lineNumber, List.getD_eq_getElem?_getD, hindex]
  refine and_congr_right fun hn => ?_
  by_cases hlast : n ≤ lines.length
  · have hlt : n - 1 < lines.length := by omega
    simp [hlast, hlt]
  · have hge : lines.length ≤ n - 1 := by omega
    simp [hlast, hge]

theorem pairwise_numbered (lines : List (List Char)) :
    ((numbered lines).map lineNumber).Pairwise (· < ·) := by
  have h : ((numbered lines).map Prod.snd).Pairwise (· < ·) := by
    rw [numbered, List.zipIdx_map_snd]
    exact List.pairwise_lt_range'
  rw [List.pairwise_map] at h ⊢
  exact h.imp fun hlt => Int.ofNat_lt.2 hlt

theorem endsBlock_lineAt {lines : List (List Char)} {l : NumberedLine}
    (h : l ∈ numbered lines) :
    endsBlock (lineAt lines (lineNumber l)) = endsBlock l.1 := by
  rw [← (mem_numbered.1 h).2.2, endsBlock_withoutLineEnd]

/-- A line that is not blank is a comment or a line of code. -/
theorem isComment_eq (line : List Char) :
    (line.head? == some '#') = (!isCode line && !line.all Text.isBlank) := by
  cases hblank : line.all Text.isBlank with
  | true => simp [head?_ne_hash_of_blank hblank]
  | false => simp [isCode, hblank, bne]

theorem completedAt_of_isOpen {s : Section} (hopen : s.isOpen = true) (last : Nat) :
    s.completedAt last = last + 1 := by
  unfold isOpen at hopen
  split at hopen
  · rfl
  · cases hopen

section Partition

variable {lines : List (List Char)} {sections : List Section}
  (h : Arranged (lines.map Text.withoutLineEnd) sections)

include h

/-! ### The numbers of all sections -/

/-- The blocks have the lines of code, in their order. -/
theorem lineNumbers_blocks :
    (sections.filter (·.isBlock)).flatMap lineNumbers =
      ((numbered lines).filter fun l => isCode l.1).map lineNumber := by
  rw [h.blocks, List.flatMap_map]
  show (cutBehind _ _).flatMap (fun piece => piece.map lineNumber) = _
  rw [List.flatMap_def, ← List.map_flatten, flatten_cutBehind]
  rfl

theorem lineNumbers_comments :
    (sections.filter (!·.isBlock)).flatMap lineNumbers =
      ((numbered lines).filter fun l => l.1.head? == some '#').map lineNumber := by
  rw [h.comments, List.flatMap_map]
  exact List.flatMap_pure_eq_map ..

/-- The sections have the lines that are not blank, each of them once. -/
theorem lineNumbers_perm :
    (sections.flatMap lineNumbers).Perm
      (((numbered lines).filter fun l => !l.1.all Text.isBlank).map lineNumber) := by
  have hsections := (List.filter_append_perm (·.isBlock) sections).flatMap_right lineNumbers
  rw [List.flatMap_append, lineNumbers_blocks h, lineNumbers_comments h, ← List.map_append]
    at hsections
  refine hsections.symm.trans (List.Perm.map _ ?_)
  have hcode : (numbered lines).filter (fun l => isCode l.1) =
      ((numbered lines).filter fun l => !l.1.all Text.isBlank).filter fun l => isCode l.1 := by
    rw [List.filter_filter]
    refine List.filter_congr fun l _ => ?_
    cases hblank : l.1.all Text.isBlank <;> simp [isCode, hblank]
  have hcomment : (numbered lines).filter (fun l => l.1.head? == some '#') =
      ((numbered lines).filter fun l => !l.1.all Text.isBlank).filter fun l => !isCode l.1 := by
    rw [List.filter_filter]
    exact List.filter_congr fun l _ => isComment_eq l.1
  rw [hcode, hcomment]
  exact List.filter_append_perm ..

theorem mem_lineNumbers_iff (n : Int) :
    n ∈ sections.flatMap lineNumbers ↔
      1 ≤ n ∧ n ≤ lines.length ∧ (lineAt lines n).all Text.isBlank = false := by
  rw [(lineNumbers_perm h).mem_iff, List.mem_map]
  simp only [List.mem_filter, mem_numbered, Bool.not_eq_true']
  constructor
  · rintro ⟨l, ⟨⟨hfirst, hlast, hline⟩, hblank⟩, rfl⟩
    rw [← hline, Text.all_isBlank_withoutLineEnd] at hblank
    exact ⟨Int.ofNat_le.2 hfirst, Int.ofNat_le.2 hlast, hblank⟩
  · rintro ⟨hfirst, hlast, hblank⟩
    obtain ⟨k, rfl⟩ : ∃ k : Nat, n = k := ⟨n.toNat, by omega⟩
    refine ⟨(Text.withoutLineEnd (lineAt lines k), k), ⟨⟨?_, ?_, rfl⟩, ?_⟩, rfl⟩
    · exact Int.ofNat_le.1 hfirst
    · exact Int.ofNat_le.1 hlast
    · rw [Text.all_isBlank_withoutLineEnd, hblank]

/-! ### Single sections -/

section Block

variable {text : List Char} {numbers : LineMap} {terminated : Bool}
  (hs : .block text numbers terminated ∈ sections)

include hs

/-- The piece of the lines that a block is made of. -/
theorem exists_piece_of_block :
    ∃ earlier last, numbers = (earlier ++ [last]).map lineNumber ∧
      text = Text.unlines ((earlier ++ [last]).map Prod.fst) ∧ terminated = endsBlock last.1 ∧
      (earlier ++ [last]).Sublist (numbered lines) ∧ ∀ l ∈ earlier, endsBlock l.1 = false := by
  have hmem : .block text numbers terminated ∈ sections.filter (·.isBlock) :=
    List.mem_filter.2 ⟨hs, rfl⟩
  rw [h.blocks] at hmem
  obtain ⟨piece, hpiece, hblock⟩ := List.mem_map.1 hmem
  obtain ⟨rfl, rfl, rfl⟩ := Section.block.inj hblock
  obtain ⟨hne, hopen⟩ := cutBehind_piece hpiece
  have hwhole := List.sublist_flatten_of_mem hpiece
  rw [flatten_cutBehind] at hwhole
  refine ⟨piece.dropLast, piece.getLast hne, ?_, ?_, ?_, ?_, hopen⟩
  · rw [List.dropLast_append_getLast]
    rfl
  · rw [List.dropLast_append_getLast]
  · rw [List.getLast?_eq_some_getLast hne]
    rfl
  · rw [List.dropLast_append_getLast]
    exact hwhole.trans List.filter_sublist

theorem text_of_block :
    text = Text.unlines (numbers.map fun n => Text.withoutLineEnd (lineAt lines n)) := by
  obtain ⟨earlier, last, rfl, rfl, -, hwhole, -⟩ := exists_piece_of_block h hs
  rw [List.map_map]
  refine congrArg Text.unlines (List.map_congr_left fun l hl => ?_)
  exact (mem_numbered.1 (hwhole.subset hl)).2.2.symm

/-- A block ends where its last line ends it, or not at all. -/
theorem endsBlock_of_block :
    ∃ earlier last, numbers = earlier ++ [last] ∧ endsBlock (lineAt lines last) = terminated ∧
      ∀ n ∈ earlier, endsBlock (lineAt lines n) = false := by
  obtain ⟨earlier, last, rfl, -, rfl, hwhole, hopen⟩ := exists_piece_of_block h hs
  refine ⟨earlier.map lineNumber, lineNumber last, by simp, ?_, fun n hn => ?_⟩
  · exact endsBlock_lineAt (hwhole.subset (by simp))
  · obtain ⟨l, hl, rfl⟩ := List.mem_map.1 hn
    rw [endsBlock_lineAt (hwhole.subset (by simp [hl])), hopen l hl]

end Block

/-- A section is complete behind all its lines. -/
theorem le_completedAt {s : Section} (hs : s ∈ sections) {n : Int} (hn : n ∈ s.lineNumbers) :
    n ≤ s.completedAt lines.length := by
  cases s with
  | comment text line =>
    obtain rfl := List.mem_singleton.1 hn
    exact Int.le_refl _
  | block text numbers terminated =>
    cases terminated with
    | false =>
      have := ((mem_lineNumbers_iff h n).1 (List.mem_flatMap.2 ⟨_, hs, hn⟩)).2.1
      simp only [completedAt]
      omega
    | true =>
      obtain ⟨earlier, last, rfl, -, -, hwhole, -⟩ := exists_piece_of_block h hs
      have hgrow := (pairwise_numbered lines).sublist (hwhole.map lineNumber)
      rw [List.map_append, List.map_singleton, List.pairwise_append] at hgrow
      simp only [lineNumbers, List.map_append, List.map_singleton, List.mem_append,
        List.mem_singleton] at hn
      rw [show completedAt lines.length (.block text ((earlier ++ [last]).map lineNumber) true) =
        lineNumber last by simp [completedAt]]
      obtain hn | rfl := hn
      · exact Int.le_of_lt (hgrow.2.2 n hn _ (by simp))
      · exact Int.le_refl _

/-- A section that a line completes is complete by the end of the file. -/
theorem completedAt_le {s : Section} (hs : s ∈ sections) :
    s.completedAt lines.length ≤ lines.length + 1 := by
  have hmem {n : Int} (hn : n ∈ s.lineNumbers) : n ≤ lines.length :=
    ((mem_lineNumbers_iff h n).1 (List.mem_flatMap.2 ⟨s, hs, hn⟩)).2.1
  cases s with
  | comment text line =>
    have := hmem (n := line) (by simp [lineNumbers])
    simp only [completedAt]
    omega
  | block text numbers terminated =>
    cases terminated with
    | false => exact Int.le_refl _
    | true =>
      obtain ⟨earlier, last, rfl, -⟩ := endsBlock_of_block h hs
      have := hmem (n := last) (by simp [lineNumbers])
      simp only [completedAt, List.getLast?_append, List.getLast?_singleton, Option.some_or,
        Option.getD_some]
      omega

/-- Nothing stands behind a block that no line ends. -/
theorem isOpen_of_mem_dropLast {s : Section} (hs : s ∈ sections.dropLast) :
    s.isOpen = false := by
  have hne : sections ≠ [] := by
    rintro rfl
    cases hs
  have hordered := h.ordered
  rw [List.length_map, ← List.dropLast_append_getLast hne, List.pairwise_append] at hordered
  have hlt := hordered.2.2 s hs (sections.getLast hne) (by simp)
  have hle := completedAt_le h (List.getLast_mem hne)
  rw [Bool.eq_false_iff]
  intro hopen
  rw [completedAt_of_isOpen hopen] at hlt
  omega

theorem countP_isOpen_le :
    sections.countP isOpen ≤ 1 := by
  by_cases hne : sections = []
  · simp [hne]
  · have hearlier : sections.dropLast.countP isOpen = 0 :=
      List.countP_eq_zero.2 fun s hs => by simp [isOpen_of_mem_dropLast h hs]
    rw [← List.dropLast_append_getLast hne, List.countP_append, hearlier, Nat.zero_add]
    exact List.countP_le_length

end Partition

/-- Every list of lines is partitioned into its sections. -/
theorem scan_partitions (lines : List (List Char)) : Partitioned lines (scan lines) := by
  have h := scan_arranged_withoutLineEnd lines
  have hordered := h.ordered
  rw [List.length_map] at hordered
  exact {
    once := by
      rw [(lineNumbers_perm h).nodup_iff]
      exact ((pairwise_numbered lines).sublist (List.filter_sublist.map _)).imp Int.ne_of_lt
    covered := mem_lineNumbers_iff h
    comments := by
      rw [h.comments, List.zipIdx_map, List.filter_map, List.map_map]
      refine congrArg (List.map _) (List.filter_congr fun l _ => ?_)
      exact Text.head?_withoutLineEnd l.1
    increasing := by
      rw [lineNumbers_blocks h]
      exact (pairwise_numbered lines).sublist (List.filter_sublist.map _)
    text := fun _ _ _ hs => text_of_block h hs
    terminated := fun _ _ hs => endsBlock_of_block h hs
    unterminated := fun _ _ hs => by
      obtain ⟨earlier, last, rfl, hlast, hearlier⟩ := endsBlock_of_block h hs
      refine ⟨by simp, fun n hn => ?_⟩
      rcases List.mem_append.1 hn with hn | hn
      · exact hearlier n hn
      · rw [List.mem_singleton.1 hn, hlast]
    openLast := fun _ hs => isOpen_of_mem_dropLast h hs
    openOnce := countP_isOpen_le h
    ordered := hordered
    commentsFirst := by
      refine hordered.imp_of_mem fun {a b} ha _ hlt n hn text line hb => ?_
      have hle := le_completedAt h ha hn
      rw [hb] at hlt
      exact Int.lt_of_le_of_lt hle hlt }

end Section

end RecipeManifest

import RecipeManifest.Proofs.ControlStructures

/-!
Heredocs that one line announces.

A command can announce several heredocs. Their bodies follow the line in turn, each up to the line
that closes it (`HeredocStyle.IsClosing`), and what follows the last body is read as a text of its
own.

    cmd <<'A', <<~'B'      tokenize gives cmd, the text of A, a comma, the text of B, the line end,
    lines of A             and then the tokens of the rest, as many characters and lines further on
    A                      as lie before it                              (tokenize_heredocs)
    lines of B
      B
    rest
-/

namespace RecipeManifest

/-! ## The margin -/

namespace Text

variable {a b m : List Char}

theorem commonStart_isPrefix_left (a b : List Char) : commonStart a b <+: a := by
  fun_induction commonStart a b with
  | case1 as c bs ih => exact (List.prefix_cons_inj c).2 ih
  | case2 | case3 => exact List.nil_prefix

theorem commonStart_isPrefix_right (a b : List Char) : commonStart a b <+: b := by
  fun_induction commonStart a b with
  | case1 as c bs ih => exact (List.prefix_cons_inj c).2 ih
  | case2 | case3 => exact List.nil_prefix

theorem isPrefix_commonStart (ha : m <+: a) (hb : m <+: b) : m <+: commonStart a b := by
  induction m generalizing a b with
  | nil => exact List.nil_prefix
  | cons c m ih =>
    obtain ⟨a, rfl⟩ := ha
    obtain ⟨b, rfl⟩ := hb
    simp only [List.cons_append, commonStart, if_true]
    exact (List.prefix_cons_inj c).2 (ih (List.prefix_append m a) (List.prefix_append m b))

/-- The longest common beginning of several texts. -/
theorem isPrefix_foldl_commonStart {first : List Char} {others : List (List Char)} :
    m <+: others.foldl commonStart first ↔ m <+: first ∧ ∀ other ∈ others, m <+: other := by
  induction others generalizing first with
  | nil => simp
  | cons other others ih =>
    rw [List.foldl_cons, ih, List.forall_mem_cons, ← and_assoc]
    refine and_congr_left fun _ => ⟨fun h => ?_, fun h => isPrefix_commonStart h.1 h.2⟩
    exact ⟨h.trans (commonStart_isPrefix_left _ _), h.trans (commonStart_isPrefix_right _ _)⟩

/-- The longest run of spaces and tabs that every line starts with that has other text in it. -/
structure IsMargin (lines : List (List Char)) (margin : List Char) : Prop where
  indent : margin.all isIndent = true
  common : ∀ line ∈ lines, line.all isIndent = false → margin <+: line
  longest : ∀ m : List Char, m.all isIndent = true →
    (∀ line ∈ lines, line.all isIndent = false → m <+: line) →
    (∃ line ∈ lines, line.all isIndent = false) → m <+: margin

theorem isPrefix_takeWhile_isIndent {line : List Char} :
    m <+: line.takeWhile isIndent ↔ m.all isIndent = true ∧ m <+: line := by
  constructor
  · intro h
    refine ⟨List.all_eq_true.2 fun c hc => ?_, h.trans (List.takeWhile_prefix _)⟩
    exact List.mem_takeWhile_imp (h.subset hc)
  · rintro ⟨hall, rest, rfl⟩
    rw [List.takeWhile_append_of_pos (List.all_eq_true.1 hall)]
    exact List.prefix_append _ _

theorem isMargin_margin (lines : List (List Char)) : IsMargin lines (margin lines) := by
  -- what starts the margin starts every line with other text, and is made of spaces and tabs
  have hmem {line : List Char} :
      line ∈ lines.filter (fun l => l.any fun c => !isIndent c) ↔
        line ∈ lines ∧ line.all isIndent = false := by
    rw [List.mem_filter, List.all_eq_not_any_not]
    simp
  unfold margin
  cases hf : lines.filter (fun l => l.any fun c => !isIndent c) with
  | nil =>
    have hnone : ¬ ∃ line ∈ lines, line.all isIndent = false := by
      rintro ⟨line, hline⟩
      rw [← hmem, hf] at hline
      cases hline
    exact ⟨rfl, fun _ _ _ => List.nil_prefix, fun _ _ _ h => absurd h hnone⟩
  | cons first others =>
    rw [hf] at hmem
    have hstart : ∀ m, m <+: (others.map (List.takeWhile isIndent)).foldl commonStart
        (first.takeWhile isIndent) ↔
        m.all isIndent = true ∧ ∀ line ∈ lines, line.all isIndent = false → m <+: line := by
      intro m
      rw [isPrefix_foldl_commonStart, List.forall_mem_map]
      simp only [isPrefix_takeWhile_isIndent]
      constructor
      · rintro ⟨⟨hm, hfirst⟩, hothers⟩
        refine ⟨hm, fun line hline hother => ?_⟩
        rcases List.mem_cons.1 (hmem.2 ⟨hline, hother⟩) with rfl | hmore
        · exact hfirst
        · exact (hothers line hmore).2
      · rintro ⟨hm, hlines⟩
        have hstart : ∀ line ∈ first :: others, m <+: line := fun line hline =>
          hlines line (hmem.1 hline).1 (hmem.1 hline).2
        exact ⟨⟨hm, hstart first List.mem_cons_self⟩,
          fun line hline => ⟨hm, hstart line (List.mem_cons_of_mem first hline)⟩⟩
    obtain ⟨hindent, hcommon⟩ := (hstart _).1 (List.prefix_refl _)
    exact ⟨hindent, hcommon, fun m hm hlines _ => (hstart m).2 ⟨hm, hlines⟩⟩

end Text

/-! ## Closing lines -/

/-- The line closes a heredoc with that tag: it is the tag, with carriage returns behind it, or with
white space around it if the style allows the tag to be indented. -/
def HeredocStyle.IsClosing (style : HeredocStyle) (tag line : List Char) : Prop :=
  match style with
  | .flush => ∃ n, line = tag ++ List.replicate n '\r'
  | .indented | .squiggly =>
    ∃ front back, (∀ c ∈ front ++ back, Text.isBlank c = true) ∧ line = front ++ tag ++ back

theorem closes_iff (style : HeredocStyle) (quote : Option Char) (tag : HeredocTag)
    (line : List Char) :
    (HeredocOpener.mk style quote tag.chars).closes line = true ↔
      style.IsClosing tag.chars line := by
  have hspaces : (Text.trim line == tag.chars) = true ↔
      ∃ front back, (∀ c ∈ front ++ back, Text.isBlank c = true) ∧
        line = front ++ tag.chars ++ back := by
    rw [beq_iff_eq]
    constructor
    · intro h
      obtain ⟨front, back, hall, hline⟩ := Text.exists_of_trim line
      exact ⟨front, back, hall, h ▸ hline⟩
    · rintro ⟨front, back, hall, rfl⟩
      rw [Text.trim_append (fun c hc => hall c (by simp [hc])) (fun c hc => hall c (by simp [hc]))]
      exact beq_iff_eq.1 tag.closes_chars
  cases style with
  | flush =>
    show (Text.trimEndBy (· == '\r') line == tag.chars) = true ↔ _
    rw [beq_iff_eq]
    constructor
    · intro h
      obtain ⟨back, hback, hline⟩ := Text.exists_of_trimEndBy (p := (· == '\r')) line
      have hreturns : back = List.replicate back.length '\r' :=
        List.eq_replicate_iff.2 ⟨rfl, fun c hc => beq_iff_eq.1 (hback c hc)⟩
      exact ⟨back.length, by rw [← hreturns, ← h, ← hline]⟩
    · rintro ⟨n, rfl⟩
      have htag : ∀ c ∈ tag.chars, (c == '\r') = false := by
        intro c hc
        rw [beq_eq_false_iff_ne]
        rintro rfl
        exact absurd (tag.isNameChar_of_mem hc) (by decide)
      rw [Text.trimEndBy, List.reverse_append, List.dropWhile_append_of_pos (by simp)]
      exact Text.trimEndBy_eq_self htag
  | indented => exact hspaces
  | squiggly => exact hspaces

instance (style : HeredocStyle) (tag : HeredocTag) (line : List Char) :
    Decidable (style.IsClosing tag.chars line) :=
  decidable_of_iff _ (closes_iff style none tag line)

/-! ## Writing -/

def HeredocStyle.mark : HeredocStyle → List Char
  | flush => []
  | indented => ['-']
  | squiggly => ['~']

/-- A heredoc whose tag is in single quotes, with its lines and the line that closes it. -/
structure Heredoc where
  style : HeredocStyle
  tag : HeredocTag
  lines : List (List Char)
  last : List Char
  lines_ok : ∀ line ∈ lines, '\n' ∉ line ∧ ¬ style.IsClosing tag.chars line
  last_ok : '\n' ∉ last ∧ style.IsClosing tag.chars last

namespace Heredoc

variable (h : Heredoc)

def opener : HeredocOpener :=
  ⟨h.style, some '\'', h.tag.chars⟩

/-- What announces the heredoc. -/
def announcement : List Char :=
  '<' :: '<' :: (h.style.mark ++ '\'' :: (h.tag.chars ++ ['\'']))

/-- What follows the line that announces the heredoc. -/
def body : List Char :=
  Text.unlines (h.lines ++ [h.last])

/-- What the heredoc stands for. -/
def text : List Char :=
  h.opener.text h.lines

/-- The text is that of the heredoc: its lines, each with a newline behind it. If the style takes
the margin off, each line loses the common margin, and a line of spaces and tabs all it has. -/
def IsText (text : List Char) : Prop :=
  match h.style with
  | .flush | .indented => text = Text.unlines h.lines
  | .squiggly => ∃ margin, Text.IsMargin h.lines margin ∧
      text = Text.unlines (h.lines.map fun line =>
        if line.all Text.isIndent then [] else line.drop margin.length)

theorem isText_text : h.IsText h.text := by
  unfold IsText text HeredocOpener.text opener
  cases h.style with
  | flush => rfl
  | indented => rfl
  | squiggly => exact ⟨_, Text.isMargin_margin h.lines, rfl⟩

theorem newline_notMem_announcement : '\n' ∉ h.announcement := by
  have hmark : '\n' ∉ h.style.mark := by cases h.style <;> decide
  simp [announcement, hmark, h.tag.newline_notMem]

theorem length_announcement : h.announcement.length = h.opener.length := by
  cases hs : h.style <;>
    simp [announcement, opener, HeredocOpener.length, HeredocStyle.mark, hs] <;> omega

theorem read_announcement (rest : List Char) :
    HeredocOpener.read (h.announcement ++ rest) = some h.opener := by
  have hname : frontName (h.tag.chars ++ '\'' :: rest) = h.tag.chars := by
    have htake : (h.tag.chars ++ '\'' :: rest).takeWhile isNameChar = h.tag.chars :=
      Plain.takeWhile_of_head (fun c hc => h.tag.isNameChar_of_mem hc) (by rintro _ ⟨⟩; decide)
    simpa [frontName, HeredocTag.chars, h.tag.first_ok] using htake
  have hquote : (some '\'').filter (fun c => c == '\'' || c == '"') = some '\'' := by decide
  have hne : h.tag.chars ≠ [] := by simp [HeredocTag.chars]
  have htag : HeredocOpener.readTag h.style ('\'' :: (h.tag.chars ++ '\'' :: rest)) =
      some h.opener := by
    simp only [HeredocOpener.readTag, List.head?_cons, hquote, Option.toList_some,
      List.length_singleton, List.drop_one, List.tail_cons, hname, List.drop_left]
    simp [hne, opener]
  have hchars : h.announcement ++ rest =
      '<' :: '<' :: (h.style.mark ++ '\'' :: (h.tag.chars ++ '\'' :: rest)) := by
    simp [announcement]
  rw [hchars, ← htag]
  cases h.style <;> rfl

/-- The text starts with the body of the heredoc and goes on with `rest`. At the end the newline
behind the closing line may be missing. -/
def Leads (cs rest : List Char) : Prop :=
  cs = h.body ++ rest ∨ (rest = [] ∧ cs ++ ['\n'] = h.body)

theorem last_ne_nil : h.last ≠ [] := by
  have hne : h.tag.chars ≠ [] := by simp [HeredocTag.chars]
  have hclose := h.last_ok.2
  unfold HeredocStyle.IsClosing at hclose
  split at hclose
  · obtain ⟨n, hlast⟩ := hclose
    simp [hlast, hne]
  · obtain ⟨front, back, -, hlast⟩ := hclose
    simp [hlast, hne]
  · obtain ⟨front, back, -, hlast⟩ := hclose
    simp [hlast, hne]

/-- The lines are the same without the newline at the end. -/
theorem newlineLines_of_append {cs : List Char} (hcs : cs ++ ['\n'] = h.body) :
    Text.newlineLines cs = Text.newlineLines h.body := by
  have hlines : ∀ line ∈ h.lines, '\n' ∉ line := fun line hline => (h.lines_ok line hline).1
  have hall : ∀ line ∈ h.lines ++ [h.last], '\n' ∉ line := by
    simpa [or_imp, forall_and] using ⟨hlines, h.last_ok.1⟩
  have hsplit : cs = Text.unlines h.lines ++ h.last := by
    have : cs ++ ['\n'] = Text.unlines h.lines ++ h.last ++ ['\n'] := by
      rw [hcs]
      simp [body, Text.unlines]
    exact List.append_cancel_right this
  rw [hsplit, Text.newlineLines_unlines_append hlines,
    Text.newlineLines_of_notMem h.last_ok.1 h.last_ne_nil, body, Text.newlineLines_unlines hall]

theorem read_body {cs rest : List Char} (hcs : h.Leads cs rest) :
    HeredocBody.read h.opener cs = some ⟨h.lines, h.body.length, h.lines.length + 1⟩ ∧
      cs.drop h.body.length = rest := by
  have hlines : ∀ line ∈ h.lines, '\n' ∉ line := fun line hline => (h.lines_ok line hline).1
  have hopen : ∀ line ∈ h.lines, h.opener.closes line = false := by
    intro line hline
    rw [Bool.eq_false_iff, opener, Ne, closes_iff]
    exact (h.lines_ok line hline).2
  have hclose : h.opener.closes h.last = true := (closes_iff _ _ _ _).2 h.last_ok.2
  have hread (rest : List Char) := HeredocBody.read_closed hlines hopen h.last_ok.1 hclose rest
  rcases hcs with rfl | ⟨rfl, hcs⟩
  · exact ⟨hread rest, List.drop_left⟩
  · have hsame : HeredocBody.read h.opener cs = HeredocBody.read h.opener h.body := by
      unfold HeredocBody.read
      rw [h.newlineLines_of_append hcs]
    refine ⟨?_, List.drop_eq_nil_of_le ?_⟩
    · have := hread []
      rw [List.append_nil] at this
      exact hsame.trans this
    · rw [← hcs, List.length_append]
      omega

end Heredoc

/-- What follows the line that announces the heredocs: their bodies in turn, and then `rest`. -/
def Bodies : List Heredoc → List Char → List Char → Prop
  | [], cs, rest => cs = rest
  | h :: more, cs, rest => ∃ next, h.Leads cs next ∧ Bodies more next rest

/-- The announcements, with commas between them, and the line end. -/
def announcements (h : Heredoc) : List Heredoc → List Char
  | [] => h.announcement ++ ['\n']
  | g :: more => h.announcement ++ ',' :: ' ' :: announcements g more

/-- How many lines the heredocs take behind the line that announces them. -/
def linesBehind (hs : List Heredoc) : Nat :=
  (hs.map fun h => h.lines.length + 1).sum

/-- The tokens of the announcements, the first of which starts at `pos`. -/
def announcedTokens (line pos : Nat) (h : Heredoc) (more : List Heredoc) : List Token :=
  ⟨.string [.text h.text], line, pos, pos + h.announcement.length, true⟩ ::
    match more with
    | [] => [⟨.newline, line, pos + h.announcement.length, pos + h.announcement.length + 1, false⟩]
    | g :: more =>
      ⟨.op .comma, line, pos + h.announcement.length, pos + h.announcement.length + 1, false⟩ ::
        announcedTokens line (pos + h.announcement.length + 2) g more

theorem exists_announcements (h : Heredoc) (more : List Heredoc) :
    ∃ line, announcements h more = h.announcement ++ (line ++ ['\n']) ∧ '\n' ∉ line := by
  induction more generalizing h with
  | nil => exact ⟨[], rfl, by simp⟩
  | cons g more ih =>
    obtain ⟨line, hline, hno⟩ := ih g
    refine ⟨',' :: ' ' :: (g.announcement ++ line), by simp [announcements, hline], ?_⟩
    simp [hno, g.newline_notMem_announcement]

namespace Lexer

variable {l : Lexer} {length : Nat}

/-- The announcement of a heredoc becomes its text, and behind the line reading goes on where the
body ends. The body starts where the last one ended, or behind the line. -/
theorem reads_announcement (h : Heredoc) (line text : List Char) {rest : List Char} {place : Resume}
    (hr : l.rest = h.announcement ++ (line ++ '\n' :: text)) (hline : '\n' ∉ line)
    (hoperand : (l.awaitsOperand || l.afterIdent) = true)
    (hplace : l.resume.getD
      ⟨text, l.pos + (h.announcement.length + line.length + 1), 0⟩ = place)
    (hbody : h.Leads place.rest rest) :
    ∃ l' pos, Reads l [l.token (.string [.text h.text]) (h.announcement.length - 1)] l' ∧
      l'.rest = line ++ '\n' :: text ∧ l'.pos = l.pos + h.announcement.length ∧
      l'.line = l.line ∧ l'.spaced = false ∧ l'.previous = some (.string [.text h.text]) ∧
      l'.resume = some ⟨rest, pos, place.lines + (h.lines.length + 1)⟩ := by
  obtain ⟨more, hmore⟩ : ∃ more, l.rest = '<' :: more := ⟨_, hr⟩
  have hread : HeredocOpener.read ('<' :: more) = some h.opener := by
    rw [← hmore, hr, h.read_announcement]
  have htail : l.rest.drop h.announcement.length = line ++ '\n' :: text := by
    rw [hr, List.drop_left]
  have hto : l.toBody h.opener = h.announcement.length + line.length + 1 := by
    have htake : (line ++ '\n' :: text).takeWhile (· != '\n') = line :=
      Plain.takeWhile_of_head (fun c hc => by rw [bne_iff_ne]; rintro rfl; exact hline hc)
        (by rintro _ ⟨⟩; decide)
    rw [toBody, ← h.length_announcement, htail, htake]
  have hstart : l.bodyStart h.opener = place := by
    rw [bodyStart, hto, ← hplace, Nat.add_assoc, ← List.drop_drop, htail]
    simp [← List.drop_drop]
  obtain ⟨hbody, hrest⟩ := h.read_body hbody
  have hfront : l.front '<' more = .ok (.heredoc (.string [.text h.text])
      (h.announcement.length - 1)
      ⟨rest, place.pos + min h.body.length place.rest.length,
        place.lines + (h.lines.length + 1)⟩) := by
    rw [front_angle, hread]
    dsimp only
    rw [if_pos hoperand, frontHeredoc_eq_ok]
    refine ⟨?_, _, [.text h.text], hstart ▸ hbody, rfl, ?_⟩
    · rw [hto, hr]
      simp
    · rw [hstart, hrest, h.length_announcement]
  have hstep : l.step '<' more = .ok
      (some (l.token (.string [.text h.text]) (h.announcement.length - 1)),
        { l.advance (h.announcement.length - 1) 0 with
          previous := some (.string [.text h.text])
          resume := some ⟨rest, place.pos + min h.body.length place.rest.length,
            place.lines + (h.lines.length + 1)⟩ }) := by
    rw [step, hfront]
    rfl
  have hlength : h.announcement.length = h.announcement.length - 1 + 1 := by
    simp [Heredoc.announcement]
  refine ⟨_, _, .single hmore hstep, ?_, ?_, rfl, ?_, rfl, rfl⟩
  · show l.rest.tail.drop (h.announcement.length - 1) = _
    rw [← List.drop_one, List.drop_drop, Nat.add_comm, ← hlength, htail]
  · show l.pos + 1 + (h.announcement.length - 1) = _
    omega
  · have hquote : l.rest[h.announcement.length - 1]? = some '\'' := by
      have hlast : h.announcement =
          '<' :: '<' :: (h.style.mark ++ '\'' :: h.tag.chars) ++ ['\''] := by
        simp [Heredoc.announcement]
      rw [hr, List.getElem?_append_left (by omega), ← List.getLast?_eq_getElem?, hlast,
        List.getLast?_concat]
    simp only [advance, hquote]
    decide

theorem token_announcement (h : Heredoc) (hspaced : l.spaced = true) :
    l.token (.string [.text h.text]) (h.announcement.length - 1) =
      ⟨.string [.text h.text], l.line, l.pos, l.pos + h.announcement.length, true⟩ := by
  have hpos : 0 < h.announcement.length := by simp [Heredoc.announcement]
  simp only [token, hspaced, Token.mk.injEq, true_and, and_true]
  omega

/-- The comma and the blank between two announcements. -/
theorem reads_comma {r : List Char} (hr : l.rest = ',' :: ' ' :: r) :
    ∃ l', Reads l [l.token (.op .comma) 0] l' ∧ l'.rest = r ∧ l'.pos = l.pos + 2 ∧
      l'.line = l.line ∧ l'.spaced = true ∧ l'.previous = some (.op .comma) ∧
      l'.resume = l.resume := by
  have hcomma : l.step ',' (' ' :: r) = .ok (some (l.token (.op .comma) 0),
      { l.advance 0 0 with previous := some (.op .comma) }) := rfl
  have hrest : (l.advance 0 0).rest = ' ' :: r := by simp [advance, hr]
  have hblank : Reads { l.advance 0 0 with previous := some (.op .comma) } [] _ :=
    .single (t := none) hrest rfl
  refine ⟨_, (Reads.single hr hcomma).trans hblank, ?_, rfl, rfl, ?_, rfl, rfl⟩
  · simp [advance, hr]
  · simp [advance, hr]

/-- The announcements up to the end of their line become the texts of the heredocs, and then reading
goes on behind the bodies. -/
theorem reads_announcements (h : Heredoc) (more : List Heredoc) (place : Resume)
    {text rest : List Char} (hl : l.Placed length) (hr : l.rest = announcements h more ++ text)
    (hspaced : l.spaced = true) (hoperand : (l.awaitsOperand || l.afterIdent) = true)
    (hplace : l.resume.getD ⟨text, l.pos + (announcements h more).length, 0⟩ = place)
    (hbodies : Bodies (h :: more) place.rest rest) :
    ∃ l', Reads l (announcedTokens l.line l.pos h more) l' ∧ l'.rest = rest ∧
      l'.line = l.line + 1 + (place.lines + linesBehind (h :: more)) ∧ l'.spaced = false ∧
      l'.previous = some .newline ∧ l'.resume = none := by
  induction more generalizing h l place with
  | nil =>
    obtain ⟨next, hlead, rfl⟩ := hbodies
    obtain ⟨l₁, pos, hreads, hrest, hpos₁, hline₁, hspaced₁, hprevious, hresume⟩ :=
      reads_announcement h [] text (by simpa [announcements] using hr)
        (by simp) hoperand (by simpa [announcements] using hplace) hlead
    have hnewline : l₁.step '\n' text = .ok (some (l₁.token .newline 0),
        { l₁.jump with previous := some .newline }) := rfl
    rw [(hreads.placed hl).jump_of_resume hresume] at hnewline
    have htokens : announcedTokens l.line l.pos h [] =
        [l.token (.string [.text h.text]) (h.announcement.length - 1)] ++
          [l₁.token .newline 0] := by
      rw [token_announcement h hspaced]
      simp [announcedTokens, token, hpos₁, hline₁, hspaced₁]
    rw [htokens]
    refine ⟨_, hreads.trans (.single hrest hnewline), rfl, ?_, rfl, rfl, rfl⟩
    simp [hline₁, linesBehind]
  | cons g more ih =>
    obtain ⟨next, hlead, hbodies⟩ := hbodies
    obtain ⟨line, hannounce, hline⟩ := exists_announcements g more
    obtain ⟨l₁, pos, hreads, hrest, hpos₁, hline₁, hspaced₁, hprevious, hresume⟩ :=
      reads_announcement h (',' :: ' ' :: (g.announcement ++ line)) text
        (by rw [hr, announcements, hannounce]; simp)
        (by simp [hline, g.newline_notMem_announcement]) hoperand
        (by rw [← hplace, announcements, hannounce]; simp [Nat.add_assoc]) hlead
    obtain ⟨l₂, hcomma, hrest₂, hpos₂, hline₂, hspaced₂, hprevious₂, hresume₂⟩ :=
      reads_comma (l := l₁) (r := announcements g more ++ text) (by rw [hrest, hannounce]; simp)
    have hread₂ := hreads.trans hcomma
    obtain ⟨l', hreads', hrest', hline', hspaced', hprevious', hresume'⟩ :=
      ih g ⟨next, pos, place.lines + (h.lines.length + 1)⟩ (hread₂.placed hl) hrest₂ hspaced₂
        (by simp [awaitsOperand, hprevious₂, Operator.isCloser])
        (by rw [hresume₂, hresume]; rfl) hbodies
    refine ⟨l', ?_, hrest', ?_, hspaced', hprevious', hresume'⟩
    · have htokens : announcedTokens l.line l.pos h (g :: more) =
          [l.token (.string [.text h.text]) (h.announcement.length - 1)] ++
            [l₁.token (.op .comma) 0] ++ announcedTokens l₂.line l₂.pos g more := by
        rw [token_announcement h hspaced]
        simp [announcedTokens, token, hpos₁, hline₁, hspaced₁, hpos₂, hline₂]
      rw [htokens]
      exact hread₂.trans hreads'
    · rw [hline', hline₂, hline₁]
      simp only [linesBehind, List.map_cons, List.sum_cons]
      omega

end Lexer

/-! ## Whole texts -/

/-- An identifier that is no reserved word. -/
structure CommandName extends Plain.Ident where
  not_keyword : Keyword.ofSpelling? (String.ofList (first :: more)) = none

/-- The command with the announcements, and then the bodies. -/
def heredocCommand (cmd : CommandName) (h : Heredoc) (more : List Heredoc) : List Char :=
  cmd.chars ++ ' ' :: announcements h more ++ (h :: more).flatMap Heredoc.body

/-- The tokens of the line that announces the heredocs. -/
def heredocTokens (cmd : CommandName) (h : Heredoc) (more : List Heredoc) : List Token :=
  ⟨.ident cmd.text, 1, 0, cmd.chars.length, false⟩ ::
    announcedTokens 1 (cmd.chars.length + 1) h more

namespace Lexer

/-- The name of a command and the blank behind it. -/
theorem reads_command (cmd : CommandName) (source : List Char) {r : List Char}
    (hsource : source = cmd.chars ++ ' ' :: r) :
    ∃ l, Reads (start source) [⟨.ident cmd.text, 1, 0, cmd.chars.length, false⟩] l ∧
      l.rest = r ∧ l.pos = cmd.chars.length + 1 ∧ l.line = 1 ∧ l.spaced = true ∧
      l.afterIdent = true ∧ l.resume = none := by
  have hend : Plain.EndsWord (' ' :: r) := Plain.endsWord_cons r (by decide)
  have hfront : (start source).front cmd.first (cmd.more ++ ' ' :: r) =
      .ok (.lexeme (.ident cmd.text) cmd.more.length 0) := by
    rw [front_of_nameStart cmd.isNameStart_first cmd.isDigit_first,
      frontWord_of_endsWord (settled_start source) cmd.isNameStart_first
        (fun d => cmd.isNameChar_of_mem) cmd.isUpper_first hend, cmd.not_keyword]
    rfl
  have hstep : (start source).step cmd.first (cmd.more ++ ' ' :: r) = .ok
      (some ((start source).token (.ident cmd.text) cmd.more.length),
        (start source).behind (.ident cmd.text) cmd.more.length 0) := by
    rw [step, hfront]
    rfl
  have hrest : ((start source).behind (.ident cmd.text) cmd.more.length 0).rest = ' ' :: r := by
    simp [behind, advance, start, hsource, Plain.Ident.chars]
  have hblank : Reads ((start source).behind (.ident cmd.text) cmd.more.length 0) [] _ :=
    .single (t := none) hrest rfl
  have htoken : (start source).token (.ident cmd.text) cmd.more.length =
      ⟨.ident cmd.text, 1, 0, cmd.chars.length, false⟩ := by
    simp [token, start, Plain.Ident.chars, Nat.add_comm]
  rw [← htoken]
  have hfirst : (start source).rest = cmd.first :: (cmd.more ++ ' ' :: r) := by
    simp [start, hsource, Plain.Ident.chars]
  refine ⟨_, (Reads.single hfirst hstep).trans hblank, ?_, ?_, rfl, ?_, rfl, rfl⟩
  · simp [advance, hrest]
  · simp [advance, behind, start, Plain.Ident.chars, Nat.add_comm]
  · simp [advance, hrest]

end Lexer

theorem bodies_flatMap (hs : List Heredoc) (rest : List Char) :
    Bodies hs (hs.flatMap Heredoc.body ++ rest) rest := by
  induction hs with
  | nil => rfl
  | cons h hs ih => exact ⟨_, .inl (by rw [List.flatMap_cons, List.append_assoc]), ih⟩

theorem Heredoc.body_eq_concat (h : Heredoc) : ∃ cs, h.body = cs ++ ['\n'] :=
  ⟨Text.unlines h.lines ++ h.last, by simp [Heredoc.body, Text.unlines]⟩

theorem Heredoc.body_ne_nil (h : Heredoc) : h.body ≠ [] := by
  obtain ⟨cs, hcs⟩ := h.body_eq_concat
  simp [hcs]

/-- The newline at the very end may be missing. -/
theorem bodies_dropLast (h : Heredoc) (more : List Heredoc) :
    Bodies (h :: more) ((h :: more).flatMap Heredoc.body).dropLast [] := by
  induction more generalizing h with
  | nil =>
    obtain ⟨cs, hcs⟩ := h.body_eq_concat
    exact ⟨[], .inr ⟨rfl, by simp [hcs]⟩, rfl⟩
  | cons g more ih =>
    have hne : (g :: more).flatMap Heredoc.body ≠ [] := by simp [g.body_ne_nil]
    refine ⟨_, .inl ?_, ih g⟩
    rw [List.flatMap_cons, List.dropLast_append_of_ne_nil hne]

theorem count_bodies (hs : List Heredoc) :
    (hs.flatMap Heredoc.body).count '\n' = linesBehind hs := by
  induction hs with
  | nil => rfl
  | cons h hs ih =>
    have hbody : h.body.count '\n' = h.lines.length + 1 := by
      rw [Heredoc.body, Text.count_unlines, List.length_append, List.length_singleton]
      intro line hline
      rcases List.mem_append.1 hline with hline | hline
      · exact (h.lines_ok line hline).1
      · rw [List.mem_singleton.1 hline]
        exact h.last_ok.1
    rw [List.flatMap_cons, List.count_append, ih, hbody]
    simp [linesBehind]

theorem count_announcements (h : Heredoc) (more : List Heredoc) :
    (announcements h more).count '\n' = 1 := by
  obtain ⟨line, hannounce, hline⟩ := exists_announcements h more
  rw [hannounce, List.count_append, List.count_append, List.count_eq_zero.2 hline,
    List.count_eq_zero.2 h.newline_notMem_announcement]
  rfl

theorem count_heredocCommand (cmd : CommandName) (h : Heredoc) (more : List Heredoc) :
    (heredocCommand cmd h more).count '\n' = 1 + linesBehind (h :: more) := by
  have hname : cmd.chars.count '\n' = 0 := by
    rw [List.count_eq_zero]
    intro hmem
    exact absurd (cmd.isNameChar_of_mem hmem) (by decide)
  rw [heredocCommand, List.count_append, List.count_append, hname, count_bodies,
    List.count_cons, count_announcements]
  rfl

open Lexer in
/-- What follows the bodies is read as a text of its own. -/
theorem run_heredocs (cmd : CommandName) (h : Heredoc) (more : List Heredoc)
    {source text rest : List Char}
    (hsource : source = cmd.chars ++ ' ' :: announcements h more ++ text)
    (hbodies : Bodies (h :: more) text rest) :
    (start source).run =
      match (start rest).run with
      | .ok us => .ok (heredocTokens cmd h more ++
          us.map (Token.shift (source.length - rest.length) (1 + linesBehind (h :: more))))
      | .error (line, cause) => .error (line + (1 + linesBehind (h :: more)), cause) := by
  obtain ⟨l, hreads, hrest, hpos, hline, hspaced, hident, hresume⟩ :=
    reads_command cmd source (by rw [hsource, List.append_assoc, List.cons_append])
  have hplaced := hreads.placed (placed_start source)
  obtain ⟨l', hreads', hrest', hline', hspaced', hprevious, hresume'⟩ :=
    reads_announcements h more ⟨text, l.pos + (announcements h more).length, 0⟩ hplaced hrest
      hspaced (by simp [hident]) (by rw [hresume]; rfl) hbodies
  have hall := hreads.trans hreads'
  have hplaced' := hall.placed (placed_start source)
  have hstart : l'.AtLineStart source.length :=
    ⟨hplaced', hresume', hspaced', by simp [awaitsOperand, hprevious], by
      simp [afterIdent, hprevious], by simp [afterDot, hprevious], by omega⟩
  have hshift := hstart.shifted
  have hchars : l'.pos = source.length - rest.length := by
    have := hplaced'.rest
    rw [hrest'] at this
    omega
  have hlines : l'.line - 1 = 1 + linesBehind (h :: more) := by
    rw [hline', hline, Nat.zero_add, Nat.add_assoc, Nat.add_sub_cancel_left]
  rw [hchars, hlines, hrest'] at hshift
  have htokens : [⟨.ident cmd.text, 1, 0, cmd.chars.length, false⟩] ++
      announcedTokens l.line l.pos h more = heredocTokens cmd h more := by
    rw [hline, hpos]
    rfl
  rw [run_of_reads hall, hshift.run (placed_start rest) hplaced', htokens]
  cases (start rest).run <;> rfl

/-- Heredocs are read exactly, and leave no trace in what follows. A command that announces them
gives its name, their texts with commas between them, and the line end; what follows the bodies has
the tokens or the fault that it has on its own, as many characters and lines further on as lie
before it. At the end of the source the last newline may be missing. -/
theorem tokenize_heredocs (map : LineMap) (cmd : CommandName) (h : Heredoc) (more : List Heredoc)
    (rest : List Char) :
    (∀ g ∈ h :: more, g.IsText g.text) ∧
    (tokenize map (heredocCommand cmd h more ++ rest) =
      match tokenize [] rest with
      | .ok us => .ok (heredocTokens cmd h more ++
          us.map (Token.shift (heredocCommand cmd h more).length
            ((heredocCommand cmd h more).count '\n')))
      | .error fault =>
        .error ⟨map.lineInFile (fault.line + ((heredocCommand cmd h more).count '\n' : Nat)),
          fault.cause⟩) ∧
    tokenize map (heredocCommand cmd h more).dropLast =
      .ok (heredocTokens cmd h more ++
        [⟨.eof, (heredocCommand cmd h more).count '\n' + 1, (heredocCommand cmd h more).length - 1,
          (heredocCommand cmd h more).length - 1, false⟩]) := by
  refine ⟨fun g _ => g.isText_text, ?_, ?_⟩
  · unfold tokenize
    rw [run_heredocs cmd h more (by rw [heredocCommand, List.append_assoc])
      (bodies_flatMap (h :: more) rest), count_heredocCommand, List.length_append,
      Nat.add_sub_cancel]
    cases (Lexer.start rest).run with
    | ok us => rfl
    | error fault =>
      obtain ⟨line, cause⟩ := fault
      simp [LineMap.lineInFile]
  · have hne : (h :: more).flatMap Heredoc.body ≠ [] := by
      simp [Heredoc.body_ne_nil]
    rw [tokenize_eq_ok, run_heredocs cmd h more
      (by rw [heredocCommand, List.dropLast_append_of_ne_nil hne]) (bodies_dropLast h more),
      count_heredocCommand, Lexer.run_nil rfl]
    simp [Token.shift, Lexer.start, Nat.add_comm]

/-- A line that only looks like the closing one belongs to the first text, and the margin of the
second is taken off. -/
theorem tokenize_heredocs_two :
    tokenize [] "log <<'A', <<~'B'\n A\n#x\nA\n    x\n \n  y\n\tB\n/b/".toList = .ok
      [⟨.ident "log", 1, 0, 3, false⟩, ⟨.string [.text " A\n#x\n".toList], 1, 4, 9, true⟩,
        ⟨.op .comma, 1, 9, 10, false⟩, ⟨.string [.text "  x\n\ny\n".toList], 1, 11, 17, true⟩,
        ⟨.newline, 1, 17, 18, false⟩, ⟨.regex "/b/", 9, 41, 44, false⟩,
        ⟨.eof, 9, 44, 44, false⟩] := by
  have h := (tokenize_heredocs [] ⟨⟨'l', ['o', 'g'], by decide, by decide⟩, by decide⟩
    ⟨.flush, ⟨'A', [], by decide, by decide⟩, [[' ', 'A'], ['#', 'x']], ['A'], by decide,
      by decide⟩
    [⟨.squiggly, ⟨'B', [], by decide, by decide⟩,
      [[' ', ' ', ' ', ' ', 'x'], [' '], [' ', ' ', 'y']], ['\t', 'B'], by decide, by decide⟩]
    "/b/".toList).2.1
  have hrest : tokenize [] "/b/".toList = .ok
      [⟨.regex "/b/", 1, 0, 3, false⟩, ⟨.eof, 1, 3, 3, false⟩] := by
    decide +kernel
  rw [hrest] at h
  exact h

end RecipeManifest

import RecipeManifest.Proofs.CodeCharacters
import RecipeManifest.Proofs.LineNumbers
import RecipeManifest.Proofs.ValueConversion

/-!
What can go wrong in the conversion of a recipe.

The blocks of a recipe, and the code in their strings, are made of the recipe's characters and
newlines, so if all digits of the recipe have places, a number stands wherever one is expected.
Statements that were read have their text. What is left is a block that cannot be read. Main
statement (`ofRecipe_returns_or_reports`): a recipe whose digits have places is converted, or a
block of it is reported as unreadable.
-/

namespace RecipeManifest

/-! ## Characters of blocks -/

theorem Text.mem_of_mem_splitLines {cs line : List Char} {c : Char} (hline : line ∈ splitLines cs)
    (hc : c ∈ line) : c ∈ cs := by
  fun_induction splitLines cs generalizing line <;> grind

theorem Text.mem_of_mem_trimEndBy {p : Char → Bool} {cs : List Char} {c : Char}
    (h : c ∈ trimEndBy p cs) : c ∈ cs := by
  rw [trimEndBy, List.mem_reverse] at h
  exact List.mem_reverse.1 ((List.dropWhile_sublist p).subset h)

namespace Section

/-- A block is made of lines that were gathered for it, one for each of its numbers. -/
theorem exists_lines_of_block {p : Char → Prop} {lines : List (List Char)}
    (hlines : ∀ line ∈ lines, ∀ c ∈ line, p c) {text : List Char} {map : LineMap}
    {terminated : Bool} :
    ∀ (number : Nat) (texts : List (List Char)) (numbers : List Int),
      texts.length = numbers.length → (∀ line ∈ texts, ∀ c ∈ line, p c) →
      .block text map terminated ∈ scanFrom number texts numbers lines →
      ∃ gathered, text = Text.unlines gathered ∧ gathered.length = map.length ∧ gathered ≠ [] ∧
        ∀ line ∈ gathered, ∀ c ∈ line, p c := by
  induction lines with
  | nil =>
    intro number texts numbers hlen htexts h
    rw [scanFrom] at h
    split at h
    · cases h
    · next hne =>
      rw [List.mem_singleton] at h
      cases h
      have : texts ≠ [] := by
        rintro rfl
        exact hne (by simpa using hlen.symm)
      exact ⟨texts.reverse, rfl, by simpa using hlen, by simpa, by simpa using htexts⟩
  | cons raw rest ih =>
    intro number texts numbers hlen htexts h
    have ih := ih fun line hline => hlines line (by simp [hline])
    have hgathered : ∀ line ∈ Text.trimEndBy (fun c => c == '\r' || c == '\n') raw :: texts,
        ∀ c ∈ line, p c := by
      intro line hline
      rcases List.mem_cons.1 hline with rfl | hline
      · exact fun c hc => hlines raw (by simp) c (Text.mem_of_mem_trimEndBy hc)
      · exact htexts line hline
    rw [scanFrom] at h
    split at h
    · exact ih _ _ _ hlen htexts h
    · split at h
      · rcases List.mem_cons.1 h with h | h
        · cases h
        · exact ih _ _ _ hlen htexts h
      · split at h
        · rcases List.mem_cons.1 h with h | h
          · cases h
            exact ⟨_, rfl, by simpa using hlen, by simp,
              fun line hline => hgathered line (List.mem_reverse.1 hline)⟩
          · exact ih _ _ _ rfl (by simp) h
        · exact ih _ _ _ (by simpa using hlen) hgathered h

/-- The digits of a block have places if those of the recipe have. -/
theorem hasPlaces_block {content text : List Char} {map : LineMap} {terminated : Bool}
    (hcontent : HasPlaces content)
    (h : .block text map terminated ∈ scan (Text.splitLines content)) : HasPlaces text := by
  have hlines : ∀ line ∈ Text.splitLines content, ∀ c ∈ line,
      Text.isDigit c = true → Text.isDecimalDigit c = true :=
    fun _ hline c hc => hcontent c (Text.mem_of_mem_splitLines hline hc)
  obtain ⟨gathered, rfl, -, -, hgathered⟩ :=
    exists_lines_of_block hlines 1 [] [] rfl (by simp) h
  intro c hc
  obtain ⟨line, hline, hmem | rfl⟩ := mem_unlines.1 hc
  · exact hgathered line hline c hmem
  · decide

end Section

/-! ## Blocks that cannot be read -/

theorem Fault.ofLex_of_isReported (source : String) {f : LexFault}
    (h : f.cause.isReported = true) :
    ofLex source f = .report (.unreadable source (some f.line) f.cause.detail) := by
  obtain ⟨line, cause⟩ := f
  cases cause with
  | digitWithoutPlace => cases h
  | _ => rfl

/-- The fault is that of a block among the sections. -/
def UnreadableBlock (sections : List Section) (f : LexFault) : Prop :=
  ∃ text lines terminated, .block text lines terminated ∈ sections ∧
    BlockContent.read lines text = .error f

/-- The fault reports one of a block among the sections. -/
def ReportsBlock (source : String) (sections : List Section) (e : Fault) : Prop :=
  ∃ f, UnreadableBlock sections f ∧
    e = .report (.unreadable source (some f.line) f.cause.detail)

/-- The work has a result, or stops with such a fault. -/
def ReturnsOr {ε α : Type} (allowed : ε → Prop) : Except ε α → Prop
  | .ok _ => True
  | .error e => allowed e

section ReturnsOr

variable {ε α β : Type} {allowed : ε → Prop} {x : Except ε α}

theorem ReturnsOr.bind {f : α → Except ε β} (hx : ReturnsOr allowed x)
    (hf : ∀ a, ReturnsOr allowed (f a)) : ReturnsOr allowed (x >>= f) := by
  cases x with
  | error e => exact hx
  | ok a => exact hf a

theorem ReturnsOr.mono {allowed' : ε → Prop} (hx : ReturnsOr allowed x)
    (h : ∀ e, allowed e → allowed' e) : ReturnsOr allowed' x := by
  cases x with
  | error e => exact h e hx
  | ok a => trivial

end ReturnsOr

namespace Section

variable (style : Style) (className source : String)

/-- A block whose digits have places is converted, or the fault in it is reported. -/
theorem blockToManifest_returnsOr (lines : LineMap) {text : List Char} (h : HasPlaces text) :
    ReturnsOr (fun e => ∃ f, BlockContent.read lines text = .error f ∧
        e = .report (.unreadable source (some f.line) f.cause.detail))
      (blockToManifest style source text lines).result := by
  have hread := lexable_of_places.read lines text h
  cases hblock : BlockContent.read lines text with
  | error f =>
    rw [hblock] at hread
    rw [blockToManifest, hblock]
    exact ⟨f, rfl, Fault.ofLex_of_isReported source hread⟩
  | ok content =>
    rw [hblock] at hread
    rw [blockToManifest_of_read hblock, ← Statement.allToManifest_result]
    obtain ⟨text, htext⟩ := Statement.returns_allToManifest style source hread
    rw [htext]
    trivial

/-- Sections whose digits have places are converted, or a block among them is reported. -/
theorem allToManifest_returnsOr {sections : List Section}
    (h : ∀ text lines terminated, .block text lines terminated ∈ sections → HasPlaces text)
    (opened : Bool) :
    ReturnsOr (ReportsBlock source sections)
      (allToManifest style className source opened sections).result := by
  induction sections generalizing opened with
  | nil => trivial
  | cons s rest ih =>
    have hrest (opened : Bool) : ReturnsOr (ReportsBlock source (s :: rest))
        (allToManifest style className source opened rest).result := by
      apply (ih (fun text lines terminated hmem => h text lines terminated (by simp [hmem]))
        opened).mono
      rintro e ⟨f, ⟨text, lines, terminated, hmem, hread⟩, rfl⟩
      exact ⟨f, ⟨text, lines, terminated, by simp [hmem], hread⟩, rfl⟩
    cases s with
    | comment text line =>
      rw [allToManifest, Noted.result_bind]
      exact (hrest opened).bind fun _ => trivial
    | block text lines terminated =>
      have hblock : ReturnsOr (ReportsBlock source (.block text lines terminated :: rest))
          (blockToManifest style source text lines).result := by
        have hplaces := h text lines terminated (by simp)
        apply (blockToManifest_returnsOr style source lines hplaces).mono
        rintro e ⟨f, hf, rfl⟩
        exact ⟨f, ⟨text, lines, terminated, by simp, hf⟩, rfl⟩
      rw [allToManifest, Noted.result_bind]
      apply hblock.bind
      intro body
      rw [Noted.result_bind]
      exact (hrest true).bind fun _ => trivial

end Section

/-! ## Texts that are broken into tokens -/

/-- The texts that are broken into tokens on the way to the manifest: the blocks of the recipe, and
the code in the strings of such a text. -/
inductive Lexed (content : List Char) : List Char → Prop
  | block {text : List Char} {lines : LineMap} {terminated : Bool} :
      .block text lines terminated ∈ Section.scan (Text.splitLines content) → Lexed content text
  | code {text code : List Char} {lines : LineMap} {tokens : List Token} {t : Token}
      {parts : List Part} :
      Lexed content text → tokenize lines text = .ok tokens → t ∈ tokens →
      t.lexeme = .string parts → .code code ∈ parts → Lexed content code

theorem Lexed.hasPlaces {content text : List Char} (hcontent : HasPlaces content)
    (h : Lexed content text) : HasPlaces text := by
  induction h with
  | block hblock => exact Section.hasPlaces_block hcontent hblock
  | code _ htokens ht hparts hcode ih =>
    exact lexable_of_places.code ih htokens _ ht _ hparts _ hcode

/-- What the first character announces is there: a number behind a digit, a name behind a letter,
and a quote or a name behind a colon that opens a symbol. -/
structure Lexer.FrontMatches (c : Char) (more : List Char) : Prop where
  number : Text.isDigit c = true → frontNumber (c :: more) ≠ []
  name : isNameStart c = true → frontName (c :: more) ≠ []
  symbol : opensSymbol more = true →
    more.head? = some '\'' ∨ more.head? = some '"' ∨ frontName more ≠ []

theorem Lexer.frontMatches_of_places {c : Char} {more : List Char}
    (h : Text.isDigit c = true → Text.isDecimalDigit c = true) : FrontMatches c more where
  number hdigit := frontNumber_ne_nil (h hdigit)
  name hname := frontName_ne_nil hname
  symbol hopens := by
    cases more with
    | nil => cases hopens
    | cons d rest =>
      simp only [opensSymbol, Bool.or_eq_true, beq_iff_eq] at hopens
      rcases hopens with (rfl | rfl) | hname
      · exact .inl rfl
      · exact .inr (.inl rfl)
      · exact .inr (.inr (frontName_ne_nil hname))

/-- Wherever a lexer gets to in a text whose digits have places, it finds what is announced. -/
theorem Lexer.Reads.frontMatches {text : List Char} (htext : HasPlaces text) {ts : List Token}
    {l : Lexer} {c : Char} {more : List Char} (h : Reads (start text) ts l)
    (hr : l.rest = c :: more) : FrontMatches c more := by
  have hkeeps := (h.keeps (by decide) (by decide) (fun _ h => h) (keeps_start htext)).1
  exact frontMatches_of_places (hkeeps.rest c (by simp [hr]))

/-! ## Recipes -/

/-- Any text at all has tokens or a fault. -/
theorem lexable_any : Lexable (fun _ _ => True) fun _ => True where
  fault _ _ := trivial
  code _ _ _ _ _ _ _ _ := trivial

/-- A recipe whose digits have places is converted, or a block of it is reported as unreadable: what
is read from any text is made of declarations of values and of code kept as text, values have their
text, the grammar's end inside a statement does not show outside it, and the lexer finds what it
looks ahead for. -/
theorem ofRecipe_returns_or_reports (style : Style) (className source content : String)
    (hplaces : HasPlaces content.toList) :
    ((∃ m, (Manifest.ofRecipe style className source content).result = .ok m) ∨
      ∃ f, UnreadableBlock (Section.scan (Text.splitLines content.toList)) f ∧
        (Manifest.ofRecipe style className source content).result =
          .error (.report (.unreadable source (some f.line) f.cause.detail))) ∧
    (∀ lines text parsed, BlockContent.read lines text = .ok parsed →
      ∀ s ∈ parsed.statements, s.isTopLevel = true) ∧
    (∀ (e : Expr) (condition : Bool), e.isValue = true → ∃ text, e.render condition = .ok text) ∧
    (∀ (b : BlockSource) closer ts, b.statement closer ts ≠ .error .mismatch) ∧
    ∀ text, Lexed content.toList text → ∀ ts l c more,
      Lexer.Reads (.start text) ts l → l.rest = c :: more → Lexer.FrontMatches c more := by
  refine ⟨?_, ?_, ?_, BlockSource.statement_ne_mismatch, ?_⟩
  · have hsections := Section.allToManifest_returnsOr style className source
      (fun _ _ _ hblock => Section.hasPlaces_block hplaces hblock) false
    have hresult : ReturnsOr
        (ReportsBlock source (Section.scan (Text.splitLines content.toList)))
        (Manifest.ofRecipe style className source content).result := by
      rw [Manifest.ofRecipe, Noted.result_bind]
      exact hsections.bind fun _ => trivial
    cases h : (Manifest.ofRecipe style className source content).result with
    | ok m => exact .inl ⟨m, rfl⟩
    | error e =>
      rw [h] at hresult
      obtain ⟨f, hf, rfl⟩ := hresult
      exact .inr ⟨f, hf, rfl⟩
  · intro lines text parsed hread
    have h := lexable_any.read lines text trivial
    rw [hread] at h
    exact h
  · intro e condition he
    exact Expr.returns_render condition e he
  · intro text htext ts l c more hreads hr
    exact hreads.frontMatches (htext.hasPlaces hplaces) hr

/-- A recipe with a number of another script in the code of a string is reported for a string that
does not end in a later block. -/
theorem ofRecipe_reports_open_string :
    let content := "package \"web-#\x7b1 + ٣\x7d\" do\n  action :install\nend\n" ++
      "file '/srv' do\n  owner \"web\nend\n"
    HasPlaces content.toList ∧
      ∃ f, UnreadableBlock (Section.scan (Text.splitLines content.toList)) f ∧
        (Manifest.ofRecipe {} "web" "web.rb" content).result =
          .error (.report (.unreadable "web.rb" (some f.line) f.cause.detail)) := by
  intro content
  have hplaces : HasPlaces content.toList := by decide
  have hfails : (Manifest.ofRecipe {} "web" "web.rb" content).result.toOption.isNone = true := by
    decide +kernel
  refine ⟨hplaces, ?_⟩
  rcases (ofRecipe_returns_or_reports {} "web" "web.rb" content hplaces).1 with ⟨m, hm⟩ | hreport
  · rw [hm] at hfails
    cases hfails
  · exact hreport

end RecipeManifest

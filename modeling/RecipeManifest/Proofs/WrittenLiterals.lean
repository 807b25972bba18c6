import RecipeManifest.Proofs.Lookahead

/-!
Literals written for a text, and what is read from them.

A text is written between the marks of a literal with a backslash before each character that means
something there (`guarded`), and code between `#` and braces. Reading gives back the text and the
code.

    single quotes      reads t from t, as a string or a symbol
    interpolated       reads parts from parts, whatever the marks         (tokenize_written)
    raw percent        reads from t the text as it is written, backslashes and all
                                                                          (tokenize_guarded_raw)
-/

namespace RecipeManifest

open Plain (escape)

/-! ## Pairs of marks -/

/-- From inside `depth` pairs of the two marks the text leads inside `after` pairs, and no closing
mark in it stands outside all pairs. -/
structure Nests (opens closes : Char) (depth : Nat) (cs : List Char) (after : Nat) : Prop where
  inside : ∀ n ≤ cs.length, (cs.take n).count closes ≤ depth + (cs.take n).count opens
  ends : depth + cs.count opens = after + cs.count closes

instance (opens closes : Char) (depth : Nat) (cs : List Char) (after : Nat) :
    Decidable (Nests opens closes depth cs after) :=
  decidable_of_iff
    ((∀ n ≤ cs.length, (cs.take n).count closes ≤ depth + (cs.take n).count opens) ∧
      depth + cs.count opens = after + cs.count closes)
    ⟨fun h => ⟨h.1, h.2⟩, fun h => ⟨h.1, h.2⟩⟩

/-- The marks stand in pairs. -/
abbrev Balanced (opens closes : Char) (cs : List Char) : Prop :=
  Nests opens closes 0 cs 0

namespace Nests

variable {opens closes c : Char} {depth inner after : Nat} {cs ds : List Char}

theorem depth_eq (h : Nests opens closes depth [] after) : after = depth := by
  have := h.ends
  simp only [List.count_nil] at this
  omega

/-- What is known of a text after its first character. -/
theorem inside_cons (h : Nests opens closes depth (c :: cs) after) {n : Nat} (hn : n ≤ cs.length) :
    (cs.take n).count closes + [c].count closes ≤
      depth + (cs.take n).count opens + [c].count opens := by
  have := h.inside (n + 1) (by simpa using hn)
  rw [List.take_succ_cons, ← List.singleton_append, List.count_append, List.count_append] at this
  omega

theorem ends_cons (h : Nests opens closes depth (c :: cs) after) :
    depth + cs.count opens + [c].count opens = after + cs.count closes + [c].count closes := by
  have := h.ends
  rw [← List.singleton_append, List.count_append, List.count_append] at this
  omega

theorem opened (h : Nests opens closes depth (opens :: cs) after) (hne : opens ≠ closes) :
    Nests opens closes (depth + 1) cs after := by
  have hcount : [opens].count opens = 1 ∧ [opens].count closes = 0 := by simp [hne]
  refine ⟨fun n hn => ?_, ?_⟩
  · have := h.inside_cons hn
    omega
  · have := h.ends_cons
    omega

theorem closed (h : Nests opens closes depth (closes :: cs) after) (hne : opens ≠ closes) :
    ∃ outer, depth = outer + 1 ∧ Nests opens closes outer cs after := by
  have hcount : [closes].count closes = 1 ∧ [closes].count opens = 0 := by simp [Ne.symm hne]
  have hfirst := h.inside_cons (Nat.zero_le _)
  simp only [List.take_zero, List.count_nil] at hfirst
  refine ⟨depth - 1, by omega, fun n hn => ?_, ?_⟩
  · have := h.inside_cons hn
    omega
  · have := h.ends_cons
    omega

theorem other (h : Nests opens closes depth (c :: cs) after) (ho : c ≠ opens) (hc : c ≠ closes) :
    Nests opens closes depth cs after := by
  have hcount : [c].count opens = 0 ∧ [c].count closes = 0 := by simp [ho, hc]
  refine ⟨fun n hn => ?_, ?_⟩
  · have := h.inside_cons hn
    omega
  · have := h.ends_cons
    omega

/-- A character in front of a text changes the depth that the text starts from. -/
theorem cons (h : Nests opens closes inner cs after)
    (hdepth : depth + [c].count opens = inner + [c].count closes) :
    Nests opens closes depth (c :: cs) after := by
  refine ⟨fun n hn => ?_, ?_⟩
  · cases n with
    | zero => simp
    | succ n =>
      have := h.inside n (by simpa using hn)
      rw [List.take_succ_cons, ← List.singleton_append, List.count_append, List.count_append]
      omega
  · have := h.ends
    rw [← List.singleton_append, List.count_append, List.count_append]
    omega

theorem append (h : Nests opens closes depth cs inner) (h' : Nests opens closes inner ds after) :
    Nests opens closes depth (cs ++ ds) after := by
  have hends := h.ends
  refine ⟨fun n hn => ?_, ?_⟩
  · rw [List.length_append] at hn
    rw [List.take_append, List.count_append, List.count_append]
    by_cases hfirst : n ≤ cs.length
    · have := h.inside n hfirst
      simp only [Nat.sub_eq_zero_of_le hfirst, List.take_zero, List.count_nil]
      omega
    · have := h'.inside (n - cs.length) (by omega)
      rw [List.take_of_length_le (by omega)]
      omega
  · have := h'.ends
    rw [List.count_append, List.count_append]
    omega

/-- A text with neither mark stays at its depth. -/
theorem of_notMem (ho : opens ∉ cs) (hc : closes ∉ cs) : Nests opens closes depth cs depth := by
  refine ⟨fun n _ => ?_, ?_⟩
  · have : (cs.take n).count closes = 0 :=
      List.count_eq_zero.2 fun h => hc (List.mem_of_mem_take h)
    omega
  · rw [List.count_eq_zero.2 ho, List.count_eq_zero.2 hc]

end Nests

/-! ## Writing -/

/-- A character with a backslash before it if it is one of the special ones. -/
def guarded (special : List Char) (c : Char) : List Char :=
  if c ∈ special then ['\\', c] else [c]

/-- The text is written as it is just if it has no special character. -/
theorem flatMap_guarded_eq_self {special t : List Char} :
    t.flatMap (guarded special) = t ↔ ∀ c ∈ t, c ∉ special := by
  have hlength : (t.flatMap (guarded special)).length = t.length + t.countP (· ∈ special) := by
    induction t with
    | nil => rfl
    | cons c t ih =>
      rw [List.flatMap_cons, List.length_append, ih, List.countP_cons]
      by_cases hc : c ∈ special
      · simp [guarded, hc]
        omega
      · simp [guarded, hc]
        omega
  constructor
  · intro h
    rw [h] at hlength
    have hnone : t.countP (· ∈ special) = 0 := by omega
    simpa [List.countP_eq_zero] using hnone
  · intro h
    calc t.flatMap (guarded special) = t.flatMap ([·]) :=
          List.flatMap_congr fun c hc => if_neg (h c hc)
      _ = t := List.flatMap_singleton' t

namespace Delimiters

/-- The marks themselves. -/
def chars (marks : Delimiters) : List Char :=
  marks.opener.toList ++ [marks.closer]

/-- The marks tell the closing one from the opening one and from what starts an escape or code, and
a backslash before a mark stands for the mark. -/
def Usable (marks : Delimiters) : Prop :=
  (∀ c ∈ marks.chars, unescape c = c ∧ c ≠ '\\' ∧ c ≠ '#') ∧ marks.opener ≠ some marks.closer

/-- A part as it is written between the marks of an interpolated literal. -/
def write (marks : Delimiters) : Part → List Char
  | .text cs => cs.flatMap (guarded ('\\' :: '#' :: marks.chars))
  | .code cs => '#' :: '{' :: cs ++ ['}']

end Delimiters

/-- The brackets of percent literals. -/
inductive Bracket where
  | round | square | curly | angle
  deriving DecidableEq, Repr

namespace Bracket

def left : Bracket → Char
  | round => '('
  | square => '['
  | curly => '{'
  | angle => '<'

def right : Bracket → Char
  | round => ')'
  | square => ']'
  | curly => '}'
  | angle => '>'

end Bracket

/-- What a percent literal can open with. -/
inductive PercentMark where
  | bracket (b : Bracket)
  | bar | bang | slash
  deriving DecidableEq, Repr

namespace PercentMark

def opener : PercentMark → Char
  | bracket b => b.left
  | bar => '|'
  | bang => '!'
  | slash => '/'

def marks (m : PercentMark) : Delimiters :=
  .ofOpener m.opener

end PercentMark

/-- How an interpolated string can be quoted. -/
inductive Quotation where
  | double
  | backtick
  | percent (m : PercentMark)
  deriving DecidableEq, Repr

namespace Quotation

def opening : Quotation → List Char
  | double => ['"']
  | backtick => ['\x60']
  | percent m => ['%', 'Q', m.opener]

def marks : Quotation → Delimiters
  | double => .same '"'
  | backtick => .same '\x60'
  | percent m => m.marks

theorem marks_usable (q : Quotation) : q.marks.Usable := by
  have hsame {c : Char} (h : unescape c = c ∧ c ≠ '\\' ∧ c ≠ '#') : (Delimiters.same c).Usable :=
    ⟨by simpa [Delimiters.chars, Delimiters.same] using h, by simp [Delimiters.same]⟩
  have hpair {o c : Char} (ho : unescape o = o ∧ o ≠ '\\' ∧ o ≠ '#')
      (hc : unescape c = c ∧ c ≠ '\\' ∧ c ≠ '#') (hne : o ≠ c) :
      (Delimiters.mk (some o) c).Usable :=
    ⟨by simpa [Delimiters.chars] using ⟨ho, hc⟩, by simpa using hne⟩
  match q with
  | double | backtick | percent .bar | percent .bang | percent .slash => exact hsame (by decide)
  | percent (.bracket b) => cases b <;> exact hpair (by decide) (by decide) (by decide)

/-- The parts written as a string. -/
def write (q : Quotation) (parts : List Part) : List Char :=
  q.opening ++ (parts.flatMap q.marks.write ++ [q.marks.closer])

end Quotation

/-- The text as a single-quoted string. -/
def singleQuoted (t : List Char) : List Char :=
  '\'' :: (t.flatMap escape ++ ['\''])

/-- A raw percent literal with that body. -/
def rawPercent (m : PercentMark) (body : List Char) : List Char :=
  '%' :: 'q' :: m.opener :: (body ++ [m.marks.closer])

/-- A part that can be written: a text that is not empty, or code without quotes that has its braces
in pairs. -/
def Part.Writable : Part → Prop
  | text cs => cs ≠ []
  | code cs => '\'' ∉ cs ∧ '"' ∉ cs ∧ Balanced '{' '}' cs

instance : DecidablePred Part.Writable
  | .text cs => inferInstanceAs (Decidable (cs ≠ []))
  | .code _ => inferInstanceAs (Decidable (_ ∧ _))

/-- Parts that can be written one after the other: no two texts are in a row. -/
structure Writable (parts : List Part) : Prop where
  each : ∀ p ∈ parts, p.Writable
  apart : parts.IsChain fun p q => p.isCode ∨ q.isCode

/-- A text is put before parts that start with no text as one more part. -/
theorem foldr_consText {parts : List Part} (hparts : ∀ d, consText d parts = .text [d] :: parts)
    {cs : List Char} (hne : cs ≠ []) : cs.foldr consText parts = .text cs :: parts := by
  obtain ⟨d, cs, rfl⟩ := List.exists_cons_of_ne_nil hne
  clear hne
  induction cs generalizing d with
  | nil => exact hparts d
  | cons e cs ih => rw [List.foldr_cons, ih e, consText]

namespace Writable

variable {p : Part} {parts : List Part}

theorem tail (h : Writable (p :: parts)) : Writable parts :=
  ⟨fun q hq => h.each q (List.mem_cons_of_mem p hq), h.apart.tail⟩

/-- A text is put before the parts behind it as one more part. -/
theorem foldr_consText {cs : List Char} (h : Writable (.text cs :: parts)) :
    cs.foldr consText parts = .text cs :: parts := by
  refine RecipeManifest.foldr_consText (fun d => ?_) (h.each (.text cs) List.mem_cons_self)
  cases parts with
  | nil => rfl
  | cons q rest =>
    have hq : q.isCode = true := by simpa [Part.isCode] using h.apart.rel
    cases q with
    | text _ => cases hq
    | code _ => rfl

end Writable

theorem foldr_consCode (cs : List Char) (parts : List Part) :
    cs.foldr consCode (.code [] :: parts) = .code cs :: parts := by
  induction cs with
  | nil => rfl
  | cons c cs ih => rw [List.foldr_cons, ih, consCode]

/-! ## Reading -/

theorem count_cons_lineEnds (c : Char) (cs : List Char) :
    (c :: cs).count '\n' = lineEnds c + cs.count '\n' := by
  simp only [List.count_cons, lineEnds, beq_iff_eq]
  omega

section Interpolated

variable {marks : Delimiters} (hm : marks.Usable)

include hm in
/-- A guarded character is read as the character. -/
theorem readParts_guarded_char (pairs : Nat) (c : Char) (r : List Char) :
    readParts marks (.text pairs) (guarded ('\\' :: '#' :: marks.chars) c ++ r) =
      (readParts marks (.text pairs) r).map fun s =>
        s.after (consText c) (guarded ('\\' :: '#' :: marks.chars) c).length (lineEnds c) := by
  by_cases hc : c ∈ '\\' :: '#' :: marks.chars
  · have hun : unescape c = c := by
      simp only [List.mem_cons] at hc
      rcases hc with rfl | rfl | hc
      · rfl
      · rfl
      · exact (hm.1 c hc).1
    simp only [guarded, if_pos hc, List.cons_append, List.nil_append, readParts, hun,
      List.length_cons, List.length_nil]
  · simp only [guarded, if_neg hc, List.cons_append, List.nil_append, List.length_cons,
      List.length_nil]
    simp only [List.mem_cons, Delimiters.chars, List.mem_append, Option.mem_toList,
      List.not_mem_nil, or_false, not_or] at hc
    obtain ⟨hslash, hhash, hopener, hcloser⟩ := hc
    rw [readParts_text marks pairs (fun _ _ h _ => hslash h) (fun _ h _ => hhash h),
      if_neg hopener, if_neg hcloser]

include hm in
/-- A guarded text is read as the text. -/
theorem readParts_guarded (pairs : Nat) (cs r : List Char) :
    readParts marks (.text pairs) (cs.flatMap (guarded ('\\' :: '#' :: marks.chars)) ++ r) =
      (readParts marks (.text pairs) r).map fun s =>
        s.after (fun parts => cs.foldr consText parts)
          (cs.flatMap (guarded ('\\' :: '#' :: marks.chars))).length (cs.count '\n') := by
  induction cs with
  | nil =>
    show readParts marks (.text pairs) r = _
    cases readParts marks (.text pairs) r with
    | error e => rfl
    | ok s => simp [Except.map, Reading.after]
  | cons c cs ih =>
    rw [List.flatMap_cons, List.append_assoc, readParts_guarded_char hm, ih, count_cons_lineEnds]
    cases readParts marks (.text pairs) r with
    | error e => rfl
    | ok s => simp [Except.map, Reading.after, Nat.add_assoc]

/-- Code without quotes is read up to a depth in braces. -/
theorem readParts_code {pairs depth after : Nat} {cs : List Char}
    (h : Nests '{' '}' depth cs after) (hsingle : '\'' ∉ cs) (hdouble : '"' ∉ cs) (r : List Char) :
    readParts marks (.code pairs depth none) (cs ++ r) =
      (readParts marks (.code pairs after none) r).map fun s =>
        s.after (fun parts => cs.foldr consCode parts) cs.length 0 := by
  induction cs generalizing depth with
  | nil =>
    rw [h.depth_eq, List.nil_append]
    cases readParts marks (.code pairs depth none) r with
    | error e => rfl
    | ok s => simp [Except.map, Reading.after]
  | cons c cs ih =>
    rw [List.mem_cons, not_or] at hsingle hdouble
    -- one character goes before what is read from the depth behind it
    have hcons {inner : Nat} (hinner : Nests '{' '}' inner cs after)
        (hstep : readParts marks (.code pairs depth none) (c :: (cs ++ r)) =
          (readParts marks (.code pairs inner none) (cs ++ r)).map fun s =>
            s.after (consCode c) 1 0) :
        readParts marks (.code pairs depth none) (c :: cs ++ r) =
          (readParts marks (.code pairs after none) r).map fun s =>
            s.after (fun parts => (c :: cs).foldr consCode parts) (c :: cs).length 0 := by
      rw [List.cons_append, hstep, ih hinner hsingle.2 hdouble.2]
      cases readParts marks (.code pairs after none) r with
      | error e => rfl
      | ok s => simp [Except.map, Reading.after, Nat.add_comm, Nat.add_assoc]
    by_cases hopen : c = '{'
    · subst hopen
      exact hcons (h.opened (by decide)) (by simp [readParts])
    by_cases hclose : c = '}'
    · subst hclose
      obtain ⟨outer, rfl, houter⟩ := h.closed (by decide)
      exact hcons houter (by simp [readParts])
    · refine hcons (h.other hopen hclose) ?_
      rw [readParts.eq_13 _ _ _ _ _ hopen (fun h _ => hclose h) (fun _ h _ => hclose h),
        if_neg (by simp [Ne.symm hsingle.1, Ne.symm hdouble.1])]

include hm in
/-- Parts that are written between the marks are read as they are. -/
theorem readParts_write {parts : List Part} (h : Writable parts) (r : List Char) :
    readParts marks (.text 0) (parts.flatMap marks.write ++ marks.closer :: r) =
      .ok ⟨parts, (parts.flatMap marks.write).length + 1,
        (parts.flatMap Part.plain).count '\n'⟩ := by
  induction parts with
  | nil =>
    obtain ⟨-, hslash, hhash⟩ := hm.1 marks.closer (by simp [Delimiters.chars])
    show readParts marks (.text 0) (marks.closer :: r) = _
    rw [readParts_text marks 0 (fun _ _ h _ => hslash h) (fun _ h _ => hhash h), if_neg hm.2,
      if_pos rfl]
    rfl
  | cons p parts ih =>
    rw [List.flatMap_cons, List.append_assoc]
    cases p with
    | text cs =>
      rw [Delimiters.write, readParts_guarded hm, ih h.tail]
      simp only [Except.map, Reading.after, h.foldr_consText, List.flatMap_cons, Part.plain,
        List.length_append, List.count_append, Nat.add_assoc]
    | code cs =>
      obtain ⟨hsingle, hdouble, hbraces⟩ := h.each (.code cs) List.mem_cons_self
      have hwrite : marks.write (.code cs) ++ (parts.flatMap marks.write ++ marks.closer :: r) =
          '#' :: '{' :: (cs ++ '}' :: (parts.flatMap marks.write ++ marks.closer :: r)) := by
        simp [Delimiters.write]
      rw [hwrite, readParts, readParts_code hbraces hsingle hdouble, readParts, ih h.tail]
      simp only [Except.map, Reading.after, foldr_consCode, List.flatMap_cons, Part.plain,
        List.nil_append, List.length_append, List.length_cons, List.length_nil, Delimiters.write,
        id, Nat.zero_add, Reading.mk.injEq, Except.ok.injEq, true_and, and_true]
      omega

end Interpolated

section Raw

variable {marks : Delimiters}

theorem readRaw_cons (marks : Delimiters) (depth : Nat) {c : Char} (hc : c ≠ '\\')
    (rest : List Char) :
    readRaw marks depth (c :: rest) =
      if marks.opener = some c then
        (readRaw marks (depth + 1) rest).map fun r => r.after (c :: ·) 1 (lineEnds c)
      else if c = marks.closer then
        match depth with
        | 0 => some ⟨[], 1, 0⟩
        | outer + 1 => (readRaw marks outer rest).map fun r => r.after (c :: ·) 1 (lineEnds c)
      else (readRaw marks depth rest).map fun r => r.after (c :: ·) 1 (lineEnds c) := by
  cases depth <;> simp [readRaw, hc]

/-- A body without backslashes is read up to a depth in its brackets. -/
theorem readRaw_nests {opens closes : Char} (hne : opens ≠ closes) {depth after : Nat}
    {cs : List Char} (h : Nests opens closes depth cs after) (hslash : '\\' ∉ cs) (r : List Char) :
    readRaw ⟨some opens, closes⟩ depth (cs ++ r) =
      (readRaw ⟨some opens, closes⟩ after r).map fun s =>
        s.after (cs ++ ·) cs.length (cs.count '\n') := by
  induction cs generalizing depth with
  | nil =>
    rw [h.depth_eq, List.nil_append]
    cases readRaw ⟨some opens, closes⟩ depth r <;> simp [Reading.after]
  | cons c cs ih =>
    rw [List.mem_cons, not_or] at hslash
    have hcons {inner : Nat} (hinner : Nests opens closes inner cs after)
        (hstep : readRaw ⟨some opens, closes⟩ depth (c :: (cs ++ r)) =
          (readRaw ⟨some opens, closes⟩ inner (cs ++ r)).map fun s =>
            s.after (c :: ·) 1 (lineEnds c)) :
        readRaw ⟨some opens, closes⟩ depth (c :: cs ++ r) =
          (readRaw ⟨some opens, closes⟩ after r).map fun s =>
            s.after (c :: cs ++ ·) (c :: cs).length ((c :: cs).count '\n') := by
      rw [List.cons_append, hstep, ih hinner hslash.2, count_cons_lineEnds]
      cases readRaw ⟨some opens, closes⟩ after r <;>
        simp [Reading.after, Nat.add_comm, Nat.add_assoc]
    have hstep := readRaw_cons ⟨some opens, closes⟩ depth (Ne.symm hslash.1) (cs ++ r)
    by_cases hopen : c = opens
    · subst hopen
      exact hcons (h.opened hne) (by simpa using hstep)
    by_cases hclose : c = closes
    · subst hclose
      obtain ⟨outer, rfl, houter⟩ := h.closed hne
      exact hcons houter (by simpa [hne] using hstep)
    · exact hcons (h.other hopen hclose) (by simpa [Ne.symm hopen, hclose] using hstep)

/-- A backslash keeps itself in a raw body, and the character behind it. -/
theorem readRaw_guarded_char (hnewline : '\n' ∉ marks.chars) (depth : Nat) (c : Char)
    (r : List Char) :
    readRaw marks depth (guarded ('\\' :: marks.chars) c ++ r) =
      (readRaw marks depth r).map fun s =>
        s.after (guarded ('\\' :: marks.chars) c ++ ·) (guarded ('\\' :: marks.chars) c).length
          (lineEnds c) := by
  by_cases hc : c ∈ '\\' :: marks.chars
  · have hn : lineEnds c = 0 := by
      refine if_neg ?_
      rintro rfl
      simp [hnewline] at hc
    simp only [guarded, if_pos hc, List.cons_append, List.nil_append, readRaw, hn,
      List.length_cons, List.length_nil]
  · have hslash : c ≠ '\\' := fun h => hc (by simp [h])
    have hopener : marks.opener ≠ some c := fun h => hc (by simp [Delimiters.chars, h])
    have hcloser : c ≠ marks.closer := fun h => hc (by simp [Delimiters.chars, h])
    simp only [guarded, if_neg hc, List.cons_append, List.nil_append, List.length_cons,
      List.length_nil]
    rw [readRaw_cons marks depth hslash, if_neg hopener, if_neg hcloser]

/-- A guarded text is read as it is written. -/
theorem readRaw_guarded (hnewline : '\n' ∉ marks.chars) (depth : Nat) (cs r : List Char) :
    readRaw marks depth (cs.flatMap (guarded ('\\' :: marks.chars)) ++ r) =
      (readRaw marks depth r).map fun s =>
        s.after (cs.flatMap (guarded ('\\' :: marks.chars)) ++ ·)
          (cs.flatMap (guarded ('\\' :: marks.chars))).length (cs.count '\n') := by
  induction cs with
  | nil =>
    show readRaw marks depth r = _
    cases readRaw marks depth r <;> simp [Reading.after]
  | cons c cs ih =>
    rw [List.flatMap_cons, List.append_assoc, readRaw_guarded_char hnewline, ih,
      count_cons_lineEnds]
    cases readRaw marks depth r <;> simp [Reading.after, Nat.add_assoc]

end Raw

/-! ## Tokens -/

/-- The tokens of a text of that length that is one lexeme, in which so many line ends count. -/
def onlyToken (x : Lexeme) (length lines : Nat) : List Token :=
  [⟨x, 1, 0, length, false⟩, ⟨.eof, 1 + lines, length, length, false⟩]

open Lexer in
/-- A text that is one lexeme. -/
theorem tokenize_eq_onlyToken (map : LineMap) {c : Char} {more : List Char} {x : Lexeme}
    {lines : Nat} (hf : (start (c :: more)).front c more = .ok (.lexeme x more.length lines)) :
    tokenize map (c :: more) = .ok (onlyToken x (c :: more).length lines) := by
  have hstep : (start (c :: more)).step c more = .ok
      (some ((start (c :: more)).token x more.length),
        (start (c :: more)).behind x more.length lines) := by
    rw [step, hf]
    rfl
  have hnil : ((start (c :: more)).behind x more.length lines).rest = [] := by
    simp [behind, advance, start]
  rw [tokenize_eq_ok, run_step rfl hstep, run_nil hnil]
  simp [onlyToken, Except.map, token, behind, advance, start, Nat.add_comm]

theorem readDelimited_write {marks : Delimiters} (hm : marks.Usable) {parts : List Part}
    (h : Writable parts) :
    readDelimited marks (parts.flatMap marks.write ++ [marks.closer]) =
      .ok ⟨if parts.isEmpty then [.text []] else parts,
        (parts.flatMap marks.write ++ [marks.closer]).length,
        (parts.flatMap Part.plain).count '\n'⟩ := by
  rw [readDelimited, readParts_write hm h, List.length_append]
  rfl

namespace Lexer

variable (l : Lexer)

theorem front_percent {letter : Char} (hletter : letter = 'q' ∨ letter = 'Q') (m : PercentMark)
    (body : List Char) :
    l.front '%' (letter :: m.opener :: body) =
      frontPercent (some letter) m.opener (letter :: m.opener :: body) := by
  have hstart : percentStart (letter :: m.opener :: body) = some (some letter, m.opener) := by
    rcases hletter with rfl | rfl
    all_goals
      match m with
      | .bar | .bang | .slash => rfl
      | .bracket b => cases b <;> rfl
  simp [front, hstart]

/-- A raw percent literal is the string that its body is read as. -/
theorem front_rawPercent (m : PercentMark) {body : List Char} {r : Reading (List Char)}
    (hr : readRaw m.marks 0 (body ++ [m.marks.closer]) = some r)
    (hused : r.used = (body ++ [m.marks.closer]).length) :
    l.front '%' (rawPercent m body).tail = .ok
      (.lexeme (.string [.text r.value]) (rawPercent m body).tail.length r.lines) := by
  rw [rawPercent, List.tail_cons, l.front_percent (.inl rfl)]
  simp only [frontPercent, Option.toList_some, List.length_cons, List.length_nil, Option.getD_some,
    List.drop_succ_cons, List.drop_zero, List.mem_cons, true_or, if_true]
  rw [show Delimiters.ofOpener m.opener = m.marks from rfl, hr]
  dsimp only
  rw [hused]
  simp only [Except.ok.injEq, Front.lexeme.injEq, true_and, and_true]
  omega

/-- An interpolated percent literal is the string that its body is read as. -/
theorem front_percentString (m : PercentMark) {body : List Char} {r : Reading (List Part)}
    (hr : readDelimited m.marks body = .ok r) (hused : r.used = body.length) :
    l.front '%' ('Q' :: m.opener :: body) = .ok
      (.lexeme (.string r.value) ('Q' :: m.opener :: body).length r.lines) := by
  rw [l.front_percent (.inr rfl)]
  simp only [frontPercent, Option.toList_some, List.length_cons, List.length_nil, Option.getD_some,
    List.drop_succ_cons, List.drop_zero]
  rw [if_neg (by decide), show Delimiters.ofOpener m.opener = m.marks from rfl, hr]
  simp only [Except.map, if_true, hused, Except.ok.injEq, Front.lexeme.injEq, true_and, and_true]
  omega

end Lexer

section Tokens

open Lexer

variable (map : LineMap)

theorem tokenize_singleQuoted (t : List Char) :
    tokenize map (singleQuoted t) =
      .ok (onlyToken (.string [.text t]) (singleQuoted t).length (t.count '\n')) := by
  refine tokenize_eq_onlyToken map ?_
  show frontSingleQuoted _ = _
  rw [frontSingleQuoted, readSingleQuoted_escape]
  simp

theorem tokenize_symbol_singleQuoted (t : List Char) :
    tokenize map (':' :: singleQuoted t) =
      .ok (onlyToken (.symbol (String.ofList t)) (':' :: singleQuoted t).length
        (t.count '\n')) := by
  refine tokenize_eq_onlyToken map ?_
  show frontSymbol (singleQuoted t) = _
  simp only [singleQuoted, frontSymbol]
  rw [readSingleQuoted_escape]
  simp [Nat.add_comm]

theorem tokenize_write (q : Quotation) {parts : List Part} (h : Writable parts) :
    tokenize map (q.write parts) =
      .ok (onlyToken (.string (if parts.isEmpty then [.text []] else parts)) (q.write parts).length
        ((parts.flatMap Part.plain).count '\n')) := by
  have hread := readDelimited_write q.marks_usable h
  cases q with
  | double =>
    refine tokenize_eq_onlyToken map ?_
    show frontString (.same '"') _ = _
    rw [frontString]
    exact congrArg (Except.map _) hread
  | backtick =>
    refine tokenize_eq_onlyToken map ?_
    show frontString (.same '\x60') _ = _
    rw [frontString]
    exact congrArg (Except.map _) hread
  | percent m => exact tokenize_eq_onlyToken map (front_percentString _ m hread rfl)

theorem tokenize_symbol_write {parts : List Part} (h : Writable parts) :
    tokenize map (':' :: Quotation.double.write parts) =
      .ok (onlyToken (.symbol (String.ofList (parts.flatMap Part.plain)))
        (':' :: Quotation.double.write parts).length ((parts.flatMap Part.plain).count '\n')) := by
  have hread := readDelimited_write Quotation.double.marks_usable h
  refine tokenize_eq_onlyToken map ?_
  show (readDelimited (.same '"') _).map _ = _
  refine (congrArg (Except.map _) hread).trans ?_
  cases parts <;> simp [Except.map, Lexeme.value, Part.plain, Nat.add_comm, Quotation.write,
    Quotation.opening]

theorem tokenize_rawPercent_balanced (b : Bracket) {body : List Char}
    (h : Balanced b.left b.right body) (hslash : '\\' ∉ body) :
    tokenize map (rawPercent (.bracket b) body) =
      .ok (onlyToken (.string [.text body]) (rawPercent (.bracket b) body).length
        (body.count '\n')) := by
  have hmarks : (PercentMark.bracket b).marks = ⟨some b.left, b.right⟩ := by cases b <;> rfl
  have hne : b.left ≠ b.right := by cases b <;> decide
  have hclose : b.right ≠ '\\' := by cases b <;> decide
  have hread : readRaw (PercentMark.bracket b).marks 0 (body ++ [b.right]) =
      some ⟨body, (body ++ [b.right]).length, body.count '\n'⟩ := by
    rw [hmarks, readRaw_nests hne h hslash, readRaw_cons _ _ hclose]
    simp [hne, Reading.after]
  rw [show b.right = (PercentMark.bracket b).marks.closer by rw [hmarks]] at hread
  exact tokenize_eq_onlyToken map (front_rawPercent _ _ hread rfl)

theorem tokenize_rawPercent_guarded (m : PercentMark) (t : List Char) :
    tokenize map (rawPercent m (t.flatMap (guarded ('\\' :: m.marks.chars)))) =
      .ok (onlyToken (.string [.text (t.flatMap (guarded ('\\' :: m.marks.chars)))])
        (rawPercent m (t.flatMap (guarded ('\\' :: m.marks.chars)))).length (t.count '\n')) := by
  obtain ⟨hmarks, hne⟩ : m.marks.Usable := (Quotation.percent m).marks_usable
  have hslash : m.marks.closer ≠ '\\' := (hmarks _ (by simp [Delimiters.chars])).2.1
  have hnewline : '\n' ∉ m.marks.chars := by
    match m with
    | .bar | .bang | .slash => decide
    | .bracket b => cases b <;> decide
  have hread : readRaw m.marks 0
      (t.flatMap (guarded ('\\' :: m.marks.chars)) ++ [m.marks.closer]) =
      some ⟨t.flatMap (guarded ('\\' :: m.marks.chars)),
        (t.flatMap (guarded ('\\' :: m.marks.chars)) ++ [m.marks.closer]).length,
        t.count '\n'⟩ := by
    rw [readRaw_guarded hnewline, readRaw_cons _ _ hslash, if_neg hne, if_pos rfl]
    simp [Reading.after]
  exact tokenize_eq_onlyToken map (front_rawPercent _ m hread rfl)

end Tokens

/-- Every text comes back from a single-quoted string or symbol. Parts come back from an
interpolated string, whatever its marks, and their text from a symbol in double quotes. A body
without backslashes comes back from a raw percent literal in brackets if it has these brackets in
pairs. Each literal is one token, and the line ends that count are those of the text. -/
theorem tokenize_written (map : LineMap) :
    (∀ t, tokenize map (singleQuoted t) =
      .ok (onlyToken (.string [.text t]) (singleQuoted t).length (t.count '\n'))) ∧
    (∀ (q : Quotation) (parts : List Part), Writable parts →
      tokenize map (q.write parts) =
        .ok (onlyToken (.string (if parts = [] then [.text []] else parts)) (q.write parts).length
          ((parts.flatMap Part.plain).count '\n')) ∧
      (Lexeme.string (if parts = [] then [.text []] else parts)).value =
        String.ofList (parts.flatMap Part.plain)) ∧
    (∀ t, tokenize map (':' :: singleQuoted t) =
      .ok (onlyToken (.symbol (String.ofList t)) (':' :: singleQuoted t).length
        (t.count '\n'))) ∧
    (∀ parts, Writable parts →
      tokenize map (':' :: Quotation.double.write parts) =
        .ok (onlyToken (.symbol (String.ofList (parts.flatMap Part.plain)))
          (':' :: Quotation.double.write parts).length
          ((parts.flatMap Part.plain).count '\n'))) ∧
    (∀ (b : Bracket) (body : List Char), Balanced b.left b.right body → '\\' ∉ body →
      tokenize map (rawPercent (.bracket b) body) =
        .ok (onlyToken (.string [.text body]) (rawPercent (.bracket b) body).length
          (body.count '\n'))) := by
  refine ⟨tokenize_singleQuoted map, fun q parts h => ⟨?_, ?_⟩, tokenize_symbol_singleQuoted map,
    fun parts => tokenize_symbol_write map, fun b body => tokenize_rawPercent_balanced map b⟩
  · simpa using tokenize_write map q h
  · cases parts <;> simp [Lexeme.value, Part.plain]

/-- Text with the marks of the literal, of an escape and of code in it, and code with braces. -/
theorem tokenize_written_marks :
    Writable [.text "\\\x7d#\x7b".toList, .code "\x7ba\x7d".toList, .code [], .text ['\n']] ∧
    tokenize [] "%Q\x7b\\\\\\\x7d\\#\\\x7b#\x7b\x7ba\x7d\x7d#\x7b\x7d\n\x7d".toList = .ok
      [⟨.string [.text "\\\x7d#\x7b".toList, .code "\x7ba\x7d".toList, .code [], .text ['\n']], 1,
        0, 22, false⟩, ⟨.eof, 2, 22, 22, false⟩] ∧
    Balanced '<' '>' "a<b>\n".toList ∧
    tokenize [] "%q<a<b>\n>".toList = .ok
      [⟨.string [.text "a<b>\n".toList], 1, 0, 9, false⟩, ⟨.eof, 2, 9, 9, false⟩] := by
  have hparts : Writable
      [.text "\\\x7d#\x7b".toList, .code "\x7ba\x7d".toList, .code [], .text ['\n']] :=
    ⟨by decide, by decide⟩
  have hbody : Balanced '<' '>' "a<b>\n".toList := by decide
  exact ⟨hparts, ((tokenize_written []).2.1 (.percent (.bracket .curly)) _ hparts).1, hbody,
    (tokenize_written []).2.2.2.2 .angle _ hbody (by decide)⟩

/-- A raw percent literal is read as it is written: a text comes back from it with the backslashes
that were put before its marks and its backslashes, and so it comes back unchanged just if it has
none of these characters. From single quotes the same text comes back in any case. -/
theorem tokenize_guarded_raw (map : LineMap) (m : PercentMark) (t : List Char) :
    tokenize map (rawPercent m (t.flatMap (guarded ('\\' :: m.marks.chars)))) =
      .ok (onlyToken (.string [.text (t.flatMap (guarded ('\\' :: m.marks.chars)))])
        (rawPercent m (t.flatMap (guarded ('\\' :: m.marks.chars)))).length (t.count '\n')) ∧
    (t.flatMap (guarded ('\\' :: m.marks.chars)) = t ↔ ∀ c ∈ t, c ∉ '\\' :: m.marks.chars) ∧
    tokenize map (singleQuoted t) =
      .ok (onlyToken (.string [.text t]) (singleQuoted t).length (t.count '\n')) :=
  ⟨tokenize_rawPercent_guarded map m t, flatMap_guarded_eq_self, tokenize_singleQuoted map t⟩

/-- A bracket that is escaped in a raw percent literal keeps its backslash. -/
theorem rawPercent_keeps_backslash :
    tokenize [] "%q(\\()".toList = .ok
      [⟨.string [.text "\\(".toList], 1, 0, 6, false⟩, ⟨.eof, 1, 6, 6, false⟩] ∧
    tokenize [] "'('".toList = .ok
      [⟨.string [.text "(".toList], 1, 0, 3, false⟩, ⟨.eof, 1, 3, 3, false⟩] := by
  decide +kernel

end RecipeManifest

import RecipeManifest.Proofs.LinkResolution

/-!
Names in resolved paths.

A path is taken apart at its slashes, and so are the targets of links, so that no name with a slash
comes in where a path is resolved (`slashless_realPath`). An absolute path stays absolute on the
way, whatever links lead to.
-/

namespace RecipeManifest

/-- No piece holds a separator. -/
theorem Text.separates_of_mem_pieces {separates : Char → Bool} {cs piece : List Char}
    (h : piece ∈ pieces separates cs) : ∀ c ∈ piece, separates c = false := by
  induction cs generalizing piece with
  | nil =>
    rw [pieces, List.mem_singleton] at h
    simp [h]
  | cons c rest ih =>
    rw [pieces] at h
    split at h
    · rcases List.mem_cons.1 h with rfl | h
      · simp
      · exact ih h
    · next hc =>
      have hc : separates c = false := by simpa using hc
      split at h
      · rw [List.mem_singleton] at h
        simp [h, hc]
      · next first more hpieces =>
        rw [hpieces] at ih
        rcases List.mem_cons.1 h with rfl | h
        · intro c' hc'
          rcases List.mem_cons.1 hc' with rfl | hc'
          · exact hc
          · exact ih (by simp) c' hc'
        · exact ih (List.mem_cons_of_mem _ h)

/-- No name holds a slash. -/
def Slashless (names : List String) : Prop :=
  ∀ name ∈ names, '/' ∉ name.toList

theorem Slashless.append {a b : List String} (ha : Slashless a) (hb : Slashless b) :
    Slashless (a ++ b) := by
  intro name hname
  rcases List.mem_append.1 hname with h | h
  · exact ha name h
  · exact hb name h

theorem Slashless.mono {a b : List String} (hb : Slashless b) (h : a ⊆ b) : Slashless a :=
  fun name hname => hb name (h hname)

theorem slashless_pieces (cs : List Char) :
    Slashless ((Text.pieces (· == '/') cs).map String.ofList) := by
  intro name hname
  obtain ⟨piece, hpiece, rfl⟩ := List.mem_map.1 hname
  intro hslash
  rw [String.toList_ofList] at hslash
  have := Text.separates_of_mem_pieces hpiece '/' hslash
  simp at this

theorem slashless_partsOf (s : String) : Slashless (Path.partsOf s) :=
  (slashless_pieces s.toList).mono (List.filter_subset_self _)

namespace FileTree

theorem slashless_targetParts (target : String) : Slashless (targetParts target) := by
  unfold targetParts
  dsimp only
  split
  · exact (slashless_pieces target.toList).mono (List.tail_subset _)
  · exact slashless_pieces target.toList

/-! ## What each step of the resolution keeps -/

/-- A property of paths that holds at every root and is kept by steps along names for which `N`
holds, as it does for the names in texts. -/
structure Stable (G : Path → Prop) (N : String → Prop) : Prop where
  root : ∀ anchor, anchor ≠ .relative → G ⟨anchor, []⟩
  step : ∀ p name, G p → N name → G (p.step name)
  partsOf : ∀ s, ∀ name ∈ Path.partsOf s, N name
  targetParts : ∀ target, ∀ name ∈ targetParts target, N name

variable {G : Path → Prop} {N : String → Prop}

theorem Stable.foldl_step (h : Stable G N) {p : Path} (hp : G p) {names : List String}
    (hnames : ∀ name ∈ names, N name) : G (names.foldl Path.step p) := by
  induction names generalizing p with
  | nil => exact hp
  | cons name rest ih =>
    exact ih (h.step p name hp (hnames name (by simp))) fun n hn => hnames n (by simp [hn])

/-- A text that starts with a slash is an absolute path. -/
theorem anchor_ofString {s : String} {cs : List Char} (h : s.toList = '/' :: cs) :
    (Path.ofString s).anchor ≠ .relative := by
  unfold Path.ofString
  rw [h, List.takeWhile_cons_of_pos (by rfl)]
  dsimp only
  split
  · next hlength => simp at hlength
  · simp
  · simp

theorem Stable.append (h : Stable G N) {p : Path} (hp : G p) {names : List String}
    (hnames : ∀ name ∈ names, N name) : G (append p names) := by
  unfold FileTree.append
  split
  · next first rest =>
    have hslash : ("/".intercalate ("" :: first :: rest)).toList =
        '/' :: ("/".intercalate (first :: rest)).toList := by
      rw [String.intercalate_cons_cons]
      simp
    exact h.foldl_step (h.root _ (anchor_ofString hslash)) (h.partsOf _)
  · exact h.foldl_step hp hnames

theorem mem_hops_of_mem_leftovers {hops : List Hop} {names : List String} {name : String}
    (hnames : names ∈ leftovers hops) (hname : name ∈ names) : .part name ∈ hops := by
  induction hops generalizing names with
  | nil =>
    rw [leftovers, List.mem_singleton] at hnames
    simp [hnames] at hname
  | cons hop rest ih =>
    cases hop with
    | arrived link =>
      rw [leftovers, List.mem_cons] at hnames
      rcases hnames with rfl | hnames
      · cases hname
      · exact List.mem_cons_of_mem _ (ih hnames hname)
    | part part =>
      rw [leftovers] at hnames
      split at hnames
      · next first more hrest =>
        rw [hrest] at ih
        rcases List.mem_cons.1 hnames with rfl | hnames
        · rcases List.mem_cons.1 hname with rfl | hname
          · exact List.mem_cons_self
          · exact List.mem_cons_of_mem _ (ih (by simp) hname)
        · exact List.mem_cons_of_mem _ (ih (List.mem_cons_of_mem _ hnames) hname)
      · rw [List.mem_singleton] at hnames
        subst hnames
        rw [List.mem_singleton] at hname
        subst hname
        exact List.mem_cons_self

theorem Stable.byName (h : Stable G N) {p : Path} (hp : G p) {hops : List Hop}
    (hhops : ∀ name, .part name ∈ hops → N name) : G (byName p hops) := by
  have hnames : ∀ names ∈ leftovers hops, ∀ name ∈ names, N name := fun names hmem name hname =>
    hhops name (mem_hops_of_mem_leftovers hmem hname)
  unfold FileTree.byName
  generalize leftovers hops = paths at hnames
  induction paths generalizing p with
  | nil => exact hp
  | cons names rest ih =>
    exact ih (h.append hp (hnames names (by simp))) fun n hn => hnames n (by simp [hn])

/-- What is kept by each step holds where the resolution ends. -/
theorem Stable.resolve (h : Stable G N) (t : FileTree) (cwd : Location) (budget : Nat)
    {seen : List (Path × Option Path)} {p : Path} {hops : List Hop} (hp : G p)
    (hseen : ∀ link reached, (link, some reached) ∈ seen → G reached)
    (hhops : ∀ name, .part name ∈ hops → N name) : G (t.resolve cwd budget seen p hops) := by
  have hchild : ∀ {p name}, ¬(name = "" ∨ name = "." ∨ name = "..") → G p → N name →
      G (p.child name) := by
    intro p name hname hp hN
    have hstep := h.step p name hp hN
    rwa [Path.step, if_neg (by tauto), if_neg (by tauto)] at hstep
  fun_induction FileTree.resolve t cwd budget seen p hops with
  | case1 => exact hp
  | case2 budget seen p link rest ih =>
    refine ih hp ?_ fun name hname => hhops name (List.mem_cons_of_mem _ hname)
    intro link' reached hmem
    rcases List.mem_cons.1 hmem with heq | hmem
    · cases heq
      exact hp
    · exact hseen link' reached hmem
  | case3 budget seen p name rest hname ih =>
    exact ih (h.step p name hp (hhops name (by simp))) hseen fun n hn =>
      hhops n (List.mem_cons_of_mem _ hn)
  | case4 budget seen p name rest hname next target hlink reached hreached ih =>
    exact ih (hseen _ _ (mem_pair_of_lookup hreached)) hseen fun n hn =>
      hhops n (List.mem_cons_of_mem _ hn)
  | case5 budget seen p name rest hname next target hlink hpending =>
    exact h.byName (hchild hname hp (hhops name (by simp))) fun n hn =>
      hhops n (List.mem_cons_of_mem _ hn)
  | case6 seen p name rest hname next target hlink hnew =>
    exact h.byName (hchild hname hp (hhops name (by simp))) fun n hn =>
      hhops n (List.mem_cons_of_mem _ hn)
  | case7 seen p name rest hname next target hlink hnew budget ih =>
    refine ih ?_ ?_ ?_
    · split
      · exact h.root .root (by simp)
      · exact hp
    · intro link reached hmem
      rcases List.mem_cons.1 hmem with heq | hmem
      · cases heq
      · exact hseen link reached hmem
    · intro n hn
      rw [targetHops_eq] at hn
      simp only [List.mem_append, List.mem_map, Hop.part.injEq, exists_eq_right, List.mem_cons,
        reduceCtorEq, false_or] at hn
      rcases hn with hn | hn
      · exact h.targetParts target n hn
      · exact hhops n (List.mem_cons_of_mem _ hn)
  | case8 budget seen p name rest hname next hlink ih =>
    exact ih (hchild hname hp (hhops name (by simp))) hseen fun n hn =>
      hhops n (List.mem_cons_of_mem _ hn)

theorem stable_isAbsolute : Stable (fun p => p.isAbsolute = true) fun _ => True where
  root := by
    intro anchor hanchor
    simpa [Path.isAbsolute] using hanchor
  step := by
    intro p name hp _
    unfold Path.step Path.parent
    split
    · exact hp
    split
    · rw [if_pos (.inl hp)]
      exact hp
    · exact hp
  partsOf := by simp
  targetParts := by simp

theorem stable_slashless : Stable (fun p => Slashless p.parts) fun name => '/' ∉ name.toList where
  root := by simp [Slashless]
  step := by
    intro p name hp hname
    have hchild : ∀ name, '/' ∉ name.toList → Slashless (p.child name).parts := fun name hname =>
      hp.append (by simpa [Slashless] using hname)
    unfold Path.step Path.parent
    split
    · exact hp
    split
    · split
      · exact hp.mono (List.dropLast_subset _)
      · exact hchild ".." (by decide)
    · exact hchild name hname
  partsOf := slashless_partsOf
  targetParts := slashless_targetParts

/-! ## Resolved paths -/

theorem proper_foldl_step {l : Location} (hl : l.Proper) (names : List String) :
    Location.Proper (names.foldl Location.step l) := by
  induction names generalizing l with
  | nil => exact hl
  | cons name rest ih =>
    refine ih ?_
    unfold Location.step
    split
    · exact hl
    split
    · exact hl.parent
    · exact hl.concat ⟨by tauto, by tauto, by tauto⟩

theorem slashless_foldl_step {l : Location} (hl : Slashless l) {names : List String}
    (hnames : Slashless names) : Slashless (names.foldl Location.step l) := by
  induction names generalizing l with
  | nil => exact hl
  | cons name rest ih =>
    refine ih ?_ fun n hn => hnames n (by simp [hn])
    unfold Location.step
    split
    · exact hl
    split
    · exact hl.mono (List.dropLast_subset l)
    · exact hl.append (by simpa [Slashless] using hnames name (by simp))

variable (t : FileTree) {p : Path}

theorem isAbsolute_resolve (cwd : Location) (budget : Nat) (hops : List Hop) :
    (t.resolve cwd budget [] .root hops).isAbsolute = true :=
  stable_isAbsolute.resolve t cwd budget rfl (by simp) (by simp)

/-- An absolute path is resolved to proper names. -/
theorem proper_realPath (hp : p.isAbsolute = true) (cwd : Location) :
    Location.Proper (t.realPath cwd p).parts := by
  rw [realPath, hp, if_pos rfl, Path.absolute, Path.place, t.isAbsolute_resolve, if_pos rfl]
  exact proper_foldl_step (by simp [Location.Proper]) _

/-- Names with slashes come from the working directory or from the path itself. -/
theorem slashless_realPath (hp : Slashless p.parts) {cwd : Location}
    (hcwd : p.isAbsolute = true ∨ Slashless cwd) : Slashless (t.realPath cwd p).parts := by
  have hhops : ∀ name, .part name ∈ p.parts.map Hop.part → '/' ∉ name.toList := by
    intro name hname
    simp only [List.mem_map, Hop.part.injEq, exists_eq_right] at hname
    exact hp name hname
  have hnil : Slashless [] := by simp [Slashless]
  have hresolved : ∀ start : Path, start.parts = [] → Slashless
      (t.resolve cwd (t.entries.length * (Path.longest + 2)) [] start (p.parts.map .part)).parts :=
    fun start hstart => stable_slashless.resolve t cwd _ (by rwa [hstart]) (by simp) hhops
  rw [realPath, Path.absolute, Path.place]
  refine slashless_foldl_step ?_ (hresolved _ (by split <;> rfl))
  rcases hcwd with habsolute | hcwd
  · rw [habsolute, if_pos rfl, t.isAbsolute_resolve, if_pos rfl]
    exact hnil
  · split_ifs <;> assumption

end FileTree

end RecipeManifest

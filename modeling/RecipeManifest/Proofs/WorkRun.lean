import Mathlib.Order.Defs.Unbundled
import RecipeManifest.Cookbook.Work

/-!
What work does to the files.

Contexts and logs wrap work without a trace in its result and in the files (`Wraps`). `Keeps R work`
says that the files before and after are related by `R`, also if the work fails half way. Its lemmas
follow the steps that work is put together from, so that for a whole conversion only the single
changes of files are left to look at.
-/

namespace RecipeManifest

namespace Work

variable {α β : Type}

/-! ## Running the steps -/

theorem run_bind (x : Work α) (f : α → Work β) (w : World) :
    (x >>= f).run.run w =
      match x.run.run w with
      | (.ok a, w') => (f a).run.run w'
      | (.error e, w') => (.error e, w') := by
  unfold ExceptT.run StateT.run
  simp only [bind, ExceptT.bind, ExceptT.mk, StateT.bind, ExceptT.bindCont]
  rcases x w with ⟨_ | _, _⟩ <;> rfl

theorem run_tryCatch (x : Work α) (handle : Fault → Work α) (w : World) :
    (tryCatch x handle).run.run w =
      match x.run.run w with
      | (.ok a, w') => (.ok a, w')
      | (.error e, w') => (handle e).run.run w' := by
  unfold ExceptT.run StateT.run
  simp only [tryCatch, tryCatchThe, MonadExceptOf.tryCatch, ExceptT.tryCatch, ExceptT.mk, bind,
    StateT.bind]
  rcases x w with ⟨_ | _, _⟩ <;> rfl

@[simp]
theorem run_pure (a : α) (w : World) : (pure a : Work α).run.run w = (.ok a, w) :=
  rfl

@[simp]
theorem run_get (w : World) : (get : Work World).run.run w = (.ok w, w) :=
  rfl

@[simp]
theorem run_modify (f : World → World) (w : World) :
    (modify f : Work Unit).run.run w = (.ok (), f w) :=
  rfl

theorem run_look (f : FileSystem → Except Fault α) (w : World) :
    (look f).run.run w = (f w.files, w) :=
  rfl

theorem run_attempt (f : FileSystem → FileSystem × Except Fault Unit) (w : World) :
    (attempt f).run.run w = ((f w.files).2, { w with files := (f w.files).1 }) :=
  rfl

theorem run_change (f : FileSystem → Except Fault FileSystem) (w : World) :
    (change f).run.run w =
      match f w.files with
      | .ok files => (.ok (), { w with files := files })
      | .error e => (.error e, w) := by
  rw [change, run_bind, run_look]
  cases f w.files <;> rfl

/-- The event is told, and the listener has the last word. -/
theorem run_tell (e : Event) (w : World) :
    (tell e).run.run w = (w.host.listener e, { w with events := w.events ++ [e] }) :=
  rfl

/-- The text is written if the disk takes it. Else the file is left with the first bytes. -/
theorem run_write (p base : Path) (text : String) (w : World) :
    (write p base text).run.run w =
      match w.host.disk w.manifests.length with
      | none => (change fun fs => fs.writeTextWithin p base text).run.run w
      | some breakdown =>
        match w.files.writeBytesWithin p base
            ((Text.encodeUtf8 text).take breakdown.written) with
        | .ok files => (.error breakdown.fault, { w with files := files })
        | .error e => (.error e, w) := by
  rw [write, run_bind, run_get]
  dsimp only
  cases w.host.disk w.manifests.length with
  | none => rfl
  | some breakdown =>
    dsimp only
    rw [run_bind, run_change]
    cases w.files.writeBytesWithin p base _ <;> rfl

/-- Steps that return have returned one after the other. -/
theorem run_bind_eq_ok {x : Work α} {f : α → Work β} {w w' : World} {b : β}
    (h : (x >>= f).run.run w = (.ok b, w')) :
    ∃ a w₁, x.run.run w = (.ok a, w₁) ∧ (f a).run.run w₁ = (.ok b, w') := by
  rw [run_bind] at h
  split at h
  · next a w₁ hx => exact ⟨a, w₁, hx, h⟩
  · cases h

/-! ## Contexts and logs -/

/-- Nothing but logs and the context may differ. -/
structure Alike (w w' : World) : Prop where
  files : w'.files = w.files
  manifests : w'.manifests = w.manifests
  events : w'.events = w.events
  host : w'.host = w.host

theorem Alike.refl (w : World) : Alike w w := ⟨rfl, rfl, rfl, rfl⟩

theorem Alike.trans {w w₁ w₂ : World} (h : Alike w w₁) (h' : Alike w₁ w₂) : Alike w w₂ :=
  ⟨h'.files.trans h.files, h'.manifests.trans h.manifests, h'.events.trans h.events,
    h'.host.trans h.host⟩

/-- The work does what the inner work does, but for logs and contexts. -/
def Wraps (outer inner : Work α) : Prop :=
  ∀ w, ∃ w₀, Alike w w₀ ∧ (outer.run.run w).1 = (inner.run.run w₀).1 ∧
    Alike (inner.run.run w₀).2 (outer.run.run w).2

theorem Wraps.trans {x y z : Work α} (h : Wraps x y) (h' : Wraps y z) : Wraps x z := by
  intro w
  obtain ⟨w₀, hw₀, hresult₀, hafter₀⟩ := h w
  obtain ⟨w₁, hw₁, hresult₁, hafter₁⟩ := h' w₀
  exact ⟨w₁, hw₀.trans hw₁, hresult₀.trans hresult₁, hafter₁.trans hafter₀⟩

theorem Wraps.run_eq_ok {outer inner : Work α} (h : Wraps outer inner) {w w' : World} {a : α}
    (hrun : outer.run.run w = (.ok a, w')) :
    ∃ w₀ w₁, Alike w w₀ ∧ inner.run.run w₀ = (.ok a, w₁) ∧ Alike w₁ w' := by
  obtain ⟨w₀, hw₀, hresult, hafter⟩ := h w
  rw [hrun] at hresult hafter
  exact ⟨w₀, (inner.run.run w₀).2, hw₀, Prod.ext hresult.symm rfl, hafter⟩

theorem Wraps.exists_run {outer inner : Work α} (h : Wraps outer inner) {w : World}
    {a : α} {fs : FileSystem} {manifests : List Path}
    (hinner : ∀ w₀, Alike w w₀ → ∃ w₁, inner.run.run w₀ = (.ok a, w₁) ∧ w₁.files = fs ∧
      w₁.manifests = manifests) :
    ∃ w', outer.run.run w = (.ok a, w') ∧ w'.files = fs ∧ w'.manifests = manifests := by
  obtain ⟨w₀, hw₀, hresult, hafter⟩ := h w
  obtain ⟨w₁, hrun, hfiles, hmanifests⟩ := hinner w₀ hw₀
  rw [hrun] at hresult hafter
  exact ⟨(outer.run.run w).2, Prod.ext hresult rfl, hafter.files.trans hfiles,
    hafter.manifests.trans hmanifests⟩

theorem wraps_modify_bind {f : World → World} (hf : ∀ w, Alike w (f w)) (work : Work α) :
    Wraps (modify f >>= fun _ => work) work := by
  intro w
  rw [run_bind, run_modify]
  exact ⟨f w, hf w, rfl, .refl _⟩

theorem wraps_log_bind (e : LogEntry) (work : Work α) : Wraps (log e >>= fun _ => work) work := by
  refine wraps_modify_bind ?_ work
  exact fun _ => ⟨rfl, rfl, rfl, rfl⟩

theorem wraps_bind_pure {f : α → Work α} (hf : ∀ a, Wraps (f a) (pure a)) (work : Work α) :
    Wraps (work >>= f) work := by
  intro w
  refine ⟨w, .refl w, ?_⟩
  rw [run_bind]
  rcases work.run.run w with ⟨e | a, w₁⟩
  · exact ⟨rfl, .refl w₁⟩
  · obtain ⟨w₂, hw₂, hresult, hafter⟩ := hf a w₁
    exact ⟨hresult, hw₂.trans hafter⟩

theorem wraps_tryCatch {handle : Fault → Work α} (hhandle : ∀ e, Wraps (handle e) (throw e))
    (work : Work α) : Wraps (tryCatch work handle) work := by
  intro w
  refine ⟨w, .refl w, ?_⟩
  rw [run_tryCatch]
  rcases work.run.run w with ⟨e | a, w₁⟩
  · obtain ⟨w₂, hw₂, hresult, hafter⟩ := hhandle e w₁
    exact ⟨hresult, hw₂.trans hafter⟩
  · exact ⟨rfl, .refl w₁⟩

theorem wraps_inContext (change : Context) (work : Work α) :
    Wraps (inContext change work) work := by
  intro w
  unfold inContext
  rw [run_bind, run_get]
  dsimp only
  have hset : ∀ context : Context, ∀ v, Alike v { v with context := context } :=
    fun _ _ => ⟨rfl, rfl, rfl, rfl⟩
  refine ((wraps_modify_bind (hset _) _).trans ?_) w
  refine (wraps_bind_pure (fun a => wraps_modify_bind (hset _) (pure a)) _).trans ?_
  exact wraps_tryCatch (fun e => wraps_modify_bind (hset _) (throw e)) work

theorem wraps_operation (name function logger : String) (work : Work α) :
    Wraps (operation name function logger work) work := by
  refine (wraps_inContext _ _).trans ((wraps_log_bind _ _).trans ?_)
  refine (wraps_bind_pure (fun a => wraps_log_bind _ (pure a)) _).trans ?_
  refine wraps_tryCatch (fun e => ?_) work
  intro w
  rw [run_bind, run_get]
  dsimp only
  split
  · exact wraps_log_bind _ _ w
  · exact ⟨w, .refl w, rfl, .refl w⟩
  · exact ⟨w, .refl w, rfl, .refl w⟩
  · exact wraps_log_bind _ _ w

/-- Notes are logged before the result is given. -/
theorem wraps_noting (noted : Noted α) : Wraps (noting noted) (look fun _ => noted.result) := by
  unfold noting
  induction noted.notes with
  | nil =>
    intro w
    exact ⟨w, .refl w, rfl, .refl w⟩
  | cons n rest ih =>
    rw [List.forIn_cons]
    simp only [bind_assoc, pure_bind]
    exact (wraps_log_bind _ _).trans ih

/-! ## What holds between the files before and after -/

/-- The files before and after the work are related by `R`, whether it returns or fails. -/
def Keeps (R : FileSystem → FileSystem → Prop) (work : Work α) : Prop :=
  ∀ w, R w.files (work.run.run w).2.files

variable {R : FileSystem → FileSystem → Prop}

theorem Keeps.attempt {f : FileSystem → FileSystem × Except Fault Unit}
    (hf : ∀ fs, R fs (f fs).1) : Keeps R (attempt f) := fun w => hf w.files

theorem Keeps.wraps {outer inner : Work α} (hinner : Keeps R inner) (h : Wraps outer inner) :
    Keeps R outer := by
  intro w
  obtain ⟨w₀, hw₀, -, hafter⟩ := h w
  rw [hafter.files, ← hw₀.files]
  exact hinner w₀

section Reflexive

variable [Std.Refl R]

theorem Keeps.pure (a : α) : Keeps R (Pure.pure a : Work α) := fun w => Std.Refl.refl w.files

theorem Keeps.get : Keeps R (MonadState.get : Work World) := fun w => Std.Refl.refl w.files

theorem Keeps.look (f : FileSystem → Except Fault α) : Keeps R (look f) := fun w =>
  Std.Refl.refl w.files

theorem Keeps.modify {f : World → World} (hf : ∀ w, (f w).files = w.files) :
    Keeps R (modify f : Work Unit) := by
  intro w
  rw [run_modify, hf]
  exact Std.Refl.refl w.files

theorem Keeps.change {f : FileSystem → Except Fault FileSystem}
    (hf : ∀ fs fs', f fs = .ok fs' → R fs fs') : Keeps R (change f) := by
  intro w
  rw [run_change]
  cases hfiles : f w.files with
  | error e => exact Std.Refl.refl w.files
  | ok files => exact hf _ _ hfiles

theorem Keeps.tell (e : Event) : Keeps R (tell e) := fun w => Std.Refl.refl w.files

theorem Keeps.write {p base : Path}
    (hf : ∀ fs bytes fs', fs.writeBytesWithin p base bytes = .ok fs' → R fs fs') (text : String) :
    Keeps R (write p base text) := by
  intro w
  rw [run_write]
  split
  · exact Keeps.change (fun fs fs' => hf fs _ fs') w
  · split
    · next hwrite => exact hf _ _ _ hwrite
    · exact Std.Refl.refl w.files

/-- What was seen of the files is known to the work that follows. -/
theorem Keeps.look_bind {f : FileSystem → Except Fault α} {k : α → Work β}
    (hk : ∀ fs a, f fs = .ok a → Keeps R (k a)) : Keeps R (Work.look f >>= k) := by
  intro w
  rw [run_bind, run_look]
  cases hlook : f w.files with
  | error e => exact Std.Refl.refl w.files
  | ok a => exact hk _ a hlook w

end Reflexive

section Transitive

variable [IsTrans FileSystem R]

theorem Keeps.bind {x : Work α} {f : α → Work β} (hx : Keeps R x) (hf : ∀ a, Keeps R (f a)) :
    Keeps R (x >>= f) := by
  intro w
  have hfirst := hx w
  rw [run_bind]
  rcases hrun : x.run.run w with ⟨e | a, w₁⟩
  · rwa [hrun] at hfirst
  · rw [hrun] at hfirst
    exact IsTrans.trans _ _ _ hfirst (hf a w₁)

theorem Keeps.forM [Std.Refl R] {f : α → Work Unit} (hf : ∀ a, Keeps R (f a)) (xs : List α) :
    Keeps R (xs.forM f) := by
  induction xs with
  | nil => exact .pure ()
  | cons x xs ih => exact .bind (hf x) fun _ => ih

end Transitive

/-! ## Work on the files alone -/

/-- The work sees nothing but the files, and leaves all else as it is. -/
def OnFiles (work : Work α) : Prop :=
  ∀ w, work.run.run w =
    ((work.run.run { files := w.files }).1,
      { w with files := (work.run.run { files := w.files }).2.files })

theorem OnFiles.look (f : FileSystem → Except Fault α) : OnFiles (look f) := fun _ => rfl

theorem OnFiles.attempt (f : FileSystem → FileSystem × Except Fault Unit) : OnFiles (attempt f) :=
  fun _ => rfl

theorem OnFiles.bind {x : Work α} {f : α → Work β} (hx : OnFiles x) (hf : ∀ a, OnFiles (f a)) :
    OnFiles (x >>= f) := by
  intro w
  rw [run_bind, run_bind, hx w]
  rcases x.run.run { files := w.files } with ⟨e | a, w₁⟩
  · rfl
  · dsimp only
    rw [hf a { w with files := w₁.files }, hf a w₁]

theorem OnFiles.forM {f : α → Work Unit} (hf : ∀ a, OnFiles (f a)) (xs : List α) :
    OnFiles (xs.forM f) := by
  induction xs with
  | nil => exact fun _ => rfl
  | cons x xs ih => exact .bind (hf x) fun _ => ih

end Work

end RecipeManifest

import RecipeManifest.Log.Note

/-!
Opening chains of steps that can fail.

Each lemma says when one link of a chain succeeds, or what is left of it when the notes are not
looked at.
-/

namespace RecipeManifest

variable {ε α β : Type}

theorem bind_eq_ok_iff {x : Except ε α} {f : α → Except ε β} {b : β} :
    (x >>= f) = .ok b ↔ ∃ a, x = .ok a ∧ f a = .ok b := by
  cases x <;> simp [bind, Except.bind]

theorem bind_eq_error_iff {x : Except ε α} {f : α → Except ε β} {e : ε} :
    (x >>= f) = .error e ↔ x = .error e ∨ ∃ a, x = .ok a ∧ f a = .error e := by
  cases x <;> simp [bind, Except.bind]

theorem map_eq_ok_iff {x : Except ε α} {f : α → β} {b : β} :
    x.map f = .ok b ↔ ∃ a, x = .ok a ∧ f a = b := by
  cases x <;> simp [Except.map]

theorem mapError_eq_ok_iff {ε' : Type} {x : Except ε α} {f : ε → ε'} {a : α} :
    x.mapError f = .ok a ↔ x = .ok a := by
  cases x with
  | error e => constructor <;> intro h <;> cases h
  | ok b => constructor <;> intro h <;> cases h <;> rfl

theorem pure_eq_ok_iff {a b : α} : (pure a : Except ε α) = .ok b ↔ a = b := by
  simp [pure, Except.pure]

namespace Noted

theorem bind_result_ok {x : Noted α} {f : α → Noted β} {b : β}
    (h : (x >>= f).result = .ok b) : ∃ a, x.result = .ok a ∧ (f a).result = .ok b := by
  cases hx : x.result with
  | error e => simp [bind, hx] at h
  | ok a => exact ⟨a, rfl, by simpa [bind, hx] using h⟩

/-- Two links of a chain that succeeds, with what each of them noted. -/
theorem bind_eq_ok_iff {x : Noted α} {f : α → Noted β} {notes : List Note} {b : β} :
    (x >>= f) = ⟨notes, .ok b⟩ ↔
      ∃ before a after, x = ⟨before, .ok a⟩ ∧ f a = ⟨after, .ok b⟩ ∧ notes = before ++ after := by
  obtain ⟨written, result⟩ := x
  cases result with
  | error e => simp [bind]
  | ok a =>
    constructor
    · intro h
      obtain ⟨rfl, hb⟩ := Noted.mk.inj h
      exact ⟨written, a, (f a).notes, rfl, by rw [← hb], rfl⟩
    · rintro ⟨_, _, after, ⟨⟩, hf, rfl⟩
      simp [bind, hf]

theorem result_bind (x : Noted α) (f : α → Noted β) :
    (x >>= f).result = x.result >>= fun a => (f a).result := by
  obtain ⟨_, _ | a⟩ := x <;> rfl

@[simp]
theorem result_pure (a : α) : (pure a : Noted α).result = .ok a :=
  rfl

@[simp]
theorem result_note (level : Level) (channel : Channel) (message : String) :
    (note level channel message).result = .ok () :=
  rfl

@[simp]
theorem result_lift (r : Except Fault α) : (lift r).result = r :=
  rfl

/-- A note that may be written does not show in the result. -/
theorem result_ite_note (c : Prop) [Decidable c] (level : Level) (channel : Channel)
    (message : String) (x : Noted α) :
    (if c then do note level channel message; x else x).result = x.result := by
  split
  · rw [result_bind]
    rfl
  · rfl

/-- A note that may be written before a value is given. -/
theorem ite_note_pure (c : Prop) [Decidable c] (level : Level) (channel : Channel)
    (message : String) (a : α) :
    (if c then do note level channel message; pure a else pure a) =
      (⟨if c then [⟨level, channel, message⟩] else [], .ok a⟩ : Noted α) := by
  split <;> rfl

end Noted

end RecipeManifest

import Disassembly.Edit

/-! Changes told by how they end. Each guard succeeds under one condition and leaves the state
alone, so a change that consists of guards before one assignment is all or nothing. -/
namespace Disassembly.Edit

variable {σ τ α β ε : Type}

theorem pure_eq_ok {a b : α} {s t : σ} :
    (pure a : Edit σ α) s = .ok b t ↔ b = a ∧ t = s := by
  change (EStateM.Result.ok a s = .ok b t) ↔ _
  simp [eq_comm]

/-- A sequence succeeds exactly when both of its parts do, one from where the other ended. -/
theorem bind_eq_ok {x : Edit σ α} {f : α → Edit σ β} {b : β} {s t : σ} :
    (x >>= f) s = .ok b t ↔ ∃ a u, x s = .ok a u ∧ f a u = .ok b t := by
  change (EStateM.bind x f s = .ok b t) ↔ _
  cases h : x s with
  | ok a u => simp [EStateM.bind, h, and_assoc]
  | error e u => simp [EStateM.bind, h]

/-- Looking at the state always succeeds, answers with the state and leaves it as it is. -/
theorem get_eq_ok {a s t : σ} : (get : Edit σ σ) s = .ok a t ↔ s = a ∧ s = t := by
  change (EStateM.Result.ok s s = .ok a t) ↔ _
  simp

/-- An assignment always succeeds and leaves the assigned state, whatever was there before. -/
theorem set_eq_ok {u s t : σ} {a : PUnit} : (set u : Edit σ PUnit) s = .ok a t ↔ t = u := by
  change (EStateM.Result.ok PUnit.unit u = .ok a t) ↔ _
  simp [eq_comm]

/-- A failure never counts as a success. -/
theorem throw_ne_ok {e : Error} {a : α} {s t : σ} : (throw e : Edit σ α) s ≠ .ok a t := by
  change EStateM.Result.error e s ≠ .ok a t
  simp

/-- Requiring the value of a test succeeds when the test does, with its value and without touching
the state. -/
theorem require_eq_ok {f : ε → Error} {x : Except ε α} {a : α} {s t : σ} :
    (require f x : Edit σ α) s = .ok a t ↔ x = .ok a ∧ s = t := by
  cases x with
  | ok b => simp [require, pure_eq_ok, eq_comm]
  | error e => simp [require, throw_ne_ok]

/-- Demanding a value succeeds when it is there, without touching the state. -/
theorem demand_eq_ok {e : Error} {o : Option α} {a : α} {s t : σ} :
    (demand e o : Edit σ α) s = .ok a t ↔ o = some a ∧ s = t := by
  cases o with
  | some b => simp [demand, pure_eq_ok, eq_comm]
  | none => simp [demand, throw_ne_ok]

/-- Refusing on account of an error goes on when there is none, without touching the state. -/
theorem refuse_eq_ok {o : Option Error} {a : Unit} {s t : σ} :
    (refuse o : Edit σ Unit) s = .ok a t ↔ o = none ∧ s = t := by
  cases o with
  | some e => simp [refuse, throw_ne_ok]
  | none => simp [refuse, pure_eq_ok, eq_comm]

/-- Refusing under a condition goes on when it does not hold, without touching the state. -/
theorem refuseIf_eq_ok {c : Prop} [Decidable c] {e : Error} {a : Unit} {s t : σ} :
    (refuseIf c e : Edit σ Unit) s = .ok a t ↔ ¬c ∧ s = t := by
  rw [refuseIf, refuse_eq_ok]
  by_cases h : c <;> simp [h]

/-- A change of a part succeeds exactly when the change succeeds on the part. -/
theorem within_eq_ok {part : σ → τ} {put : τ → σ → σ} {edit : Edit τ α} {a : α} {s t : σ} :
    within part put edit s = .ok a t ↔ ∃ u, edit (part s) = .ok a u ∧ t = put u s := by
  unfold within
  cases h : edit (part s) with
  | ok b u => simp [and_assoc, eq_comm]
  | error e u => simp

/-! How a sequence fails: the guards that hold are passed, up to the first that does not. -/

/-- After a first part that succeeds, the sequence is its second part, from the state that the first
one left. -/
theorem bind_of_ok {x : Edit σ α} {f : α → Edit σ β} {a : α} {s t : σ} (h : x s = .ok a t) :
    (x >>= f) s = f a t := by
  change EStateM.bind x f s = _
  rw [EStateM.bind, h]

/-- A first part that fails ends the sequence with its error, in the state that it left. -/
theorem bind_of_error {x : Edit σ α} {f : α → Edit σ β} {e : Error} {s t : σ}
    (h : x s = .error e t) : (x >>= f) s = .error e t := by
  change EStateM.bind x f s = _
  rw [EStateM.bind, h]

theorem get_bind {f : σ → Edit σ β} {s : σ} : (get >>= f : Edit σ β) s = f s s := rfl

theorem demand_some_bind {e : Error} {f : α → Edit σ β} {o : Option α} {a : α} {s : σ}
    (h : o = some a) : (demand e o >>= f) s = f a s := by
  subst h
  rfl

/-- A missing value ends the sequence with the error that was given for it. -/
theorem demand_none_bind {e : Error} {f : α → Edit σ β} {o : Option α} {s : σ} (h : o = none) :
    (demand e o >>= f) s = .error e s := by
  subst h
  rfl

/-- An error to be refused with ends the sequence there. -/
theorem refuse_some_bind {e : Error} {f : Unit → Edit σ β} {o : Option Error} {s : σ}
    (h : o = some e) : (refuse o >>= f) s = .error e s := by
  subst h
  rfl

theorem refuseIf_bind_of_false {c : Prop} [Decidable c] {e : Error} {f : Unit → Edit σ β} {s : σ}
    (h : ¬c) : (refuseIf c e >>= f) s = f () s :=
  bind_of_ok (refuseIf_eq_ok.mpr ⟨h, rfl⟩)

theorem refuseIf_bind_of_true {c : Prop} [Decidable c] {e : Error} {f : Unit → Edit σ β} {s : σ}
    (h : c) : (refuseIf c e >>= f) s = .error e s := refuse_some_bind (if_pos h)

/-- If the change of a part fails, so does the change of the whole. What the failure left of the
part is put back. -/
theorem within_of_error {part : σ → τ} {put : τ → σ → σ} {edit : Edit τ α} {e : Error} {s : σ}
    {t : τ} (h : edit (part s) = .error e t) : within part put edit s = .error e (put t s) := by
  rw [within, h]

/-- A handler is not consulted about a success. -/
theorem tryCatch_of_ok {x : Edit σ α} {handle : Error → Edit σ α} {a : α} {s t : σ}
    (h : x s = .ok a t) : (tryCatch x handle : Edit σ α) s = .ok a t := by
  change EStateM.tryCatch x handle s = _
  delta EStateM.tryCatch
  simp only [h]

/-- What failed is dealt with where it left off. -/
theorem tryCatch_of_error {x : Edit σ α} {handle : Error → Edit σ α} {e : Error} {s t : σ}
    (h : x s = .error e t) : (tryCatch x handle : Edit σ α) s = handle e t := by
  change EStateM.tryCatch x handle s = _
  delta EStateM.tryCatch
  simp only [h]
  rfl

theorem after_of_ok {edit : Edit σ α} {a : α} {s t : σ} (h : edit s = .ok a t) :
    edit.after s = t := by
  rw [after, h]

/-- A successful run is determined by its answer and the state it leaves behind. Both can be
evaluated without naming that state. -/
theorem eq_ok_of_answer {edit : Edit σ α} {a : α} {s : σ} (h : edit.answer s = .ok a) :
    edit s = .ok a (edit.after s) := by
  unfold answer at h
  unfold after
  cases hEdit : edit s with
  | error e t => simp [hEdit] at h
  | ok a' t =>
      simp only [hEdit, Except.ok.injEq] at h
      rw [h]

/-- A failed run is determined by its error and the state it leaves behind. -/
theorem eq_error_of_answer {edit : Edit σ α} {e : Error} {s : σ} (h : edit.answer s = .error e) :
    edit s = .error e (edit.after s) := by
  unfold answer at h
  unfold after
  cases hEdit : edit s with
  | ok a t => simp [hEdit] at h
  | error e' t =>
      simp only [hEdit, Except.error.injEq] at h
      rw [h]

/-- The change looks at the state and never touches it. -/
def Quiet (edit : Edit σ α) : Prop :=
  ∀ s, (∃ a, edit s = .ok a s) ∨ ∃ e, edit s = .error e s

theorem quiet_pure (a : α) : Quiet (pure a : Edit σ α) := fun _ => .inl ⟨a, rfl⟩

theorem quiet_throw (e : Error) : Quiet (throw e : Edit σ α) := fun _ => .inr ⟨e, rfl⟩

theorem quiet_get : Quiet (get : Edit σ σ) := fun s => .inl ⟨s, rfl⟩

/-- Requiring the value of a test never touches the state, whether or not the test succeeds. -/
theorem quiet_require (f : ε → Error) (x : Except ε α) : Quiet (require f x : Edit σ α) := by
  cases x with
  | ok a => exact quiet_pure a
  | error e => exact quiet_throw (f e)

theorem quiet_demand (e : Error) (o : Option α) : Quiet (demand e o : Edit σ α) := by
  cases o with
  | some a => exact quiet_pure a
  | none => exact quiet_throw e

theorem quiet_refuse (o : Option Error) : Quiet (refuse o : Edit σ Unit) := by
  cases o with
  | some e => exact quiet_throw e
  | none => exact quiet_pure ()

theorem quiet_refuseIf (c : Prop) [Decidable c] (e : Error) :
    Quiet (refuseIf c e : Edit σ Unit) :=
  quiet_refuse _

/-- All or nothing: a change that fails leaves the state as it was. -/
def Atomic (edit : Edit σ α) : Prop := ∀ s e t, edit s = .error e t → t = s

/-- Guards in front of an atomic change keep it atomic. -/
theorem Quiet.bind {x : Edit σ α} {f : α → Edit σ β} (hx : Quiet x) (hf : ∀ a, Atomic (f a)) :
    Atomic (x >>= f) := by
  intro s e t h
  rcases hx s with ⟨a, hOk⟩ | ⟨e', hError⟩
  · rw [bind_of_ok hOk] at h
    exact hf a s e t h
  · rw [bind_of_error hError] at h
    cases h
    rfl

/-- An assignment cannot fail, nor can the answer behind it. -/
theorem atomic_set (u : σ) (a : α) : Atomic (do set u; return a : Edit σ α) := by
  intro s e t h
  cases h

theorem atomic_set_unit (u : σ) : Atomic (set u : Edit σ PUnit) := by
  intro s e t h
  cases h

/-- A change of a part is all or nothing for the whole, provided that putting the part back as it is
changes nothing. -/
theorem Atomic.within {part : σ → τ} {put : τ → σ → σ} {edit : Edit τ α}
    (hPut : ∀ s, put (part s) s = s) (h : Atomic edit) : Atomic (within part put edit) := by
  intro s e t hEdit
  unfold Edit.within at hEdit
  cases hPart : edit (part s) with
  | ok a u => simp [hPart] at hEdit
  | error e' u =>
      simp only [hPart, EStateM.Result.error.injEq] at hEdit
      rw [← hEdit.2, h _ _ _ hPart, hPut]

/-- What an atomic change leaves behind is the state before it, or what it made of that state
when it succeeded. -/
theorem Atomic.after_cases {edit : Edit σ α} (h : Atomic edit) (s : σ) :
    edit.after s = s ∨ ∃ a, edit s = .ok a (edit.after s) := by
  cases hEdit : edit s with
  | ok a t => exact .inr ⟨a, by simp [after, hEdit]⟩
  | error e t => exact .inl (by simp only [after, hEdit]; exact h s e t hEdit)

/-- Whatever success keeps, an atomic change keeps in either case. -/
theorem Atomic.keeps {edit : Edit σ α} {I : σ → Prop} {s : σ} (h : Atomic edit) (hs : I s)
    (hOk : ∀ a t, edit s = .ok a t → I t) : I (edit.after s) := by
  rcases h.after_cases s with hSame | ⟨a, hEdit⟩
  · rwa [hSame]
  · exact hOk a _ hEdit

end Disassembly.Edit

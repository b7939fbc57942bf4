-- Programs over a state that may stop: the shape of a C function that can
-- panic. `Runs` is the rule set: what holds when a program returns, and
-- which stops are allowed.

namespace ThuKernel

/-- Why a call never returns: a call of `panic`, or a step that C leaves
undefined (a null pointer, a list with no end). -/
inductive Stop where
  | panic (msg : String)
  | fault (why : String)
  deriving DecidableEq, Repr

abbrev Prog (σ : Type) := StateT σ (Except Stop)

namespace Prog

variable {σ τ α β : Type}

def panic (msg : String) : Prog σ α := fun _ => .error (.panic msg)

def fault (why : String) : Prog σ α := fun _ => .error (.fault why)

/-- Runs a program on one part of a larger state. -/
def on (get : σ → τ) (put : τ → σ → σ) (f : Prog τ α) : Prog σ α := fun s =>
  match f (get s) with
  | .ok (a, t) => .ok (a, put t s)
  | .error e => .error e

/-- `if (c) f();` -/
def when (c : Prop) [Decidable c] (f : Prog σ Unit) : Prog σ Unit := if c then f else pure ()

/-- The loop `for (i = lo; i < lo + n; i++) body(i);`. -/
def forUp (body : Nat → Prog σ Unit) : (lo n : Nat) → Prog σ Unit
  | _, 0 => pure ()
  | lo, n + 1 => do
    body lo
    forUp body (lo + 1) n

/-- The state in which a program returns, or the one it started in. -/
@[irreducible] def final (f : Prog σ α) (s : σ) : σ :=
  match f s with
  | .ok (_, s') => s'
  | .error _ => s

/-- The program returns. -/
@[irreducible] def returns (f : Prog σ α) (s : σ) : Bool := (f s).isOk

theorem returns_iff {f : Prog σ α} {s : σ} :
    f.returns s = true ↔ ∃ a, f s = .ok (a, f.final s) := by
  unfold returns final
  cases f s with
  | error e => simp [Except.isOk, Except.toBool]
  | ok r => exact ⟨fun _ => ⟨r.1, rfl⟩, fun _ => rfl⟩

theorem returns_of_ok {f : Prog σ α} {s s' : σ} {a : α} (h : f s = .ok (a, s')) :
    f.returns s = true := by
  unfold returns
  rw [h]
  rfl

theorem final_of_ok {f : Prog σ α} {s s' : σ} {a : α} (h : f s = .ok (a, s')) : f.final s = s' := by
  unfold final
  rw [h]

theorem bind_ok {β : Type} {f : Prog σ α} {g : α → Prog σ β} {s s' : σ} {a : α}
    (h : f s = .ok (a, s')) :
    (f >>= g) s = g a s' := by
  change Except.bind (f s) (fun r => g r.1 r.2) = _
  rw [h]
  rfl

theorem bind_error {β : Type} {f : Prog σ α} {g : α → Prog σ β} {s : σ} {e : Stop}
    (h : f s = .error e) :
    (f >>= g) s = .error e := by
  change Except.bind (f s) (fun r => g r.1 r.2) = _
  rw [h]
  rfl

theorem map_error {β : Type} {f : Prog σ α} {g : α → β} {s : σ} {e : Stop} (h : f s = .error e) :
    (g <$> f) s = .error e := by
  rw [map_eq_pure_bind]
  exact bind_error h

end Prog

variable {σ τ α β : Type} {E E' : Stop → Prop} {s : σ}

/-- From `s`, the program returns in `Q`, or stops for a reason in `E`. -/
def Runs (E : Stop → Prop) (f : Prog σ α) (s : σ) (Q : α → σ → Prop) : Prop :=
  match f s with
  | .ok (a, s') => Q a s'
  | .error e => E e

namespace Runs

/-! ## The steps of a program -/

@[simp] theorem pure_iff {a : α} {Q : α → σ → Prop} : Runs E (pure a) s Q ↔ Q a s := Iff.rfl

@[simp] theorem bind_iff {f : Prog σ α} {g : α → Prog σ β} {Q : β → σ → Prop} :
    Runs E (f >>= g) s Q ↔ Runs E f s (fun a s' => Runs E (g a) s' Q) := by
  unfold Runs
  simp only [bind, StateT.bind, Except.bind]
  cases f s with
  | error e => rfl
  | ok r => rfl

@[simp] theorem map_iff {f : Prog σ α} {g : α → β} {Q : β → σ → Prop} :
    Runs E (g <$> f) s Q ↔ Runs E f s (fun a s' => Q (g a) s') := by
  unfold Runs
  simp only [Functor.map, StateT.map, bind, Except.bind]
  cases f s with
  | error e => rfl
  | ok r => rfl

@[simp] theorem get_iff {Q : σ → σ → Prop} : Runs E get s Q ↔ Q s s := Iff.rfl

@[simp] theorem set_iff {t : σ} {Q : Unit → σ → Prop} :
    Runs E (set t : Prog σ Unit) s (fun u => Q u) ↔ Q () t := Iff.rfl

@[simp] theorem modify_iff {g : σ → σ} {Q : Unit → σ → Prop} :
    Runs E (modify g : Prog σ Unit) s (fun u => Q u) ↔ Q () (g s) := Iff.rfl

@[simp] theorem panic_iff {msg : String} {Q : α → σ → Prop} :
    Runs E (Prog.panic msg : Prog σ α) s Q ↔ E (.panic msg) := Iff.rfl

@[simp] theorem fault_iff {why : String} {Q : α → σ → Prop} :
    Runs E (Prog.fault why : Prog σ α) s Q ↔ E (.fault why) := Iff.rfl

theorem when_iff {c : Prop} [Decidable c] {f : Prog σ Unit} {Q : Unit → σ → Prop} :
    Runs E (Prog.when c f) s Q ↔ (c → Runs E f s Q) ∧ (¬ c → Q () s) := by
  unfold Prog.when
  by_cases h : c
  · simp [h]
  · simp [h]

@[simp] theorem on_iff {get : σ → τ} {put : τ → σ → σ} {f : Prog τ α} {Q : α → σ → Prop} :
    Runs E (Prog.on get put f) s Q ↔ Runs E f (get s) (fun a t => Q a (put t s)) := by
  unfold Runs Prog.on
  cases f (get s) with
  | error e => rfl
  | ok r => rfl

/-! ## How results compose -/

theorem mono {f : Prog σ α} {Q Q' : α → σ → Prop} (h : Runs E f s Q)
    (hE : ∀ e, E e → E' e) (hQ : ∀ a s', Q a s' → Q' a s') : Runs E' f s Q' := by
  unfold Runs at *
  cases hf : f s with
  | error e => rw [hf] at h; exact hE e h
  | ok r => rw [hf] at h; exact hQ _ _ h

theorem imp {f : Prog σ α} {Q Q' : α → σ → Prop} (h : Runs E f s Q)
    (hQ : ∀ a s', Q a s' → Q' a s') : Runs E f s Q' :=
  h.mono (fun _ he => he) hQ

theorem congr {f : Prog σ α} {Q Q' : α → σ → Prop} (hQ : ∀ a s', Q a s' ↔ Q' a s') :
    Runs E f s Q ↔ Runs E f s Q' :=
  ⟨fun h => h.imp fun a s' => (hQ a s').mp, fun h => h.imp fun a s' => (hQ a s').mpr⟩

/-- The result of the first program is the start of the rest. -/
theorem bind {f : Prog σ α} {g : α → Prog σ β} {P : α → σ → Prop} {Q : β → σ → Prop}
    (h : Runs E f s P) (hg : ∀ a s', P a s' → Runs E (g a) s' Q) : Runs E (f >>= g) s Q :=
  bind_iff.mpr (h.imp hg)

theorem and {f : Prog σ α} {Q Q' : α → σ → Prop} (h : Runs E f s Q) (h' : Runs E' f s Q') :
    Runs (fun e => E e ∧ E' e) f s (fun a s' => Q a s' ∧ Q' a s') := by
  unfold Runs at *
  cases hf : f s with
  | error e => rw [hf] at h h'; exact ⟨h, h'⟩
  | ok r => rw [hf] at h h'; exact ⟨h, h'⟩

/-- A program that returned did so in the result that its run promises. -/
theorem of_ok {f : Prog σ α} {Q : α → σ → Prop} {a : α} {s' : σ} (h : Runs E f s Q)
    (hf : f s = .ok (a, s')) : Q a s' := by
  unfold Runs at h
  rw [hf] at h
  exact h

/-- A program that stops only where `P` does not hold, and returns only where it does. -/
theorem returns_iff {f : Prog σ α} {P : Prop} {Q : α → σ → Prop}
    (h : Runs (fun _ => ¬ P) f s fun a s' => P ∧ Q a s') :
    (f.returns s = true ↔ P) ∧ (P → ∃ a, Q a (f.final s)) := by
  rw [Prog.returns_iff]
  unfold Runs at h
  unfold Prog.final
  cases hf : f s with
  | error e =>
    rw [hf] at h
    refine ⟨iff_of_false ?_ h, fun hp => absurd hp h⟩
    rintro ⟨_, ha⟩
    cases ha
  | ok r =>
    rw [hf] at h
    exact ⟨iff_of_true ⟨r.1, rfl⟩ h.1, fun _ => ⟨r.1, h.2⟩⟩

/-- A program that cannot stop returns. -/
theorem returns {f : Prog σ α} {Q : α → σ → Prop} (h : Runs (fun _ => False) f s Q) :
    ∃ a s', f s = .ok (a, s') ∧ Q a s' := by
  unfold Runs at h
  cases hf : f s with
  | error e =>
    rw [hf] at h
    exact h.elim
  | ok r =>
    rw [hf] at h
    exact ⟨r.1, r.2, rfl, h⟩

/-- A run from a state in which the result of the program is known. -/
theorem ok_iff {f : Prog σ α} {Q : α → σ → Prop} {a : α} {s' : σ} (hf : f s = .ok (a, s')) :
    Runs E f s Q ↔ Q a s' := by
  unfold Runs
  rw [hf]

/-- A result with the run that gave it. -/
theorem with_run {f : Prog σ α} {Q : α → σ → Prop} (h : Runs E f s Q) :
    Runs E f s fun a s' => Q a s' ∧ f s = .ok (a, s') := by
  unfold Runs at *
  cases hf : f s with
  | error e =>
    rw [hf] at h
    exact h
  | ok r =>
    rw [hf] at h
    exact ⟨h, rfl⟩

theorem of_error {f : Prog σ α} {Q : α → σ → Prop} {e : Stop} (h : Runs E f s Q)
    (hf : f s = .error e) : E e := by
  unfold Runs at h
  rw [hf] at h
  exact h

/-- A run that returns one result only. -/
theorem eq_ok {f : Prog σ α} {a : α} {t : σ}
    (h : Runs (fun _ => False) f s fun a' s' => a' = a ∧ s' = t) :
    f s = .ok (a, t) := by
  obtain ⟨_, _, hok, rfl, rfl⟩ := h.returns
  exact hok

/-- A run that cannot return stops, for the one reason there is. -/
theorem error_of_not {f : Prog σ α} {Q : α → σ → Prop} {why : Stop}
    (h : Runs (fun e => e = why) f s Q) (hQ : ∀ a s', ¬ Q a s') : f s = .error why := by
  unfold Runs at h
  cases hf : f s with
  | error e =>
    rw [hf] at h
    rw [h]
  | ok r =>
    rw [hf] at h
    exact absurd h (hQ r.1 r.2)

/-- A run that does not stop returns. -/
theorem exists_ok {f : Prog σ α} {Q : α → σ → Prop} (h : Runs E f s Q) (hE : ∀ e, ¬ E e) :
    ∃ a s', f s = .ok (a, s') ∧ Q a s' := by
  unfold Runs at h
  cases hf : f s with
  | error e =>
    rw [hf] at h
    exact absurd h (hE e)
  | ok r =>
    rw [hf] at h
    exact ⟨r.1, r.2, rfl, h⟩

/-- What holds of every return holds of the run, when every stop is allowed. -/
theorem of_forall {f : Prog σ α} {Q : α → σ → Prop} (h : ∀ a s', f s = .ok (a, s') → Q a s') :
    Runs (fun _ => True) f s Q := by
  unfold Runs
  cases hf : f s with
  | error e => trivial
  | ok r => exact h r.1 r.2 hf

/-! ## Loops -/

/-- A loop keeps an invariant that each turn carries from `i` to `i + 1`. -/
theorem forUp {body : Nat → Prog σ Unit} (I : Nat → σ → Prop) {lo n : Nat}
    (hbody : ∀ i t, lo ≤ i → i < lo + n → I i t → Runs E (body i) t (fun _ t' => I (i + 1) t'))
    (h : I lo s) : Runs E (Prog.forUp body lo n) s (fun _ s' => I (lo + n) s') := by
  induction n generalizing lo s with
  | zero => exact h
  | succ n ih =>
    refine (hbody lo s (Nat.le_refl _) (by omega) h).bind fun _ t ht => ?_
    rw [← Nat.add_assoc, Nat.add_right_comm]
    exact ih (fun i t h1 h2 => hbody i t (by omega) (by omega)) ht

end Runs

/-! ## Programs that stop for certain reasons only -/

/-- From every state, the program returns or stops for a reason in `E`. -/
def StopsIn (E : Stop → Prop) (f : Prog σ α) : Prop := ∀ s, Runs E f s fun _ _ => True

namespace StopsIn

variable {f : Prog σ α} {g : α → Prog σ β}

theorem pure (a : α) : StopsIn E (Pure.pure a : Prog σ α) := fun _ => trivial

theorem bind (hf : StopsIn E f) (hg : ∀ a, StopsIn E (g a)) : StopsIn E (f >>= g) := by
  intro s
  exact (hf s).bind fun a s' _ => hg a s'

theorem get : StopsIn E (MonadState.get : Prog σ σ) := fun _ => trivial

theorem set (t : σ) : StopsIn E (MonadStateOf.set t : Prog σ PUnit) := fun _ => trivial

theorem modify (g : σ → σ) : StopsIn E (modify g : Prog σ Unit) := fun _ => trivial

theorem panic {msg : String} (h : E (.panic msg)) : StopsIn E (Prog.panic msg : Prog σ α) :=
  fun _ => h

theorem fault {why : String} (h : E (.fault why)) : StopsIn E (Prog.fault why : Prog σ α) :=
  fun _ => h

theorem ite {c : Prop} [Decidable c] {f' : Prog σ α} (h : StopsIn E f) (h' : StopsIn E f') :
    StopsIn E (if c then f else f') := by
  split
  · exact h
  · exact h'

theorem when {c : Prop} [Decidable c] {f : Prog σ Unit} (h : StopsIn E f) :
    StopsIn E (Prog.when c f) :=
  ite h (pure ())

theorem forUp {body : Nat → Prog σ Unit} {lo n : Nat} (h : ∀ i, StopsIn E (body i)) :
    StopsIn E (Prog.forUp body lo n) := by
  intro s
  exact Runs.forUp (fun _ _ => True) (fun i t _ _ _ => h i t) trivial

end StopsIn

end ThuKernel

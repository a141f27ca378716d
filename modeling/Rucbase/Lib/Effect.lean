import Mathlib.Logic.Basic

/-!
# Computations over a state that may throw

A computation runs on a state and returns or throws. Unlike in a transaction, an exception does not
take back what the computation has done to the state: whoever catches it finds the state as it was
left. The rules below follow a run from state to state, through what returns (`bind_of_ok`), what
throws (`bind_of_error`) and a handler that throws on (`onError_of_error`). That a computation
returns, with a condition on what it returns and leaves, is `Returns`. How the states before and
behind a computation are related is `Within`, or `FailsWithin` if it is known of the computations
that throw only.
-/

namespace Rucbase.Lib

/-- A computation over the states `σ` that may throw an `ε`. -/
def Effect (ε σ α : Type) : Type := σ → Except ε α × σ

namespace Effect

variable {ε σ α β : Type}

instance : Monad (Effect ε σ) where
  pure a := fun s => (.ok a, s)
  bind x f := fun s =>
    match x s with
    | (.ok a, s') => f a s'
    | (.error e, s') => (.error e, s')

/-- Throw. -/
def raise (e : ε) : Effect ε σ α := fun s => (.error e, s)

/-- A computation that does not use the state. -/
def lift (x : Except ε α) : Effect ε σ α := fun s => (x, s)

/-- The state. -/
def get : Effect ε σ σ := fun s => (.ok s, s)

/-- Change the state. -/
def modify (f : σ → σ) : Effect ε σ Unit := fun s => (.ok (), f s)

/-- `try { body } catch (...) { handler; throw; }`. What the handler throws itself replaces the
exception. -/
def onError (body : Effect ε σ α) (handler : Effect ε σ Unit) : Effect ε σ α := fun s =>
  match body s with
  | (.ok a, s') => (.ok a, s')
  | (.error e, s') =>
    match handler s' with
    | (.ok _, s'') => (.error e, s'')
    | (.error e', s'') => (.error e', s'')

@[simp]
theorem pure_apply (a : α) (s : σ) : (pure a : Effect ε σ α) s = (.ok a, s) := rfl

@[simp]
theorem raise_apply (e : ε) (s : σ) : (raise e : Effect ε σ α) s = (.error e, s) := rfl

@[simp]
theorem lift_apply (x : Except ε α) (s : σ) : (lift x : Effect ε σ α) s = (x, s) := rfl

@[simp]
theorem get_apply (s : σ) : (get : Effect ε σ σ) s = (.ok s, s) := rfl

@[simp]
theorem modify_apply (f : σ → σ) (s : σ) : (modify f : Effect ε σ Unit) s = (.ok (), f s) := rfl

theorem bind_apply (x : Effect ε σ α) (f : α → Effect ε σ β) (s : σ) :
    (x >>= f) s =
      match x s with
      | (.ok a, s') => f a s'
      | (.error e, s') => (.error e, s') := rfl

variable {a : α} {f : α → Effect ε σ β} {s s' s'' : σ} {x body : Effect ε σ α} {e : ε}
  {handler : Effect ε σ Unit} {post : α → σ → Prop}

theorem bind_of_ok (h : x s = (.ok a, s')) : (x >>= f) s = f a s' := by
  rw [bind_apply, h]

theorem bind_of_error (h : x s = (.error e, s')) : (x >>= f) s = (.error e, s') := by
  rw [bind_apply, h]

/-- A bind returns when both of its halves do, one after the other. -/
theorem bind_eq_ok {b : β} :
    (x >>= f) s = (.ok b, s'') ↔ ∃ a s', x s = (.ok a, s') ∧ f a s' = (.ok b, s'') := by
  rw [bind_apply]
  rcases x s with ⟨_ | a, s'⟩
  · simp
  · constructor
    · exact fun h => ⟨a, s', rfl, h⟩
    · rintro ⟨a', s₁, heq, h⟩
      obtain ⟨ha, rfl⟩ := Prod.mk.inj heq
      rw [Except.ok.inj ha]
      exact h

/-- A body with a handler returns when the body does. -/
theorem onError_eq_ok : onError body handler s = (.ok a, s') ↔ body s = (.ok a, s') := by
  unfold onError
  rcases body s with ⟨e | a, s₁⟩
  · cases hhandler : handler s₁ with
    | mk result s₂ => cases result <;> simp [hhandler]
  · simp

theorem onError_of_ok (h : body s = (.ok a, s')) : onError body handler s = (.ok a, s') := by
  simp [onError, h]

theorem onError_of_error (h : body s = (.error e, s')) (hhandler : handler s' = (.ok (), s'')) :
    onError body handler s = (.error e, s'') := by
  simp [onError, h, hhandler]

theorem onError_of_handler_error {e' : ε} (h : body s = (.error e, s'))
    (hhandler : handler s' = (.error e', s'')) : onError body handler s = (.error e', s'') := by
  simp [onError, h, hhandler]

/-! ## Computations that return -/

/-- The computation returns, and the condition holds of what it returns and of the state that it
leaves. -/
def Returns (x : Effect ε σ α) (s : σ) (post : α → σ → Prop) : Prop :=
  ∃ a s', x s = (.ok a, s') ∧ post a s'

theorem Returns.mono {post' : α → σ → Prop} (h : Returns x s post)
    (himp : ∀ a s', post a s' → post' a s') : Returns x s post' := by
  obtain ⟨a, s', hrun, hpost⟩ := h
  exact ⟨a, s', hrun, himp a s' hpost⟩

/-- A computation whose run is known. -/
theorem returns_of_eq (hrun : x s = (.ok a, s')) : Returns x s post ↔ post a s' := by
  constructor
  · rintro ⟨a', s'', hrun', hpost⟩
    rw [hrun] at hrun'
    obtain ⟨ha, rfl⟩ := Prod.mk.inj hrun'
    rwa [Except.ok.inj ha]
  · exact fun hpost => ⟨a, s', hrun, hpost⟩

@[simp]
theorem returns_pure : Returns (pure a : Effect ε σ α) s post ↔ post a s :=
  returns_of_eq rfl

@[simp]
theorem returns_modify {f : σ → σ} {post : Unit → σ → Prop} :
    Returns (modify f : Effect ε σ Unit) s post ↔ post () (f s) :=
  returns_of_eq rfl

/-- A bind returns when its first half does, and its second half on what the first one leaves. -/
theorem returns_bind {post : β → σ → Prop} :
    Returns (x >>= f) s post ↔ Returns x s fun a s' => Returns (f a) s' post := by
  unfold Returns
  constructor
  · rintro ⟨b, s'', hrun, hpost⟩
    obtain ⟨a, s', hx, hf⟩ := bind_eq_ok.mp hrun
    exact ⟨a, s', hx, b, s'', hf, hpost⟩
  · rintro ⟨a, s', hx, b, s'', hf, hpost⟩
    exact ⟨b, s'', bind_eq_ok.mpr ⟨a, s', hx, hf⟩, hpost⟩

/-- The first half of a bind is known by a condition on what it returns and leaves. -/
theorem Returns.bind {mid : α → σ → Prop} {post : β → σ → Prop} (hx : Returns x s mid)
    (hf : ∀ a s', mid a s' → Returns (f a) s' post) : Returns (x >>= f) s post :=
  returns_bind.mpr (hx.mono hf)

/-! ## Computations that stay within a relation -/

/-- Whatever the computation returns or throws, the relation holds between the states before and
behind it. -/
def Within (R : σ → σ → Prop) (x : Effect ε σ α) : Prop := ∀ s, R s (x s).2

section Within

variable {R : σ → σ → Prop}

variable {x : Effect ε σ α}

theorem within_of_eq (hrefl : ∀ s, R s s) (h : ∀ s, (x s).2 = s) : Within R x := by
  intro s
  rw [h]
  exact hrefl s

theorem Within.bind (htrans : ∀ {s s' s'' : σ}, R s s' → R s' s'' → R s s'')
    {f : α → Effect ε σ β} (hx : Within R x) (hf : ∀ a, Within R (f a)) : Within R (x >>= f) := by
  intro s
  have hfirst := hx s
  rw [bind_apply]
  rcases hrun : x s with ⟨e | a, s'⟩
  · rw [hrun] at hfirst
    exact hfirst
  · rw [hrun] at hfirst
    exact htrans hfirst (hf a s')

/-- If the computation throws, the relation holds between the states before and behind it. -/
def FailsWithin (R : σ → σ → Prop) (x : Effect ε σ α) : Prop :=
  ∀ s e s', x s = (.error e, s') → R s s'

theorem FailsWithin.bind (htrans : ∀ {s s' s'' : σ}, R s s' → R s' s'' → R s s'')
    {f : α → Effect ε σ β} (hx : Within R x) (hf : ∀ a, FailsWithin R (f a)) :
    FailsWithin R (x >>= f) := by
  intro s e s'' hrun
  have hfirst := hx s
  rw [bind_apply] at hrun
  rcases hx' : x s with ⟨e' | a, s'⟩
  · rw [hx'] at hrun hfirst
    exact (Prod.mk.inj hrun).2 ▸ hfirst
  · rw [hx'] at hrun hfirst
    exact htrans hfirst (hf a s' e s'' hrun)

/-- A body that fails goes through its handler. -/
theorem FailsWithin.onError (htrans : ∀ {s s' s'' : σ}, R s s' → R s' s'' → R s s'')
    {body : Effect ε σ α} {handler : Effect ε σ Unit} (hbody : FailsWithin R body)
    (hhandler : Within R handler) : FailsWithin R (onError body handler) := by
  intro s e s'' hrun
  unfold Effect.onError at hrun
  rcases hbody' : body s with ⟨e' | a, s'⟩
  · have hfirst := hbody s e' s' hbody'
    have hsecond := hhandler s'
    rcases hcatch : handler s' with ⟨_ | _, s₁⟩
    all_goals
      rw [hcatch] at hsecond
      simp only [hbody', hcatch, Prod.mk.injEq] at hrun
      exact hrun.2 ▸ htrans hfirst hsecond
  · simp [hbody'] at hrun

end Within

end Effect

end Rucbase.Lib

import Mathlib.Data.List.Basic
import Rucbase.Lib.Except

/-!
# Runs of a machine

An event takes a state to the next one, or cannot happen in it. A run is one event after another.
What every step keeps, every run keeps (`foldlM_invariant`), and what every step does to an abstract
state, every run does to it (`foldlM_simulates`, and `foldlM_refines` for steps that succeed).
-/

namespace Rucbase.Lib

variable {σ ε : Type} {step : σ → ε → Option σ}

variable {I : σ → Prop} {events : List ε} {s s' : σ}

/-- An invariant of the steps holds after every run. -/
theorem foldlM_invariant (hstep : ∀ {s : σ} {e : ε} {s' : σ}, I s → step s e = some s' → I s')
    (hrun : events.foldlM step s = some s') (h : I s) : I s' := by
  induction events generalizing s with
  | nil =>
    obtain rfl := Option.some.inj hrun
    exact h
  | cons e events ih =>
    obtain ⟨next, hnext, hrest⟩ := Option.bind_eq_some_iff.mp hrun
    exact ih hrest (hstep h hnext)

/-- If every step keeps an invariant and does to an abstract state what its event means, so does
every run. -/
theorem foldlM_simulates {τ : Type} {abs : σ → τ} {meaning : τ → ε → τ}
    (hstep : ∀ {s : σ} {e : ε} {s' : σ}, I s → step s e = some s' →
      I s' ∧ abs s' = meaning (abs s) e) (hrun : events.foldlM step s = some s') (h : I s) :
    I s' ∧ abs s' = events.foldl meaning (abs s) := by
  induction events generalizing s with
  | nil =>
    obtain rfl := Option.some.inj hrun
    exact ⟨h, rfl⟩
  | cons e events ih =>
    obtain ⟨next, hnext, hrest⟩ := Option.bind_eq_some_iff.mp hrun
    obtain ⟨hinv, habs⟩ := hstep h hnext
    rw [List.foldl_cons, ← habs]
    exact ih hrest hinv

/-- The last event of a run happens in the state that the run before it ends in. -/
theorem foldlM_snoc {e : ε} :
    (events ++ [e]).foldlM step s = some s' ↔
      ∃ last, events.foldlM step s = some last ∧ step last e = some s' := by
  rw [List.foldlM_append, Option.bind_eq_bind, Option.bind_eq_some_iff]
  simp only [List.foldlM_cons, List.foldlM_nil, bind_pure]

/-- If the steps succeed under an invariant and keep it, a run succeeds, and it does to the abstract
state what its events mean. -/
theorem foldlM_refines {error τ : Type} {apply : σ → ε → Except error σ} {abs : σ → τ}
    {meaning : τ → ε → τ}
    (hstep : ∀ e ∈ events, ∀ s, I s →
      ∃ s', apply s e = .ok s' ∧ I s' ∧ abs s' = meaning (abs s) e) (h : I s) :
    ∃ s', events.foldlM apply s = .ok s' ∧ I s' ∧ abs s' = events.foldl meaning (abs s) := by
  induction events generalizing s with
  | nil => exact ⟨s, rfl, h, rfl⟩
  | cons e events ih =>
    obtain ⟨next, hnext, hinv, habs⟩ := hstep e List.mem_cons_self s h
    obtain ⟨s', hrun, hinv', habs'⟩ := ih (fun e he => hstep e (List.mem_cons_of_mem _ he)) hinv
    refine ⟨s', ?_, hinv', ?_⟩
    · rw [List.foldlM_cons, hnext, ok_bind, hrun]
    · rw [List.foldl_cons, habs', habs]

end Rucbase.Lib

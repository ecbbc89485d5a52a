/-
# Drunos.Theory.Run — runs of a deterministic step function

A system is a step function `step : σ → ε → σ` on states and events; a run is
the list of its events. `Each step P s es` says that `P` holds of every state
and event the run meets, in the order it meets them. The rules are:

* `each_and`: two properties hold along a run if each of them does;
* `each_iff_of_invariant`: two step properties that agree wherever an invariant
  holds, one of them strong enough to keep the invariant, agree on whole runs;
* `invariant_final`, `Each.invariant`: a kept invariant holds after the run, and
  `foldlM_keeps`: also where steps may fail, after a run that ends;
* `each_of_invariant`, `Each.imp`: what follows from a kept invariant holds along the run.
-/
import Mathlib.Data.List.Basic

namespace Drunos.Theory.Run

set_option autoImplicit false

variable {σ ε : Type*} (step : σ → ε → σ)

/-- The state a run ends in. -/
def final (s : σ) (es : List ε) : σ := es.foldl step s

/-- `P` holds of every state and event met along the run. -/
def Each (P : σ → ε → Prop) : σ → List ε → Prop
  | _, [] => True
  | s, e :: es => P s e ∧ Each P (step s e) es

/-- What can be decided of one step can be decided of a run. -/
instance Each.decidable (P : σ → ε → Prop) [∀ s e, Decidable (P s e)] :
    ∀ (s : σ) (es : List ε), Decidable (Each step P s es)
  | _, [] => .isTrue trivial
  | s, e :: es =>
      have := Each.decidable P (step s e) es
      inferInstanceAs (Decidable (P s e ∧ Each step P (step s e) es))

@[simp] theorem final_nil (s : σ) : final step s [] = s := rfl

@[simp] theorem final_cons (s : σ) (e : ε) (es : List ε) :
    final step s (e :: es) = final step (step s e) es := rfl

@[simp] theorem each_nil (P : σ → ε → Prop) (s : σ) : Each step P s [] := trivial

@[simp] theorem each_cons (P : σ → ε → Prop) (s : σ) (e : ε) (es : List ε) :
    Each step P s (e :: es) ↔ P s e ∧ Each step P (step s e) es := Iff.rfl

variable {step}

theorem each_and {P Q : σ → ε → Prop} {s : σ} {es : List ε} :
    Each step (fun s e => P s e ∧ Q s e) s es ↔ Each step P s es ∧ Each step Q s es := by
  induction es generalizing s with
  | nil => simp
  | cons e es ih =>
      simp only [each_cons, ih]
      exact and_and_and_comm

/-- What holds of every event holds along the run. -/
theorem each_of_forall {Q : ε → Prop} : ∀ {es : List ε} {s : σ}, (∀ e ∈ es, Q e) →
    Each step (fun _ e => Q e) s es
  | [], _, _ => trivial
  | _ :: _, _, all => ⟨all _ List.mem_cons_self, each_of_forall fun e mem =>
      all e (List.mem_cons_of_mem _ mem)⟩

/-- An invariant that every step meeting `P` keeps holds at the end of a run
whose steps all meet `P`. -/
theorem Each.invariant {P : σ → ε → Prop} (Inv : σ → Prop)
    (kept : ∀ s e, Inv s → P s e → Inv (step s e)) :
    ∀ {es : List ε} {s : σ}, Inv s → Each step P s es → Inv (final step s es) := by
  intro es
  induction es with
  | nil => exact fun inv _ => inv
  | cons e es ih =>
      rintro s inv ⟨head, tail⟩
      exact ih (kept s e inv head) tail

/-- An invariant that every step keeps holds after every run. -/
theorem invariant_final (Inv : σ → Prop) (kept : ∀ s e, Inv s → Inv (step s e)) :
    ∀ (es : List ε) {s : σ}, Inv s → Inv (final step s es)
  | [], _, inv => inv
  | e :: es, s, inv => invariant_final Inv kept es (kept s e inv)

/-- What follows from an invariant that every step keeps holds along every run. -/
theorem each_of_invariant {P : σ → ε → Prop} (Inv : σ → Prop) (kept : ∀ s e, Inv s → Inv (step s e))
    (holds : ∀ s e, Inv s → P s e) : ∀ (es : List ε) {s : σ}, Inv s → Each step P s es
  | [], _, _ => trivial
  | e :: es, s, inv => ⟨holds s e inv, each_of_invariant Inv kept holds es (kept s e inv)⟩

/-- What follows from an invariant and `P` holds along every run whose steps all meet `P`, when these
keep the invariant. -/
theorem Each.imp {P Q : σ → ε → Prop} (Inv : σ → Prop)
    (kept : ∀ s e, Inv s → P s e → Inv (step s e)) (holds : ∀ s e, Inv s → P s e → Q s e) :
    ∀ {es : List ε} {s : σ}, Inv s → Each step P s es → Each step Q s es
  | [], _, _, _ => trivial
  | _ :: _, _, inv, ⟨head, tail⟩ =>
      ⟨holds _ _ inv head, Each.imp Inv kept holds (kept _ _ inv head) tail⟩

/-- What every step keeps that ends, a run keeps that ends. -/
theorem foldlM_keeps {I : σ → Prop} {attempt : σ → ε → Option σ} : ∀ {es : List ε},
    (∀ e ∈ es, ∀ s s', attempt s e = some s' → I s → I s') →
      ∀ {s s' : σ}, es.foldlM attempt s = some s' → I s → I s'
  | [], _, _, _, ended, inv => Option.some.inj ended ▸ inv
  | e :: es, kept, _, _, ended, inv => by
      obtain ⟨head, tail⟩ := List.forall_mem_cons.mp kept
      obtain ⟨next, first, rest⟩ := Option.bind_eq_some_iff.mp ended
      exact foldlM_keeps tail rest (head _ next first inv)

/-- Two step properties that agree wherever the invariant holds agree on whole
runs, when the second one keeps the invariant. -/
theorem each_iff_of_invariant {P Q : σ → ε → Prop} {I : σ → Prop}
    (agree : ∀ s e, I s → (P s e ↔ Q s e))
    (kept : ∀ s e, I s → Q s e → I (step s e)) :
    ∀ {s : σ} {es : List ε}, I s → (Each step P s es ↔ Each step Q s es)
  | _, [], _ => Iff.rfl
  | s, e :: es, inv => by
      simp only [each_cons, agree s e inv]
      constructor
      · rintro ⟨head, tail⟩
        exact ⟨head, (each_iff_of_invariant agree kept (kept s e inv head)).mp tail⟩
      · rintro ⟨head, tail⟩
        exact ⟨head, (each_iff_of_invariant agree kept (kept s e inv head)).mpr tail⟩

end Drunos.Theory.Run

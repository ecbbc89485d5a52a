/-
# Drunos.Theory.Fallible — programs with a state that may fail

A program of `Fallible σ α` changes a state and returns a value or fails; when it
fails, the state stays as it is by then, as after an exception. `after` is the
state it leaves and `result` what it returns. A relation of states that is
reflexive and transitive holds between the state before a program and the one it
leaves, if it does for each part: `Follows` and its rules. `forM_reaches` says that
a loop none of whose turns fails comes to each of its elements.
-/
import Mathlib.Data.List.Basic
import Mathlib.Order.Defs.Unbundled

namespace Drunos.Theory

set_option autoImplicit false

abbrev Fallible (σ α : Type) : Type := OptionT (StateM σ) α

namespace Fallible

variable {σ α β : Type}

/-- The state that is left, also by a failure. -/
def after (m : Fallible σ α) (s : σ) : σ := (m.run.run s).2

/-- What is returned, if the program does not fail. -/
def result (m : Fallible σ α) (s : σ) : Option α := (m.run.run s).1

/-- A value, or a failure if there is none. -/
def ofOption (o : Option α) : Fallible σ α := OptionT.mk (pure o)

@[simp] theorem after_pure (a : α) (s : σ) : after (pure a) s = s := rfl
@[simp] theorem result_pure (a : α) (s : σ) : result (pure a) s = some a := rfl
@[simp] theorem after_ofOption (o : Option α) (s : σ) : after (ofOption o) s = s := rfl
@[simp] theorem result_ofOption (o : Option α) (s : σ) : result (ofOption o) s = o := rfl
@[simp] theorem after_modify (f : σ → σ) (s : σ) : after (modify f) s = f s := rfl
@[simp] theorem result_modify (f : σ → σ) (s : σ) : result (modify f) s = some () := rfl

/-- A failure of the first part ends the whole. -/
theorem run_bind (m : Fallible σ α) (f : α → Fallible σ β) (s : σ) :
    (m >>= f).run.run s = match result m s with
      | some a => (f a).run.run (after m s)
      | none => (none, after m s) := by
  show (match (m.run.run s).1 with
    | some a => (f a).run
    | none => pure none).run (m.run.run s).2 = _
  rw [result, after]
  cases (m.run.run s).1 <;> rfl

theorem after_bind {m : Fallible σ α} {f : α → Fallible σ β} {s : σ} {a : α}
    (returns : result m s = some a) : after (m >>= f) s = after (f a) (after m s) := by
  rw [after, run_bind, returns]
  rfl

theorem after_bind_fails {m : Fallible σ α} {f : α → Fallible σ β} {s : σ}
    (fails : result m s = none) : after (m >>= f) s = after m s := by
  rw [after, run_bind, fails]

theorem result_bind {m : Fallible σ α} {f : α → Fallible σ β} {s : σ} {a : α}
    (returns : result m s = some a) : result (m >>= f) s = result (f a) (after m s) := by
  rw [result, run_bind, returns]
  rfl

theorem result_bind_fails {m : Fallible σ α} {f : α → Fallible σ β} {s : σ}
    (fails : result m s = none) : result (m >>= f) s = none := by
  rw [result, run_bind, fails]

@[simp] theorem after_get_bind (f : σ → Fallible σ β) (s : σ) : after (get >>= f) s = after (f s) s :=
  rfl

@[simp] theorem result_get_bind (f : σ → Fallible σ β) (s : σ) :
    result (get >>= f) s = result (f s) s := rfl

@[simp] theorem ofOption_some_bind (a : α) (f : α → Fallible σ β) : ofOption (some a) >>= f = f a := rfl

@[simp] theorem ofOption_none_bind (f : α → Fallible σ β) : ofOption none >>= f = ofOption none := rfl

/-! ## What holds across a program -/

/-- The program leaves each state for one that is related to it. -/
def Follows (R : σ → σ → Prop) (m : Fallible σ α) : Prop := ∀ s, R s (after m s)

/-- The program does not fail. -/
def Returns (m : Fallible σ α) : Prop := ∀ s, (result m s).isSome = true

section

variable {R : σ → σ → Prop}

/-- What changes nothing follows every reflexive relation. -/
theorem Follows.of_after (refl : ∀ s, R s s) {m : Fallible σ α} (same : ∀ s, after m s = s) :
    Follows R m := fun s => (same s).symm ▸ refl s

theorem Follows.bind [IsTrans σ R] {m : Fallible σ α} {f : α → Fallible σ β}
    (first : Follows R m) (next : ∀ a, Follows R (f a)) : Follows R (m >>= f) := by
  intro s
  cases returned : result m s with
  | none =>
      rw [after_bind_fails returned]
      exact first s
  | some a =>
      rw [after_bind returned]
      exact Trans.trans (first s) (next a _)

theorem Follows.get_bind {f : σ → Fallible σ β} (next : ∀ a, Follows R (f a)) :
    Follows R (get >>= f) := fun s => next s s

/-- What reads a value that may be missing follows the relation if it does with
the value. -/
theorem Follows.ofOption_bind [Std.Refl R] {o : Option α} {f : α → Fallible σ β}
    (next : ∀ a, o = some a → Follows R (f a)) : Follows R (ofOption o >>= f) := by
  cases o with
  | none => exact Follows.of_after Std.Refl.refl fun _ => rfl
  | some a => exact next a rfl

/-- States related by `R` and keeping the invariant, as far as it holds before. -/
def Under (I : σ → Prop) (R : σ → σ → Prop) (s t : σ) : Prop := I s → R s t ∧ I t

instance (I : σ → Prop) [Std.Refl R] : Std.Refl (Under I R) :=
  ⟨fun s inv => ⟨Std.Refl.refl s, inv⟩⟩

instance (I : σ → Prop) [IsTrans σ R] : IsTrans σ (Under I R) where
  trans s t u first next inv := by
    obtain ⟨related, inv⟩ := first inv
    obtain ⟨related', inv⟩ := next inv
    exact ⟨Trans.trans related related', inv⟩

variable {γ : Type} [Std.Refl R] [IsTrans σ R]

theorem Follows.forM {f : γ → Fallible σ Unit} {l : List γ} (each : ∀ x ∈ l, Follows R (f x)) :
    Follows R (l.forM f) := by
  induction l with
  | nil => exact Follows.of_after (fun s => Std.Refl.refl s) fun _ => rfl
  | cons x l ih =>
      exact (each x List.mem_cons_self).bind fun _ => ih fun y mem => each y (List.mem_cons_of_mem _ mem)

/-- A loop none of whose turns fails takes the turn of each element. -/
theorem forM_reaches {f : γ → Fallible σ Unit} {l : List γ} (each : ∀ x ∈ l, Follows R (f x))
    (returns : ∀ x ∈ l, Returns (f x)) {x : γ} (mem : x ∈ l) (s : σ) :
    ∃ t, R s t ∧ R (after (f x) t) (after (l.forM f) s) := by
  induction l generalizing s with
  | nil => cases mem
  | cons y l ih =>
      have later : Follows R (l.forM f) := Follows.forM fun z mem => each z (List.mem_cons_of_mem _ mem)
      obtain ⟨a, returned⟩ := Option.isSome_iff_exists.mp (returns y List.mem_cons_self s)
      have whole : after ((y :: l).forM f) s = after (l.forM f) (after (f y) s) := after_bind returned
      rw [whole]
      rcases List.mem_cons.mp mem with rfl | mem
      · exact ⟨s, Std.Refl.refl s, later _⟩
      · obtain ⟨t, before, rest⟩ := ih (fun z mem => each z (List.mem_cons_of_mem _ mem))
          (fun z mem => returns z (List.mem_cons_of_mem _ mem)) mem (after (f y) s)
        exact ⟨t, Trans.trans (each y List.mem_cons_self s) before, rest⟩

end

end Fallible

end Drunos.Theory

/-
# Drunos.Theory.PartialMap — partial maps that are written over and erased

A partial map is a function to `Option`. `union f g` has the values of `g` and,
where `g` has none, those of `f`: the union that prefers its right side.
`without` forgets keys. A `Change` is one of the two.

After a list of changes a key has the value last put there if no later change
touches it (`LastPut`), and nothing else: `foldl_act_eq_some_iff`.
-/
import Mathlib.Data.List.Induction

namespace Drunos.Theory.PartialMap

set_option autoImplicit false

variable {κ β : Type*}

/-- `f` with `g` put over it. -/
def union (f g : κ → Option β) : κ → Option β := fun k => (g k).or (f k)

def without (f : κ → Option β) (keys : κ → Bool) : κ → Option β :=
  fun k => if keys k then none else f k

@[simp] theorem union_apply (f g : κ → Option β) (k : κ) : union f g k = (g k).or (f k) := rfl

theorem union_assoc (f g h : κ → Option β) : union (union f g) h = union f (union g h) := by
  funext k
  simp only [union_apply]
  cases h k <;> rfl

inductive Change (κ β : Type*) where
  | put (g : κ → Option β)
  | drop (keys : κ → Bool)

namespace Change

def act (f : κ → Option β) : Change κ β → κ → Option β
  | put g => union f g
  | drop keys => without f keys

/-- What the change puts at a key. -/
def value : Change κ β → κ → Option β
  | put g => g
  | drop _ => fun _ => none

def touches : Change κ β → κ → Bool
  | put g => fun k => (g k).isSome
  | drop keys => keys

/-- A change decides the keys it touches and no others. -/
theorem act_apply (f : κ → Option β) (c : Change κ β) (k : κ) :
    act f c k = if c.touches k then c.value k else f k := by
  cases c with
  | put g => cases given : g k <;> simp [act, touches, value, given]
  | drop keys => rfl

theorem touches_of_value {c : Change κ β} {k : κ} {b : β} (given : c.value k = some b) :
    c.touches k = true := by
  cases c with
  | put g => exact Option.isSome_of_mem given
  | drop keys => cases given

end Change

/-- `b` is what was last put at `k`: by one of the changes, none after it touching
`k`, or by the map they start from, if none touches `k`. -/
def LastPut (f : κ → Option β) (cs : List (Change κ β)) (k : κ) (b : β) : Prop :=
  (∃ earlier c later, cs = earlier ++ c :: later ∧ c.value k = some b ∧
      ∀ d ∈ later, d.touches k = false) ∨
    (∀ c ∈ cs, c.touches k = false) ∧ f k = some b

/-- Changes that do not touch a key leave it as it was. -/
theorem foldl_act_untouched {k : κ} : ∀ {cs : List (Change κ β)} (f : κ → Option β),
    (∀ c ∈ cs, c.touches k = false) → cs.foldl Change.act f k = f k
  | [], _, _ => rfl
  | c :: cs, f, untouched => by
      obtain ⟨head, tail⟩ := List.forall_mem_cons.mp untouched
      rw [List.foldl_cons, foldl_act_untouched (c.act f) tail, Change.act_apply]
      simp [head]

/-- What was last put stays so over a change that does not touch the key. -/
theorem LastPut.concat {f : κ → Option β} {cs : List (Change κ β)} {c : Change κ β} {k : κ} {b : β}
    (last : LastPut f cs k b) (untouched : c.touches k = false) : LastPut f (cs ++ [c]) k b := by
  obtain ⟨earlier, d, later, rfl, given, rest⟩ | ⟨none, start⟩ := last
  · refine .inl ⟨earlier, d, later ++ [c], by simp, given, ?_⟩
    simp_all [or_imp]
  · refine .inr ⟨?_, start⟩
    simp_all [or_imp]

/-- A run of changes leaves at each key what was last put there. -/
theorem foldl_act_eq_some_iff (f : κ → Option β) (cs : List (Change κ β)) (k : κ) (b : β) :
    cs.foldl Change.act f k = some b ↔ LastPut f cs k b := by
  constructor
  · induction cs using List.reverseRecOn with
    | nil => exact fun start => .inr ⟨by simp, start⟩
    | append_singleton cs c ih =>
        rw [List.foldl_append, List.foldl_cons, List.foldl_nil, Change.act_apply]
        split_ifs with touched
        · exact fun given => .inl ⟨cs, c, [], rfl, given, by simp⟩
        · exact fun before => (ih before).concat (by simpa using touched)
  · rintro (⟨earlier, c, later, rfl, given, rest⟩ | ⟨untouched, start⟩)
    · rw [List.foldl_append, List.foldl_cons, foldl_act_untouched _ rest, Change.act_apply,
        if_pos (Change.touches_of_value given), given]
    · rw [foldl_act_untouched f untouched, start]

end Drunos.Theory.PartialMap

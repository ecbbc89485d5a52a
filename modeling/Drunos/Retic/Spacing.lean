/-
# Drunos.Retic.Spacing — the priorities of an augmention

Each test of a trace halves the interval of priorities: its barrier is in the middle, what is
installed later on the positive side is to be above it, what is installed on the negative side
below (`KeepsApart`). The interval can become too small for that, and the translator, which
`finish` starts with what is left, halves the two ends of its interval one by one: where both
ends are one odd number the result is the number below it.

`HasRoom` is what the interval needs before each test, and at the end the diagram:
`augment_keepsApart_iff`.
-/
import Drunos.Retic.TranslatorTable
import Drunos.Retic.Augmentions

namespace Drunos.Retic

open Drunos.Oxm Drunos.Theory Drunos.Maple

set_option autoImplicit false

section

variable [OxmTypes]

def BackendCall.prio (call : BackendCall) : Nat := call.rule.prio

theorem Leaf.call_prio {T : Type} (l : Leaf T) (match' : FieldSet) (prio : Nat) :
    (l.call match' prio).prio = prio := by
  unfold Leaf.call
  cases l.actions <;> rfl

/-! ## The rules of a diagram -/

section

variable {T : Type}

/-- To some leaf no priority above `down` is left. -/
def Crowded (down : Nat) : Diagram T → Priorities → Prop
  | .leaf _, s => s.prioDown ≤ down ∧ s.localPrioUp ≤ down
  | .node f pos neg, s =>
      Crowded down neg (s.enter f) ∨ Crowded down pos (s.enter f).positive

/-- Priorities between two bounds, as halves see them. -/
structure Priorities.Within (low high : Nat) (s : Priorities) : Prop where
  down : low ≤ s.prioDown ∧ s.prioDown ≤ high + 1
  up : low ≤ s.prioUp ∧ s.prioUp ≤ high
  middle : s.previousMask.isSome → low ≤ s.prioMiddle ∧ s.prioMiddle ≤ high

namespace Priorities.Within

variable {low high : Nat} {s : Priorities}

theorem localUp (within : s.Within low high) : low ≤ s.localPrioUp ∧ s.localPrioUp ≤ high := by
  rw [localPrioUp]
  split_ifs with going
  · exact within.middle going
  · exact within.up

theorem enter (within : s.Within (2 * low) high) (f : Field) :
    (s.enter f).Within (2 * low) high := by
  by_cases same : s.previousMask = some f.mask
  · rwa [Priorities.enter, if_pos same]
  · have localUp := within.localUp
    have down := within.down
    rw [Priorities.enter, if_neg same]
    refine ⟨down, localUp, fun _ => ?_⟩
    show 2 * low ≤ s.localPrioUp / 2 + s.prioDown / 2 ∧ s.localPrioUp / 2 + s.prioDown / 2 ≤ high
    omega

theorem positive (within : s.Within (2 * low) high) (f : Field) :
    (s.enter f).positive.Within (2 * low) high := by
  have going : (s.enter f).previousMask.isSome := by
    rw [s.enter_previousMask f]
    rfl
  have middle := (within.enter f).middle going
  exact ⟨⟨middle.1, Nat.le_succ_of_le middle.2⟩, (within.enter f).up, fun none => by cases none⟩

theorem prio (within : s.Within (2 * low) high) : 2 * low ≤ s.prio ∧ s.prio ≤ high := by
  have localUp := within.localUp
  have down := within.down
  rw [Priorities.prio]
  omega

end Priorities.Within

/-- No rule of a diagram is out of the bounds. -/
theorem translate_within {low high : Nat} {d : Diagram T} : ∀ {match' : FieldSet} {s : Priorities},
    s.Within (2 * low) high →
      ∀ call ∈ (translate d match' s).calls, 2 * low ≤ call.prio ∧ call.prio ≤ high := by
  induction d with
  | leaf l =>
      intro match' s within call mem
      obtain rfl := List.mem_singleton.mp mem
      rw [Leaf.call_prio]
      exact within.prio
  | node f pos neg ihPos ihNeg =>
      intro match' s within call mem
      rcases List.mem_append.mp mem with mem | mem
      · exact ihNeg (within.enter f) call mem
      · exact ihPos (within.positive f) call mem

/-- Above an odd lower end are all the rules, unless there is a leaf to which nothing above it is
left. -/
theorem translate_odd_iff {low high : Nat} {d : Diagram T} :
    ∀ {match' : FieldSet} {s : Priorities}, s.Within (2 * low) high →
      ((∀ call ∈ (translate d match' s).calls, 2 * low + 1 ≤ call.prio) ↔
        ¬Crowded (2 * low + 1) d s) := by
  induction d with
  | leaf l =>
      intro match' s within
      have localUp := within.localUp
      have down := within.down
      have one : (∀ call ∈ (translate (.leaf l) match' s).calls, 2 * low + 1 ≤ call.prio) ↔
          2 * low + 1 ≤ s.prio := by
        show (∀ call ∈ [l.call match' s.prio], _) ↔ _
        rw [List.forall_mem_singleton, Leaf.call_prio]
      rw [one, Crowded, Priorities.prio]
      omega
  | node f pos neg ihPos ihNeg =>
      intro match' s within
      rw [translate, List.forall_mem_append, Crowded, not_or, ihNeg (within.enter f),
        ihPos (within.positive f)]

theorem translate_calls_ne_nil (d : Diagram T) : ∀ (match' : FieldSet) (s : Priorities),
    (translate d match' s).calls ≠ [] := by
  induction d with
  | leaf l => exact fun _ _ => List.cons_ne_nil _ _
  | node f pos neg ihPos ihNeg =>
      intro match' s none
      exact ihNeg _ _ (List.append_eq_nil_iff.mp none).1

end

/-! ## What an augmention installs -/

/-- The rules of the diagram that `finish` installs. -/
def Augmention.rules (d : Fdd) (a : Augmention) : List BackendCall :=
  (translate d a.match' { prioDown := a.prioDown, prioUp := a.prioUp }).calls

/-- The barriers of the tests, and the rules of the diagram. -/
def installed (d : Fdd) : List TraceCall → Augmention → List BackendCall
  | [], a => a.rules d
  | .load field :: trace, a => installed d trace (a.load field)
  | .test field result :: trace, a =>
      .installBarrier (a.match'.modify field) a.prioMiddle :: installed d trace (a.test field result)

/-- Every barrier is in its interval, below what is installed later on the positive side and above
what is installed later on the negative side; and no new end of an interval wraps. -/
def KeepsApart (d : Fdd) : List TraceCall → Augmention → Prop
  | [], _ => True
  | .load field :: trace, a => KeepsApart d trace (a.load field)
  | .test field result :: trace, a =>
      (a.prioDown ≤ a.prioMiddle ∧ a.prioMiddle ≤ a.prioUp) ∧
        (∀ call ∈ installed d trace (a.test field result),
          if result then a.prioMiddle < call.prio else call.prio < a.prioMiddle) ∧
        (if result then a.prioMiddle + 1 < 65536 else 1 ≤ a.prioMiddle) ∧
        KeepsApart d trace (a.test field result)

/-- A passed test finds two priorities, a failed test one that is not the least of all. If a test was
passed the interval of the diagram is not empty, and if its lower end is odd, a priority above it
is left to every leaf. -/
def HasRoom (d : Fdd) (passed : Prop) : List TraceCall → Augmention → Prop
  | [], a => passed → a.prioDown ≤ a.prioUp ∧ (a.prioDown % 2 = 1 →
      ¬Crowded a.prioDown d { prioDown := a.prioDown, prioUp := a.prioUp })
  | .load field :: trace, a => HasRoom d passed trace (a.load field)
  | .test field true :: trace, a => a.prioDown < a.prioUp ∧ HasRoom d True trace (a.test field true)
  | .test field false :: trace, a =>
      a.prioDown ≤ a.prioUp ∧ 0 < a.prioMiddle ∧ HasRoom d passed trace (a.test field false)

theorem Augmention.test_true {a : Augmention} (field : Field) (fits : a.prioMiddle + 1 < 65536) :
    (a.test field true).prioDown = a.prioMiddle + 1 ∧ (a.test field true).prioUp = a.prioUp :=
  ⟨Nat.mod_eq_of_lt fits, rfl⟩

theorem Augmention.test_false {a : Augmention} (field : Field) (pos : 1 ≤ a.prioMiddle)
    (fits : a.prioMiddle < 65536) :
    (a.test field false).prioDown = a.prioDown ∧
      (a.test field false).prioUp + 1 = a.prioMiddle := by
  simp only [Augmention.test, Bool.false_eq_true, if_false, true_and]
  omega

/-! ## Rules of what is left -/

namespace Augmention

variable {d : Fdd} {a : Augmention}

theorem rules_le (bounds : a.prioDown ≤ a.prioUp + 1) :
    ∀ call ∈ a.rules d, call.prio ≤ a.prioUp := by
  have within : Priorities.Within (2 * 0) a.prioUp
      { prioDown := a.prioDown, prioUp := a.prioUp } :=
    ⟨⟨Nat.zero_le _, bounds⟩, ⟨Nat.zero_le _, Nat.le_refl _⟩, fun none => by cases none⟩
  exact fun call mem => (translate_within within call mem).2

/-- When all rules are at the lower end or above it. -/
theorem le_rules_iff (bounds : a.prioDown ≤ a.prioUp + 1) :
    (∀ call ∈ a.rules d, a.prioDown ≤ call.prio) ↔ a.prioDown ≤ a.prioUp ∧
      (a.prioDown % 2 = 1 →
        ¬Crowded a.prioDown d { prioDown := a.prioDown, prioUp := a.prioUp }) := by
  by_cases interval : a.prioDown ≤ a.prioUp
  · have within : Priorities.Within (2 * (a.prioDown / 2)) a.prioUp
        { prioDown := a.prioDown, prioUp := a.prioUp } := by
      refine ⟨⟨?_, bounds⟩, ⟨?_, Nat.le_refl _⟩, fun none => by cases none⟩ <;> dsimp only <;> omega
    rw [and_iff_right interval]
    rcases Nat.mod_two_eq_zero_or_one a.prioDown with even | odd
    · have twice : 2 * (a.prioDown / 2) = a.prioDown := by omega
      refine iff_of_true (fun call mem => ?_) fun odd => by omega
      rw [← twice]
      exact (translate_within within call mem).1
    · have twice : 2 * (a.prioDown / 2) + 1 = a.prioDown := by omega
      have all : (∀ call ∈ a.rules d, 2 * (a.prioDown / 2) + 1 ≤ call.prio) ↔ _ :=
        translate_odd_iff within
      rw [twice] at all
      exact all.trans (imp_iff_right odd).symm
  · -- then there is a rule, and it is not above the upper end
    refine iff_of_false (fun above => ?_) fun both => interval both.1
    obtain ⟨call, mem⟩ := List.exists_mem_of_ne_nil _ (translate_calls_ne_nil d a.match' _)
    exact interval (Nat.le_trans (above call mem) (rules_le bounds call mem))

end Augmention

/-! ## Room, and priorities apart -/

section

variable {d : Fdd} {trace : List TraceCall}

/-- With room, everything is between the ends of the interval. -/
theorem HasRoom.apart : ∀ {passed : Prop} {a : Augmention}, HasRoom d passed trace a →
    a.prioDown ≤ a.prioUp + 1 → a.prioUp < 65536 →
      (∀ call ∈ installed d trace a, call.prio ≤ a.prioUp) ∧
        (passed → ∀ call ∈ installed d trace a, a.prioDown ≤ call.prio) ∧ KeepsApart d trace a := by
  induction trace with
  | nil =>
      intro passed a room bounds word
      exact ⟨Augmention.rules_le bounds, fun was => (Augmention.le_rules_iff bounds).mpr (room was),
        trivial⟩
  | cons call trace ih =>
      intro passed a room bounds word
      cases call with
      | load field => exact ih (a := a.load field) room bounds word
      | test field result =>
          have middle : 2 * a.prioMiddle ≤ a.prioUp + a.prioDown ∧
              a.prioUp + a.prioDown < 2 * a.prioMiddle + 2 := by
            rw [Augmention.prioMiddle]
            omega
          cases result with
          | true =>
              obtain ⟨interval, room⟩ := room
              have fits : a.prioMiddle + 1 < 65536 := by omega
              obtain ⟨down, up⟩ := Augmention.test_true field fits
              obtain ⟨below, above, apart⟩ := ih room (by omega) (by omega)
              rw [up] at below
              have above := above trivial
              rw [down] at above
              refine ⟨List.forall_mem_cons.mpr ⟨?_, below⟩, fun _ => List.forall_mem_cons.mpr
                ⟨?_, fun call mem => ?_⟩, ⟨?_, ?_⟩, above, fits, apart⟩
              · show a.prioMiddle ≤ a.prioUp
                omega
              · show a.prioDown ≤ a.prioMiddle
                omega
              · have later := above call mem
                omega
              · omega
              · omega
          | false =>
              obtain ⟨interval, positive, room⟩ := room
              obtain ⟨down, up⟩ := Augmention.test_false field positive (by omega)
              obtain ⟨below, above, apart⟩ := ih room (by omega) (by omega)
              rw [down] at above
              have beneath : ∀ call ∈ installed d trace (a.test field false),
                  call.prio < a.prioMiddle := fun call mem => by
                have later := below call mem
                omega
              refine ⟨List.forall_mem_cons.mpr ⟨?_, fun call mem => ?_⟩, fun was =>
                List.forall_mem_cons.mpr ⟨?_, above was⟩, ⟨?_, ?_⟩, beneath, positive, apart⟩
              · show a.prioMiddle ≤ a.prioUp
                omega
              · have later := beneath call mem
                omega
              · show a.prioDown ≤ a.prioMiddle
                omega
              · omega
              · omega

/-- There is no room in an empty interval above a passed test. -/
theorem HasRoom.interval {a : Augmention} : HasRoom d True trace a → a.prioDown ≤ a.prioUp := by
  induction trace generalizing a with
  | nil => exact fun room => (room trivial).1
  | cons call trace ih =>
      intro room
      cases call with
      | load field => exact ih (a := a.load field) room
      | test field result =>
          cases result with
          | true => exact Nat.le_of_lt room.1
          | false => exact room.1

/-- Where the priorities are kept apart, there was room. -/
theorem KeepsApart.hasRoom : ∀ {passed : Prop} {a : Augmention}, KeepsApart d trace a →
    a.prioDown ≤ a.prioUp + 1 → a.prioUp < 65536 →
      (passed → ∀ call ∈ installed d trace a, a.prioDown ≤ call.prio) → HasRoom d passed trace a := by
  induction trace with
  | nil =>
      intro passed a _ bounds word above was
      exact (Augmention.le_rules_iff bounds).mp (above was)
  | cons call trace ih =>
      intro passed a apart bounds word above
      cases call with
      | load field => exact ih (a := a.load field) apart bounds word above
      | test field result =>
          obtain ⟨inside, later, fits, apart⟩ := apart
          cases result with
          | true =>
              obtain ⟨down, up⟩ := Augmention.test_true field fits
              have room : HasRoom d True trace (a.test field true) := by
                refine ih apart (by omega) (by omega) fun _ call mem => ?_
                have strict : a.prioMiddle < call.prio := later call mem
                omega
              have interval := room.interval
              exact ⟨by omega, room⟩
          | false =>
              have positive : 1 ≤ a.prioMiddle := fits
              obtain ⟨down, up⟩ := Augmention.test_false field positive (by omega)
              refine ⟨by omega, positive, ih apart (by omega) (by omega) fun was call mem => ?_⟩
              rw [down]
              exact above was call (List.mem_cons_of_mem _ mem)

end

/-! ## The calls of an augmention -/

/-- An augmention installs nothing else, and all of it below a node that is unexplored. -/
theorem augment_installed {p : Policy} {d : Fdd} (compiled : compile p = some d)
    {trace : List TraceCall} : ∀ {a : Augmention} {t : TraceNode} {r : Augmented},
      augment true p trace a t = pure r → r.calls.Sublist (installed d trace a) ∧
        (t = .unexplored → r.calls = installed d trace a) := by
  induction trace with
  | nil =>
      intro a t r result
      have calls : r.calls = a.rules d := by
        cases t with
        | test | load => cases result
        | unexplored | leaf =>
            obtain ⟨d', compiled', result⟩ := Traversal.bind_eq_pure result
            rw [compiled] at compiled'
            cases compiled'
            cases result
            rfl
      rw [calls]
      exact ⟨.refl _, fun _ => rfl⟩
  | cons call trace ih =>
      intro a t r result
      cases call with
      | load f =>
          cases t with
          | test | leaf => cases result
          | unexplored =>
              obtain ⟨rest, augmented, result⟩ := Traversal.bind_eq_pure result
              cases result
              obtain ⟨sub, all⟩ := ih augmented
              exact ⟨sub, fun _ => all rfl⟩
          | load m cases =>
              rw [augment] at result
              by_cases same : m = f.mask
              · rw [if_pos same] at result
                obtain ⟨rest, augmented, result⟩ := Traversal.bind_eq_pure result
                cases result
                exact ⟨(ih augmented).1, fun none => by cases none⟩
              · rw [if_neg same] at result
                cases result
      | test f b =>
          cases t with
          | unexplored =>
              obtain ⟨rest, augmented, result⟩ := Traversal.bind_eq_pure result
              cases result
              obtain ⟨sub, all⟩ := ih augmented
              exact ⟨sub.cons_cons _, fun _ => congrArg (List.cons _) (all rfl)⟩
          | test need note pos neg =>
              rw [augment] at result
              by_cases same : need = f
              · rw [if_pos same] at result
                obtain ⟨rest, augmented, result⟩ := Traversal.bind_eq_pure result
                cases result
                exact ⟨(ih augmented).1.cons _, fun none => by cases none⟩
              · rw [if_neg same] at result
                cases result
          | leaf l => exact ⟨(ih result).1.cons _, fun none => by cases none⟩
          | load m cases => exact ⟨(ih result).1.cons _, fun none => by cases none⟩

/-- **The priorities of an augmention are kept apart if and only if there is room.** What is installed
is all of `installed` where the tree is unexplored, and no more than this where it is not. -/
theorem augment_keepsApart_iff {p : Policy} {d : Fdd} (compiled : compile p = some d)
    (trace : List TraceCall) {a : Augmention} (interval : a.prioDown ≤ a.prioUp)
    (word : a.prioUp < 65536) :
    (∀ t r, augment true p trace a t = pure r → r.calls.Sublist (installed d trace a)) ∧
      (∃ r, augment true p trace a .unexplored = pure r ∧ r.calls = installed d trace a) ∧
        (KeepsApart d trace a ↔ HasRoom d False trace a) := by
  refine ⟨fun t r result => (augment_installed compiled result).1, ?_, fun apart => ?_, fun room => ?_⟩
  · obtain ⟨r, result, -⟩ := augment_unexplored true compiled trace a
    exact ⟨r, result, (augment_installed compiled result).2 rfl⟩
  · exact apart.hasRoom (Nat.le_succ_of_le interval) word fun none => none.elim
  · exact (room.apart (Nat.le_succ_of_le interval) word).2.2

end

section

open scoped Drunos.Oxm.OpenflowBasic

/-- Drops everything. -/
def stopDiagram : Fdd := .leaf .stop

theorem augment_keepsApart_two :
    let trace : List TraceCall := [.test (.exactly vlanVid 1#12) true, .test (.exactly vlanVid 2#12) false]
    let a : Augmention := ⟨∅, 1, 65535⟩
    (∀ t r, augment true .stop trace a t = pure r → r.calls.Sublist (installed stopDiagram trace a)) ∧
      (∃ r, augment true .stop trace a .unexplored = pure r ∧
        r.calls = installed stopDiagram trace a) ∧
        (KeepsApart stopDiagram trace a ↔ HasRoom stopDiagram False trace a) :=
  augment_keepsApart_iff rfl _ (by decide) (by decide)

/-- After a passed test in the interval from 5 to 7 only 7 is left, and the rule gets 6, the priority
of the barrier. -/
theorem augment_meets_barrier :
    ¬∀ (p : Policy) (d : Fdd) (trace : List TraceCall) (a : Augmention), compile p = some d →
      a.prioDown ≤ a.prioUp → a.prioUp < 65536 → KeepsApart d trace a := by
  intro all
  have apart := all .stop stopDiagram [.test (.exactly vlanVid 1#12) true] ⟨∅, 5, 7⟩ rfl (by decide)
    (by decide)
  have strict : 6 < 6 := apart.2.1 _ (.head _)
  exact absurd strict (by decide)

end

end Drunos.Retic

/-
# Drunos.Maple.Lookup — what is looked up is what the policy decides

A trace tree agrees with its policy, or rather with what the policy asks of the
packet as it comes in (`Sound`). Augmenting keeps that, whether it ends or runs out
of priorities (`augment_sound`), and so does spreading the priorities out
(`update_sound`). A tree that agrees never asks a different question, and what it
finds for a packet is the decision on it: `lookup_decision`.
-/
import Drunos.Maple.TraceTree
import Drunos.Theory.Run

namespace Drunos.Maple

open Drunos.Oxm Drunos.Theory Drunos.Theory.Run Drunos.Theory.Exploration

set_option autoImplicit false

variable [OxmTypes] {D : Type}

/-! ## The tracer along an agreeing tree -/

section Tracer

variable {stored : D → FlowNode → Prop}

theorem finish_agrees {flow : FlowId} {x : Packet} {c : Cursor} {id : Nat} {d : D} {node : Node}
    (agrees : Agrees stored (.ret d) node)
    (store : (finish flow x c id node).decided = true → ∀ prio, stored d ⟨flow, prio⟩) :
    Agrees stored (.ret d) (finish flow x c id node).node ∧
      (finish flow x c id node).thrown ≠ some .inconsistentTrace := by
  rcases agrees.ret with rfl | ⟨l, rfl, -⟩
  · rw [finish] at store ⊢
    split at store
    · rw [if_pos ‹_›]
      exact ⟨agrees_unexplored _, by simp [thrown]⟩
    · rw [if_neg ‹_›]
      exact ⟨store rfl _, by simp [installing]⟩
  · exact ⟨store rfl _, by simp [finish, installing]⟩

/-- The tracer follows what a program asks: it keeps a tree that agrees with the
program agreeing, and meets no other question. -/
theorem trace_agrees {flow : FlowId} {last : Packet} {a : Answers Mask Nat Field} :
    ∀ {p : Prog Mask Nat Field D} {calls : List (TraceCall × Packet)} {c : Cursor} {id : Nat}
      {node : Node}, calls.map (·.1.asked) = p.asked a → Agrees stored p node →
      ((trace flow last calls c id node).decided = true →
        ∀ prio, stored (p.run a) ⟨flow, prio⟩) →
      Agrees stored p (trace flow last calls c id node).node ∧
        (trace flow last calls c id node).thrown ≠ some .inconsistentTrace := by
  intro p
  induction p with
  | ret d =>
      intro calls c id node told agrees store
      obtain rfl : calls = [] := List.map_eq_nil_iff.mp told
      exact finish_agrees agrees store
  | load m next ih =>
      intro calls c id node told agrees store
      obtain ⟨⟨call, x⟩, calls, rfl, head, rest⟩ := List.map_eq_cons_iff.mp told
      cases call with
      | test f b => cases head
      | load data =>
          obtain ⟨rfl, value⟩ := Asked.load.inj head
          rcases agrees.load with rfl | ⟨cases, rfl, all⟩
          · rw [trace] at store ⊢
            obtain ⟨agreesR, noError⟩ := ih _ rest (agrees_unexplored _) store
            refine ⟨?_, noError⟩
            rw [value]
            exact @agrees_setCase _ _ _ _ _ _ _ _ _ next _ _ [] (fun _ => agrees_unexplored _) agreesR
          · rw [trace, if_pos rfl, value] at store ⊢
            obtain ⟨agreesR, noError⟩ := ih _ rest (all _) store
            exact ⟨agrees_setCase all agreesR, noError⟩
  | test f next ih =>
      intro calls c id node told agrees store
      obtain ⟨⟨call, x⟩, calls, rfl, head, rest⟩ := List.map_eq_cons_iff.mp told
      cases call with
      | load data => cases head
      | test pred ret =>
          obtain ⟨rfl, value⟩ := Asked.test.inj head
          rw [Prog.run] at store
          rcases agrees.test with rfl | ⟨info, pos, neg, rfl, agreesP, agreesN⟩
          · rw [trace] at store ⊢
            by_cases exceeded : c.exceeded = true
            · rw [if_pos exceeded]
              exact ⟨agrees_unexplored _, by simp [thrown]⟩
            · rw [if_neg exceeded] at store ⊢
              obtain ⟨agreesR, noError⟩ := ih _ rest (agrees_unexplored _) store
              refine ⟨?_, noError⟩
              rw [← value] at agreesR
              cases ret with
              | true => exact agrees_test agreesR (agrees_unexplored _)
              | false => exact agrees_test (agrees_unexplored _) agreesR
          · rw [trace, if_pos rfl] at store ⊢
            have agreesBranch : Agrees stored (next (a.test pred)) (if ret then pos else neg) := by
              rw [← value]
              cases ret with
              | true => exact agreesP
              | false => exact agreesN
            obtain ⟨agreesR, noError⟩ := ih _ rest agreesBranch store
            refine ⟨?_, noError⟩
            rw [← value] at agreesR
            cases ret with
            | true => exact agrees_test agreesR agreesN
            | false => exact agrees_test agreesP agreesR

end Tracer

/-! ## The runtime -/

/-- What a leaf may have stored for a decision: a flow that was created, and that
has the decision as long as it is alive. -/
def Stored (r : Runtime D) (d : D) (l : FlowNode) : Prop :=
  l.flow < r.nextFlow ∧ ∀ d', r.flows l.flow = some d' → d' = d

/-- The tree is one of what the policy asks. -/
def Sound (policy : Handler D) (r : Runtime D) : Prop :=
  Agrees (Stored r) (unexplored policy ∅) r.root

theorem initial_sound (policy : Handler D) (left right : Nat) :
    Sound policy (.initial left right) := agrees_unexplored _

/-- What a policy makes of what it asks is what it decides. -/
theorem unexplored_run (policy : Handler D) (x : Packet) :
    (unexplored policy ∅).run (answers x) = (policy.run x).1 := by
  have applied : (∅ : FieldSet).apply x = x := FieldSet.apply_empty x
  rw [← (traceable_unexplored policy applied).2, ← traceable_run policy applied]

/-- What is found for a packet has the decision on it, if it is alive. -/
theorem Sound.lookup {policy : Handler D} {r : Runtime D} (sound : Sound policy r) {x : Packet}
    {flow : FlowId} (found : r.lookup x = some flow) : r.flows flow = some (policy.run x).1 := by
  unfold Runtime.lookup at found
  cases leaf : r.root.lookup (answers x) with
  | none => simp [leaf] at found
  | some l =>
      have stored := Agrees.lookup sound leaf
      rw [unexplored_run] at stored
      simp only [leaf] at found
      split at found
      · obtain ⟨d, decision⟩ := Option.isSome_iff_exists.mp ‹r.alive l.flow = true›
        obtain rfl : l.flow = flow := Option.some.inj found
        rw [decision, stored.2 d decision]
      · cases found

/-- The flow may be used for a packet: what the policy decides on it is what it
decides on all packets of leaves that have the flow. -/
structure Usable (policy : Handler D) (r : Runtime D) (x : Packet) (flow : FlowId) : Prop where
  created : flow < r.nextFlow
  agrees : Agrees (fun d l => Stored r d l ∧ (l.flow = flow → d = (policy.run x).1))
    (unexplored policy ∅) r.root

theorem Usable.sound {policy : Handler D} {r : Runtime D} {x : Packet} {flow : FlowId}
    (usable : Usable policy r x flow) : Sound policy r :=
  usable.agrees.mono fun _ _ stored => stored.1

/-- Deciding a flow anew that may be used for the packet changes nothing. -/
theorem Usable.stored {policy : Handler D} {r r' : Runtime D} {x : Packet} {flow : FlowId} {d : D}
    {l : FlowNode} (created : r'.nextFlow = r.nextFlow)
    (decided : r'.flows = r.flows ∨
      r'.flows = Function.update r.flows flow (some (policy.run x).1))
    (stored : Stored r d l ∧ (l.flow = flow → d = (policy.run x).1)) : Stored r' d l := by
  obtain ⟨⟨createdL, right⟩, same⟩ := stored
  refine ⟨created ▸ createdL, fun d' held => ?_⟩
  rcases decided with keeps | decides
  · exact right d' (keeps ▸ held)
  · rw [decides] at held
    by_cases own : l.flow = flow
    · rw [own, Function.update_self] at held
      rw [same own, ← Option.some.inj held]
    · rw [Function.update_of_ne own] at held
      exact right d' held

theorem augment_sound {policy : Handler D} {r : Runtime D} {x : Packet} {flow : FlowId}
    (usable : Usable policy r x flow) :
    Sound policy (r.augment policy x flow).1 ∧
      (r.augment policy x flow).2.thrown ≠ some .inconsistentTrace := by
  have applied : (∅ : FieldSet).apply x = x := FieldSet.apply_empty x
  obtain ⟨told, result⟩ := traceable_unexplored policy applied
  have decision : (traceable policy x ∅).result = (policy.run x).1 := by
    rw [← traceable_run policy applied]
  refine trace_agrees told (usable.agrees.mono ?_) ?_
  · -- the leaves there are still right
    intro d l stored
    refine Usable.stored (r := r) rfl ?_ stored
    simp only [Runtime.augment]
    split
    · exact .inr (by rw [decision])
    · exact .inl rfl
  · -- and so is the one that is put there
    intro decided prio
    refine ⟨usable.created, fun d' held => ?_⟩
    simp only [Runtime.augment, decided, if_true, Function.update_self] at held
    rw [← Option.some.inj held, result]

theorem newFlow_usable [Inhabited D] {policy : Handler D} {r : Runtime D} (sound : Sound policy r)
    (x : Packet) : Usable policy r.newFlow.1 x r.newFlow.2 := by
  refine ⟨Nat.lt_succ_self _, Agrees.mono ?_ sound⟩
  rintro d l ⟨created, right⟩
  have other : l.flow ≠ r.nextFlow := Nat.ne_of_lt created
  refine ⟨⟨Nat.lt_succ_of_lt created, fun d' held => ?_⟩, fun same => absurd same other⟩
  simp only [Runtime.newFlow, Function.update_of_ne other] at held
  exact right d' held

theorem found_usable {policy : Handler D} {r : Runtime D} (sound : Sound policy r) {x : Packet}
    {flow : FlowId} (found : r.lookup x = some flow) : Usable policy r x flow where
  created := by
    unfold Runtime.lookup at found
    cases leaf : r.root.lookup (answers x) with
    | none => simp [leaf] at found
    | some l =>
        have stored := Agrees.lookup sound leaf
        simp only [leaf] at found
        split at found
        · exact Option.some.inj found ▸ stored.1
        · cases found
  agrees := by
    refine Agrees.mono ?_ sound
    rintro d l ⟨created, right⟩
    refine ⟨⟨created, right⟩, fun same => ?_⟩
    exact (right _ (same ▸ sound.lookup found)).symm

theorem release_sound {policy : Handler D} {r : Runtime D} (sound : Sound policy r)
    (flow : FlowId) : Sound policy (r.release flow) := by
  refine Agrees.mono ?_ sound
  rintro d l ⟨created, right⟩
  refine ⟨created, fun d' held => ?_⟩
  by_cases same : l.flow = flow
  · simp [Runtime.release, same] at held
  · simp only [Runtime.release, Function.update_of_ne same] at held
    exact right d' held

theorem caseAt_assignCases (left right : ℚ) (v : Nat) (cases : List (Nat × Node)) :
    Tree.caseAt v (assignPriorities.assignCases left right cases) =
      assignPriorities left right (Tree.caseAt v cases) := by
  induction cases with
  | nil => rfl
  | cons c rest ih =>
      rw [assignPriorities.assignCases, Tree.caseAt, Tree.caseAt, ih]
      split <;> rfl

/-- Spreading the priorities out keeps what the tree asks and stores. -/
theorem assignPriorities_agrees {stored : D → FlowNode → Prop}
    (blind : ∀ d l prio, stored d l → stored d { l with prio := prio }) (left right : ℚ) :
    ∀ {p : Prog Mask Nat Field D} {node : Node}, Agrees stored p node →
      Agrees stored p (assignPriorities left right node) := by
  intro p
  induction p generalizing left right with
  | ret d =>
      intro node agrees
      rcases agrees.ret with rfl | ⟨l, rfl, holds⟩
      · exact agrees_unexplored _
      · exact blind d l _ holds
  | load m next ih =>
      intro node agrees
      rcases agrees.load with rfl | ⟨cases, rfl, all⟩
      · exact agrees_unexplored _
      · refine ⟨rfl, fun v => ?_⟩
        rw [caseAt_assignCases]
        exact ih v left right (all v)
  | test f next ih =>
      intro node agrees
      rcases agrees.test with rfl | ⟨info, pos, neg, rfl, agreesP, agreesN⟩
      · exact agrees_unexplored _
      · exact agrees_test (ih true _ _ agreesP) (ih false _ _ agreesN)

theorem update_sound {policy : Handler D} {r : Runtime D} (sound : Sound policy r) :
    Sound policy r.update :=
  assignPriorities_agrees (fun _ _ _ stored => stored) _ _ sound

/-! ## Runs -/

/-- What happens to a runtime. A packet is augmented with the flow it is found to
have, if there is one and it is used again, or with a new one. -/
inductive RuntimeEvent where
  | augment (x : Packet) (reuse : Bool)
  | release (flow : FlowId)
  | update

/-- The flow of an augmentation. -/
def Runtime.flowFor [Inhabited D] (r : Runtime D) (x : Packet) (reuse : Bool) : Runtime D × FlowId :=
  match r.lookup x with
  | some flow => if reuse then (r, flow) else r.newFlow
  | none => r.newFlow

def Runtime.augmentNext [Inhabited D] (policy : Handler D) (r : Runtime D) (x : Packet)
    (reuse : Bool) : Runtime D × Traced :=
  (r.flowFor x reuse).1.augment policy x (r.flowFor x reuse).2

def runtimeStep [Inhabited D] (policy : Handler D) (r : Runtime D) : RuntimeEvent → Runtime D
  | .augment x reuse => (r.augmentNext policy x reuse).1
  | .release flow => r.release flow
  | .update => r.update

theorem flowFor_usable [Inhabited D] {policy : Handler D} {r : Runtime D} (sound : Sound policy r)
    (x : Packet) (reuse : Bool) : Usable policy (r.flowFor x reuse).1 x (r.flowFor x reuse).2 := by
  unfold Runtime.flowFor
  cases found : r.lookup x with
  | none => exact newFlow_usable sound x
  | some flow =>
      cases reuse with
      | true => exact found_usable sound found
      | false => exact newFlow_usable sound x

theorem augmentNext_sound [Inhabited D] {policy : Handler D} {r : Runtime D} (sound : Sound policy r)
    (x : Packet) (reuse : Bool) :
    Sound policy (r.augmentNext policy x reuse).1 ∧
      (r.augmentNext policy x reuse).2.thrown ≠ some .inconsistentTrace :=
  augment_sound (flowFor_usable sound x reuse)

theorem runtimeStep_sound [Inhabited D] {policy : Handler D} {r : Runtime D} (e : RuntimeEvent)
    (sound : Sound policy r) : Sound policy (runtimeStep policy r e) := by
  cases e with
  | augment x reuse => exact (augmentNext_sound sound x reuse).1
  | release flow => exact release_sound sound flow
  | update => exact update_sound sound

/-- **After any run, augmenting a packet throws no `inconsistent_trace`, and a flow
that is looked up has the decision the policy takes on the packet.** -/
theorem lookup_decision [Inhabited D] (policy : Handler D) (left right : Nat)
    (es : List RuntimeEvent) :
    let r := final (runtimeStep policy) (.initial left right) es
    (∀ x reuse, (r.augmentNext policy x reuse).2.thrown ≠ some .inconsistentTrace) ∧
      ∀ x flow, r.lookup x = some flow → r.flows flow = some (policy.run x).1 := by
  have sound : Sound policy (final (runtimeStep policy) (.initial left right) es) :=
    invariant_final (Sound policy) (fun _ e => runtimeStep_sound e) es (initial_sound policy left right)
  exact ⟨fun x reuse => (augmentNext_sound sound x reuse).2, fun _ _ found => sound.lookup found⟩

end Drunos.Maple

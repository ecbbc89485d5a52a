/-
# Drunos.Retic.Forks — the augmentions of two packets at one leaf

The traces of two packets at one leaf are paths of one program: they are equal, or they part
at a question that the packets answer differently (`Forks`). Where they part the interval is
split. So what one packet has installed, its barriers and all that is installed in the interval
it ends in, is below the interval the other one ends in, if it matches the other at all
(`Forks.barriers_below`, `Forks.after_below`).
-/
import Drunos.Retic.Places
import Drunos.Retic.Spacing

namespace Drunos.Retic

open Drunos.Oxm Drunos.Theory Drunos.Theory.Exploration Drunos.Maple

set_option autoImplicit false

section

variable [OxmTypes]

/-! ## The interval a trace ends in -/

namespace Augmention

def step (a : Augmention) : TraceCall → Augmention
  | .load field => a.load field
  | .test field result => a.test field result

def after (a : Augmention) (trace : List TraceCall) : Augmention := trace.foldl step a

theorem after_test (a : Augmention) (f : Field) (b : Bool) (trace : List TraceCall) :
    a.after (.test f b :: trace) = (a.test f b).after trace := rfl

/-- What `finish` starts the translator with. -/
def priorities (a : Augmention) : Priorities := { prioDown := a.prioDown, prioUp := a.prioUp }

/-- The ends of an interval of `uint16_t` without the priority 0. -/
structure Word (a : Augmention) : Prop where
  positive : 1 ≤ a.prioDown
  bounded : a.prioUp < 65536

end Augmention

/-- The barriers of the tests. -/
def barriers : List TraceCall → Augmention → List BackendCall
  | [], _ => []
  | .load field :: trace, a => barriers trace (a.load field)
  | .test field result :: trace, a =>
      .installBarrier (a.match'.modify field) a.prioMiddle :: barriers trace (a.test field result)

/-- Before each test two priorities are left. -/
def Wide : List TraceCall → Augmention → Prop
  | [], _ => True
  | .load field :: trace, a => Wide trace (a.load field)
  | .test field result :: trace, a => a.prioDown < a.prioUp ∧ Wide trace (a.test field result)

instance Wide.decidable : ∀ (trace : List TraceCall) (a : Augmention), Decidable (Wide trace a)
  | [], _ => isTrue trivial
  | .load field :: trace, a => Wide.decidable trace (a.load field)
  | .test field result :: trace, a =>
      have := Wide.decidable trace (a.test field result)
      inferInstanceAs (Decidable (_ ∧ _))

/-- What the packet has been asked is in the match. -/
theorem step_match (a : Augmention) (call : TraceCall) : (a.step call).match' = noteCall a.match' call := by
  cases call with
  | load f => rfl
  | test f b => exact a.match'_test f b

theorem after_match (trace : List TraceCall) : ∀ a : Augmention,
    (a.after trace).match' = trace.foldl noteCall a.match' := by
  induction trace with
  | nil => exact fun _ => rfl
  | cons call trace ih =>
      intro a
      rw [List.foldl_cons, ← step_match]
      exact ih _

namespace Augmention.Word

variable {a : Augmention}

theorem load (word : a.Word) (f : Field) : (a.load f).Word := ⟨word.positive, word.bounded⟩

theorem middle (word : a.Word) (wide : a.prioDown < a.prioUp) :
    a.prioDown ≤ a.prioMiddle ∧ a.prioMiddle < a.prioUp ∧ 1 ≤ a.prioMiddle := by
  have positive := word.positive
  rw [prioMiddle]
  omega

theorem test_true (word : a.Word) (wide : a.prioDown < a.prioUp) (f : Field) :
    (a.test f true).prioDown = a.prioMiddle + 1 ∧ (a.test f true).prioUp = a.prioUp := by
  have middle := word.middle wide
  have bounded := word.bounded
  exact Augmention.test_true f (by omega)

theorem test_false (word : a.Word) (wide : a.prioDown < a.prioUp) (f : Field) :
    (a.test f false).prioDown = a.prioDown ∧ (a.test f false).prioUp + 1 = a.prioMiddle := by
  have middle := word.middle wide
  have bounded := word.bounded
  exact Augmention.test_false f middle.2.2 (by omega)

theorem test (word : a.Word) (wide : a.prioDown < a.prioUp) (f : Field) (b : Bool) :
    (a.test f b).Word := by
  have middle := word.middle wide
  have positive := word.positive
  have bounded := word.bounded
  cases b with
  | true =>
      have ends := word.test_true wide f
      exact ⟨by omega, by omega⟩
  | false =>
      have ends := word.test_false wide f
      exact ⟨by omega, by omega⟩

/-- A trace ends in a part of the interval. -/
theorem after {trace : List TraceCall} : ∀ {a : Augmention}, a.Word → Wide trace a →
    (a.after trace).Word ∧ a.prioDown ≤ (a.after trace).prioDown ∧
      (a.after trace).prioUp ≤ a.prioUp := by
  induction trace with
  | nil => exact fun word _ => ⟨word, Nat.le_refl _, Nat.le_refl _⟩
  | cons call trace ih =>
      intro a word wide
      cases call with
      | load f => exact ih (word.load f) wide
      | test f b =>
          obtain ⟨two, wide⟩ := wide
          obtain ⟨word', low, high⟩ := ih (word.test two f b) wide
          have middle := word.middle two
          refine ⟨word', ?_⟩
          rw [Augmention.after_test]
          cases b with
          | true =>
              have ends := word.test_true two f
              omega
          | false =>
              have ends := word.test_false two f
              omega

end Augmention.Word

/-! ## Matches -/

/-- The field a call is about. -/
def askedField : TraceCall → Field
  | .load f => f
  | .test f _ => f

/-- Every call asks for bits that are not known. -/
def AsksAnew : FieldSet → List TraceCall → Prop
  | _, [] => True
  | s, call :: trace => Avoids s (askedField call) ∧ AsksAnew (noteCall s call) trace

theorem avoids_unexploredOf (s : FieldSet) (f : Field) : Avoids s (unexploredOf s f) := by
  intro i bit
  have free : (unfixed s f).getLsbD i = false := avoids_unknownOf s f.type f.bits.mask 0 i bit
  show (f.bits.mask &&& unfixed s f).getLsbD i = false
  rw [BitVec.getLsbD_and, free, Bool.and_false]

theorem mergeCalls_asksAnew (calls : List TraceCall) : ∀ cache : FieldSet,
    AsksAnew cache (mergeCalls calls cache) := by
  induction calls with
  | nil => exact fun _ => trivial
  | cons call rest ih =>
      intro cache
      rw [mergeCalls_cons]
      cases call with
      | load f =>
          rw [cut]
          split_ifs
          · exact ih cache
          · exact ⟨avoids_unexploredOf cache f, ih _⟩
      | test f b =>
          rw [cut]
          split_ifs
          · exact ih cache
          · exact ⟨avoids_unexploredOf cache f, ih _⟩

/-- A set with a field put in matches the packets that have the field. -/
theorem test_of_modify {s : FieldSet} {f : Field} {x : Packet} (covers : (s.modify f).test x = true) :
    x.test f = true := by
  have here := FieldSet.test_iff.mp covers f.type
  rw [FieldSet.get_modify_self] at here
  refine Packet.test_iff.mpr (MaskedBits.matches_iff.mpr fun i bound bit => ?_)
  have value := MaskedBits.matches_iff.mp here i bound (by simp [bit])
  rwa [MaskedBits.overwrite_value_bit _ _ bound, if_pos bit] at value

section

variable {x : Packet} {s : FieldSet} {call : TraceCall}

theorem test_of_noteCall (avoids : Avoids s (askedField call)) (covers : (noteCall s call).test x = true) :
    s.test x = true := by
  cases call with
  | load f => exact ((test_modify_of_avoids avoids).mp covers).1
  | test f b =>
      cases b with
      | true => exact ((test_modify_of_avoids avoids).mp covers).1
      | false => exact covers

theorem test_after {trace : List TraceCall} : ∀ {a : Augmention}, a.match'.test x = true →
    (∀ call ∈ trace, Holds x call) → (a.after trace).match'.test x = true := by
  induction trace with
  | nil => exact fun known _ => known
  | cons call trace ih =>
      intro a known holds
      obtain ⟨head, tail⟩ := List.forall_mem_cons.mp holds
      exact ih (a := a.step call) (step_match a call ▸ noteCall_of known head) tail

theorem test_of_after {trace : List TraceCall} : ∀ {a : Augmention}, AsksAnew a.match' trace →
    (a.after trace).match'.test x = true → a.match'.test x = true := by
  induction trace with
  | nil => exact fun _ => id
  | cons call trace ih =>
      rintro a ⟨avoids, anew⟩ covers
      rw [← step_match] at anew
      exact test_of_noteCall avoids (step_match a call ▸ ih anew covers)

/-! ## Barriers -/

/-- Barriers are in the interval. -/
theorem barriers_bounds {trace : List TraceCall} : ∀ {a : Augmention}, a.Word → Wide trace a →
    ∀ barrier ∈ barriers trace a, a.prioDown ≤ barrier.prio ∧ barrier.prio < a.prioUp := by
  induction trace with
  | nil => exact fun _ _ _ mem => absurd mem List.not_mem_nil
  | cons call trace ih =>
      intro a word wide
      cases call with
      | load f => exact ih (word.load f) wide
      | test f b =>
          obtain ⟨two, wide⟩ := wide
          have middle := word.middle two
          refine List.forall_mem_cons.mpr ⟨⟨middle.1, middle.2.1⟩, fun barrier mem => ?_⟩
          have below := ih (word.test two f b) wide barrier mem
          cases b with
          | true =>
              have ends := word.test_true two f
              omega
          | false =>
              have ends := word.test_false two f
              omega

theorem barriers_covers {trace : List TraceCall} : ∀ {a : Augmention}, AsksAnew a.match' trace →
    ∀ barrier ∈ barriers trace a, barrier.rule.covers x = true → a.match'.test x = true := by
  induction trace with
  | nil => exact fun _ _ mem => absurd mem List.not_mem_nil
  | cons call trace ih =>
      rintro a ⟨avoids, anew⟩
      rw [← step_match] at anew
      have later : ∀ barrier ∈ barriers trace (a.step call), barrier.rule.covers x = true →
          a.match'.test x = true := fun barrier mem covers =>
        test_of_noteCall avoids (step_match a call ▸ ih anew barrier mem covers)
      cases call with
      | load f => exact later
      | test f b =>
          refine List.forall_mem_cons.mpr ⟨fun covers => ?_, later⟩
          exact ((test_modify_of_avoids avoids).mp covers).1

end

/-! ## Two traces -/

/-- Two traces that are equal, or part at a question that is answered differently. -/
inductive Forks : List TraceCall → List TraceCall → Prop where
  | nil : Forks [] []
  | cons (call : TraceCall) {trace trace' : List TraceCall} (later : Forks trace trace') :
      Forks (call :: trace) (call :: trace')
  | load {f g : Field} (mask : f.mask = g.mask) (ne : f ≠ g) (trace trace' : List TraceCall) :
      Forks (.load f :: trace) (.load g :: trace')
  | test (f : Field) {b b' : Bool} (ne : b ≠ b') (trace trace' : List TraceCall) :
      Forks (.test f b :: trace) (.test f b' :: trace')

theorem asked_injective {call call' : TraceCall} (same : call.asked = call'.asked) : call = call' := by
  cases call with
  | load f =>
      cases call' with
      | test => cases same
      | load g =>
          obtain ⟨t, b⟩ := f
          obtain ⟨t', b'⟩ := g
          injection same with mask value
          obtain ⟨rfl, mask⟩ := Mask.mk.inj mask
          refine congrArg TraceCall.load (congrArg (Oxm.Field.mk t) (MaskedBits.ext ?_ (eq_of_heq mask)))
          exact BitVec.eq_of_toNat_eq value
  | test f b =>
      cases call' with
      | load => cases same
      | test g b' =>
          injection same with field result
          rw [field, result]

open Prog in
/-- Paths of one program fork, and equal ones end alike. -/
theorem forks_of_paths {R : Type} {p : Prog Mask Nat Field R} {r r' : R} {trace : List TraceCall} :
    ∀ {trace' : List TraceCall}, p.Path (trace.map TraceCall.asked) r →
      p.Path (trace'.map TraceCall.asked) r' → Forks trace trace' ∧ (trace = trace' → r = r') := by
  generalize asked : trace.map TraceCall.asked = path
  intro trace' follows
  induction follows generalizing trace trace' with
  | ret r =>
      intro follows'
      obtain rfl := List.map_eq_nil_iff.mp asked
      generalize asked' : trace'.map TraceCall.asked = path' at follows'
      cases follows'
      obtain rfl := List.map_eq_nil_iff.mp asked'
      exact ⟨.nil, fun _ => rfl⟩
  | @load m next v path r rest ih =>
      intro follows'
      obtain ⟨call, trace, rfl, head, tail⟩ := List.map_eq_cons_iff.mp asked
      generalize asked' : trace'.map TraceCall.asked = path' at follows'
      cases follows' with
      | @load _ _ v' path' _ rest' =>
          obtain ⟨call', trace', rfl, head', tail'⟩ := List.map_eq_cons_iff.mp asked'
          by_cases same : v = v'
          · subst same
            obtain rfl := asked_injective (head.trans head'.symm)
            obtain ⟨forks, ends⟩ := ih tail (tail' ▸ rest')
            exact ⟨.cons call forks, fun same => ends (List.cons.inj same).2⟩
          · cases call with
            | test => cases head
            | load f =>
                cases call' with
                | test => cases head'
                | load g =>
                    injection head with mask value
                    injection head' with mask' value'
                    have ne : f ≠ g := fun here => same (by rw [← value, ← value', here])
                    exact ⟨.load (mask.trans mask'.symm) ne _ _, fun same => by
                      injection same with here
                      injection here with here
                      exact absurd here ne⟩
  | @test f next b path r rest ih =>
      intro follows'
      obtain ⟨call, trace, rfl, head, tail⟩ := List.map_eq_cons_iff.mp asked
      generalize asked' : trace'.map TraceCall.asked = path' at follows'
      cases follows' with
      | @test _ _ b' path' _ rest' =>
          obtain ⟨call', trace', rfl, head', tail'⟩ := List.map_eq_cons_iff.mp asked'
          obtain rfl := call_of_test head
          obtain rfl := call_of_test head'
          by_cases same : b = b'
          · subst same
            obtain ⟨forks, ends⟩ := ih tail (tail' ▸ rest')
            exact ⟨.cons _ forks, fun same => ends (List.cons.inj same).2⟩
          · exact ⟨.test f same _ _, fun here => by
              injection here with here
              injection here with _ here
              exact absurd here same⟩

namespace Forks

variable {x : Packet} {trace trace' : List TraceCall}

/-- What the other has installed before the end is below the interval of the packet. -/
theorem barriers_below (forks : Forks trace trace') : ∀ {a : Augmention}, a.Word → Wide trace a →
    Wide trace' a → AsksAnew a.match' trace' → (∀ call ∈ trace, Holds x call) →
      ∀ barrier ∈ barriers trace' a, barrier.rule.covers x = true →
        barrier.prio < (a.after trace).prioDown := by
  induction forks with
  | nil => exact fun _ _ _ _ _ _ mem => absurd mem List.not_mem_nil
  | cons call later ih =>
      rintro a word wide wide' ⟨-, anew⟩ holds
      obtain ⟨head, tail⟩ := List.forall_mem_cons.mp holds
      rw [← step_match] at anew
      cases call with
      | load f => exact ih (word.load f) wide wide' anew tail
      | test f b =>
          obtain ⟨two, wide⟩ := wide
          have below := ih (word.test two f b) wide wide'.2 anew tail
          refine List.forall_mem_cons.mpr ⟨fun covers => ?_, below⟩
          have has : x.test f = true := test_of_modify covers
          obtain rfl : true = b := has.symm.trans head
          have ends := word.test_true two f
          have after := ((word.test two f true).after wide).2.1
          show a.prioMiddle < _
          rw [Augmention.after_test]
          omega
  | @load f g mask ne trace trace' =>
      rintro a word wide wide' ⟨-, anew⟩ holds barrier mem covers
      have known : (a.load g).match'.test x = true := barriers_covers anew barrier mem covers
      have has : x.test g = true := test_of_modify known
      exact absurd (test_mask_unique mask (holds _ List.mem_cons_self) has) ne
  | @test f b b' ne trace trace' =>
      rintro a word ⟨two, wide⟩ ⟨-, wide'⟩ ⟨-, anew⟩ holds
      have head : x.test f = b := holds _ List.mem_cons_self
      rw [← step_match] at anew
      cases b with
      | true =>
          obtain rfl : b' = false := Bool.eq_false_iff.mpr (Ne.symm ne)
          have ends := word.test_true two f
          have ends' := word.test_false two f
          have after := ((word.test two f true).after wide).2.1
          refine List.forall_mem_cons.mpr ⟨fun _ => ?_, fun barrier mem _ => ?_⟩
          · show a.prioMiddle < _
            rw [Augmention.after_test]
            omega
          · have bounds := barriers_bounds (word.test two f false) wide' barrier mem
            rw [Augmention.after_test]
            omega
      | false =>
          obtain rfl : b' = true := Bool.eq_true_of_not_eq_false (Ne.symm ne)
          have lacks : x.test f ≠ true := by simp [head]
          refine List.forall_mem_cons.mpr
            ⟨fun covers => absurd (test_of_modify covers) lacks, fun barrier mem covers => ?_⟩
          exact absurd (test_of_modify (barriers_covers anew barrier mem covers)) lacks

/-- The interval another trace ends in is below that of the packet, or matches it nowhere. -/
theorem after_below (forks : Forks trace trace') : ∀ {a : Augmention}, a.Word → Wide trace a →
    Wide trace' a → AsksAnew a.match' trace' → (∀ call ∈ trace, Holds x call) →
      (a.after trace').match'.test x = true →
        trace' = trace ∨ (a.after trace').prioUp ≤ (a.after trace).prioDown := by
  induction forks with
  | nil => exact fun _ _ _ _ _ _ => .inl rfl
  | cons call later ih =>
      rintro a word wide wide' ⟨-, anew⟩ holds covers
      obtain ⟨-, tail⟩ := List.forall_mem_cons.mp holds
      rw [← step_match] at anew
      cases call with
      | load f => exact (ih (word.load f) wide wide' anew tail covers).imp_left (congrArg _)
      | test f b =>
          exact (ih (word.test wide.1 f b) wide.2 wide'.2 anew tail covers).imp_left (congrArg _)
  | @load f g mask ne trace trace' =>
      rintro a word wide wide' ⟨-, anew⟩ holds covers
      have known : (a.load g).match'.test x = true := test_of_after anew covers
      exact absurd (test_mask_unique mask (holds _ List.mem_cons_self) (test_of_modify known)) ne
  | @test f b b' ne trace trace' =>
      rintro a word ⟨two, wide⟩ ⟨-, wide'⟩ ⟨-, anew⟩ holds covers
      have head : x.test f = b := holds _ List.mem_cons_self
      rw [← step_match] at anew
      cases b with
      | true =>
          obtain rfl : b' = false := Bool.eq_false_iff.mpr (Ne.symm ne)
          have ends := word.test_true two f
          have ends' := word.test_false two f
          have parted : (a.test f false).prioUp ≤ (a.test f true).prioDown := by omega
          rw [Augmention.after_test, Augmention.after_test]
          refine .inr ?_
          have after := ((word.test two f true).after wide).2.1
          have after' := ((word.test two f false).after wide').2.2
          exact Nat.le_trans after' (Nat.le_trans parted after)
      | false =>
          obtain rfl : b' = true := Bool.eq_true_of_not_eq_false (Ne.symm ne)
          have known : (a.test f true).match'.test x = true := test_of_after anew covers
          exact absurd ((test_of_modify known).symm.trans head) (by simp)

end Forks

end

end Drunos.Retic

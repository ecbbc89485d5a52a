/-
# Drunos.Retic.TranslatorTable — the table of a diagram gives every packet its leaf

A diagram in which no type is tested again below a node that has found its value
(`Once`), with a priority left for every split (`Room`), becomes a table in which
the rule of the packet's leaf wins alone (`translate_callAt_wins`).

What carries the proof is where the rules of a subtree are (`translate_region`):
between the priorities left for it, and above the split that is going on only if
they ask for another value of its type.
-/
import Drunos.Retic.Ordered
import Drunos.Retic.Translator

namespace Drunos.Retic

open Drunos.Oxm Drunos.Theory PriorityTable

set_option autoImplicit false

variable [OxmTypes] {T : Type}

/-! ## The conditions -/

/-- No type is tested again where a packet is known to have a value of it. -/
def Diagram.Once : Diagram T → Prop
  | .leaf _ => True
  | .node f pos neg => pos.AllFields (fun g => g.type ≠ f.type) ∧ Once pos ∧ Once neg

/-- Every split leaves a priority for what is below it. -/
def Room : Diagram T → Priorities → Prop
  | .leaf _, _ => True
  | .node f pos neg, s =>
      (s.enter f).prioDown < (s.enter f).prioMiddle ∧ Room neg (s.enter f) ∧
        Room pos (s.enter f).positive

/-! ## Priorities -/

namespace Priorities

/-- There is a priority for a leaf, and one above the split that is going on. -/
structure Open (s : Priorities) : Prop where
  leaf : s.prioDown < s.localPrioUp
  split : ∀ m, s.previousMask = some m → s.prioMiddle < s.prioUp

theorem prio_bounds {s : Priorities} (isOpen : s.Open) :
    s.prioDown ≤ s.prio ∧ s.prio < s.localPrioUp := by
  have leaf := isOpen.leaf
  rw [prio]
  omega

/-- The split goes on, or the next one takes what it leaves. -/
theorem enter_cases (s : Priorities) (f : Field) :
    (s.previousMask = some f.mask ∧ s.enter f = s) ∨
      s.enter f =
        { prioDown := s.prioDown
          prioUp := s.localPrioUp
          prioMiddle := s.localPrioUp / 2 + s.prioDown / 2
          previousMask := some f.mask } := by
  by_cases same : s.previousMask = some f.mask
  · exact .inl ⟨same, if_pos same⟩
  · exact .inr (if_neg same)

theorem enter_previousMask (s : Priorities) (f : Field) :
    (s.enter f).previousMask = some f.mask := by
  rcases s.enter_cases f with ⟨previous, same⟩ | next
  · rw [same, previous]
  · rw [next]

theorem enter_prioDown (s : Priorities) (f : Field) : (s.enter f).prioDown = s.prioDown := by
  rcases s.enter_cases f with ⟨-, same⟩ | next
  · rw [same]
  · rw [next]

theorem enter_localPrioUp (s : Priorities) (f : Field) :
    (s.enter f).localPrioUp = (s.enter f).prioMiddle := by
  simp [localPrioUp, enter_previousMask]

theorem Open.enter {s : Priorities} (isOpen : s.Open) {f : Field}
    (room : (s.enter f).prioDown < (s.enter f).prioMiddle) : (s.enter f).Open where
  leaf := by rwa [enter_localPrioUp]
  split := by
    have leaf := isOpen.leaf
    rcases s.enter_cases f with ⟨-, same⟩ | next
    · rw [same]
      exact isOpen.split
    · rw [next]
      intro _ _
      show s.localPrioUp / 2 + s.prioDown / 2 < s.localPrioUp
      omega

theorem Open.positive {s : Priorities} (isOpen : s.Open) {m : Mask}
    (previous : s.previousMask = some m) : s.positive.Open where
  leaf := isOpen.split m previous
  split := fun _ none => nomatch none

end Priorities

/-! ## What is translated -/

/-- No field is tested again where a packet is known not to have it. -/
def Diagram.Distinct : Diagram T → Prop
  | .leaf _ => True
  | .node f pos neg => neg.AllFields (fun g => f ≠ g) ∧ Distinct pos ∧ Distinct neg

/-- A diagram below a match. -/
structure Sited (d : Diagram T) (match' : FieldSet) : Prop where
  exact : d.AllFields fun f => f.exact = true
  distinct : d.Distinct
  once : d.Once
  /-- No type of the diagram is in the match. -/
  fresh : d.AllFields fun f => match'.entry f.type = none

/-- A diagram at its place in a translation. -/
structure Placed (d : Diagram T) (match' : FieldSet) (s : Priorities) : Prop
    extends Sited d match' where
  room : Room d s
  isOpen : s.Open

section

variable {f : Field} {pos neg : Diagram T} {match' : FieldSet} {s : Priorities}

theorem Sited.negative (sited : Sited (.node f pos neg) match') : Sited neg match' where
  exact := sited.exact.2.2
  distinct := sited.distinct.2.2
  once := sited.once.2.2
  fresh := sited.fresh.2.2

theorem Sited.positive (sited : Sited (.node f pos neg) match') {match'' : FieldSet}
    (same : match''.entry = match'.entry) : Sited pos (match''.modify f) where
  exact := sited.exact.2.1
  distinct := sited.distinct.2.1
  once := sited.once.2.1
  fresh := (sited.once.1.and sited.fresh.2.1).mono fun g ⟨ne, absent⟩ => by
    rw [FieldSet.entry_modify_of_ne match'' ne, same, absent]

theorem Placed.negative (placed : Placed (.node f pos neg) match' s) :
    Placed neg match' (s.enter f) where
  toSited := placed.toSited.negative
  room := placed.room.2.1
  isOpen := placed.isOpen.enter placed.room.1

theorem Placed.positive (placed : Placed (.node f pos neg) match' s) {match'' : FieldSet}
    (same : match''.entry = match'.entry) :
    Placed pos (match''.modify f) (s.enter f).positive where
  toSited := placed.toSited.positive same
  room := placed.room.2.2
  isOpen := (placed.isOpen.enter placed.room.1).positive (s.enter_previousMask f)

end

/-- The match is as before when the translation returns. -/
theorem translate_match {d : Diagram T} : ∀ {match' : FieldSet} {s : Priorities},
    Sited d match' → (translate d match' s).match'.entry = match'.entry := by
  induction d with
  | leaf l => exact fun _ => rfl
  | node f pos neg ihPos ihNeg =>
      intro match' s sited
      have whole : f.mask.bits = BitVec.allOnes _ := of_decide_eq_true sited.exact.1
      have before : (translate neg match' (s.enter f)).match'.entry = match'.entry := ihNeg sited.negative
      have below : (translate pos ((translate neg match' (s.enter f)).match'.modify f)
          (s.enter f).positive).match'.entry =
            ((translate neg match' (s.enter f)).match'.modify f).entry :=
        ihPos (sited.positive before)
      funext t
      by_cases same : t = f.type
      · subst same
        exact (FieldSet.entry_erase_self _ whole).trans sited.fresh.1.symm
      · calc (translate (.node f pos neg) match' s).match'.entry t
          _ = (translate pos ((translate neg match' (s.enter f)).match'.modify f)
                (s.enter f).positive).match'.entry t := FieldSet.entry_erase_of_ne _ same
          _ = (translate neg match' (s.enter f)).match'.entry t := by
              rw [below, FieldSet.entry_modify_of_ne _ same]
          _ = match'.entry t := by rw [before]

theorem Sited.below {f : Field} {pos neg : Diagram T} {match' : FieldSet}
    (sited : Sited (.node f pos neg) match') (s : Priorities) :
    Sited pos ((translate neg match' s).match'.modify f) :=
  sited.positive (translate_match sited.negative)

theorem Placed.below {f : Field} {pos neg : Diagram T} {match' : FieldSet} {s : Priorities}
    (placed : Placed (.node f pos neg) match' s) :
    Placed pos ((translate neg match' (s.enter f)).match'.modify f) (s.enter f).positive :=
  placed.positive (translate_match placed.toSited.negative)

/-- The match of the positive side. -/
theorem Sited.test_positive {f : Field} {pos neg : Diagram T} {match' : FieldSet} {s : Priorities}
    (sited : Sited (.node f pos neg) match') (x : Packet) :
    ((translate neg match' s).match'.modify f).test x = true ↔
      match'.test x = true ∧ x.test f = true := by
  have same : (translate neg match' s).match'.entry = match'.entry := translate_match sited.negative
  rw [FieldSet.test_modify_of_entry (by rw [same]; exact sited.fresh.1), FieldSet.test_congr same]

theorem table_append (calls calls' : List BackendCall) :
    table (calls ++ calls') = table calls ++ table calls' :=
  List.map_append

theorem Leaf.call_rule (l : Leaf T) (match' : FieldSet) (prio : Nat) :
    (l.call match' prio).rule = ⟨prio, match'.test, l.actions⟩ := by
  unfold Leaf.call
  cases l.actions <;> rfl

/-- The rules of a subtree match what leads to it. -/
theorem translate_covers {d : Diagram T} :
    ∀ {match' : FieldSet} {s : Priorities} {x : Packet}
      {r : Rule Packet (Option (List FieldSet))}, Sited d match' →
        r ∈ table (translate d match' s).calls → r.covers x = true → match'.test x = true := by
  induction d with
  | leaf l =>
      intro match' s x r _ mem covers
      obtain rfl : r = (l.call match' s.prio).rule := List.mem_singleton.mp mem
      rwa [Leaf.call_rule] at covers
  | node f pos neg ihPos ihNeg =>
      intro match' s x r sited mem covers
      rw [translate, table_append, List.mem_append] at mem
      rcases mem with memN | memP
      · exact ihNeg sited.negative memN covers
      · have here := ihPos (sited.below _) memP covers
        exact (sited.test_positive x |>.mp here).1

/-- Where the rules of a subtree are: below the split that is going on, or above it
with a value of its type that the subtree tests. -/
theorem translate_region {d : Diagram T} {P : Field → Prop} :
    ∀ {match' : FieldSet} {s : Priorities} {r : Rule Packet (Option (List FieldSet))},
      Placed d match' s → d.AllFields P → r ∈ table (translate d match' s).calls →
        s.prioDown ≤ r.prio ∧ (r.prio < s.localPrioUp ∨
          ∃ g, P g ∧ s.previousMask = some g.mask ∧ r.prio < s.prioUp ∧
            ∀ x, r.covers x = true → x.test g = true) := by
  induction d with
  | leaf l =>
      intro match' s r placed _ mem
      obtain rfl : r = (l.call match' s.prio).rule := List.mem_singleton.mp mem
      rw [Leaf.call_rule]
      have bounds := Priorities.prio_bounds placed.isOpen
      exact ⟨bounds.1, .inl bounds.2⟩
  | node f pos neg ihPos ihNeg =>
      intro match' s r placed fields mem
      obtain ⟨here, fieldsP, fieldsN⟩ := fields
      have placedP := placed.below
      have room := placed.room.1
      have up := s.enter_localPrioUp f
      have down := s.enter_prioDown f
      have splits := (placed.isOpen.enter room).split f.mask (s.enter_previousMask f)
      rw [translate, table_append, List.mem_append] at mem
      -- in any case below the upper end of the split of this node
      obtain ⟨low, high⟩ : s.prioDown ≤ r.prio ∧ r.prio < (s.enter f).prioUp ∧
          (r.prio < (s.enter f).prioMiddle ∨
            ∃ g, P g ∧ g.mask = f.mask ∧ ∀ x, r.covers x = true → x.test g = true) := by
        rcases mem with memN | memP
        · obtain ⟨low, high⟩ := ihNeg placed.negative fieldsN memN
          rw [s.enter_previousMask f] at high
          rw [down] at low
          rcases high with high | ⟨g, holds, same, high, covers⟩
          · rw [up] at high
            exact ⟨low, by omega, .inl high⟩
          · exact ⟨low, high, .inr ⟨g, holds, (Option.some.inj same).symm, covers⟩⟩
        · obtain ⟨low, high⟩ := ihPos placedP fieldsP memP
          have low' : (s.enter f).prioMiddle ≤ r.prio := low
          refine ⟨by omega, ?_, .inr ⟨f, here, rfl, fun x covers => ?_⟩⟩
          · rcases high with high | ⟨g, -, none, -⟩
            · exact high
            · cases none
          · exact ((placed.toSited.test_positive x).mp (translate_covers placedP.toSited memP covers)).2
      refine ⟨low, ?_⟩
      rcases s.enter_cases f with ⟨going, same⟩ | next
      · rw [same] at high up
        obtain ⟨high, below | ⟨g, holds, mask, covers⟩⟩ := high
        · exact .inl (by omega)
        · exact .inr ⟨g, holds, by rw [going, mask], high, covers⟩
      · rw [next] at high
        exact .inl high.1

/-! ## Who wins -/

/-- The call that is made for the leaf of a packet. -/
def Diagram.callAt (x : Packet) : Diagram T → FieldSet → Priorities → BackendCall
  | .leaf l, match', s => l.call match' s.prio
  | .node f pos neg, match', s =>
      if x.test f then
        pos.callAt x ((translate neg match' (s.enter f)).match'.modify f) (s.enter f).positive
      else neg.callAt x match' (s.enter f)

theorem Diagram.callAt_action {d : Diagram T} (x : Packet) : ∀ (match' : FieldSet) (s : Priorities),
    (d.callAt x match' s).rule.action = (d.leafAt x).actions := by
  induction d with
  | leaf l =>
      intro match' s
      rw [callAt, Leaf.call_rule, leafAt_leaf]
  | node f pos neg ihPos ihNeg =>
      intro match' s
      rw [callAt, leafAt_node]
      split_ifs with has
      · exact ihPos _ _
      · exact ihNeg _ _

/-- A rule of the negative side that is not below the split matches no packet that has the field. -/
theorem Placed.negative_lacks {f : Field} {pos neg : Diagram T} {match' : FieldSet} {s : Priorities}
    (placed : Placed (.node f pos neg) match' s) {r : Rule Packet (Option (List FieldSet))}
    (mem : r ∈ table (translate neg match' (s.enter f)).calls)
    (high : (s.enter f).prioMiddle ≤ r.prio) {x : Packet} (covers : r.covers x = true) :
    x.test f = false := by
  have fieldsN := placed.exact.2.2.and placed.distinct.1
  obtain ⟨-, low | ⟨g, ⟨exactG, ne⟩, mask, -, tests⟩⟩ :=
    translate_region placed.negative fieldsN mem
  · rw [s.enter_localPrioUp f] at low
    omega
  · rw [s.enter_previousMask f] at mask
    have sameType : g.type = f.type := (congrArg Mask.type (Option.some.inj mask)).symm
    exact Packet.test_exact_ne exactG placed.exact.1 sameType ne.symm (tests x covers)

/-- **The rule of the packet's leaf wins, and no other rule of its priority
matches.** -/
theorem translate_callAt_wins {d : Diagram T} :
    ∀ {match' : FieldSet} {s : Priorities} {x : Packet}, Placed d match' s → match'.test x = true →
      WinsAlone (table (translate d match' s).calls) x (d.callAt x match' s).rule := by
  induction d with
  | leaf l =>
      intro match' s x _ known
      refine WinsAlone.singleton (r := (l.call match' s.prio).rule) ?_
      rwa [Leaf.call_rule]
  | node f pos neg ihPos ihNeg =>
      intro match' s x placed known
      have placedP := placed.below
      rw [translate, table_append, Diagram.callAt]
      cases has : x.test f with
      | true =>
          have wins := ihPos placedP ((placed.toSited.test_positive x).mpr ⟨known, has⟩)
          refine wins.append_right fun r' mem covers => ?_
          -- above the split are rules for other values of the type only
          have low := (translate_region placedP placedP.exact wins.mem).1
          by_contra high
          have lacks := placed.negative_lacks mem (Nat.le_trans low (Nat.le_of_not_lt high)) covers
          rw [has] at lacks
          cases lacks
      | false =>
          refine (ihNeg placed.negative known).append_left fun r' mem covers => ?_
          have here := (placed.toSited.test_positive x).mp (translate_covers placedP.toSited mem covers)
          rw [here.2] at has
          cases has

/-- No two rules of one priority match a packet in common. -/
theorem translate_untied {d : Diagram T} : ∀ {match' : FieldSet} {s : Priorities},
    Placed d match' s → Untied (table (translate d match' s).calls) := by
  induction d with
  | leaf l => exact fun _ => List.pairwise_singleton _ _
  | node f pos neg ihPos ihNeg =>
      intro match' s placed
      have placedP := placed.below
      rw [translate, table_append]
      refine List.pairwise_append.mpr ⟨ihNeg placed.negative, ihPos placedP, ?_⟩
      intro r mem r' mem' same x both
      have low := (translate_region placedP placedP.exact mem').1
      have lacks := placed.negative_lacks mem (Nat.le_trans low (Nat.le_of_eq same.symm)) both.1
      have has := ((placed.toSited.test_positive x).mp (translate_covers placedP.toSited mem' both.2)).2
      rw [has] at lacks
      cases lacks

theorem Diagram.allFields_of_forall {P : Field → Prop} (all : ∀ f, P f) (d : Diagram T) :
    d.AllFields P := by
  induction d with
  | leaf l => trivial
  | node f pos neg ihP ihN => exact ⟨all f, ihP, ihN⟩

end Drunos.Retic

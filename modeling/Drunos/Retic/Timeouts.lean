/-
# Drunos.Retic.Timeouts — how long a flow may be kept

A flow gets the settings of the leaf that is found. A step `flowSettings s` of a policy
contributes to a flow if it is on a chain of sequential steps that makes something of
the packet (`Policy.Through`). The leaf counts steps of the policy that the functions
return in the end (`Policy.Counts`), and no others: those that stand before or after a
function, or beside it, are given up when its result is compiled. Where none is given up
the flow is kept short (`keptShort_counted`), and so it is where no function has to do with
the packet (`keptShort_plain`).
-/
import Drunos.Retic.Outputs

namespace Drunos.Retic

open Drunos.Oxm Drunos.Theory Drunos.Maple

set_option autoImplicit false

/-- Neither timeout is greater. -/
structure FlowSettings.Within (s bound : FlowSettings) : Prop where
  idle : s.idleTimeout ≤ bound.idleTimeout
  hard : s.hardTimeout ≤ bound.hardTimeout

namespace FlowSettings.Within

theorem refl (s : FlowSettings) : s.Within s := ⟨le_rfl, le_rfl⟩

theorem inter_left {s bound : FlowSettings} (within : s.Within bound) (other : FlowSettings) :
    (s.inter other).Within bound where
  idle := ((min_le_left _ _).trans (min_le_left _ _)).trans within.idle
  hard := (min_le_left _ _).trans within.hard

theorem inter_right {s bound : FlowSettings} (within : s.Within bound) (other : FlowSettings) :
    (other.inter s).Within bound :=
  FlowSettings.inter_comm s other ▸ within.inter_left other

theorem fold {m : Multiset FlowSettings} {first bound : FlowSettings} (within : first.Within bound) :
    (m.fold FlowSettings.inter first).Within bound := by
  induction m using Multiset.induction with
  | empty => exact within
  | cons s m ih =>
      rw [Multiset.fold_cons_left]
      exact ih.inter_right s

theorem fold_mem {m : Multiset FlowSettings} {s first bound : FlowSettings} (mem : s ∈ m)
    (within : s.Within bound) : (m.fold FlowSettings.inter first).Within bound := by
  obtain ⟨rest, rfl⟩ := Multiset.exists_cons_of_mem mem
  rw [Multiset.fold_cons_left]
  exact within.inter_left _

end FlowSettings.Within

section

variable [OxmTypes]

namespace Policy

/-! ## The steps that contribute, and those that a leaf counts -/

/-- The packet comes out of the policy through a chain of steps with `s` in it. -/
inductive Through (s : FlowSettings) : Policy → Packet → Packet → Prop where
  | step (x : Packet) : Through s (flowSettings s) x x
  | before {p q : Policy} {x y z : Packet} (first : Through s p x y) (out : z ∈ q.outputs y) :
      Through s (sequential p q) x z
  | after {p q : Policy} {x y z : Packet} (out : y ∈ p.outputs x) (second : Through s q y z) :
      Through s (sequential p q) x z
  | left {p : Policy} (q : Policy) {x y : Packet} (one : Through s p x y) : Through s (parallel p q) x y
  | right (p : Policy) {q : Policy} {x y : Packet} (two : Through s q x y) : Through s (parallel p q) x y
  | inside (i : Nat) {h : Handler Policy} {x y : Packet}
      (result : Through s (h.run x).1 (h.run x).2 y) : Through s (packetFunction i h) x y

/-- The settings at the leaf of the packet have the step in them. -/
def Counts (s : FlowSettings) : Policy → Packet → Prop
  | flowSettings s', _ => s' = s
  | negation p, x => Counts s p x
  | sequential p q, x => ∃ action ∈ p.units x,
      Counts s p x ∨ Counts s q (action.predActions.apply x)
  | parallel p q, x => Counts s p x ∨ Counts s q x
  | _, _ => False

theorem Through.mem_outputs {s : FlowSettings} {p : Policy} {x y : Packet}
    (through : Through s p x y) : y ∈ p.outputs x := by
  induction through with
  | step x => exact Multiset.mem_singleton_self x
  | before _ out ih => exact Multiset.mem_bind.mpr ⟨_, ih, out⟩
  | after out _ ih => exact Multiset.mem_bind.mpr ⟨_, out, ih⟩
  | left q _ ih => exact Multiset.mem_add.mpr (.inl ih)
  | right p _ ih => exact Multiset.mem_add.mpr (.inr ih)
  | inside i _ ih =>
      show _ ∈ outputs.outputsOf _ _
      rwa [outputsOf_eq]

/-- The settings at a leaf are within those of the steps it counts. -/
theorem settings_counts {s : FlowSettings} {p : Policy} {x : Packet} (counts : p.Counts s x) :
    (p.settings x).Within s := by
  induction p generalizing x with
  | flowSettings s' => exact counts ▸ .refl _
  | negation p ih => exact ih counts
  | sequential p q ihP ihQ =>
      obtain ⟨action, mem, counts⟩ := counts
      have some : (p.units x).card ≠ 0 := fun none => by simp_all
      rw [settings, sequentialSettings, if_neg some]
      rcases counts with counts | counts
      · exact (ihP counts).fold
      · exact .fold_mem (Multiset.mem_map_of_mem _ mem) (ihQ counts)
  | parallel p q ihP ihQ =>
      rcases counts with counts | counts
      · exact (ihP counts).inter_left _
      · exact (ihQ counts).inter_right _
  | _ => exact counts.elim

/-! ## Packets that no function has to do with -/

/-- No packet function has to do with the packet. -/
def PlainAt : Policy → Packet → Prop
  | negation p, x => PlainAt p x
  | packetFunction _ _, _ => False
  | sequential p q, x => PlainAt p x ∧ ∀ y ∈ p.outputs x, PlainAt q y
  | parallel p q, x => PlainAt p x ∧ PlainAt q x
  | _, _ => True

/-- Its leaf has no function, and makes of it what the policy does. -/
theorem plainAt_leaf {p : Policy} {x : Packet} (plain : p.PlainAt x) :
    (∀ unit ∈ p.units x, unit.body = none) ∧
      p.outputs x = (p.units x).map fun unit => unit.predActions.apply x := by
  induction p generalizing x with
  | stop => exact ⟨fun _ mem => absurd mem (Multiset.notMem_zero _), rfl⟩
  | id => exact ⟨fun _ mem => Multiset.mem_singleton.mp mem ▸ rfl, rfl⟩
  | flowSettings s => exact ⟨fun _ mem => Multiset.mem_singleton.mp mem ▸ rfl, rfl⟩
  | modify f =>
      refine ⟨fun _ mem => Multiset.mem_singleton.mp mem ▸ rfl, ?_⟩
      rw [units, Multiset.map_singleton]
      show _ = {(FieldSet.ofField f).apply x}
      rw [FieldSet.ofField, FieldSet.apply_modify]
      rfl
  | filter f =>
      rw [units, outputs]
      split_ifs
      · exact ⟨fun _ mem => Multiset.mem_singleton.mp mem ▸ rfl, rfl⟩
      · exact ⟨fun _ mem => absurd mem (Multiset.notMem_zero _), rfl⟩
  | negation p ih =>
      have card : (p.outputs x).card = (p.units x).card := by rw [(ih plain).2, Multiset.card_map]
      rw [units, outputs, card]
      split_ifs
      · exact ⟨fun _ mem => Multiset.mem_singleton.mp mem ▸ rfl, rfl⟩
      · exact ⟨fun _ mem => absurd mem (Multiset.notMem_zero _), rfl⟩
  | packetFunction i h _ => exact plain.elim
  | sequential p q ihP ihQ =>
      obtain ⟨none, same⟩ := ihP plain.1
      have next : ∀ action ∈ p.units x, q.PlainAt (action.predActions.apply x) := fun action mem =>
        plain.2 _ (same ▸ Multiset.mem_map_of_mem _ mem)
      refine ⟨fun unit mem => ?_, ?_⟩
      · obtain ⟨action, memP, mem⟩ := Multiset.mem_bind.mp mem
        obtain ⟨unit, memQ, rfl⟩ := Multiset.mem_map.mp mem
        rw [seqActions_plain (none action memP)]
        exact (ihQ (next action memP)).1 unit memQ
      · rw [outputs, same, units, Multiset.bind_map, Multiset.map_bind]
        refine Multiset.bind_congr fun action mem => ?_
        rw [(ihQ (next action mem)).2, Multiset.map_map]
        refine Multiset.map_congr rfl fun unit _ => ?_
        rw [Function.comp_apply, seqActions_plain (none action mem), ActionUnit.predActions,
          fieldSetUnion_apply]
  | parallel p q ihP ihQ =>
      obtain ⟨noneP, sameP⟩ := ihP plain.1
      obtain ⟨noneQ, sameQ⟩ := ihQ plain.2
      refine ⟨fun unit mem => (Multiset.mem_add.mp mem).elim (noneP unit) (noneQ unit), ?_⟩
      rw [outputs, units, sameP, sameQ, Multiset.map_add]

/-- Where no function has to do with a packet, the leaf counts every step that contributes. -/
theorem Through.counts {s : FlowSettings} {p : Policy} {x y : Packet} (through : Through s p x y) :
    p.PlainAt x → p.Counts s x := by
  induction through with
  | step x => exact fun _ => rfl
  | @before p q x y z first out ih =>
      intro plain
      obtain ⟨none, same⟩ := plainAt_leaf plain.1
      obtain ⟨action, mem, -⟩ := Multiset.mem_map.mp (same ▸ first.mem_outputs)
      exact ⟨action, mem, .inl (ih plain.1)⟩
  | @after p q x y z out second ih =>
      intro plain
      obtain ⟨none, same⟩ := plainAt_leaf plain.1
      obtain ⟨action, mem, rfl⟩ := Multiset.mem_map.mp (same ▸ out)
      exact ⟨action, mem, .inr (ih (plain.2 _ out))⟩
  | left q _ ih => exact fun plain => .inl (ih plain.1)
  | right p _ ih => exact fun plain => .inr (ih plain.2)
  | inside i _ ih => exact fun plain => plain.elim

end Policy

/-! ## The leaf that is found -/

/-- The leaf that is found for the packet keeps its flow no longer than a step that contributes
allows. -/
def KeptShort (backend : Bool) (p : Policy) (x : Packet) : Prop :=
  ∃ d r, compile p = some d ∧ traverse backend x d ∅ = pure r ∧
    ∀ s y, p.Through s x y → r.leaf.flowSettings.Within s

theorem KeptShort.returned {backend : Bool} {p : Policy} {x : Packet} (short : KeptShort backend p x)
    (smooth : Smooth x p) :
    ∃ q, Returns x p q ∧ ∀ s y, p.Through s x y → (q.settings x).Within s := by
  obtain ⟨d, r, compiled, result, short⟩ := short
  obtain ⟨d', r', q, compiled', result', returns, -, settings⟩ := traverse_smooth backend smooth
  obtain rfl := Option.some.inj (compiled.symm.trans compiled')
  have same := result.symm.trans result'
  obtain rfl : r = r' := by injection same with same; injection same
  exact ⟨q, returns, settings ▸ short⟩

/-- **A flow is kept short where the packet meets no slip and the policy that the functions return in the
end counts every step that contributes.** -/
theorem keptShort_counted (backend : Bool) {p : Policy} {x : Packet} (smooth : Smooth x p)
    (counted : ∀ q, Returns x p q → ∀ s y, p.Through s x y → q.Counts s x) : KeptShort backend p x := by
  obtain ⟨d, r, q, compiled, result, returns, -, settings⟩ := traverse_smooth backend smooth
  exact ⟨d, r, compiled, result, fun s y through =>
    settings ▸ Policy.settings_counts (counted q returns s y through)⟩

/-- Where no function has to do with a packet, its flow is kept short. -/
theorem keptShort_plain (backend : Bool) {p : Policy} {x : Packet} (smooth : Smooth x p)
    (plain : p.PlainAt x) : KeptShort backend p x :=
  keptShort_counted backend smooth fun q returns s y through => by
    obtain rfl := returns.plain (Policy.plainAt_leaf plain).1
    exact through.counts plain

end

section

open scoped Drunos.Oxm.OpenflowBasic

/-- Flows for five seconds, and a function that says where to. -/
def shortFlows : Policy :=
  .sequential (.flowSettings { hardTimeout := 5 })
    (.packetFunction 0 (.ret (.modify (.exactly outPort 1#32))))

/-- The timeout put before a function is lost: the flow is kept for good. -/
theorem shortFlows_kept : shortFlows.Whole ∧ ¬KeptShort true shortFlows (OpenflowBasic.packet []) := by
  have whole : shortFlows.Whole :=
    ⟨⟨le_rfl, by decide⟩, Field.exactly_exact _ _, .inr rfl⟩
  refine ⟨whole, fun short => ?_⟩
  obtain ⟨q, returns, within⟩ := short.returned (smooth_whole _ whole)
  obtain rfl : q = .modify (.exactly outPort 1#32) :=
    (returns.single rfl (by decide)).plain fun unit mem => Multiset.mem_singleton.mp mem ▸ rfl
  have through : shortFlows.Through { hardTimeout := 5 } (OpenflowBasic.packet [])
      ((OpenflowBasic.packet []).modify (.exactly outPort 1#32)) :=
    .before (.step _) (Multiset.mem_singleton_self _)
  exact absurd (within _ _ through).hard (by decide)

/-- A function that says for how long, and where to. -/
theorem keptShort_counted_inside :
    KeptShort true (.packetFunction 0 (.ret (.sequential (.flowSettings { hardTimeout := 5 })
      (.modify (.exactly outPort 1#32))))) (OpenflowBasic.packet []) := by
  refine keptShort_counted true (smooth_whole _ ?_) fun q returns s y through => ?_
  · exact ⟨⟨le_rfl, by decide⟩, Field.exactly_exact _ _, .inr rfl⟩
  · obtain rfl := (returns.single rfl (by decide)).plain fun unit mem =>
      Multiset.mem_singleton.mp mem ▸ rfl
    cases through with
    | inside _ result =>
        cases result with
        | before first out =>
            cases first with
            | step _ => exact ⟨_, Multiset.mem_singleton_self _, .inl rfl⟩
        | after out second => cases second

end

end Drunos.Retic

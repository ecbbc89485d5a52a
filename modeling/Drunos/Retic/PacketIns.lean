/-
# Drunos.Retic.PacketIns — the rule of a packet that was handled

`Retic.cc`. The diagram of the main policy is translated for a new backend, and every packet-in
is handled on it. What has been installed after a run of packets is known (`Session.Inv`), so
the rule of a packet wins over it exactly if the packet rises above every barrier it comes by
(`packetIns_served`). A function that only loads leaves its rule tied with its own barrier
(`onlyLoads_ties`).
-/
import Drunos.Retic.Standing

namespace Drunos.Retic

open Drunos.Oxm Drunos.Theory PriorityTable Exploration Drunos.Maple

set_option autoImplicit false

section

variable [OxmTypes]

/-! ## Packet-ins -/

/-- The diagram of a `Retic`, the calls to its backend, and the packets it has handled, the last one
first, with their leaves. -/
structure Session where
  fdd : Fdd
  calls : List BackendCall
  handled : List (Packet × Leaf TraceTree)

/-- `Retic::reinstallRules`. -/
def reinstallRules (main : Policy) : Option Session := do
  let fdd ← compile main
  let translated := translate fdd ∅ {}
  return { fdd := translated.diagram, calls := translated.calls, handled := [] }

/-- The handler of packet-ins. -/
def Session.packetIn (session : Session) (x : Packet) : Traversal Session := do
  let r ← traverse true x session.fdd ∅
  return { fdd := r.diagram
           calls := session.calls ++ r.calls
           handled := (x, r.leaf) :: session.handled }

/-- A run of a `Retic`. -/
def packetIns (main : Policy) (packets : List Packet) : Traversal Session := do
  let session ← ofCompiler (reinstallRules main)
  packets.foldlM Session.packetIn session

/-- `Of13Backend` installs nothing that times out at once. -/
def BackendCall.installs : BackendCall → Bool
  | install _ _ _ settings => settings.hardTimeout ≠ 0
  | installBarrier _ _ => true

/-- What has been installed. -/
def flowTable (calls : List BackendCall) : List (Rule Packet (Option (List FieldSet))) :=
  table (calls.filter BackendCall.installs)

/-- The rule of the leaf wins for the packet, and every rule of its priority that matches has its
actions. -/
def Served (calls : List BackendCall) (x : Packet) (l : Leaf TraceTree) : Prop :=
  ∃ match' sets prio, BackendCall.install match' sets prio l.flowSettings ∈ calls ∧
    l.actions = some sets ∧ Wins (flowTable calls) x ⟨prio, match'.test, some sets⟩ ∧
      ∀ r ∈ flowTable calls, r.covers x = true → r.prio = prio → r.action = some sets

theorem mem_flowTable {calls : List BackendCall} {r : Rule Packet (Option (List FieldSet))} :
    r ∈ flowTable calls ↔ ∃ call ∈ calls, call.installs = true ∧ call.rule = r := by
  simp only [flowTable, table, List.mem_map, List.mem_filter, and_assoc]

/-- The place of a packet in the diagram of the main policy. -/
def Diagram.home {T : Type} (x : Packet) (d : Diagram T) : Place := d.placeAt x ∅ {}

/-! ## Places and leaves -/

section

variable {x : Packet} {place final : Place}

theorem Reaches.leads (reaches : Reaches x place final) : Leads x place.verdict final.verdict := by
  induction reaches with
  | plain plain => exact .plain plain
  | returned body compiled _ ih => exact .returned body compiled ((placeAt_verdict x _ _ _).1 ▸ ih)

theorem Clear.straight (clear : Clear x place) : Straight x place.verdict place.match' := by
  induction clear with
  | plain plain => exact .plain plain
  | @returned place d compiled holds _ _ _ _ ih =>
      refine .returned holds fun d' compiled' => ?_
      rw [compiled] at compiled'
      cases compiled'
      obtain ⟨verdict, match'⟩ := placeAt_verdict x d (place.ends x).match' (place.ends x).priorities
      have after : (place.ends x).match' = place.verdict.matchAfter x place.match' :=
        after_match (place.trace x) place.start
      rw [← verdict, ← after, ← match']
      exact ih

theorem Passes.hasBody {by' : Place} (passes : Passes x place by') : by'.verdict.hasBody = true := by
  induction passes with
  | here body => exact body
  | later _ _ _ ih => exact ih

end

/-! ## The invariant -/

/-- What holds after packets of a run: the diagram is that of the policy and stands, everything
installed is the rule of one of its places or was installed for a clear packet, and the rules of the
packets that were handled are there. -/
structure Session.Inv (d : Fdd) (session : Session) : Prop where
  sound : Sound session.fdd (∅ : FieldSet).get
  bare : session.fdd.bare = d.bare
  stands : ∀ n, StandsTo session.calls n session.fdd ∅ {}
  filed : ∀ call ∈ session.calls, (∃ there ∈ d.places ∅ {}, call.rule = there.rule) ∨
    ∃ y, Clear y (d.home y) ∧ Entry y (d.home y) call.rule
  handled : ∀ x l, (x, l) ∈ session.handled → Clear x (d.home x) ∧ ∃ final,
    Reaches x (d.home x) final ∧ l.verdict = final.verdict ∧ final.Stands session.calls ∧
      ∀ by', Passes x (d.home x) by' → by'.Stands session.calls

section

variable {d : Fdd} {session : Session} {x : Packet}

theorem home_word (fits : Fits d ∅ {}) (x : Packet) : (d.home x).start.Word :=
  wordAt fits ⟨Nat.le_refl 1, Nat.lt_succ_self 65535⟩ x

theorem home_covers (x : Packet) (d : Fdd) : (d.home x).match'.test x = true :=
  placeAt_covers x (FieldSet.test_empty x)

theorem packetIns_one (main : Policy) (start : Session) {r : Traversed}
    (installed : reinstallRules main = some start) (result : traverse true x start.fdd ∅ = pure r) :
    packetIns main [x] = pure ⟨r.diagram, start.calls ++ r.calls, (x, r.leaf) :: start.handled⟩ := by
  have step : start.packetIn x =
      pure ⟨r.diagram, start.calls ++ r.calls, (x, r.leaf) :: start.handled⟩ := by
    rw [Session.packetIn, result]
    rfl
  rw [packetIns, installed]
  show [x].foldlM Session.packetIn start = _
  rw [List.foldlM_cons, step]
  rfl

theorem reinstallRules_inv {main : Policy} (compiled : compile main = some d) (separate : d.Separate ∅) :
    ∃ session, reinstallRules main = some session ∧ session.handled = [] ∧ session.Inv d := by
  refine ⟨_, by rw [reinstallRules, compiled]; rfl, rfl, ?_⟩
  have alike := translate_alike d ∅ {}
  have unexplored := compile_unexplored compiled
  refine ⟨sound_unexplored (alike.unexplored unexplored) _, alike.bare.symm, fun n => ?_,
    fun call mem => ?_, fun x l none => absurd none List.not_mem_nil⟩
  · exact stands_translate n unexplored separate rfl (List.Subset.refl _)
  · have rules := (table_places (s := {}) separate (rfl : (∅ : FieldSet).get = _)).1
    have mem : call.rule ∈ table _ := List.mem_map_of_mem mem
    rw [rules] at mem
    obtain ⟨there, memPlace, same⟩ := List.mem_map.mp mem
    exact .inl ⟨there, memPlace, same.symm⟩

theorem Session.Inv.leafAt (inv : session.Inv d) (x : Packet) :
    LeafAt session.calls (session.fdd.leafAt x) (session.fdd.matchAt x ∅) (d.home x) := by
  obtain ⟨verdict, match'⟩ := placeAt_verdict x session.fdd ∅ {}
  have same : session.fdd.placeAt x ∅ {} = d.home x := placeAt_bare x inv.bare ∅ {}
  rw [same] at verdict match'
  refine ⟨verdict.symm, congrArg FieldSet.get match'.symm, inv.sound.leafAt x, fun n => ?_⟩
  exact same ▸ Diagram.EachLeaf.leafAt x (inv.stands (n + 1))

/-- **A clear packet is handled, and the invariant is kept.** -/
theorem Session.Inv.packetIn (inv : session.Inv d) (clear : Clear x (d.home x)) :
    ∃ l session', session.packetIn x = pure session' ∧
      session'.handled = (x, l) :: session.handled ∧ session'.Inv d := by
  obtain ⟨final, reaches⟩ := clear.reaches
  have at' := inv.leafAt x
  obtain ⟨r, l', result, settled⟩ := traverse_stands reaches clear (home_covers x d) at'
  have traversed := traverse_replaceAt true session.fdd result
  obtain ⟨r', handled⟩ := traverse_sound true inv.sound (.empty x)
    (at'.verdict ▸ reaches.leads : Leads x (session.fdd.leafAt x).verdict final.verdict)
  have same := handled.result
  rw [traversed] at same
  cases same
  have straight : StraightOn session.fdd x := by
    rw [StraightOn, at'.verdict]
    exact clear.straight.congr at'.match'.symm
  refine ⟨r.leaf, _, by rw [Session.packetIn, traversed]; rfl, rfl, handled.sound straight,
    handled.bare.trans inv.bare, fun n => ?_, fun call mem => ?_, fun y l mem => ?_⟩
  · have old := StandsTo.mono (List.subset_append_left session.calls r.calls) _ _ _ (inv.stands n)
    cases n with
    | zero => trivial
    | succ n =>
        have place : session.fdd.placeAt x ∅ {} = d.home x := placeAt_bare x inv.bare ∅ {}
        show StandsTo _ (n + 1) (session.fdd.replaceAt x r.diagram) ∅ {}
        rw [settled.diagram]
        exact Diagram.EachLeaf.replaceAt old settled.verdict (place ▸ settled.stands n)
  · rcases List.mem_append.mp mem with old | new
    · exact inv.filed call old
    · exact .inr ⟨x, clear, settled.entries call new⟩
  · rcases List.mem_cons.mp mem with here | earlier
    · cases here
      exact ⟨clear, final, reaches, settled.leaf, settled.final, settled.passes⟩
    · obtain ⟨clear', final', reaches', verdict, stands, passes⟩ := inv.handled y l earlier
      have sub := List.subset_append_left session.calls r.calls
      exact ⟨clear', final', reaches', verdict, stands.mono sub, fun by' here =>
        (passes by' here).mono sub⟩

theorem Session.Inv.run {packets : List Packet} : ∀ {session : Session}, session.Inv d →
    (∀ y ∈ packets, Clear y (d.home y)) → ∃ session', packets.foldlM Session.packetIn session =
      pure session' ∧ session'.handled.map Prod.fst =
        packets.reverse ++ session.handled.map Prod.fst ∧ session'.Inv d := by
  induction packets with
  | nil => exact fun {session} inv _ => ⟨session, rfl, rfl, inv⟩
  | cons x packets ih =>
      intro session inv all
      obtain ⟨clear, rest⟩ := List.forall_mem_cons.mp all
      obtain ⟨l, session₁, first, handled₁, inv₁⟩ := inv.packetIn clear
      obtain ⟨session₂, later, handled₂, inv₂⟩ := ih inv₁ rest
      refine ⟨session₂, ?_, ?_, inv₂⟩
      · rw [List.foldlM_cons, first, pure_bind, later]
      · rw [handled₂, handled₁, List.map_cons, List.reverse_cons, List.append_assoc]
        rfl

/-! ## The rule that wins -/

/-- Whatever is installed is known to a clear packet it matches. -/
theorem Session.Inv.known (inv : session.Inv d) (fits : Fits d ∅ {}) {final : Place}
    (clear : Clear x (d.home x)) (reaches : Reaches x (d.home x) final)
    {r : Rule Packet (Option (List FieldSet))} (mem : r ∈ flowTable session.calls)
    (covers : r.covers x = true) : Known x (d.home x) final r := by
  obtain ⟨call, memCall, -, rfl⟩ := mem_flowTable.mp mem
  have word : 1 ≤ ({} : Priorities).prioDown ∧ ({} : Priorities).prioUp < 65536 :=
    ⟨Nat.le_refl 1, Nat.lt_succ_self 65535⟩
  -- what was installed for a packet of the same place
  have own (y : Packet) (clearY : Clear y (d.home y)) (same : d.home y = d.home x)
      (entry : Entry y (d.home x) call.rule) : Known x (d.home x) final call.rule := by
    have knownY := home_covers y d
    rw [same] at clearY knownY
    exact entry_known reaches clear clearY (home_word fits x) (home_covers x d) knownY entry covers
  rcases inv.filed call memCall with ⟨there, memPlace, same⟩ | ⟨y, clearY, entry⟩
  · exact filed_known fits word reaches clear clear (own x clear) (.inl ⟨there, memPlace, same⟩) covers
  · exact filed_known fits word reaches clear clearY (own y clearY) (.inr entry) covers

/-- The rule of a place that stands is installed, unless it times out at once. -/
theorem Place.Stands.mem_flowTable {calls : List BackendCall} {place : Place} (stands : place.Stands calls)
    (installs : place.verdict.hasBody = true ∨ place.verdict.flowSettings.hardTimeout ≠ 0) :
    place.rule ∈ flowTable calls := by
  obtain ⟨match', get, mem⟩ := stands
  refine Retic.mem_flowTable.mpr ⟨_, mem, ?_, ?_⟩
  · rw [Verdict.call, Verdict.actions]
    split_ifs with body
    · rfl
    · rcases installs with body' | lasts
      · exact absurd body' body
      · exact decide_eq_true lasts
  · rw [Place.rule, ← test_congr_get get, Verdict.call]
    cases place.verdict.actions <;> rfl

/-- The rule of a packet wins exactly if the packet rises above the barriers it comes by. -/
theorem Session.Inv.served_iff (inv : session.Inv d) (fits : Fits d ∅ {}) {l : Leaf TraceTree}
    (handled : (x, l) ∈ session.handled) (lasts : l.flowSettings.hardTimeout ≠ 0) :
    Served session.calls x l ↔ Above x (d.home x) := by
  obtain ⟨clear, final, reaches, verdict, stands, passes⟩ := inv.handled x l handled
  have word := home_word fits x
  have home := home_covers x d
  have known {r} (mem : r ∈ flowTable session.calls) := inv.known fits clear reaches (r := r) mem
  have settings : l.flowSettings = final.verdict.flowSettings := congrArg Verdict.flowSettings verdict
  have actions : l.actions = final.verdict.actions := congrArg Verdict.actions verdict
  have barrier {by' : Place} (passed : Passes x (d.home x) by') : by'.rule.action = none := by
    show by'.verdict.actions = none
    rw [Verdict.actions, if_pos passed.hasBody]
  rw [above_iff reaches clear word]
  constructor
  · rintro ⟨match', sets, prio, -, -, ⟨⟨mem, covers⟩, best⟩, ties⟩ by' passed
    have there := (passes by' passed).mem_flowTable (.inl passed.hasBody)
    have covers' : by'.rule.covers x = true := passed.covers clear home
    have le : by'.prio ≤ prio := best _ there covers'
    by_contra above
    rcases known mem covers with (same | low) | ⟨other, passed', same⟩
    · have prio' : prio = final.prio := congrArg Rule.prio same
      have action := ties _ there covers' (show by'.prio = prio by omega)
      rw [barrier passed] at action
      cases action
    · have low : prio < final.prio := low
      omega
    · have action : some sets = other.rule.action := congrArg Rule.action same
      rw [barrier passed'] at action
      cases action
  · intro below
    have plain := reaches.final_plain
    have sets : final.verdict.actions = some (final.verdict.sets.map ActionUnit.predActions) := by
      rw [Verdict.actions, plain, if_neg Bool.false_ne_true]
    have mem := stands.mem_flowTable (.inr (settings ▸ lasts))
    obtain ⟨match', get, call⟩ := stands
    rw [Verdict.call, sets, ← settings] at call
    have rule : final.rule =
        ⟨final.prio, match'.test, some (final.verdict.sets.map ActionUnit.predActions)⟩ := by
      rw [Place.rule, sets, ← test_congr_get get]
    have best {r} (memRule : r ∈ flowTable session.calls) (covers : r.covers x = true) :
        r.prio < final.prio ∨ r = final.rule := by
      rcases known memRule covers with (same | low) | ⟨by', passed, rfl⟩
      · exact .inr same
      · exact .inl low
      · exact .inl (below by' passed)
    refine ⟨match', _, final.prio, call, actions.trans sets, ?_, fun r memRule covers same => ?_⟩
    · rw [← rule]
      refine ⟨⟨mem, reaches.covers clear home⟩, fun r memRule covers => ?_⟩
      rcases best memRule covers with low | rfl
      · exact Nat.le_of_lt low
      · exact Nat.le_refl _
    · rcases best memRule covers with low | rfl
      · exact absurd same (Nat.ne_of_lt low)
      · exact sets

end

/-- **After any run of clear packets, the rule of a handled packet wins exactly if the packet rises
above every barrier it comes by.** -/
theorem packetIns_served (main : Policy) {d : Fdd} (compiled : compile main = some d)
    (separate : d.Separate ∅) (roomy : d.Roomy {}) (packets : List Packet)
    (clear : ∀ y ∈ packets, Clear y (d.home y)) :
    ∃ session, packetIns main packets = pure session ∧
      session.handled.map Prod.fst = packets.reverse ∧
        ∀ x l, (x, l) ∈ session.handled → l.flowSettings.hardTimeout ≠ 0 →
          (Served session.calls x l ↔ Above x (d.home x)) := by
  obtain ⟨start, installed, none, inv⟩ := reinstallRules_inv compiled separate
  obtain ⟨session, result, handled, inv'⟩ := inv.run clear
  refine ⟨session, ?_, ?_, fun x l mem lasts => ?_⟩
  · rw [packetIns, installed]
    exact result
  · rw [handled, none, List.map_nil, List.append_nil]
  · exact inv'.served_iff (.start separate roomy rfl) mem lasts

end

section

open scoped Drunos.Oxm.OpenflowBasic

/-- Asks whether the VLAN is 1, and has packets of VLAN 1 go out of port 3 and all others of port 2. -/
def vlanOne : Handler Policy :=
  .test (.exactly vlanVid 1#12) fun one => .ret (.modify (.exactly outPort (if one then 3#32 else 2#32)))

/-- A `Retic` with the function, before the first packet. -/
def vlanOneStart : Session where
  fdd := .leaf
    { sets := [.mk ∅ (some ⟨0, vlanOne⟩) none], mapleTree := default, prioDown := 1, prioUp := 65535 }
  calls := [.installBarrier ∅ 32767]
  handled := []

theorem packetIns_served_vlanOne : ∃ session l,
    packetIns (.packetFunction 0 vlanOne) [OpenflowBasic.packet [.exactly vlanVid 1#12]] = pure session ∧
      session.handled = [(OpenflowBasic.packet [.exactly vlanVid 1#12], l)] ∧
        Served session.calls (OpenflowBasic.packet [.exactly vlanVid 1#12]) l := by
  obtain ⟨r, result, settings⟩ : ∃ r, traverse true (OpenflowBasic.packet [.exactly vlanVid 1#12])
      vlanOneStart.fdd ∅ = pure r ∧ r.leaf.flowSettings = {} :=
    ⟨_, traverse_miss rfl rfl rfl rfl <| traverse_plain rfl, rfl⟩
  have run := packetIns_one (.packetFunction 0 vlanOne) vlanOneStart rfl result
  have clear : Clear (OpenflowBasic.packet [.exactly vlanVid 1#12])
      (Diagram.home (OpenflowBasic.packet [.exactly vlanVid 1#12]) vlanOneStart.fdd) :=
    .returned rfl (by decide) (by decide) trivial (by decide) (.plain rfl)
  obtain ⟨session, result', -, served⟩ := packetIns_served (.packetFunction 0 vlanOne) rfl trivial
    (by decide) [OpenflowBasic.packet [.exactly vlanVid 1#12]]
    (fun y mem => List.mem_singleton.mp mem ▸ clear)
  rw [run] at result'
  cases result'
  refine ⟨_, r.leaf, run, rfl, (served _ r.leaf (List.mem_singleton_self _) ?_).mpr ?_⟩
  · rw [settings]
    decide
  · exact .returned rfl rfl (.plain rfl)

/-- A packet of another VLAN goes to the controller again: its rule has priority 16383, the barrier of
the function 32767. -/
theorem vlanOne_repeats : ¬∀ (main : Policy) (packets : List Packet) (session : Session) (x : Packet)
    (l : Leaf TraceTree), packetIns main packets = pure session → (x, l) ∈ session.handled →
      l.flowSettings.hardTimeout ≠ 0 → Served session.calls x l := by
  intro all
  obtain ⟨r, result, settings, m, m', calls⟩ : ∃ r,
      traverse true (OpenflowBasic.packet []) vlanOneStart.fdd ∅ = pure r ∧ r.leaf.flowSettings = {} ∧
        ∃ m m', r.calls =
          [.installBarrier m 32768, .install m' [.ofField (.exactly outPort 2#32)] 16383 {}] :=
    ⟨_, traverse_miss rfl rfl rfl rfl <| traverse_plain rfl, rfl, _, _, rfl⟩
  have run := packetIns_one (.packetFunction 0 vlanOne) vlanOneStart rfl result
  obtain ⟨match', sets, prio, mem, -, wins, -⟩ := all _ _ _ (OpenflowBasic.packet []) r.leaf run
    (List.mem_singleton_self _) (by rw [settings]; decide)
  obtain ⟨-, -, low, -⟩ : match' = m' ∧ sets = _ ∧ prio = 16383 ∧ r.leaf.flowSettings = {} := by
    simpa [vlanOneStart, calls] using mem
  have high : 32767 ≤ prio := wins.2 ⟨32767, FieldSet.test ∅, none⟩ (.head _)
    (FieldSet.test_empty (OpenflowBasic.packet []))
  omega

end

end Drunos.Retic

/-
# Drunos.Maple.Installed — the switches give packets what a lookup gives

The entries on the switches stand for rules of the trace tree (`Realises`). Adding an
entry that stands for a rule keeps that, whether the switch takes it or refuses it,
because no two rules of a tree are tied (`addEntry_realises`); and every barrier of
the tree has its entry on each switch. That is the invariant `Installed`. Handling a
packet-in keeps it as long as the tree has a priority for what is new
(`processPacketIn_installed`), and it makes the entry that wins on a switch a barrier
or the one of the flow that a lookup finds.

When no priority is left, `update` gives the tests of the tree other priorities than
their barrier rules have on the switches, and the next rule is installed above barriers
it has to stay below (`staleBarrier_loses`). Hence the condition of
`installed_agrees`.
-/
import Drunos.Maple.Announced
import Drunos.Maple.PacketIn

namespace Drunos.Maple

open Drunos.Oxm Drunos.Theory Drunos.Theory.Run Drunos.Theory.Exploration
open Drunos.Theory.PriorityTable

set_option autoImplicit false

section

variable [OxmTypes] {D : Type}

/-! ## Entries and rules -/

/-- The entry does on the switch of a packet what the rule says. -/
structure Realises (here : Packet) (e : Entry) (r : Rule Packet (Option FlowId)) : Prop where
  prio : e.prio = r.prio
  flow : e.flow = r.action
  free : e.match'.entry switchId = none
  covers : ∀ x, switchOf x = switchOf here → e.match'.test x = r.covers x

/-- The rule has an entry in the table. -/
def Has (here : Packet) (table : List Entry) (r : Rule Packet (Option FlowId)) : Prop :=
  ∃ e ∈ table, Realises here e r

/-- Every entry of the table is one of the rules. -/
def Within (here : Packet) (table : List Entry) (rules : List (Rule Packet (Option FlowId))) : Prop :=
  ∀ e ∈ table, ∃ r ∈ rules, Realises here e r

theorem overlaps_compatible {a b : FieldSet} (both : overlaps a b = true) (t : OxmType) :
    (a.get t).Compatible (b.get t) := by
  cases found : b.entry t with
  | none => simp [FieldSet.get, found, MaskedBits.compatible_iff, MaskedBits.unknown]
  | some bits =>
      have fits := List.all_eq_true.mp both ⟨t, bits⟩ (FieldSet.mem_fields.mpr found)
      rw [FieldSet.get_of_entry found]
      exact of_decide_eq_true fits

/-- Overlapping matches match a packet of the switch in common. -/
theorem overlaps_common {a b : FieldSet} (both : overlaps a b = true)
    (freeA : a.entry switchId = none) (freeB : b.entry switchId = none) (here : Packet) :
    ∃ x, switchOf x = switchOf here ∧ a.test x = true ∧ b.test x = true := by
  refine ⟨b.apply (a.apply here), ?_, ?_, ?_⟩
  · rw [switchOf, switchOf, FieldSet.apply_apply, FieldSet.apply_apply]
    simp [FieldSet.get, freeA, freeB]
  · refine FieldSet.test_iff.mpr fun t => ?_
    rw [FieldSet.apply_apply, FieldSet.apply_apply]
    exact (overlaps_compatible both t).write_matches _
  · refine FieldSet.test_iff.mpr fun t => ?_
    rw [FieldSet.apply_apply]
    exact MaskedBits.write_matches _ _

section

variable {rules : List (Rule Packet (Option FlowId))} {here : Packet} {table : List Entry}

/-- Of untied rules, two whose entries have one priority and overlap are the same. -/
theorem Realises.unique (untied : Untied rules) {e e' : Entry} {r r' : Rule Packet (Option FlowId)}
    (mem : r ∈ rules) (mem' : r' ∈ rules) (real : Realises here e r) (real' : Realises here e' r')
    (same : e.prio = e'.prio) (both : overlaps e.match' e'.match' = true) : r = r' := by
  by_contra ne
  have apart : Apart r r' := untied.forall mem mem' ne
  obtain ⟨x, at_, has, has'⟩ := overlaps_common both real.free real'.free here
  refine apart (real.prio ▸ real'.prio ▸ same) x ⟨?_, ?_⟩
  · rw [← real.covers x at_, has]
  · rw [← real'.covers x at_, has']

/-- **Adding an entry of an untied rule keeps the entries within the rules, loses no
rule, and adds this one**, also where the switch refuses it. -/
theorem addEntry_realises (untied : Untied rules) {e : Entry} {r : Rule Packet (Option FlowId)}
    (mem : r ∈ rules) (real : Realises here e r) (within : Within here table rules) :
    Within here (addEntry e table) rules ∧
      (∀ r' ∈ rules, Has here table r' → Has here (addEntry e table) r') ∧
        Has here (addEntry e table) r := by
  rw [addEntry]
  split
  · -- refused for an entry that stands for the same rule
    rename_i refused
    obtain ⟨old, memOld, both⟩ := List.any_eq_true.mp refused
    simp only [Bool.and_eq_true, decide_eq_true_eq] at both
    obtain ⟨r', mem', real'⟩ := within old memOld
    obtain rfl := real'.unique untied mem' mem real both.1.1 both.2
    exact ⟨within, fun _ _ has => has, ⟨old, memOld, real'⟩⟩
  · refine ⟨fun e' memE => ?_, fun r' mem' has => ?_, ⟨e, List.mem_cons_self, real⟩⟩
    · rcases List.mem_cons.mp memE with rfl | kept
      · exact ⟨r, mem, real⟩
      · exact within e' (List.mem_of_mem_filter kept)
    · obtain ⟨old, memOld, real'⟩ := has
      by_cases replaced : old.prio = e.prio ∧ old.match'.sameAs e.match' = true
      · obtain rfl := real'.unique untied mem' mem real replaced.1 (overlaps_of_sameAs replaced.2)
        exact ⟨e, List.mem_cons_self, real⟩
      · refine ⟨old, List.mem_cons_of_mem _ (List.mem_filter.mpr ⟨memOld, ?_⟩), real'⟩
        simpa [imp_iff_not_or] using replaced

end

/-! ## Placing a rule -/

theorem mem_switchIds {s : MultiFieldSet} (exact : ∀ b ∈ s.elements switchId, b.exact = true)
    (x : Packet) :
    switchOf x ∈ switchIds s ↔ ∃ b ∈ s.elements switchId, b.Matches (x switchId) := by
  rw [switchIds, List.mem_map]
  constructor
  · rintro ⟨b, mem, same⟩
    refine ⟨b, mem, (MaskedBits.exact_matches (exact b mem)).mpr ?_⟩
    exact BitVec.eq_of_toNat_eq same.symm
  · rintro ⟨b, mem, has⟩
    refine ⟨b, mem, ?_⟩
    rw [switchOf, (MaskedBits.exact_matches (exact b mem)).mp has]

/-- The switches an entry goes to are not ruled out by the match. -/
theorem mem_computeSwitches {connections decided : List Nat} {m : FullFieldSet} (clean : Clean m)
    {x : Packet} (mem : switchOf x ∈ computeSwitches connections decided m) :
    (m.included.elements switchId = [] ∨ ∃ b ∈ m.included.elements switchId, b.Matches (x switchId)) ∧
      ((m.excluded.elements switchId).any fun b => b.Matches (x switchId)) = false := by
  obtain ⟨mem, notExcluded⟩ := List.mem_filter.mp mem
  rw [decide_eq_true_iff, mem_switchIds clean.excluded] at notExcluded
  constructor
  · by_cases none : m.included.elements switchId = []
    · exact .inl none
    · rw [if_neg (by simpa [switchIds] using none)] at mem
      have included := of_decide_eq_true (List.mem_filter.mp mem).2
      exact .inr ((mem_switchIds clean.included x).mp included)
  · rw [List.any_eq_false]
    exact fun b memB has => notExcluded ⟨b, memB, of_decide_eq_true has⟩

/-- A packet the rule is placed for is on a switch a barrier rule goes to. -/
theorem computeSwitches_of_placed {connections : List Nat} {m : FullFieldSet} (clean : Clean m)
    {x : Packet} (connected : switchOf x ∈ connections) (here : placed m x = true) :
    switchOf x ∈ computeSwitches connections [] m := by
  obtain ⟨matches_, notExcluded⟩ := Bool.and_eq_true_iff.mp here
  refine List.mem_filter.mpr ⟨?_, decide_eq_true fun mem => ?_⟩
  · show switchOf x ∈ if _ then connections else connections.filter _
    split
    · exact connected
    · rename_i some
      refine List.mem_filter.mpr ⟨connected, decide_eq_true ?_⟩
      rcases MultiFieldSet.test_iff.mp matches_ switchId with none | has
      · exact absurd (by simp [switchIds, none]) some
      · exact (mem_switchIds clean.included x).mpr has
  · obtain ⟨b, memB, has⟩ := (mem_switchIds clean.excluded x).mp mem
    rw [Bool.not_eq_true', List.any_eq_false] at notExcluded
    exact notExcluded b memB (decide_eq_true has)

/-- The one entry of a clean match realises its rule on the switches it goes to. -/
theorem placed_realises {connections decided : List Nat} {m : FullFieldSet} (clean : Clean m)
    {here : Packet} (mem : switchOf here ∈ computeSwitches connections decided m) (prio : Nat)
    (flow : Option FlowId) :
    ∃ fs, (m.erase switchMask).included.fields = [fs] ∧
      Realises here ⟨prio, fs, flow⟩ ⟨prio, placed m, flow⟩ := by
  have erased : (m.erase switchMask).included.elements switchId = [] :=
    MultiFieldSet.elements_erase_self m.included rfl
  have others (t : OxmType) (ne : t ≠ switchId) :
      (m.erase switchMask).included.elements t = m.included.elements t :=
    MultiFieldSet.elements_erase_of_ne m.included ne
  have single (t : OxmType) : ((m.erase switchMask).included.elements t).length ≤ 1 := by
    by_cases own : t = switchId
    · rw [own, erased]
      exact Nat.zero_le 1
    · rw [others t own]
      exact clean.single t
  obtain ⟨fs, fields, entries, test⟩ := MultiFieldSet.fields_single single
  refine ⟨fs, fields, rfl, rfl, entries _ erased, fun x at_ => ?_⟩
  obtain ⟨included, excluded⟩ := mem_computeSwitches clean (at_ ▸ mem)
  show fs.test x = placed m x
  rw [test, placed, excluded, Bool.not_false, Bool.and_true, Bool.eq_iff_iff,
    MultiFieldSet.test_iff, MultiFieldSet.test_iff]
  constructor
  · intro all t
    by_cases own : t = switchId
    · rw [own]
      exact included
    · rw [← others t own]
      exact all t
  · intro all t
    by_cases own : t = switchId
    · rw [own]
      exact .inl erased
    · rw [others t own]
      exact all t

/-- What installing does to the table of a switch, when the rule is one of untied
rules the entries are within. -/
structure Kept (rules : List (Rule Packet (Option FlowId))) (here : Packet) (b b' : Backend) :
    Prop where
  connections : b'.connections = b.connections
  within : Within here (b'.tables (switchOf here)) rules
  has : ∀ r ∈ rules, Has here (b.tables (switchOf here)) r → Has here (b'.tables (switchOf here)) r

theorem Kept.refl {rules : List (Rule Packet (Option FlowId))} {here : Packet} {b : Backend}
    (within : Within here (b.tables (switchOf here)) rules) : Kept rules here b b :=
  ⟨rfl, within, fun _ _ has => has⟩

section

variable {rules : List (Rule Packet (Option FlowId))} {here : Packet} {b : Backend}

theorem install_kept (here : Packet) (untied : Untied rules) {prio : Nat} {m : FullFieldSet} {flow : Option FlowId}
    (clean : Clean m) (mem : ⟨prio, placed m, flow⟩ ∈ rules) (decided : List Nat) (sent : Nat → Bool)
    (within : Within here (b.tables (switchOf here)) rules) :
    Kept rules here b (b.install prio m flow decided sent) ∧
      (switchOf here ∈ computeSwitches b.connections decided m → sent (switchOf here) = true →
        Has here ((b.install prio m flow decided sent).tables (switchOf here))
          ⟨prio, placed m, flow⟩) := by
  by_cases goes : switchOf here ∈ computeSwitches b.connections decided m ∧ sent (switchOf here) = true
  · obtain ⟨fs, fields, real⟩ := placed_realises clean goes.1 prio flow
    have tables : (b.install prio m flow decided sent).tables (switchOf here) =
        addEntry ⟨prio, fs, flow⟩ (b.tables (switchOf here)) := by
      show (if _ then _ else _) = _
      rw [if_pos goes, fields]
      rfl
    obtain ⟨withinA, hasA, added⟩ := addEntry_realises untied mem real within
    rw [← tables] at withinA hasA added
    exact ⟨⟨rfl, withinA, hasA⟩, fun _ _ => added⟩
  · have tables : (b.install prio m flow decided sent).tables (switchOf here) =
        b.tables (switchOf here) := if_neg goes
    refine ⟨⟨rfl, ?_, fun r _ has => ?_⟩, fun switch sends => absurd ⟨switch, sends⟩ goes⟩
    · rw [tables]
      exact within
    · rw [tables]
      exact has

/-- The barrier rules of an augmentation are all put on the switches of the packets
they are placed for. -/
theorem handle_numbered (here : Packet) (untied : Untied rules) {id next : Nat} {calls : List BackendCall}
    (numbered : Numbered id calls next) : ∀ {b : Backend},
      (∀ r ∈ calls.filterMap BackendCall.announced, r ∈ rules) →
      (∀ k ∈ b.missRules, k.id < id) → Within here (b.tables (switchOf here)) rules →
        let b' := calls.foldl (Backend.handle none) b
        Kept rules here b b' ∧ (∀ k ∈ b'.missRules, k.id < next) ∧
          (switchOf here ∈ b.connections → ∀ r ∈ calls.filterMap BackendCall.announced,
            r.covers here = true → Has here (b'.tables (switchOf here)) r) := by
  induction numbered with
  | nil id => exact fun _ older within => ⟨.refl within, older, fun _ _ mem => nomatch mem⟩
  | @cons id next calls prio m test clean rest ih =>
      intro b all older within
      by_cases switch : onSwitch test = true
      · -- a test of the switch id has no barrier rule
        have skipped : b.handle none (.barrierRule prio m test id) = b :=
          if_pos (of_decide_eq_true switch)
        have silent : (BackendCall.barrierRule prio m test id).announced = none := if_pos switch
        rw [List.filterMap_cons_none silent] at all ⊢
        rw [List.foldl_cons, skipped]
        exact ih all (fun k mem => Nat.lt_succ_of_lt (older k mem)) within
      · have announced : (BackendCall.barrierRule prio m test id).announced =
            some ⟨prio, placed m, none⟩ := if_neg switch
        rw [List.filterMap_cons_some announced] at all ⊢
        obtain ⟨mem, all⟩ := List.forall_mem_cons.mp all
        have fresh : missRule prio m id ∉ b.missRules :=
          fun mem => Nat.lt_irrefl id (older _ mem)
        have handled : b.handle none (.barrierRule prio m test id) =
            Backend.install prio m none [] (fun _ => true)
              { b with missRules := missRule prio m id :: b.missRules } := by
          show Backend.barrierRule _ _ _ _ _ = _
          rw [Backend.barrierRule, if_neg (by simpa [onSwitch] using switch), if_neg fresh]
        rw [List.foldl_cons, handled]
        obtain ⟨⟨_, withinI, hasI⟩, added⟩ := install_kept here
          (b := { b with missRules := missRule prio m id :: b.missRules }) untied clean mem []
          (fun _ => true) within
        obtain ⟨kept, olderR, addedR⟩ := ih all (b := Backend.install prio m none [] (fun _ => true)
          { b with missRules := missRule prio m id :: b.missRules })
          (List.forall_mem_cons.mpr ⟨Nat.lt_succ_self id, fun k mem => Nat.lt_succ_of_lt (older k mem)⟩)
          withinI
        refine ⟨⟨kept.connections, kept.within, fun r memR has => kept.has r memR (hasI r memR has)⟩,
          olderR, fun connected => List.forall_mem_cons.mpr ⟨fun covers => ?_, addedR connected⟩⟩
        exact kept.has _ mem (added (computeSwitches_of_placed clean connected covers) rfl)

/-- An installer puts its flow on switches, if its leaf still has the flow. -/
theorem handle_installer (here : Packet) (untied : Untied rules) (r : Runtime D) (i : Installer)
    (installing : Installing) (clean : Clean i.match')
    (mem : ∀ l, r.root.lookup (answers i.node) = some l → l.flow = installing.flow →
      ⟨l.prio, placed i.match', some l.flow⟩ ∈ rules)
    (within : Within here (b.tables (switchOf here)) rules) :
    let b' := (i.calls r).foldl (Backend.handle (some installing)) b
    Kept rules here b b' ∧ b'.missRules = b.missRules := by
  intro b'
  have nothing : Kept rules here b b ∧ b.missRules = b.missRules := ⟨.refl within, rfl⟩
  cases leaf : r.root.lookup (answers i.node) with
  | none =>
      have same : b' = b := by
        show (i.calls r).foldl _ b = b
        rw [Installer.calls, leaf]
        rfl
      exact same ▸ nothing
  | some l =>
      by_cases goes : r.alive l.flow = true ∧ installing.flow = l.flow
      · have same : b' = b.install l.prio i.match' (some l.flow) installing.decided installing.sent := by
          show (i.calls r).foldl _ b = _
          rw [Installer.calls, leaf]
          simp only [compile, goes.1, if_true]
          show (if _ then _ else _) = _
          rw [if_pos goes.2]
          rfl
        rw [same]
        exact ⟨(install_kept here untied clean (mem l leaf goes.2.symm) _ _ within).1, rfl⟩
      · have same : b' = b := by
          show (i.calls r).foldl _ b = b
          rw [Installer.calls, leaf]
          simp only [compile]
          split
          · show (if _ then _ else _) = _
            rw [if_neg fun own => goes ⟨‹_›, own⟩]
            rfl
          · rfl
        exact same ▸ nothing

end

/-! ## The invariant -/

/-- The rules the switches should have for a tree. -/
def placedRules (node : Node) : List (Rule Packet (Option FlowId)) :=
  placing.rules node fun _ => true

theorem rules_cursor (r : Runtime D) (node : Node) :
    placing.rules node (placed r.cursor.match') = placedRules node := by
  have all : placed r.cursor.match' = fun _ => true := by
    funext x
    exact Bool.and_eq_true_iff.mpr ⟨MultiFieldSet.test_empty x, rfl⟩
  rw [all]
  rfl

/-- The entries of the switches are rules of the tree, and every barrier of the tree
has an entry on the switches it matches packets of. -/
structure Installed [Decisions D] (policy : Handler D) (s : MapleState D) : Prop where
  sound : Sound policy s.runtime
  ordered : s.runtime.Ordered
  alive : ∀ flow < s.runtime.nextFlow, s.runtime.alive flow = true
  older : ∀ k ∈ s.backend.missRules, k.id < s.runtime.nextId
  within : ∀ here, Within here (s.entries here) (placedRules s.runtime.root)
  barriers : ∀ x, switchOf x ∈ s.backend.connections → ∀ r ∈ placedRules s.runtime.root,
    r.action = none → r.covers x = true → Has x (s.entries x) r
  installers : ∀ flow i, s.installers flow = some i → Clean i.match' ∧
    ∃ l, s.runtime.root.lookup (answers i.node) = some l ∧
      ⟨l.prio, placed i.match', some l.flow⟩ ∈ placedRules s.runtime.root

section

variable [Decisions D] {policy : Handler D} {s : MapleState D}

theorem Installed.untied (installed : Installed policy s) : Untied (placedRules s.runtime.root) :=
  Reading.rules_untied installed.ordered.ranged

/-- The leaf a packet is led to is of the flow a lookup finds. -/
theorem Installed.lookup (installed : Installed policy s) {x : Packet} {l : FlowNode}
    (leaf : s.runtime.root.lookup (answers x) = some l) : s.runtime.lookup x = some l.flow := by
  have created : l.flow < s.runtime.nextFlow := (Agrees.lookup installed.sound leaf).1
  exact Runtime.lookup_eq_some.mpr ⟨l, leaf, installed.alive _ created, rfl⟩

theorem Installed.agrees (installed : Installed policy s) : s.Agrees := by
  rintro x connected e ⟨⟨mem, has⟩, wins⟩
  obtain ⟨r, memR, real⟩ := installed.within x e mem
  have covers : r.covers x = true := real.covers x rfl ▸ has
  rcases Reading.rules_shadowed installed.ordered.ranged memR covers with
    barrier | ⟨l, leaf, -, action⟩ | ⟨b, memB, barrier, coversB, above⟩
  · exact .inl (real.flow.trans barrier)
  · exact .inr (real.flow.trans (action.trans (installed.lookup leaf).symm))
  · -- the barrier has an entry that is above this one
    obtain ⟨e', memE, realE⟩ := installed.barriers x connected b memB barrier coversB
    have most := wins e' memE ((realE.covers x rfl).trans coversB)
    have low := real.prio
    have high := realE.prio
    omega

theorem installed_initial (policy : Handler D) (left right : Nat) (connections : List Nat) :
    Installed policy (MapleState.initial left right connections) where
  sound := initial_sound policy left right
  ordered := ordered_unexplored _ _ _
  alive := fun _ below => absurd below (Nat.not_lt_zero _)
  older := nofun
  within := nofun
  barriers := nofun
  installers := nofun

/-! ## What a packet-in keeps -/

/-- What keeps the tables of the switches keeps the invariant. -/
theorem Installed.kept (installed : Installed policy s) {b : Backend} (states : FlowId → FlowState)
    (missRules : b.missRules = s.backend.missRules)
    (kept : ∀ here, Kept (placedRules s.runtime.root) here s.backend b) :
    Installed policy { s with backend := b, states := states } where
  sound := installed.sound
  ordered := installed.ordered
  alive := installed.alive
  older k mem := installed.older k (missRules ▸ mem)
  within here := (kept here).within
  barriers x connected r mem barrier covers :=
    (kept x).has r mem
      (installed.barriers x ((kept x).connections ▸ connected) r mem barrier covers)
  installers := installed.installers

theorem activate_installed (installed : Installed policy s) (flow : FlowId) (x : Packet) :
    Installed policy (s.activate flow x) := by
  rw [MapleState.activate]
  cases held : s.installers flow with
  | none => exact installed.kept _ rfl fun here => .refl (installed.within here)
  | some i =>
      obtain ⟨clean, l, leaf, mem⟩ := installed.installers flow i held
      have handled (here : Packet) (installing : Installing) :=
        handle_installer here installed.untied s.runtime i installing clean
          (fun l' leaf' _ => Option.some.inj (leaf.symm.trans leaf') ▸ mem) (installed.within here)
      exact installed.kept _ (handled x _).2 fun here => (handled here _).1

/-- Finding or creating the flow of a packet. -/
theorem withFlow_installed (installed : Installed policy s) (x : Packet) :
    Installed policy (s.withFlow x).1 ∧ Usable policy (s.withFlow x).1.runtime x (s.withFlow x).2 ∧
      ∀ l, (s.withFlow x).1.runtime.root.lookup (answers x) = some l → l.flow = (s.withFlow x).2 := by
  cases found : s.runtime.lookup x with
  | some flow =>
      have same : s.withFlow x = (s, flow) := by simp [MapleState.withFlow, Runtime.flowFor, found]
      rw [same]
      refine ⟨installed, found_usable installed.sound found, fun l leaf => ?_⟩
      exact Option.some.inj ((installed.lookup leaf).symm.trans found)
  | none =>
      have same : s.withFlow x =
          ({ s with runtime := s.runtime.newFlow.1 }, s.runtime.newFlow.2) := by
        simp [MapleState.withFlow, Runtime.flowFor, found]
      have usable := newFlow_usable installed.sound x
      rw [same]
      refine ⟨?_, usable, fun l leaf => ?_⟩
      · exact {
          sound := usable.sound
          ordered := installed.ordered
          alive := fun f created => by
            by_cases own : f = s.runtime.nextFlow
            · simp [Runtime.newFlow, Runtime.alive, own]
            · have older : f < s.runtime.nextFlow := by
                exact Nat.lt_of_le_of_ne (Nat.le_of_lt_succ created) own
              simp only [Runtime.newFlow, Runtime.alive, Function.update_of_ne own]
              exact installed.alive f older
          older := installed.older
          within := installed.within
          barriers := installed.barriers
          installers := installed.installers }
      · exact absurd ((installed.lookup leaf).symm.trans found) (by simp)

/-- Deciding on a flow that may be used for the packet. -/
theorem decide_installed (installed : Installed policy s) {x : Packet} {flow : FlowId}
    (usable : Usable policy s.runtime x flow) :
    Installed policy
      { s with
          runtime :=
            { s.runtime with
                flows := Function.update s.runtime.flows flow (some (policy.run x).1) } } where
  sound := by
    refine Agrees.mono ?_ usable.agrees
    exact fun d l stored => Usable.stored (r := s.runtime) rfl (.inr rfl) stored
  ordered := installed.ordered
  alive f created := by
    by_cases own : f = flow
    · simp [Runtime.alive, own]
    · simp only [Runtime.alive, Function.update_of_ne own]
      exact installed.alive f created
  older := installed.older
  within := installed.within
  barriers := installed.barriers
  installers := installed.installers

/-- **Augmenting with a packet and asking the backend for what is new keeps the
switches in step with the tree**, as long as there is a priority left. -/
theorem augment_installed (whole : policy.WholeFields) (unmasked : policy.Unmasked switchId)
    (installed : Installed policy s) {x : Packet} {flow : FlowId}
    (usable : Usable policy s.runtime x flow)
    (same : ∀ l, s.runtime.root.lookup (answers x) = some l → l.flow = flow)
    (fits : (s.augment policy x flow).2.thrown ≠ some .priorityExceeded) :
    Installed policy (s.augment policy x flow).1 ∧ (s.augment policy x flow).2.thrown = none := by
  obtain ⟨sound, consistent⟩ := augment_sound usable
  have done : (s.runtime.augment policy x flow).2.thrown = none := by
    cases thrown : (s.runtime.augment policy x flow).2.thrown with
    | none => rfl
    | some error =>
        cases error with
        | inconsistentTrace => exact absurd thrown consistent
        | priorityExceeded => exact absurd thrown fits
  have told : Told x (traceable policy x ∅).calls := traceable_told policy x
  have fresh : FreshCalls [] (traceable policy x ∅).calls :=
    traceable_fresh policy whole fun _ mem => nomatch mem
  have switch : WholeSwitch (traceable policy x ∅).calls :=
    traceable_whole policy whole unmasked (.inr rfl)
  have only : MatchesOnly [] s.runtime.cursor.match' := fun _ _ => rfl
  have clean : Clean s.runtime.cursor.match' := ⟨fun _ => Nat.zero_le 1, nofun, nofun⟩
  have ordered : (s.runtime.augment policy x flow).1.Ordered :=
    augment_ordered whole installed.ordered x flow
  -- the rules of the tree now, and what was asked of the backend
  have rules (r : Rule Packet (Option FlowId)) :
      r ∈ placedRules (s.runtime.augment policy x flow).1.root ↔
        r ∈ placedRules s.runtime.root ∨
          r ∈ (s.runtime.augment policy x flow).2.calls.filterMap BackendCall.announced ∨
            Installs x flow (s.runtime.augment policy x flow).2 r := by
    rw [← rules_cursor s.runtime, ← rules_cursor s.runtime]
    exact trace_rules _ s.runtime.cursor s.runtime.nextId told fresh only installed.ordered same done
  have looks : Numbered s.runtime.nextId (s.runtime.augment policy x flow).2.calls
        (s.runtime.augment policy x flow).1.nextId ∧
      ∀ m, (s.runtime.augment policy x flow).2.installer = some m → Clean m :=
    trace_numbered _ s.runtime.cursor s.runtime.nextId fresh only switch clean
  obtain ⟨numbered, cleanI⟩ := looks
  have untied : Untied (placedRules (s.runtime.augment policy x flow).1.root) :=
    Reading.rules_untied ordered.ranged
  have handled (here : Packet) :=
    handle_numbered here untied numbered (b := s.backend)
      (fun r mem => (rules r).mpr (.inr (.inl mem))) installed.older
      (fun e mem =>
        let ⟨r, memR, real⟩ := installed.within here e mem
        ⟨r, (rules r).mpr (.inl memR), real⟩)
  refine ⟨?_, done⟩
  exact {
    sound := sound
    ordered := ordered
    alive := fun f created => by
      have before : s.runtime.alive f = true := installed.alive f created
      show Option.isSome ((if _ then _ else _ : FlowId → Option D) f) = true
      split
      · by_cases own : f = flow
        · simp [own]
        · rw [Function.update_of_ne own]
          exact before
      · exact before
    older := (handled x).2.1
    within := fun here => (handled here).1.within
    barriers := fun y connected r mem barrier covers => by
      have connected : switchOf y ∈ s.backend.connections :=
        (handled y).1.connections ▸ connected
      rcases (rules r).mp mem with old | new | ⟨m, l, -, -, rfl⟩
      · exact (handled y).1.has r mem (installed.barriers y connected r old barrier covers)
      · exact (handled y).2.2 connected r new covers
      · cases barrier
    installers := fun f i held => by
      have before (i : Installer) (held : s.installers f = some i) : Clean i.match' ∧
          ∃ l, (s.runtime.augment policy x flow).1.root.lookup (answers i.node) = some l ∧
            ⟨l.prio, placed i.match', some l.flow⟩ ∈
              placedRules (s.runtime.augment policy x flow).1.root := by
        obtain ⟨cleanO, l, leaf, mem⟩ := installed.installers f i held
        exact ⟨cleanO, l, trace_keeps told same leaf, (rules _).mpr (.inl mem)⟩
      obtain ⟨m, l, installer, leaf, own⟩ := trace_installs told done
      replace installer : (s.runtime.augment policy x flow).2.installer = some m := installer
      simp only [MapleState.augment, installer] at held
      by_cases same : f = flow
      · subst same
        obtain rfl : ⟨x, m⟩ = i := by simpa using held
        refine ⟨cleanI m installer, l, leaf, (rules _).mpr (.inr (.inr ⟨m, l, installer, leaf, ?_⟩))⟩
        rw [own]
      · simp only [Function.update_of_ne same] at held
        exact before i held }

/-- **Handling a packet-in keeps the switches in step with the tree**, as long as
there is a priority left for what is new. -/
theorem processPacketIn_installed (whole : policy.WholeFields)
    (unmasked : policy.Unmasked switchId) (installed : Installed policy s) {pi : PacketIn}
    (fits : MapleState.exceeds policy s pi = false) :
    Installed policy (s.processPacketIn policy pi) := by
  obtain ⟨found, usable, same⟩ := withFlow_installed installed pi.packet
  rw [MapleState.exceeds, decide_eq_false_iff_not, not_and] at fits
  rw [MapleState.processPacketIn]
  have augments (idle : (s.withFlow pi.packet).1.states (s.withFlow pi.packet).2 ≠ .active) :
      Installed policy ((s.withFlow pi.packet).1.augmentAndInstall policy pi.packet
        (s.withFlow pi.packet).2) := by
    obtain ⟨augmented, done⟩ := augment_installed whole unmasked found usable same (fits idle)
    simp only [MapleState.augmentAndInstall, done]
    exact activate_installed augmented _ _
  cases state : (s.withFlow pi.packet).1.states (s.withFlow pi.packet).2 with
  | egg =>
      simp only [state]
      exact augments (by simp [state])
  | evicted =>
      simp only [state]
      exact augments (by simp [state])
  | active =>
      simp only [state]
      split
      · exact activate_installed found _ _
      · exact decide_installed found usable

/-- **In every run in which no packet-in finds the priorities used up, the switches
give every packet to the controller or to the flow a lookup finds for it.** -/
theorem installed_agrees (policy : Handler D) (whole : policy.WholeFields)
    (unmasked : policy.Unmasked switchId) (left right : Nat) (connections : List Nat)
    (es : List PacketIn)
    (fits : Each (MapleState.processPacketIn policy)
      (fun s pi => MapleState.exceeds policy s pi = false) (.initial left right connections) es) :
    let s := final (MapleState.processPacketIn policy) (.initial left right connections) es
    s.backend.connections = connections ∧ s.Agrees := by
  have connected :
      (final (MapleState.processPacketIn policy) (.initial left right connections) es).backend.connections =
        connections :=
    invariant_final (fun s => s.backend.connections = connections)
      (fun s pi same => (MapleState.processPacketIn_connections policy s pi).trans same) es rfl
  have installed : Installed policy
      (final (MapleState.processPacketIn policy) (.initial left right connections) es) :=
    fits.invariant (Installed policy)
      (fun _ _ installed fits => processPacketIn_installed whole unmasked installed fits)
      (installed_initial policy left right connections)
  exact ⟨connected, installed.agrees⟩

end

end

/-! ## Priorities used up -/

section

open scoped Drunos.Oxm.OpenflowBasic

/-- `Decision::Unicast`: entries on all switches that stay. -/
structure Unicast where
  port : Nat

instance : Decisions Unicast where
  default := ⟨0⟩
  disposable _ := false
  switches _ := []

/-- Packets to the i-th of the TCP ports go out on port i, all others on port 0. -/
def byPort : Nat → List (BitVec 16) → Handler Unicast
  | _, [] => .ret ⟨0⟩
  | i, n :: ns => .test (.exactly tcpDst n) fun b => if b then .ret ⟨i⟩ else byPort (i + 1) ns

theorem byPort_wholeFields : ∀ (i : Nat) (ports : List (BitVec 16)), (byPort i ports).WholeFields
  | _, [] => trivial
  | i, n :: ns => ⟨Field.exactly_exact _ _, fun b => by
      cases b with
      | true => trivial
      | false => exact byPort_wholeFields (i + 1) ns⟩

theorem byPort_unmasked (t : OxmType) :
    ∀ (i : Nat) (ports : List (BitVec 16)), (byPort i ports).Unmasked t
  | _, [] => trivial
  | i, n :: ns => fun b => by
      cases b with
      | true => trivial
      | false => exact byPort_unmasked t (i + 1) ns

/-- A TCP packet on switch 1. -/
def toPort (n : BitVec 16) : Packet :=
  OpenflowBasic.packet [.exactly switchId 1#64, .exactly tcpDst n]

/-- Four tests use up a space of 28 priorities. -/
def usedUp : MapleState Unicast :=
  (MapleState.initial 0 28 [1]).processPacketIn (byPort 1 [1, 2, 3, 4]) ⟨toPort 9, true⟩

/-- The update moves the tests up in the tree, and the rule for the other ports is
installed above the barriers of the last two. -/
theorem staleBarrier_loses :
    (byPort 1 [1, 2, 3, 4]).WholeFields ∧ (byPort 1 [1, 2, 3, 4]).Unmasked switchId ∧
      ¬ usedUp.Agrees := by
  refine ⟨byPort_wholeFields _ _, byPort_unmasked _ _ _, fun agrees => ?_⟩
  have connected : switchOf (toPort 3) ∈ usedUp.backend.connections := by decide +kernel
  have wins : ∃ e ∈ usedUp.entries (toPort 3),
      e.flow = some 0 ∧ e.match'.test (toPort 3) = true ∧
        ∀ e' ∈ usedUp.entries (toPort 3), e'.match'.test (toPort 3) = true → e'.prio ≤ e.prio := by
    decide +kernel
  have found : usedUp.runtime.lookup (toPort 3) = none := by decide +kernel
  obtain ⟨e, mem, flow, has, best⟩ := wins
  rcases agrees (toPort 3) connected e ⟨⟨mem, has⟩, best⟩ with none | same
  · rw [flow] at none
    cases none
  · rw [flow, found] at same
    cases same

/-- Two ports in a space that has room for them. -/
theorem installed_agrees_ports :
    let s := final (MapleState.processPacketIn (byPort 1 [80, 443])) (.initial 1 65535 [1])
      [⟨toPort 22, true⟩, ⟨toPort 443, true⟩]
    s.backend.connections = [1] ∧ s.Agrees :=
  installed_agrees (byPort 1 [80, 443]) (byPort_wholeFields _ _) (byPort_unmasked _ _ _) 1 65535 [1]
    [⟨toPort 22, true⟩, ⟨toPort 443, true⟩] ⟨by decide +kernel, by decide +kernel, trivial⟩

end

end Drunos.Maple

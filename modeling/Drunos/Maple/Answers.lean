/-
# Drunos.Maple.Answers — every packet-in that misses is answered once

A flow is put on the switch of a packet-in when it is installed for it: the rule of a leaf
is the one its installer has (`OneLeaf`), and it matches the packet, also where the flow
was made for another one (`OneLeaf.here`). So the packet-in gets one answer, with its own
buffer or its own data, before the next one is handled, and no other switch is sent one
(`packetIn_answered`).

Timeouts of the decision are rounded down to what a `FlowMod` can say, and no rule that
was decided to end stays forever (`flowMods_timely`).
-/
import Drunos.Maple.Messages

namespace Drunos.Maple

open Drunos.Oxm Drunos.Theory Drunos.Theory.Run Drunos.Theory.Exploration
open Drunos.Theory.PriorityTable

set_option autoImplicit false

section

variable [OxmTypes]

/-! ## The rule of a flow -/

section

variable {D : Type} {flow : FlowId} {last x : Packet}

/-- The match of an installer is placed for the packet it was made with. -/
theorem trace_placed : ∀ (calls : List (TraceCall × Packet)) (c : Cursor) (id : Nat) {node : Node}
    {known : List OxmType} {m : FullFieldSet}, Told x calls → FreshCalls known calls →
      MatchesOnly known c.match' → placed c.match' x = true →
        (trace flow last calls c id node).installer = some m → placed m x = true
  | [], c, id, node, known, m, _, _, _, here, installer => by
      rw [trace] at installer
      cases node with
      | unexplored =>
          rw [finish] at installer
          split at installer
          · cases installer
          · cases installer
            exact here
      | leaf l =>
          cases installer
          exact here
      | test need info pos neg => cases installer
      | load mask cases => cases installer
  | (.load data, y) :: calls, c, id, node, known, m, told, ⟨new, fresh⟩, only, here, installer => by
      obtain ⟨value, later⟩ := List.forall_mem_cons.mp told
      have value : valueBits data = (answers x).load data.mask := value
      have unmatched : c.match'.included.elements data.type = [] := only _ new
      have loads : placed (c.load data).match' x = true := by
        rw [show (c.load data).match' = c.match'.add data from rfl, placed_case unmatched]
        simp [Reading.loading, here, value, placing, reading]
      have next (node : Node) (found : (trace flow last calls (c.load data) id node).installer = some m) :=
        trace_placed calls (c.load data) id later fresh (only.add data) loads found
      cases node with
      | unexplored => exact next _ installer
      | leaf l => cases installer
      | test need info pos neg => cases installer
      | load mask cases =>
          rw [trace] at installer
          split at installer
          · exact next _ installer
          · cases installer
  | (.test pred ret, y) :: calls, c, id, node, known, m, told, ⟨new, fresh⟩, only, here, installer => by
      obtain ⟨value, later⟩ := List.forall_mem_cons.mp told
      have value : ret = (answers x).test pred := value
      have unmatched : c.match'.included.elements pred.type = [] := only _ new
      have next (prio id : Nat) (node : Node)
          (found : (trace flow last calls (c.test pred ret prio) id node).installer = some m) :
          placed m x = true := by
        cases ret with
        | true =>
            refine trace_placed calls (c.test pred true prio) id later fresh (only.add pred) ?_ found
            rw [show (c.test pred true prio).match' = c.match'.add pred from rfl, placed_add unmatched]
            simp [Reading.passing, here, ← value, placing, reading]
        | false =>
            refine trace_placed calls (c.test pred false prio) id later fresh only ?_ found
            rw [show (c.test pred false prio).match' = c.match'.exclude pred from rfl, placed_exclude]
            simp [Reading.failing, here, ← value, placing, reading]
      cases node with
      | leaf l => cases installer
      | load mask cases => cases installer
      | unexplored =>
          rw [trace] at installer
          split at installer
          · cases installer
          · exact next _ _ _ installer
      | test need info pos neg =>
          rw [trace] at installer
          split at installer
          · exact next _ _ _ installer
          · cases installer

end

section

variable {D : Type} [Decisions D] {policy : Handler D} {s : MapleState D} {flow : FlowId} {x : Packet}

/-- The rule of a leaf is the one that the installer of its flow has. -/
def OneLeaf (s : MapleState D) : Prop :=
  ∀ r ∈ placedRules s.runtime.root, ∀ flow, r.action = some flow →
    flow < s.runtime.nextFlow ∧ ∃ i l, s.installers flow = some i ∧
      s.runtime.root.lookup (answers i.node) = some l ∧ l.flow = flow ∧
      r = ⟨l.prio, placed i.match', some flow⟩

omit [Decisions D] in
/-- **The installer of the flow of a packet has a match that is placed for the packet.** -/
theorem OneLeaf.here (one : OneLeaf s) {l : FlowNode}
    (leaf : s.runtime.root.lookup (answers x) = some l) :
    ∃ i l', s.installers l.flow = some i ∧ s.runtime.root.lookup (answers i.node) = some l' ∧
      l'.flow = l.flow ∧ placed i.match' x = true := by
  obtain ⟨r, mem, covers, -, action⟩ :=
    Reading.rules_leaf (g := placing) (c := fun _ => true) (x := x) rfl leaf rfl
  obtain ⟨-, i, l', installer, leaf', own, rule⟩ := one r mem l.flow action
  refine ⟨i, l', installer, leaf', own, ?_⟩
  rw [rule] at covers
  exact covers

omit [Decisions D] in
theorem oneLeaf_initial (left right : Nat) (connections : List Nat) :
    OneLeaf (MapleState.initial left right connections : MapleState D) :=
  fun _ mem => absurd mem List.not_mem_nil

/-- Augmenting for the flow of the packet, or for one that no leaf has. -/
theorem augment_oneLeaf (whole : policy.WholeFields) (unmasked : policy.Unmasked switchId)
    (installed : Installed policy s) (one : OneLeaf s) (usable : Usable policy s.runtime x flow)
    (same : ∀ l, s.runtime.root.lookup (answers x) = some l → l.flow = flow)
    (fresh : (s.runtime.root.lookup (answers x)).isSome = true ∨
      ∀ r ∈ placedRules s.runtime.root, r.action ≠ some flow)
    (fits : (s.augment policy x flow).2.thrown ≠ some .priorityExceeded) :
    OneLeaf (s.augment policy x flow).1 := by
  obtain ⟨augmented, done⟩ := augment_installed whole unmasked installed usable same fits
  have told : Told x (traceable policy x ∅).calls := traceable_told policy x
  have freshCalls : FreshCalls [] (traceable policy x ∅).calls :=
    traceable_fresh policy whole fun _ mem => nomatch mem
  have only : MatchesOnly [] s.runtime.cursor.match' := fun _ _ => rfl
  obtain ⟨m, l, installer, leaf, own⟩ := trace_installs told done
  have rules (r : Rule Packet (Option FlowId)) :
      r ∈ placedRules (s.runtime.augment policy x flow).1.root ↔
        r ∈ placedRules s.runtime.root ∨
          r ∈ (s.runtime.augment policy x flow).2.calls.filterMap BackendCall.announced ∨
            Installs x flow (s.runtime.augment policy x flow).2 r := by
    rw [← rules_cursor s.runtime, ← rules_cursor s.runtime]
    exact trace_rules _ s.runtime.cursor s.runtime.nextId told freshCalls only installed.ordered same done
  have installers : (s.augment policy x flow).1.installers =
      Function.update s.installers flow (some ⟨x, m⟩) := by
    rw [MapleState.augment]
    simp only [show (s.runtime.augment policy x flow).2.installer = some m from installer]
  -- the rule that the new installer has
  have own' : (⟨l.prio, placed m, some flow⟩ : Rule Packet (Option FlowId)) ∈
      placedRules (s.runtime.augment policy x flow).1.root :=
    (rules _).mpr (.inr (.inr ⟨m, l, installer, leaf, rfl⟩))
  have covers : placed m x = true :=
    trace_placed _ s.runtime.cursor s.runtime.nextId told freshCalls only rfl installer
  have here (r : Rule Packet (Option FlowId)) (same : r = ⟨l.prio, placed m, some flow⟩) :
      flow < (s.augment policy x flow).1.runtime.nextFlow ∧ ∃ i l,
        (s.augment policy x flow).1.installers flow = some i ∧
          (s.augment policy x flow).1.runtime.root.lookup (answers i.node) = some l ∧ l.flow = flow ∧
            r = ⟨l.prio, placed i.match', some flow⟩ :=
    ⟨usable.created, ⟨x, m⟩, l, by rw [installers, Function.update_self], leaf, own, same⟩
  intro r mem f action
  rcases (rules r).mp mem with old | new | ⟨m', l', installer', leaf', rfl⟩
  · obtain ⟨created, i, lᵢ, held, leafᵢ, ownᵢ, rule⟩ := one r old f action
    by_cases same' : f = flow
    · subst same'
      obtain ⟨l₀, leaf₀⟩ := Option.isSome_iff_exists.mp (fresh.resolve_right fun none => none r old action)
      -- it is the rule of the leaf the packet is led to, before and after
      obtain ⟨rₓ, memₓ, coversₓ, prioₓ, actionₓ⟩ :=
        Reading.rules_leaf (g := placing) (c := fun _ => true) (x := x) rfl leaf₀ rfl
      have kept : (s.runtime.augment policy x f).1.root.lookup (answers x) = some l₀ :=
        trace_keeps told same leaf₀
      obtain rfl : l = l₀ := Option.some.inj (leaf.symm.trans kept)
      obtain ⟨-, i', l', held', leaf', -, rule'⟩ := one rₓ memₓ f (actionₓ.trans (congrArg some own))
      obtain rfl : i' = i := Option.some.inj (held'.symm.trans held)
      obtain rfl : l' = lᵢ := Option.some.inj (leaf'.symm.trans leafᵢ)
      obtain rfl : rₓ = r := rule'.trans rule.symm
      refine here rₓ ?_
      by_contra ne
      have apart : Apart rₓ ⟨l.prio, placed m, some f⟩ := augmented.untied.forall mem own' ne
      exact apart prioₓ x ⟨coversₓ, covers⟩
    · refine ⟨created, i, lᵢ, ?_, trace_keeps told same leafᵢ, ownᵢ, rule⟩
      rw [installers, Function.update_of_ne same', held]
  · obtain ⟨call, memC, announced⟩ := List.mem_filterMap.mp new
    obtain ⟨prio, m', test, n, rfl, -⟩ := (MapleImpl.trace_asks (fun _ => True) _ _ _ _ _ _
      (fun _ _ => trivial) fun _ _ => trivial).1 _ memC
    simp only [BackendCall.announced] at announced
    split at announced
    · cases announced
    · obtain rfl := Option.some.inj announced
      cases action
  · obtain rfl : m' = m := Option.some.inj (installer'.symm.trans installer)
    obtain rfl : l' = l := Option.some.inj (leaf'.symm.trans leaf)
    obtain rfl := Option.some.inj action
    exact here _ rfl

/-- Finding or making the flow of a packet. -/
theorem withFlow_oneLeaf (one : OneLeaf s) (x : Packet) :
    OneLeaf (s.withFlow x).1 ∧
      (((s.withFlow x).1.runtime.root.lookup (answers x)).isSome = true ∨
        ∀ r ∈ placedRules (s.withFlow x).1.runtime.root, r.action ≠ some (s.withFlow x).2) := by
  cases found : s.runtime.lookup x with
  | some flow =>
      have same : s.withFlow x = (s, flow) := by simp [MapleState.withFlow, Runtime.flowFor, found]
      obtain ⟨l, leaf, -⟩ := Runtime.lookup_eq_some.mp found
      rw [same]
      exact ⟨one, .inl (Option.isSome_iff_exists.mpr ⟨l, leaf⟩)⟩
  | none =>
      have same : s.withFlow x =
          ({ s with runtime := s.runtime.newFlow.1 }, s.runtime.newFlow.2) := by
        simp [MapleState.withFlow, Runtime.flowFor, found]
      rw [same]
      refine ⟨fun r mem flow action => ?_, .inr fun r mem own => ?_⟩
      · obtain ⟨created, rest⟩ := one r mem flow action
        exact ⟨Nat.lt_succ_of_lt created, rest⟩
      · exact Nat.lt_irrefl _ (one r mem _ own).1

end

section

variable {D : Type} [Decisions D] {policy : Handler D} {s : MapleState D} {pi : PacketIn}

/-- Handling a packet-in keeps the rules of the leaves with their installers. -/
theorem processPacketIn_oneLeaf (whole : policy.WholeFields) (unmasked : policy.Unmasked switchId)
    (installed : Installed policy s) (one : OneLeaf s) (fits : MapleState.exceeds policy s pi = false) :
    OneLeaf (s.processPacketIn policy pi) := by
  obtain ⟨found, usable, same⟩ := withFlow_installed installed pi.packet
  obtain ⟨one, fresh⟩ := withFlow_oneLeaf one pi.packet
  rw [MapleState.exceeds, decide_eq_false_iff_not, not_and] at fits
  rw [MapleState.processPacketIn]
  have augments (idle : (s.withFlow pi.packet).1.states (s.withFlow pi.packet).2 ≠ .active) :
      OneLeaf ((s.withFlow pi.packet).1.augmentAndInstall policy pi.packet (s.withFlow pi.packet).2) := by
    obtain ⟨-, done⟩ := augment_installed whole unmasked found usable same (fits idle)
    simp only [MapleState.augmentAndInstall, done]
    exact augment_oneLeaf whole unmasked found one usable same fresh (fits idle)
  cases state : (s.withFlow pi.packet).1.states (s.withFlow pi.packet).2 with
  | egg =>
      simp only [state]
      exact augments (by simp [state])
  | evicted =>
      simp only [state]
      exact augments (by simp [state])
  | active =>
      simp only [state]
      split
      · exact one
      · exact one

end

/-! ## Answers -/

/-- It answers a packet-in: it has its data or its buffer. -/
def Message.isAnswer : Message → Bool
  | packetOut _ => true
  | flowMod mod => mod.bufferId != noBuffer
  | _ => false

@[simp] theorem Message.isAnswer_packetOut (out : PacketOut) : (packetOut out).isAnswer = true := rfl

@[simp] theorem Message.isAnswer_flowMod (mod : FlowMod) :
    (flowMod mod).isAnswer = (mod.bufferId != noBuffer) := rfl

/-- The message answers the packet-in with the actions. -/
def Message.Answers (e : Arrival) (actions : List Action) : Message → Prop
  | packetOut out =>
      out = ⟨some e.xid, e.bufferId, e.inPort, actions, if e.bufferId = noBuffer then some e.number else none⟩
  | flowMod mod =>
      (mod.bufferId = e.bufferId ∧ e.bufferId ≠ noBuffer) ∧ mod.xid = some e.xid ∧
        mod.applyActions = actions
  | _ => False

/-- There is no packet-in to answer. -/
structure SwitchInfo.Blank (scope : SwitchInfo) : Prop where
  packetIn : scope.packetIn = false
  bufferId : scope.bufferId = noBuffer

/-- What a flow remembers of a packet-in. -/
def Arrival.scope (e : Arrival) : SwitchInfo where
  packetIn := true
  bufferId := e.bufferId
  inPort := e.inPort
  xid := some e.xid
  packetData := some e.number

section

variable {H : Type} {state : FlowState} {order : Order H} {scope : SwitchInfo} {e : Arrival}

namespace SwitchInfo

/-- Without a packet-in nothing is answered. -/
theorem Blank.install (blank : scope.Blank) (state : FlowState) (order : Order H) :
    (scope.install state order).state.1.Blank ∧
      (scope.install state order).state.2.filter Message.isAnswer = [] := by
  rcases install_cases state order scope with
    ⟨-, -, same⟩ | ⟨-, scope', outs, mods, same, kept, out, mod⟩ | ⟨scope', outs, same, kept, out⟩
  · rw [same]
    exact ⟨blank, rfl⟩
  · rw [same]
    refine ⟨⟨kept.1, kept.2⟩, ?_⟩
    rw [if_neg (by simp [blank.packetIn])] at out
    rw [Outcome.done_state, out, List.nil_append]
    split at mod
    · rw [mod]
      rfl
    · obtain ⟨actions, -, rfl⟩ := mod
      simp [SwitchInfo.mod, blank.bufferId]
  · rw [same]
    refine ⟨⟨kept.1.trans blank.packetIn, kept.2.trans blank.bufferId⟩, ?_⟩
    rcases out with rfl | ⟨some, -⟩
    · rfl
    · rw [blank.packetIn] at some
      cases some

/-- A packet-in is answered once. -/
theorem install_answers (done : (e.scope.install state order).ending = .done) :
    (e.scope.install state order).state.1.Blank ∧ ∃ message actions, order.actions = some actions ∧
      (e.scope.install state order).state.2.filter Message.isAnswer = [message] ∧
        message.Answers e actions := by
  rcases install_cases state order e.scope with
    ⟨-, none, -⟩ | ⟨-, scope', outs, mods, same, kept, out, mod⟩ | ⟨scope', outs, same, -⟩
  · cases none
  · rw [same]
    refine ⟨⟨kept.1, kept.2⟩, ?_⟩
    have answered (actions : List Action) :
        (Message.packetOut (e.scope.out actions)).Answers e actions := rfl
    cases disposable : Decisions.disposable order.decision with
    | true =>
        rw [if_pos ⟨rfl, .inl disposable⟩] at out
        rw [if_pos disposable] at mod
        obtain ⟨actions, acts, rfl⟩ := out
        exact ⟨_, actions, acts, by simp [mod], answered actions⟩
    | false =>
        rw [disposable, if_neg Bool.false_ne_true] at mod
        obtain ⟨actions, acts, rfl⟩ := mod
        by_cases buffered : e.bufferId = noBuffer
        · rw [if_pos ⟨rfl, .inr buffered⟩] at out
          obtain ⟨actions', acts', rfl⟩ := out
          refine ⟨_, actions', acts', ?_, answered actions'⟩
          simp [List.filter_cons, SwitchInfo.mod, Arrival.scope, buffered]
        · rw [if_neg (by simp [disposable, Arrival.scope, buffered])] at out
          have answers : (Message.flowMod (e.scope.mod order actions)).Answers e actions :=
            ⟨⟨rfl, buffered⟩, rfl, rfl⟩
          refine ⟨_, actions, acts, ?_, answers⟩
          simp [out, SwitchInfo.mod, Arrival.scope, buffered]
  · rw [same] at done
    cases done

end SwitchInfo

namespace MapleImpl

variable [Inhabited H] {w w' : MapleImpl H} {flow : FlowId} {prio : Nat}

/-- The answers sent so far. -/
def answered (w : MapleImpl H) : List (Nat × Message) := w.sent.filter fun m => m.2.isAnswer

/-- No flow has a packet-in to answer. -/
def Quiet (w : MapleImpl H) : Prop := ∀ f dpid, ((w.flows f).switches dpid).Blank

/-- Just the flow has one to answer, on its switch. -/
structure Waits (flow : FlowId) (e : Arrival) (w : MapleImpl H) : Prop where
  here : (w.flows (some flow)).switches (switchOf e.packet) = e.scope
  others : ∀ f dpid, f ≠ some flow ∨ dpid ≠ switchOf e.packet → ((w.flows f).switches dpid).Blank

/-- The packet-in gets one more answer, which is what the decision does with the modifications. -/
def AnsweredOnce (e : Arrival) (d : Decision H) (mods : FieldSet) (w w' : MapleImpl H) : Prop :=
  ∃ message actions, d.actions mods (switchOf e.packet) = some actions ∧
    w'.answered = w.answered ++ [(switchOf e.packet, message)] ∧ message.Answers e actions

theorem answers_to (dpid : Nat) (messages : List Message) :
    (messages.map fun message => (dpid, message)).filter (fun m => m.2.isAnswer) =
      (messages.filter Message.isAnswer).map fun message => (dpid, message) := by
  simp [List.filter_map, Function.comp_def]

omit [Inhabited H] in
/-- The switches of a flow after installing on one of them. -/
theorem installOn_switches {f : Option FlowId} {target : Nat × FieldSet} {scope : SwitchInfo}
    {sent : List (Nat × Message)} (g : Option FlowId) (dpid : Nat) :
    (({ w.setFlow f { w.flows f with
        switches := Function.update (w.flows f).switches target.1 scope } with
          sent := sent } : MapleImpl H).flows g).switches dpid =
      if g = f ∧ dpid = target.1 then scope else (w.flows g).switches dpid := by
  by_cases own : g = f
  · subst own
    by_cases here : dpid = target.1
    · simp [here]
    · simp [here]
  · simp [own]

/-- Installing where there is nothing to answer answers nothing, and changes nothing elsewhere. -/
theorem installOn_blank (prio : Nat) {f : Option FlowId} (target : Nat × FieldSet)
    (blank : ((w.flows f).switches target.1).Blank) :
    (w.installOn prio f target).state.answered = w.answered ∧
      (∀ g dpid, g ≠ f ∨ dpid ≠ target.1 → ((w.installOn prio f target).state.flows g).switches dpid =
        (w.flows g).switches dpid) ∧
      (((w.installOn prio f target).state.flows f).switches target.1).Blank := by
  rcases installOn_spec prio f target w with same | ⟨o, ran, same⟩
  · rw [same]
    exact ⟨rfl, fun _ _ _ => rfl, blank⟩
  · obtain ⟨blank', silent⟩ := blank.install (w.flows f).state (w.order prio f target)
    rw [ran] at blank' silent
    rw [same]
    refine ⟨?_, fun g dpid other => ?_, ?_⟩
    · simp [answered, answers_to, silent]
    · exact (installOn_switches g dpid).trans (if_neg fun own => other.elim (· own.1) (· own.2))
    · rw [installOn_switches f target.1, if_pos ⟨rfl, rfl⟩]
      exact blank'

/-- Installing a flow that has nothing to answer. -/
theorem each_installOn_blank (prio : Nat) {f : Option FlowId} (targets : List (Nat × FieldSet))
    (blank : ∀ target ∈ targets, ((w.flows f).switches target.1).Blank) :
    let w' := (Outcome.each (installOn prio f) targets w).state
    w'.answered = w.answered ∧
      (∀ g dpid, g ≠ f ∨ dpid ∉ targets.map Prod.fst →
        (w'.flows g).switches dpid = (w.flows g).switches dpid) ∧
      ∀ dpid, ((w.flows f).switches dpid).Blank → ((w'.flows f).switches dpid).Blank := by
  induction targets generalizing w with
  | nil => exact ⟨rfl, fun _ _ _ => rfl, fun _ blank => blank⟩
  | cons target targets ih =>
      obtain ⟨answered, same, blanked⟩ := installOn_blank prio target (blank target List.mem_cons_self)
      have keeps (dpid : Nat) (was : ((w.flows f).switches dpid).Blank) :
          (((w.installOn prio f target).state.flows f).switches dpid).Blank := by
        by_cases here : dpid = target.1
        · exact here ▸ blanked
        · exact (same f dpid (.inr here)).symm ▸ was
      simp only [Outcome.each, Outcome.andThen]
      split
      · obtain ⟨answered', same', keeps'⟩ := ih fun t mem => keeps t.1 (blank t (List.mem_cons_of_mem _ mem))
        refine ⟨answered'.trans answered, fun g dpid other => ?_, fun dpid was => keeps' dpid (keeps dpid was)⟩
        rw [List.map_cons, List.mem_cons, not_or] at other
        rw [same' g dpid (other.imp_right And.right), same g dpid (other.imp_right And.left)]
      · refine ⟨answered, fun g dpid other => ?_, keeps⟩
        rw [List.map_cons, List.mem_cons, not_or] at other
        exact same g dpid (other.imp_right And.left)

/-- Installing a flow on the switch of the packet-in that it has to answer. -/
theorem installOn_answers {target : Nat × FieldSet} (waits : Waits flow e w)
    (here : target.1 = switchOf e.packet) (done : (w.installOn prio (some flow) target).ending = .done) :
    Quiet (w.installOn prio (some flow) target).state ∧
      AnsweredOnce e (w.decision (some flow)) (w.flows (some flow)).mods w
        (w.installOn prio (some flow) target).state := by
  rcases installOn_spec prio (some flow) target w with same | ⟨o, ran, same⟩
  · rw [same] at done
    cases done
  · rw [here, waits.here] at ran
    rw [same] at done ⊢
    subst ran
    obtain ⟨blank, message, actions, acts, answered, answers⟩ := SwitchInfo.install_answers done
    refine ⟨fun f dpid => ?_, message, actions, ?_, ?_, answers⟩
    · rw [installOn_switches]
      split
      · exact blank
      · exact waits.others f dpid (by rw [← here]; exact Decidable.not_and_iff_not_or_not.mp ‹_›)
    · rw [← here]
      exact acts
    · simp [MapleImpl.answered, answers_to, answered, here]

/-- **Installing a flow that has a packet-in to answer answers it once, if it goes to its switch.** -/
theorem each_installOn_waits (targets : List (Nat × FieldSet)) (waits : Waits flow e w)
    (done : (Outcome.each (installOn prio (some flow)) targets w).ending = .done) :
    let w' := (Outcome.each (installOn prio (some flow)) targets w).state
    (switchOf e.packet ∈ targets.map Prod.fst →
      Quiet w' ∧ AnsweredOnce e (w.decision (some flow)) (w.flows (some flow)).mods w w') ∧
    (switchOf e.packet ∉ targets.map Prod.fst → Waits flow e w' ∧ w'.answered = w.answered) := by
  induction targets generalizing w with
  | nil => exact ⟨nofun, fun _ => ⟨waits, rfl⟩⟩
  | cons target targets ih =>
      obtain ⟨first, rest⟩ := Outcome.andThen_done.mp done
      rw [Outcome.each, Outcome.andThen_state first]
      by_cases here : target.1 = switchOf e.packet
      · obtain ⟨quiet, message, actions, acts, answered, answers⟩ := installOn_answers waits here first
        obtain ⟨answered', same, keeps⟩ := each_installOn_blank prio (f := some flow) targets
          fun t _ => quiet (some flow) t.1
        refine ⟨fun _ => ⟨fun f dpid => ?_, message, actions, acts, answered'.trans answered, answers⟩,
          fun others => absurd (by simp [here]) others⟩
        by_cases own : f = some flow
        · exact own ▸ keeps dpid (quiet _ _)
        · exact (same f dpid (.inl own)).symm ▸ quiet f dpid
      · obtain ⟨answered, same, blank⟩ := installOn_blank prio target (waits.others (some flow) _ (.inr here))
        have frame := installOn_frame prio (some flow) target w
        have waits' : Waits flow e (w.installOn prio (some flow) target).state := by
          refine ⟨(same _ _ (.inr (Ne.symm here))).trans waits.here, fun f dpid other => ?_⟩
          by_cases there : f = some flow ∧ dpid = target.1
          · obtain ⟨rfl, rfl⟩ := there
            exact blank
          · rw [same f dpid (Decidable.not_and_iff_not_or_not.mp there)]
            exact waits.others f dpid other
        have later := ih waits' rest
        simp only [frame.decision, frame.mods, AnsweredOnce, answered] at later
        refine ⟨fun mem => later.1 ?_, fun others => later.2 fun mem => others (List.mem_cons_of_mem _ mem)⟩
        exact (List.mem_cons.mp mem).resolve_left (Ne.symm here)

/-- The same packet-ins are to be answered, and as many have been. -/
structure Same (w w' : MapleImpl H) : Prop where
  answered : w'.answered = w.answered
  flows : ∀ flow dpid, (w'.flows (some flow)).switches dpid = (w.flows (some flow)).switches dpid
  miss : (∀ dpid, ((w.flows none).switches dpid).Blank) → ∀ dpid, ((w'.flows none).switches dpid).Blank

omit [Inhabited H] in
theorem Same.refl (w : MapleImpl H) : Same w w := ⟨rfl, fun _ _ => rfl, id⟩

omit [Inhabited H] in
theorem Same.trans {w'' : MapleImpl H} (first : Same w w') (second : Same w' w'') : Same w w'' :=
  ⟨second.answered.trans first.answered, fun f dpid => (second.flows f dpid).trans (first.flows f dpid),
    fun blank => second.miss (first.miss blank)⟩

omit [Inhabited H] in
theorem Same.waits (same : Same w w') (waits : Waits flow e w) : Waits flow e w' where
  here := (same.flows flow _).trans waits.here
  others f dpid other := by
    cases f with
    | none => exact same.miss (fun dpid => waits.others none dpid (.inl (Option.some_ne_none flow).symm)) dpid
    | some f => exact (same.flows f dpid).symm ▸ waits.others (some f) dpid other

omit [Inhabited H] in
theorem barrier_same (w : MapleImpl H) : Same w (w.sendAll .barrierRequest) := by
  refine ⟨?_, fun _ _ => rfl, id⟩
  simp [answered, sendAll, List.filter_map, Function.comp_def, Message.isAnswer]

omit [Inhabited H] in
theorem trigger_same (on : Bool) (f : Option FlowId) (w : MapleImpl H) : Same w (w.trigger on f) := by
  refine ⟨rfl, fun g dpid => ?_, fun blank dpid => ?_⟩
  · rw [trigger_switches]
  · rw [trigger_switches]
    exact blank dpid

/-- What a barrier rule sends answers nothing. -/
theorem barrierRule_same (blank : ∀ dpid, ((w.flows none).switches dpid).Blank) (prio : Nat)
    (m : FullFieldSet) (test : Field) (id : Nat) : Same w (w.barrierRule prio m test id).state := by
  rw [barrierRule]
  split
  · exact .refl w
  · split
    · exact .refl w
    · set started : MapleImpl H :=
        trigger true none { w with missRules := missRule prio m id :: w.missRules } with begins
      have on : (started.flows none).installTrigger = true := by simp [begins]
      have before (f : Option FlowId) : (started.flows f).switches = (w.flows f).switches := by
        simp [begins]
      obtain ⟨answered, same, keeps⟩ := each_installOn_blank prio (f := none) (started.targets m none)
        fun t _ => by rw [before]; exact blank t.1
      have installed : Same w (started.install prio m none).state := by
        rw [install, if_pos on]
        refine ⟨answered, fun flow dpid => ?_, fun _ dpid => ?_⟩
        · rw [same (some flow) dpid (.inl (Option.some_ne_none flow)), before]
        · exact keeps dpid (by rw [before]; exact blank dpid)
      exact Outcome.andThen_keeps (Same w) installed fun _ same => same.trans (trigger_same ..)

/-- So do the calls of a tracer. -/
theorem each_barrierRule_same {calls : List BackendCall} (blank : ∀ dpid, ((w.flows none).switches dpid).Blank)
    (rules : ∀ call ∈ calls, ∃ prio m test n, call = .barrierRule prio m test n) :
    Same w (Outcome.each handle calls w).state := by
  induction calls generalizing w with
  | nil => exact .refl w
  | cons call calls ih =>
      obtain ⟨⟨prio, m, test, n, rfl⟩, rest⟩ := List.forall_mem_cons.mp rules
      have first := barrierRule_same blank prio m test n
      simp only [Outcome.each, Outcome.andThen]
      split
      · exact first.trans (ih (first.miss blank) rest)
      · exact first

/-- Augmenting answers nothing. -/
theorem augment_same (policy : Handler (Decision H)) (x : Packet) (flow : FlowId)
    (blank : ∀ dpid, ((w.flows none).switches dpid).Blank) :
    Same w (w.augment policy x flow).1.state := by
  have begun : Same w { w with runtime := (w.runtime.augment policy x flow).1 } :=
    ⟨rfl, fun _ _ => rfl, id⟩
  have asked : Same w (Outcome.each handle (w.runtime.augment policy x flow).2.calls
      { w with runtime := (w.runtime.augment policy x flow).1 }).state :=
    begun.trans (each_barrierRule_same blank fun call mem => by
      obtain ⟨prio, m, test, n, rule, -⟩ := (trace_asks (fun _ => True) _ _ _ _ _ _
        (fun _ _ => trivial) fun _ _ => trivial).1 call mem
      exact ⟨prio, m, test, n, rule⟩)
  simp only [augment]
  split
  · refine asked.trans ?_
    cases (w.runtime.augment policy x flow).2.installer with
    | none => exact .refl _
    | some m =>
        refine ⟨rfl, fun f dpid => ?_, fun blank dpid => ?_⟩
        · rw [Outcome.done_state, setFlow_flows]
          split
          · rw [‹some f = some flow›]
          · rfl
        · rw [Outcome.done_state, setFlow_flows, if_neg (Option.some_ne_none flow).symm]
          exact blank dpid
  · exact asked.trans ⟨rfl, fun _ _ => rfl, id⟩

theorem mem_targets {m : FullFieldSet} (clean : Clean m) {x : Packet} (f : Option FlowId)
    (anywhere : Decisions.switches (w.decision f) = []) (connected : switchOf x ∈ w.connections)
    (here : placed m x = true) : switchOf x ∈ (w.targets m f).map Prod.fst := by
  have goes := computeSwitches_of_placed clean connected here
  obtain ⟨fs, fields, -⟩ := placed_realises clean goes 0 none
  have found : (switchOf x, fs) ∈ (w.targets m f).filter fun t => t.1 = switchOf x := by
    rw [targets_at, anywhere, if_pos goes, fields]
    exact List.mem_singleton_self _
  exact List.mem_map.mpr ⟨_, List.mem_of_mem_filter found, rfl⟩

/-- **Activating a flow answers the packet-in, when its installer is placed for the packet.** -/
theorem activate_answers {i : Installer} {l : FlowNode} (waits : Waits flow e w)
    (held : (w.flows (some flow)).installer = some i)
    (leaf : w.runtime.root.lookup (Maple.answers i.node) = some l) (own : l.flow = flow)
    (alive : w.runtime.alive flow = true) (clean : Clean i.match') (matchable : Asks Matchable i.match')
    (mods : convertible (w.flows (some flow)).mods = true)
    (here : placed i.match' e.packet = true) (connected : switchOf e.packet ∈ w.connections)
    (defined : (w.decision (some flow)).data.isUndefined = false)
    (anywhere : Decisions.switches (w.decision (some flow)) = []) :
    let w' := (w.activate flow).state
    Quiet w' ∧ AnsweredOnce e (w.decision (some flow)) (w.flows (some flow)).mods w w' := by
  subst own
  have calls : i.calls w.runtime = [.barrier, .install l.prio i.match' l.flow, .barrier] := by
    simp [Installer.calls, leaf, compile, alive]
  -- before the rule
  set begun := (w.trigger true (some l.flow)).sendAll .barrierRequest with begins
  have same : Same w begun := by
    exact (trigger_same ..).trans (barrier_same _)
  have on : (begun.flows (some l.flow)).installTrigger = true := by simp [begins, sendAll]
  have decision : begun.decision (some l.flow) = w.decision (some l.flow) := rfl
  -- the rule
  have done : (begun.install l.prio i.match' (some l.flow)).ending = .done :=
    install_done matchable ⟨defined, fun _ mem => by rw [decision, anywhere] at mem; cases mem⟩
      (by simpa [begins, sendAll] using mods)
  have installs : (begun.install l.prio i.match' (some l.flow)).state =
      (Outcome.each (installOn l.prio (some l.flow)) (begun.targets i.match' (some l.flow)) begun).state := by
    rw [install, if_pos on]
  have rule := done
  rw [install, if_pos on] at rule
  obtain ⟨quiet, message, actions, acts, answered, answers⟩ :=
    (each_installOn_waits _ (same.waits waits) rule).1 (mem_targets clean _ anywhere connected here)
  rw [← installs] at quiet answered
  -- after it
  obtain ⟨w₄, ended, switches, answered₄⟩ : ∃ w₄, w.activate l.flow = .done w₄ ∧
      (∀ f dpid, (w₄.flows f).switches dpid =
        ((begun.install l.prio i.match' (some l.flow)).state.flows f).switches dpid) ∧
      w₄.answered = (begun.install l.prio i.match' (some l.flow)).state.answered := by
    have kept : ((w.trigger true (some l.flow)).flows (some l.flow)).installer = some i := by simp [held]
    have ran : Outcome.each handle (i.calls w.runtime) (w.trigger true (some l.flow)) =
        .done ((begun.install l.prio i.match' (some l.flow)).state.sendAll .barrierRequest) := by
      rw [calls]
      show (begun.install l.prio i.match' (some l.flow)).andThen _ = _
      rw [Outcome.andThen_state done]
      rfl
    set after := (begun.install l.prio i.match' (some l.flow)).state.sendAll .barrierRequest with ends
    refine ⟨after.setFlow (some l.flow)
      { after.flows (some l.flow) with
          state := if Decisions.disposable (after.decision (some l.flow)) then .evicted else .active
          installTrigger := false }, ?_, fun f dpid => ?_, (barrier_same _).answered⟩
    · simp only [activate, kept]
      rw [show (w.trigger true (some l.flow)).runtime = w.runtime from rfl, ran, Outcome.done_andThen]
    · rw [setFlow_flows]
      split
      · rw [‹f = some l.flow›]
        rfl
      · rfl
  rw [ended]
  rw [show (begun.flows (some l.flow)).mods = (w.flows (some l.flow)).mods by simp [begins, sendAll]] at acts
  refine ⟨fun f dpid => ?_, message, actions, acts, ?_, answers⟩
  · rw [Outcome.done_state, switches]
    exact quiet f dpid
  · rw [Outcome.done_state, answered₄, answered, same.answered]

/-! ## Packet-ins -/

omit [Inhabited H] in
theorem arrive_waits (quiet : Quiet w) (flow : FlowId) (e : Arrival) : Waits flow e (w.arrive flow e) where
  here := by simp [arrive, Arrival.scope]
  others f dpid other := by
    rw [arrive, setFlow_flows]
    split
    · have other : dpid ≠ switchOf e.packet := other.resolve_left fun ne => ne ‹_›
      simp only [Function.update_of_ne other]
      exact quiet _ _
    · exact quiet f dpid

omit [Inhabited H] in
theorem modify_waits (waits : Waits flow e w) (mods : FieldSet) : Waits flow e (w.modify flow mods) where
  here := by simp [modify, waits.here]
  others f dpid other := by
    rw [modify, setFlow_flows]
    split
    · rename_i own
      subst own
      exact waits.others _ dpid other
    · exact waits.others f dpid other

omit [Inhabited H] in
theorem withFlow_quiet (quiet : Quiet w) (x : Packet) :
    Quiet (w.withFlow x).1 ∧ (w.withFlow x).1.answered = w.answered := by
  rw [withFlow]
  split
  · exact ⟨quiet, rfl⟩
  · refine ⟨fun f dpid => ?_, rfl⟩
    by_cases own : f = some w.runtime.newFlow.2
    · simp only [own, Function.update_self]
      exact ⟨rfl, rfl⟩
    · simp only [Function.update_of_ne own]
      exact quiet f dpid

section

variable {policy : Handler (Decision H)}

/-- No packet-in is left to answer. -/
structure Answering (policy : Handler (Decision H)) (connections : List Nat) (w : MapleImpl H) : Prop where
  running : Running policy connections w
  oneLeaf : OneLeaf w.shown
  quiet : Quiet w

theorem Answering.initial (policy : Handler (Decision H)) (left right : Nat) (connections : List Nat) :
    Answering policy connections (initial left right connections) where
  running := .initial policy left right connections
  oneLeaf := oneLeaf_initial left right connections
  quiet _ _ := ⟨rfl, rfl⟩

/-- The flow of the packet takes it itself. -/
def taken (w : MapleImpl H) (e : Arrival) : Bool :=
  (w.withFlow e.packet).1.preprocess (w.withFlow e.packet).2 e

/-- The flow of the packet, as it is on the switches. -/
def found (w : MapleImpl H) (e : Arrival) : FlowImpl :=
  (w.withFlow e.packet).1.flows (some (w.withFlow e.packet).2)

/-- There is a priority left for the packet, which is of a connected switch, and OpenFlow has the fields
that are modified. When its flow is active and does not take it, it has missed the rules. -/
structure Missed (policy : Handler (Decision H)) (w : MapleImpl H) (e : Arrival) : Prop where
  fits : w.exceeds policy e = false
  sendable : convertible e.mods = true
  connected : switchOf e.packet ∈ w.connections
  tableMiss : w.taken e = false → (w.found e).state = .active → e.tableMiss = true

/-- What the packet is modified with: a flow that is active keeps its modifications. -/
def modsFor (w : MapleImpl H) (e : Arrival) : FieldSet :=
  if (w.found e).state = .active then (w.found e).mods else e.mods

/-- A packet that its flow takes is not answered, any other one is answered once. -/
def Answered (policy : Handler (Decision H)) (w : MapleImpl H) (e : Arrival) : Prop :=
  if w.taken e then (w.step policy e).answered = w.answered
  else AnsweredOnce e (policy.run e.packet).1 (w.modsFor e) w (w.step policy e)

/-- Augmenting for the packet-in that a flow has to answer, and installing it, answers it. -/
theorem augmentAndInstall_answers (whole : policy.WholeFields)
    (unmasked : policy.Unmasked switchId) (reads : policy.Reads Matchable)
    (sendable : convertible e.mods = true) (defined : ∀ x, (policy.run x).1.data.isUndefined = false)
    (anywhere : ∀ x, Decisions.switches (policy.run x).1 = []) (idle : Idle w)
    (installed : Installed policy w.shown) (one : OneLeaf w.shown) (waits : Waits flow e w)
    (usable : Usable policy w.runtime e.packet flow)
    (same : ∀ l, w.runtime.root.lookup (answers e.packet) = some l → l.flow = flow)
    (fresh : (w.runtime.root.lookup (answers e.packet)).isSome = true ∨
      ∀ r ∈ placedRules w.runtime.root, r.action ≠ some flow)
    (stays : (w.flows (some flow)).state = .evicted → w.decision (some flow) = (policy.run e.packet).1)
    (fits : (w.runtime.augment policy e.packet flow).2.thrown ≠ some .priorityExceeded)
    (connected : switchOf e.packet ∈ w.connections) :
    Quiet (w.augmentAndInstall policy e flow).state ∧
      AnsweredOnce e (policy.run e.packet).1 e.mods w (w.augmentAndInstall policy e flow).state := by
  obtain ⟨w₁, ran, idle₁, shown₁⟩ := augment_shows reads idle usable.created stays
  obtain ⟨installed₁, finished⟩ := augment_installed whole unmasked installed usable same fits
  have one₁ := augment_oneLeaf whole unmasked installed one usable same fresh fits
  rw [← shown₁] at installed₁ one₁
  obtain ⟨m, l, installer, leaf, own⟩ := trace_installs (traceable_told policy e.packet) finished
  have runtime : w₁.runtime = (w.runtime.augment policy e.packet flow).1 :=
    congrArg MapleState.runtime shown₁
  have leaf : w₁.runtime.root.lookup (answers e.packet) = some l := runtime ▸ leaf
  have decision : (w₁.modify flow e.mods).decision (some flow) = (policy.run e.packet).1 := by
    have found : w₁.runtime.lookup e.packet = some flow := own ▸ installed₁.lookup leaf
    exact congrArg (Option.getD · default) (installed₁.sound.lookup found)
  have augmented : Same w w₁ := by
    have same := augment_same policy e.packet flow (w := w) fun dpid => waits.others none dpid (.inl (Option.some_ne_none flow).symm)
    rwa [ran] at same
  obtain ⟨i, l', held, leaf', own', here⟩ := one₁.here leaf
  rw [own] at held own'
  have connections : w₁.connections = w.connections :=
    (congrArg (fun s => s.backend.connections) shown₁).trans
      (MapleState.augment_connections policy e.packet flow w.shown)
  have created : flow < w₁.shown.runtime.nextFlow := by
    rw [show w₁.shown.runtime = w₁.runtime from rfl, runtime]
    exact usable.created
  have answers := activate_answers (modify_waits (augmented.waits waits) e.mods) (i := i) (l := l')
    (by rw [modify, setFlow_flows, if_pos rfl]; exact held) leaf' own' (installed₁.alive flow created)
    (installed₁.installers flow i held).1 (idle₁.sendable _ i held) (by simpa [modify] using sendable)
    here (show _ ∈ w₁.connections from connections ▸ connected)
    (decision ▸ defined e.packet) (decision ▸ anywhere e.packet)
  obtain ⟨quiet, message, actions, acts, answered, told⟩ := answers
  have ended : w.augmentAndInstall policy e flow = (w₁.modify flow e.mods).activate flow := by
    have thrown : (w.augment policy e.packet flow).2.thrown = none := finished
    simp only [augmentAndInstall, ran, Outcome.done_andThen, thrown]
  rw [ended]
  refine ⟨quiet, message, actions, ?_, ?_, told⟩
  · rw [decision] at acts
    simpa [modify] using acts
  · exact answered.trans (congrArg (· ++ _) augmented.answered)

/-- **Handling a packet-in that has missed answers it, and leaves none to answer.** -/
theorem Answering.step {connections : List Nat} (whole : policy.WholeFields)
    (unmasked : policy.Unmasked switchId) (reads : policy.Reads Matchable)
    (defined : ∀ x, (policy.run x).1.data.isUndefined = false)
    (anywhere : ∀ x, Decisions.switches (policy.run x).1 = []) (answering : Answering policy connections w)
    (missed : Missed policy w e) : Answered policy w e ∧ Answering policy connections (w.step policy e) := by
  obtain ⟨running, one, quiet⟩ := answering
  have installable (x : Packet) : (policy.run x).1.Installable connections :=
    ⟨defined x, fun _ mem => by rw [anywhere] at mem; cases mem⟩
  obtain ⟨-, running'⟩ := running.step whole unmasked reads installable missed.sendable missed.fits
  obtain ⟨w', ended, -, shows_⟩ := processPacketIn_shows whole unmasked reads missed.sendable
    (fun x => running.connections ▸ installable x) running.idle running.installed missed.fits
  have one' : OneLeaf (w.step policy e).shown := by
    rw [MapleImpl.step, ended]
    rcases shows_ with same | ⟨plain, steps⟩
    · exact same ▸ one
    · exact steps ▸ processPacketIn_oneLeaf whole unmasked running.installed one plain
  suffices both : Answered policy w e ∧ Quiet (w.step policy e) from ⟨both.1, running', one', both.2⟩
  clear ended shows_ one' running'
  obtain ⟨idle₁, shown₁, flow₁, new⟩ := withFlow_shows running.idle e.packet
  obtain ⟨installed₁, usable, same⟩ := withFlow_installed running.installed e.packet
  obtain ⟨one₁, fresh⟩ := withFlow_oneLeaf one e.packet
  obtain ⟨quiet₁, answered₁⟩ := withFlow_quiet quiet e.packet
  have missing := missed.tableMiss
  have connected := missed.connected
  have pair : w.shown.withFlow e.packet = ((w.withFlow e.packet).1.shown, (w.withFlow e.packet).2) :=
    Prod.ext shown₁.symm flow₁.symm
  have plain : w.taken e = false → MapleState.exceeds policy w.shown e.toPacketIn = false := fun plain => by
    simpa [exceeds, show (w.withFlow e.packet).1.preprocess (w.withFlow e.packet).2 e = false from plain]
      using missed.fits
  rw [MapleState.exceeds, pair] at plain
  rw [← shown₁] at installed₁ usable same one₁ fresh
  rw [← flow₁] at usable same fresh
  have connections : (w.withFlow e.packet).1.connections = w.connections :=
    congrArg (fun s => s.backend.connections) shown₁
  rw [← connections] at connected
  obtain ⟨w₁, flow, ran⟩ : ∃ w₁ flow, w.withFlow e.packet = (w₁, flow) := ⟨_, _, rfl⟩
  rw [Answered, modsFor, MapleImpl.step, processPacketIn_eq ran]
  simp only [taken, found, ran] at *
  have decided (state : (w₁.flows (some flow)).state ≠ .egg) :
      w₁.decision (some flow) = (policy.run e.packet).1 := by
    obtain ⟨rfl, lookup⟩ := new.resolve_right fun fresh => state (by rw [fresh.1])
    exact congrArg (Option.getD · default) (running.installed.sound.lookup lookup)
  cases taken : w₁.preprocess flow e with
  | true =>
      simp only [if_true]
      exact ⟨answered₁, quiet₁⟩
  | false =>
      simp only [Bool.false_eq_true, if_false]
      obtain ⟨shown₂, idle₂⟩ := arrive_shows flow e w₁
      have waits := arrive_waits quiet₁ flow e
      have same₂ : (w₁.arrive flow e).answered = w.answered := answered₁
      have states : ((w₁.arrive flow e).flows (some flow)).state = (w₁.flows (some flow)).state := by
        simp [arrive]
      have plain := of_decide_eq_false (plain taken)
      have augments (idles : (w₁.flows (some flow)).state ≠ .active) :
          Quiet ((w₁.arrive flow e).augmentAndInstall policy e flow).state ∧
            AnsweredOnce e (policy.run e.packet).1 e.mods w
              ((w₁.arrive flow e).augmentAndInstall policy e flow).state := by
        obtain ⟨quiet, message, actions, acts, answered, told⟩ :=
          augmentAndInstall_answers whole unmasked reads missed.sendable defined anywhere (idle₂ idle₁) (shown₂ ▸ installed₁)
            (shown₂ ▸ one₁) waits usable same fresh (fun evicted => decided (by rw [← states, evicted]; simp))
            (fun thrown => plain ⟨idles, thrown⟩) connected
        exact ⟨quiet, message, actions, acts, answered.trans (congrArg (· ++ _) same₂), told⟩
      cases state : (w₁.flows (some flow)).state with
      | egg =>
          rw [if_neg (by decide)]
          exact (augments (by simp [state])).symm
      | evicted =>
          rw [if_neg (by decide)]
          exact (augments (by simp [state])).symm
      | active =>
          rw [missing taken state]
          simp only [if_true]
          have known : (w₁.flows (some flow)).state ≠ .egg := by simp [state]
          obtain ⟨rfl, lookup⟩ := new.resolve_right fun fresh => known (by rw [fresh.1])
          obtain ⟨l, leaf, -, own⟩ := Runtime.lookup_eq_some.mp lookup
          obtain ⟨i, l', held, leaf', own', here⟩ := one₁.here leaf
          rw [own] at held own'
          have answers := activate_answers waits (i := i) (l := l')
            (by rw [arrive, setFlow_flows, if_pos rfl]; exact held) leaf' own' (installed₁.alive flow usable.created)
            (installed₁.installers flow i held).1 ((idle₂ idle₁).sendable _ i (by
              rw [arrive, setFlow_flows, if_pos rfl]; exact held)) ((idle₂ idle₁).mods _) here connected
            (decided known ▸ defined e.packet) (decided known ▸ anywhere e.packet)
          obtain ⟨quiet, message, actions, acts, answered, told⟩ := answers
          refine ⟨⟨message, actions, ?_, answered.trans (congrArg (· ++ _) same₂), told⟩, quiet⟩
          rw [← decided known]
          simpa [arrive] using acts

/-- **In every run of packet-ins that have missed, or that their flow takes, each one that is not
taken is answered once: on its switch, with its own buffer or its own data, and with the actions of
what the policy decides for it.** The policy asks for fields that a match may have. -/
theorem packetIn_answered (whole : policy.WholeFields) (unmasked : policy.Unmasked switchId)
    (reads : policy.Reads Matchable) (defined : ∀ x, (policy.run x).1.data.isUndefined = false)
    (anywhere : ∀ x, Decisions.switches (policy.run x).1 = []) (left right : Nat)
    (connections : List Nat) (es : List Arrival)
    (missed : Each (step policy) (Missed policy) (.initial left right connections) es) :
    Each (step policy) (Answered policy) (.initial left right connections) es := by
  have kept (w : MapleImpl H) (e : Arrival) (answering : Answering policy connections w)
      (missed : Missed policy w e) := answering.step whole unmasked reads defined anywhere missed
  exact missed.imp _ (fun w e inv missed => (kept w e inv missed).2)
    (fun w e inv missed => (kept w e inv missed).1) (.initial policy left right connections)

end

/-! ## Timeouts -/

section

variable {policy : Handler (Decision H)}

/-- The rule is what a decision says, of the policy for a packet or of the miss flow. -/
structure RuleOf (policy : Handler (Decision H)) (dpid : Nat) (mod : FlowMod) (d : Decision H) : Prop where
  decided : if mod.flow = none then d = { data := .inspect 128 default } else ∃ x, d = (policy.run x).1
  actions : ∃ mods, d.actions mods dpid = some mod.applyActions
  lasting : Decisions.disposable d = false
  idleTimeout : mod.idleTimeout = d.base.idleTimeout.seconds
  hardTimeout : mod.hardTimeout = d.base.hardTimeout.seconds

/-- Flows have what the policy decides for a packet, and so have the rules on the switches. -/
structure Decided (policy : Handler (Decision H)) (w : MapleImpl H) : Prop where
  flows : ∀ flow, w.decision (some flow) = default ∨ ∃ x, w.decision (some flow) = (policy.run x).1
  rules : ∀ dpid mod, (dpid, .flowMod mod) ∈ w.sent → ∃ d, RuleOf policy dpid mod d

theorem Decided.initial (policy : Handler (Decision H)) (left right : Nat) (connections : List Nat) :
    Decided policy (initial left right connections) := ⟨fun _ => .inl rfl, fun _ _ => nofun⟩

/-- When no rule is sent, and no flow is decided anew. -/
theorem Decided.congr (decided : Decided policy w) (flows : w'.runtime.flows = w.runtime.flows)
    (sent : ∀ dpid mod, (dpid, .flowMod mod) ∈ w'.sent → (dpid, .flowMod mod) ∈ w.sent) : Decided policy w' where
  flows flow := by
    have same : w'.decision (some flow) = w.decision (some flow) := by simp [decision, flows]
    exact same ▸ decided.flows flow
  rules dpid mod mem := decided.rules dpid mod (sent dpid mod mem)

/-- An undefined decision installs nothing. -/
theorem Decided.ruleOf (decided : Decided policy w) {f : Option FlowId}
    {actions : List Action} (target : Nat × FieldSet) {scope : SwitchInfo}
    (lasting : Decisions.disposable (w.decision f) = false)
    (acts : (w.order prio f target).actions = some actions) :
    RuleOf policy target.1 (scope.mod (w.order prio f target) actions) (w.decision f) where
  decided := by
    cases f with
    | none => rfl
    | some flow =>
        rw [if_neg (by simp [SwitchInfo.mod, MapleImpl.order])]
        refine (decided.flows flow).resolve_left fun undecided => ?_
        have acts : (w.decision (some flow)).actions _ _ = some actions := acts
        rw [undecided, Decision.actions] at acts
        split at acts <;> cases acts
  actions := ⟨_, acts⟩
  lasting := lasting
  idleTimeout := rfl
  hardTimeout := rfl

theorem installOn_decided (prio : Nat) (f : Option FlowId) (target : Nat × FieldSet)
    (decided : Decided policy w) : Decided policy (w.installOn prio f target).state := by
  rcases installOn_spec prio f target w with same | ⟨o, ran, same⟩
  · rw [same]
    exact decided
  · rw [same]
    refine ⟨decided.flows, fun dpid mod mem => ?_⟩
    rcases List.mem_append.mp mem with old | new
    · exact decided.rules dpid mod old
    · obtain ⟨message, memM, told⟩ := List.mem_map.mp new
      obtain ⟨rfl, rfl⟩ := Prod.mk.inj told
      rw [← ran] at memM
      rcases SwitchInfo.install_cases (w.flows f).state (w.order prio f target)
          ((w.flows f).switches target.1) with
        ⟨-, -, same⟩ | ⟨-, scope', outs, mods, same, -, out, ruled⟩ | ⟨scope', outs, same, -, out⟩
      · rw [same] at memM
        cases memM
      · rw [same] at memM
        rcases List.mem_append.mp memM with memO | memR
        · split at out
          · obtain ⟨actions, -, rfl⟩ := out
            simp at memO
          · subst out
            cases memO
        · split at ruled
          · subst ruled
            cases memR
          · obtain ⟨actions, acts, rfl⟩ := ruled
            obtain rfl : mod = _ := Message.flowMod.inj (List.mem_singleton.mp memR)
            exact ⟨_, decided.ruleOf target (Bool.eq_false_iff.mpr ‹¬_›) acts⟩
      · -- no rule has been sent before the exception
        rw [same] at memM
        rcases out with rfl | ⟨-, actions, rfl⟩
        · cases memM
        · simp [Outcome.thrown] at memM

theorem install_decided (prio : Nat) (m : FullFieldSet) (f : Option FlowId) (decided : Decided policy w) :
    Decided policy (w.install prio m f).state := by
  rw [install]
  split
  · exact Outcome.each_keeps (Decided policy) (fun target _ _ => installOn_decided prio f target) decided
  · exact decided

theorem handle_decided (call : BackendCall) (decided : Decided policy w) :
    Decided policy (w.handle call).state := by
  cases call with
  | install prio m flow => exact install_decided prio m (some flow) decided
  | barrierRule prio m test id =>
      rw [handle, barrierRule]
      split
      · exact decided
      · split
        · exact decided
        · have begun : Decided policy
              (trigger true none { w with missRules := missRule prio m id :: w.missRules }) :=
            decided.congr rfl fun _ _ mem => mem
          have installed := install_decided prio m none begun
          exact Outcome.andThen_keeps _ installed fun _ kept => kept.congr rfl fun _ _ mem => mem
  | barrier => exact decided.congr rfl fun dpid mod mem => by simpa [handle, sendAll] using mem
  | remove m =>
      simp only [handle, remove]
      split
      · exact decided.congr rfl fun _ _ mem => mem
      · split
        · exact decided.congr rfl fun dpid mod mem => by simpa [sendAll] using mem
        · split
          · exact decided.congr rfl fun dpid mod mem => by simpa using mem
          · exact decided.congr rfl fun _ _ mem => mem

theorem each_handle_decided (calls : List BackendCall) (decided : Decided policy w) :
    Decided policy (Outcome.each handle calls w).state :=
  Outcome.each_keeps (Decided policy) (fun call _ _ => handle_decided call) decided

theorem activate_decided (flow : FlowId) (decided : Decided policy w) :
    Decided policy (w.activate flow).state := by
  have begun : Decided policy (w.trigger true (some flow)) := decided.congr rfl fun _ _ mem => mem
  simp only [activate]
  split
  · exact begun
  · rename_i i _
    have called := each_handle_decided (i.calls (w.trigger true (some flow)).runtime) begun
    exact Outcome.andThen_keeps _ called fun _ kept => kept.congr rfl fun _ _ mem => mem

/-- The decision that a flow gets is the one for the packet. -/
theorem augment_decided (x : Packet) (flow : FlowId) (decided : Decided policy w) :
    Decided policy (w.augment policy x flow).1.state := by
  have begun : Decided policy { w with runtime := (w.runtime.augment policy x flow).1 } := by
    refine ⟨fun f => ?_, decided.rules⟩
    rcases augment_flows policy x flow w.runtime f with same | ⟨-, found⟩
    · have before := decided.flows f
      rwa [decision, ← same] at before
    · exact .inr ⟨x, by simp [decision, found]⟩
  have called := each_handle_decided (w.runtime.augment policy x flow).2.calls begun
  simp only [augment]
  split
  · refine called.congr ?_ fun dpid mod mem => ?_
    · rw [Outcome.done_state]
      split <;> rfl
    · rw [Outcome.done_state] at mem
      split at mem <;> exact mem
  · exact ⟨decided.flows, called.rules⟩

theorem augmentAndInstall_decided (e : Arrival) (flow : FlowId) (decided : Decided policy w) :
    Decided policy (w.augmentAndInstall policy e flow).state := by
  have first := augment_decided e.packet flow decided
  have installs (w : MapleImpl H) (decided : Decided policy w) :
      Decided policy ((w.modify flow e.mods).activate flow).state :=
    activate_decided flow (decided.congr rfl fun _ _ mem => mem)
  refine Outcome.andThen_keeps _ first fun w₁ kept => ?_
  split
  · exact installs w₁ kept
  · exact kept
  · have second := augment_decided (w.augment policy e.packet flow).2.packet flow (w := w₁.update)
      (kept.congr rfl fun _ _ mem => mem)
    refine Outcome.andThen_keeps _ second fun w₂ kept => ?_
    split
    · exact installs w₂ kept
    · exact kept

theorem step_decided (e : Arrival) (decided : Decided policy w) : Decided policy (w.step policy e) := by
  have found : Decided policy (w.withFlow e.packet).1 := by
    rw [withFlow]
    split
    · exact decided
    · refine ⟨fun f => ?_, decided.rules⟩
      by_cases own : f = w.runtime.nextFlow
      · exact .inl (by simp [decision, Runtime.newFlow, own])
      · have before := decided.flows f
        simpa [decision, Runtime.newFlow, own] using before
  obtain ⟨w₁, flow, ran⟩ : ∃ w₁ flow, w.withFlow e.packet = (w₁, flow) := ⟨_, _, rfl⟩
  rw [ran] at found
  have arrived : Decided policy (w₁.arrive flow e) := found.congr rfl fun _ _ mem => mem
  rw [MapleImpl.step, processPacketIn_eq ran]
  split
  · exact found
  · split
    · split
      · exact activate_decided flow arrived
      · refine ⟨fun f => ?_, arrived.rules⟩
        by_cases own : f = flow
        · exact .inr ⟨e.packet, by simp [decision, own]⟩
        · have before := found.flows f
          simpa [decision, own] using before
    · exact augmentAndInstall_decided e _ arrived

/-- The timeouts of a rule are those that were decided, as far as a `FlowMod` can say. -/
structure Timely (mod : FlowMod) (b : Base) : Prop where
  idleForever : mod.idleTimeout = 0 ↔ b.idleTimeout = Duration.max
  hardForever : mod.hardTimeout = 0 ↔ b.hardTimeout = Duration.max
  idleShorter : mod.idleTimeout ≤ b.idleTimeout.val
  hardShorter : mod.hardTimeout ≤ b.hardTimeout.val
  ends : mod.hardTimeout ≠ 0 → mod.idleTimeout ≠ 0 ∧ mod.idleTimeout ≤ mod.hardTimeout
  fits : mod.idleTimeout < 2 ^ 16 ∧ mod.hardTimeout < 2 ^ 16

theorem RuleOf.timely {dpid : Nat} {mod : FlowMod} {d : Decision H} (rule : RuleOf policy dpid mod d) :
    Timely mod d.base := by
  have ordered : d.base.idleTimeout.val ≤ d.base.hardTimeout.val := d.base.ordered
  have lasting : d.base.idleTimeout.val ≠ 0 := fun zero =>
    of_decide_eq_false rule.lasting (Fin.ext zero)
  have most (t : Duration) : t = Duration.max ↔ t.val = 2 ^ 32 - 1 := Fin.ext_iff
  have idle := rule.idleTimeout
  have hard := rule.hardTimeout
  simp only [Duration.seconds, most] at idle hard
  have below := d.base.hardTimeout.isLt
  refine ⟨?_, ?_, ?_, ?_, ?_, ?_, ?_⟩
  · rw [most]
    split at idle <;> omega
  · rw [most]
    split at hard <;> omega
  · split at idle <;> omega
  · split at hard <;> omega
  · split at idle <;> split at hard <;> omega
  · split at idle <;> omega
  · split at hard <;> omega

/-- **In every run the rules sent to the switches are those of decisions, and none that was decided
to end stays forever, or longer than was decided.** -/
theorem flowMods_timely (policy : Handler (Decision H)) (left right : Nat) (connections : List Nat)
    (es : List Arrival) (dpid : Nat) (mod : FlowMod)
    (sent : (dpid, .flowMod mod) ∈ (final (step policy) (.initial left right connections) es).sent) :
    ∃ d, RuleOf policy dpid mod d ∧ Timely mod d.base := by
  have decided := invariant_final (Decided policy) (fun w e => step_decided e) es
    (.initial policy left right connections)
  obtain ⟨d, rule⟩ := decided.rules dpid mod sent
  exact ⟨d, rule, rule.timely⟩

end

end MapleImpl

end

end

section

open scoped Drunos.Oxm.OpenflowBasic

/-- Two packets of the web, one in a buffer and one not, and another one. -/
theorem MapleImpl.packetIn_answered_web :
    Each (MapleImpl.step web) (MapleImpl.Answered web) (.initial 1 65535 [1])
      [missing 80 5, missing 22 noBuffer, missing 80 noBuffer] :=
  MapleImpl.packetIn_answered web_wholeFields web_unmasked web_reads
    (fun x => by rcases web_data x with data | data <;> rw [data] <;> rfl)
    (fun x => by rcases web_data x with data | data <;> simp [Decisions.switches, data]) 1 65535 [1] _
    ⟨⟨by decide +kernel, rfl, by decide +kernel, fun _ _ => rfl⟩,
      ⟨by decide +kernel, rfl, by decide +kernel, fun _ _ => rfl⟩,
      ⟨by decide +kernel, rfl, by decide +kernel, fun _ _ => rfl⟩, trivial⟩

/-- The rule of the web stays for a minute without packets. -/
theorem MapleImpl.flowMods_timely_web : ∃ mod : FlowMod, mod.idleTimeout = 60 ∧
    ∃ d, MapleImpl.RuleOf web 1 mod d ∧ MapleImpl.Timely mod d.base := by
  let w : MapleImpl Unit := final (MapleImpl.step web) (.initial 1 65535 [1]) [missing 80 5]
  have idles : (w.sent.any fun m =>
      match m with
      | (1, .flowMod mod) => mod.idleTimeout = 60
      | _ => false) = true := by decide +kernel
  obtain ⟨⟨dpid, message⟩, sent, idle⟩ := List.any_eq_true.mp idles
  split at idle
  · rename_i mod same
    obtain ⟨rfl, rfl⟩ := Prod.mk.inj same
    exact ⟨mod, of_decide_eq_true idle, MapleImpl.flowMods_timely web 1 65535 [1] _ 1 mod sent⟩
  · cases idle

end

end Drunos.Maple

/-
# Drunos.Topology.KnownPorts — the ports the spanning tree is computed for

`STP` hears of switches from `SwitchManager` and of ports from the switches, and forgets a
switch that goes down. A port of a switch that is down is announced to no one who keeps it,
and when the switch comes up again its description is not announced any more, since the
switch has the port. `portsKnown_iff` says that broadcasts leave no port out for another
reason.
-/
import Drunos.Topology.LoopFree
import Drunos.Topology.Switches

namespace Drunos.Topology

open Drunos.Theory.Run

set_option autoImplicit false

/-! ## What the spanning tree hears -/

namespace STP

/-- The slots of `STP` for the signals of `SwitchManager` and of the switches. -/
def hear (s : STP) : Emitted → STP
  | .switchDiscovered dpid => s.onSwitchDiscovered dpid
  | .switchUp dpid => s.onSwitchUp dpid
  | .switchDown dpid => s.onSwitchDown dpid
  | .ofSwitch dpid (.portUp port) => s.onPortUp ⟨dpid, port.portNo⟩
  | _ => s

def hearAll (s : STP) (out : List Emitted) : STP := out.foldl hear s

def knows (dpid : BitVec 64) (s : STP) : Bool := (s.switchList.find dpid).isSome

def has (p : SwitchAndPort) (s : STP) : Bool := (s.switchList.portAt p).isSome

variable {s : STP} {p q : SwitchAndPort} {d dpid : BitVec 64}

theorem hearAll_append (s : STP) (out more : List Emitted) :
    s.hearAll (out ++ more) = (s.hearAll out).hearAll more := List.foldl_append

theorem knows_of_has (has : s.has p = true) : s.knows p.dpid = true :=
  Option.isSome_of_isSome_bind has

theorem knows_onSwitchDiscovered :
    (s.onSwitchDiscovered d).knows dpid = true ↔ dpid = d ∨ s.knows dpid = true := by
  simp only [knows, onSwitchDiscovered, SwitchList.find_assign]
  by_cases same : dpid = d <;> simp [same]

theorem has_onSwitchDiscovered :
    (s.onSwitchDiscovered d).has p = true ↔ p.dpid ≠ d ∧ s.has p = true := by
  simp only [has, onSwitchDiscovered, SwitchList.portAt_assign]
  by_cases same : p.dpid = d
  · simp [same, newSwitch, SwitchSTP.port]
  · simp [same]

theorem knows_onSwitchDown :
    (s.onSwitchDown d).knows dpid = true ↔ dpid ≠ d ∧ s.knows dpid = true := by
  simp only [knows, onSwitchDown, SwitchList.find_erase]
  by_cases same : dpid = d <;> simp [same]

theorem has_onSwitchDown : (s.onSwitchDown d).has p = true ↔ p.dpid ≠ d ∧ s.has p = true := by
  simp only [has, onSwitchDown, SwitchList.portAt_erase]
  by_cases same : p.dpid = d <;> simp [same]

theorem knows_onSwitchUp :
    (s.onSwitchUp d).knows dpid = true ↔ dpid = d ∨ s.knows dpid = true := by
  unfold onSwitchUp
  split
  · exact knows_onSwitchDiscovered
  · rename_i listed
    refine (or_iff_right_of_imp ?_).symm
    rintro rfl
    simpa [knows, Option.isSome_iff_ne_none] using listed

theorem has_onSwitchUp : (s.onSwitchUp d).has p = s.has p := by
  unfold onSwitchUp
  split
  · rename_i unlisted
    rw [Bool.eq_iff_iff, has_onSwitchDiscovered]
    refine and_iff_right_of_imp ?_
    rintro present rfl
    have listed := knows_of_has present
    rw [knows, Option.isNone_iff_eq_none.mp unlisted] at listed
    cases listed
  · rfl

theorem knows_onPortUp : (s.onPortUp q).knows dpid = s.knows dpid := by
  unfold onPortUp
  cases found : s.switchList.find q.dpid with
  | none => rfl
  | some sw =>
      simp only
      split
      · simp only [knows, SwitchList.find_assign]
        by_cases same : dpid = q.dpid
        · simp [same, found]
        · simp [same]
      · rfl

/-- A port of a known switch is made unless it is reserved. -/
theorem has_onPortUp : (s.onPortUp q).has p = true ↔
    s.has p = true ∨ p = q ∧ s.knows q.dpid = true ∧ q.port < OFPP_MAX := by
  unfold onPortUp
  cases found : s.switchList.find q.dpid with
  | none => simp [knows, found]
  | some sw =>
      simp only
      split
      · rename_i usual
        simp only [has, SwitchList.portAt_assign, knows, found, Option.isSome_some, usual, and_true]
        by_cases here : p.dpid = q.dpid
        · have atSwitch : s.switchList.portAt p = sw.port p.port := by
            simp [SwitchList.portAt, here, found]
          rw [if_pos here, SwitchSTP.port_newPort, atSwitch, SwitchList.eq_iff_port here]
          by_cases same : p.port = q.port <;> simp [same]
        · have other : p ≠ q := fun same => here (congrArg SwitchAndPort.dpid same)
          rw [if_neg here]
          simp [other]
      · rename_i reserved
        simp [reserved]

/-- The signals of a switch make the ports that come up, if the switch is known. -/
theorem hearAll_ofSwitch (signals : List SwitchSignal) (s : STP) :
    (∀ dpid, (s.hearAll (signals.map (.ofSwitch d))).knows dpid = s.knows dpid) ∧
      ∀ p, (s.hearAll (signals.map (.ofSwitch d))).has p = true ↔ s.has p = true ∨
        p.dpid = d ∧ s.knows d = true ∧ p.port < OFPP_MAX ∧
          ∃ port, SwitchSignal.portUp port ∈ signals ∧ port.portNo = p.port := by
  induction signals generalizing s with
  | nil => exact ⟨fun _ => rfl, fun p => by simp [hearAll]⟩
  | cons signal signals ih =>
      obtain ⟨knows, has⟩ := ih (s.hear (.ofSwitch d signal))
      rw [List.map_cons, hearAll, List.foldl_cons]
      cases signal with
      | portUp port =>
          have same : ∀ dpid, (s.hear (.ofSwitch d (.portUp port))).knows dpid = s.knows dpid :=
            fun _ => knows_onPortUp
          refine ⟨fun dpid => (knows dpid).trans (same dpid), fun p => (has p).trans ?_⟩
          rw [same, hear, has_onPortUp]
          constructor
          · rintro ((before | ⟨rfl, known, usual⟩) | ⟨here, known, usual, other, mem, number⟩)
            · exact .inl before
            · exact .inr ⟨rfl, known, usual, port, List.mem_cons_self, rfl⟩
            · exact .inr ⟨here, known, usual, other, List.mem_cons_of_mem _ mem, number⟩
          · rintro (before | ⟨here, known, usual, other, mem, number⟩)
            · exact .inl (.inl before)
            · rcases List.mem_cons.mp mem with same | later
              · obtain rfl := SwitchSignal.portUp.inj same
                exact .inl (.inr ⟨SwitchAndPort.ext here number.symm, known, number ▸ usual⟩)
              · exact .inr ⟨here, known, usual, other, later, number⟩
      | up => exact ⟨knows, fun p => (has p).trans (by simp [hear])⟩
      | down => exact ⟨knows, fun p => (has p).trans (by simp [hear])⟩
      | portDown no => exact ⟨knows, fun p => (has p).trans (by simp [hear])⟩
      | portModified port old => exact ⟨knows, fun p => (has p).trans (by simp [hear])⟩

end STP

/-! ## Links and the timer keep the ports -/

namespace SwitchSTP

theorem mapPorts_isSome (f : Port → Bool × Bool) (sw : SwitchSTP) (no : BitVec 32) :
    ((sw.mapPorts f).port no).isSome = (sw.port no).isSome := by
  rw [port_mapPorts, Option.isSome_map]

theorem newPort_isSome {sw : SwitchSTP} {no : BitVec 32} (present : (sw.port no).isSome = true)
    (other : BitVec 32) : ((sw.newPort other).port no).isSome = true := by
  rw [port_newPort]
  split
  · rfl
  · exact present

end SwitchSTP

namespace SwitchList

/-- The same switches, and no port is gone. -/
structure Keeps (l l' : SwitchList) : Prop where
  find : ∀ d, (l'.find d).isSome = (l.find d).isSome
  port : ∀ p, (l.portAt p).isSome = true → (l'.portAt p).isSome = true

theorem Keeps.refl (l : SwitchList) : Keeps l l := ⟨fun _ => rfl, fun _ => id⟩

theorem Keeps.trans {l l' l'' : SwitchList} (first : Keeps l l') (second : Keeps l' l'') : Keeps l l'' :=
  ⟨fun d => (second.find d).trans (first.find d), fun p present => second.port p (first.port p present)⟩

theorem keeps_assign {l : SwitchList} {d : BitVec 64} {sw sw' : SwitchSTP} (found : l.find d = some sw)
    (ports : ∀ no, (sw.port no).isSome = true → (sw'.port no).isSome = true) :
    Keeps l (l.assign d sw') := by
  refine ⟨fun e => ?_, fun p present => ?_⟩
  · rw [find_assign]
    by_cases same : e = d <;> simp [same, found]
  · rw [portAt_assign]
    split
    · rename_i here
      refine ports _ ?_
      simpa [portAt, here, found] using present
    · exact present

theorem keeps_map {l : SwitchList} {f : SwitchSTP → SwitchSTP}
    (ports : ∀ sw no, ((f sw).port no).isSome = (sw.port no).isSome) : Keeps l (l.map f) := by
  refine ⟨fun d => by rw [find_map, Option.isSome_map], fun p present => ?_⟩
  rw [portAt, find_map]
  rw [portAt] at present
  cases found : l.find p.dpid with
  | none => simp [found] at present
  | some sw => simpa [found, ports] using present

end SwitchList

namespace STP

open SwitchList

variable {s : STP} {d dpid : BitVec 64} {p : SwitchAndPort}

theorem linkEnd_keeps (q : SwitchAndPort) (l : SwitchList) : Keeps l (linkEnd q l) := by
  unfold linkEnd
  cases found : l.find q.dpid with
  | none => exact .refl l
  | some sw =>
      refine keeps_assign found fun no present => ?_
      rw [SwitchSTP.setSwitchPort, SwitchSTP.mapPorts_isSome, SwitchSTP.setBroadcast,
        SwitchSTP.mapPorts_isSome]
      exact SwitchSTP.newPort_isSome present q.port

theorem onLinkDiscovered_keeps (a b : SwitchAndPort) :
    Keeps s.switchList (s.onLinkDiscovered a b).switchList := by
  unfold onLinkDiscovered
  split
  · exact .refl _
  · split
    · exact .refl _
    · exact (linkEnd_keeps a _).trans (linkEnd_keeps b _)

theorem enable_keeps {l l' : SwitchList} {q : SwitchAndPort} (result : enable l q = some l') :
    Keeps l l' := by
  obtain ⟨sw, found, rfl⟩ := Option.map_eq_some_iff.mp result
  split
  · refine keeps_assign found fun no present => ?_
    rwa [SwitchSTP.setBroadcast, SwitchSTP.mapPorts_isSome]
  · exact .refl l

theorem computeSpanningTree_keeps {tree : List LinkProperty} {s' : STP}
    (result : s.computeSpanningTree tree = some s') : Keeps s.switchList s'.switchList := by
  unfold computeSpanningTree at result
  split at result
  · rw [← Option.some.inj result]
    exact .refl _
  · obtain ⟨l, enabled, rfl⟩ := Option.map_eq_some_iff.mp result
    refine foldlM_keeps (I := Keeps s.switchList) (fun q _ l l' result kept => ?_) enabled ?_
    · exact kept.trans (enable_keeps result)
    · exact keeps_map fun sw no => SwitchSTP.mapPorts_isSome _ sw no

end STP

/-! ## The switches and the spanning tree -/

/-- What happens to the two applications: a slot of `SwitchManager`, or one of the others of `STP`. -/
inductive Happening where
  | ofSwitch (e : SwitchEvent)
  | linkDiscovered (source target : SwitchAndPort) (rand : Nat)
  | linkBroken (source target : SwitchAndPort)
  | timer

structure Applications where
  manager : SwitchManager := {}
  network : Network := {}

/-- The signals of `SwitchManager` call the slots of `STP` at once. There are no applications after
`at` has thrown or a null `SwitchSTP` was followed. -/
def happen [AdjacencyList] (kruskal : TopologyGraph → List LinkProperty) (w : Option Applications) :
    Happening → Option Applications
  | .ofSwitch e => w.bind fun w => (w.manager.handle e).map fun (m, out) =>
      ⟨m, { w.network with stp := w.network.stp.hearAll out }⟩
  | .linkDiscovered a b rand => w.bind fun w =>
      (w.network.handle kruskal (.linkDiscovered a b rand)).map fun n => { w with network := n }
  | .linkBroken a b => w.bind fun w =>
      (w.network.handle kruskal (.linkBroken a b)).map fun n => { w with network := n }
  | .timer => w.bind fun w =>
      (w.network.handle kruskal .timer).map fun n => { w with network := n }

/-- Each port of a switch is known to the spanning tree, unless its number is reserved. -/
def Applications.Covers (w : Applications) : Prop :=
  ∀ dpid no, no < OFPP_MAX → (w.manager.portAt dpid no).isSome = true →
    w.network.stp.has ⟨dpid, no⟩ = true

/-- The spanning tree knows no other switches than the manager. -/
def Applications.Listed (w : Applications) : Prop :=
  ∀ dpid, w.network.stp.knows dpid = true → (w.manager.getSwitch dpid).isSome = true

def PortsKnown [AdjacencyList] (kruskal : TopologyGraph → List LinkProperty) (w : Option Applications)
    (h : Happening) : Prop :=
  ∀ w', happen kruskal w h = some w' → w'.Covers

namespace Switch

theorem portDescribed_present (sw : Switch) (port : OfPort) :
    port.portNo ∈ (sw.portDescribed port).1.port := by
  unfold portDescribed
  split
  · assumption
  · simp

theorem portDescribed_mem {sw : Switch} {port : OfPort} {no : BitVec 32} :
    no ∈ (sw.portDescribed port).1.port ↔
      no ∈ sw.port ∨ ∃ p, SwitchSignal.portUp p ∈ (sw.portDescribed port).2 ∧ p.portNo = no := by
  unfold portDescribed
  split
  · simp
  · simp [or_comm, eq_comm]

/-- The ports after a reply are the ones before, those that come up, and no port of the reply is
missing. -/
theorem portDescArrived_mem : ∀ (ports : List OfPort) (sw : Switch),
    (∀ no, no ∈ (portDescArrived ports sw).1.port ↔
      no ∈ sw.port ∨ ∃ p, SwitchSignal.portUp p ∈ (portDescArrived ports sw).2 ∧ p.portNo = no) ∧
    (∀ p, SwitchSignal.portUp p ∈ (portDescArrived ports sw).2 → p ∈ ports) ∧
    ∀ p ∈ ports, p.portNo ∈ (portDescArrived ports sw).1.port
  | [], sw => by simp [portDescArrived]
  | port :: ports, sw => by
      obtain ⟨mem, announced, present⟩ := portDescArrived_mem ports (sw.portDescribed port).1
      have own : ∀ p, SwitchSignal.portUp p ∈ (sw.portDescribed port).2 → p = port := by
        unfold portDescribed
        split <;> simp
      refine ⟨fun no => ?_, fun p up => ?_, fun p listed => ?_⟩
      · simp only [portDescArrived, List.mem_append, or_and_right, exists_or]
        rw [mem no, portDescribed_mem, or_assoc]
      · rcases List.mem_append.mp up with first | later
        · rw [own p first]
          exact List.mem_cons_self
        · exact List.mem_cons_of_mem _ (announced p later)
      · rcases List.mem_cons.mp listed with rfl | later
        · exact (mem _).mpr (.inl (portDescribed_present sw p))
        · exact present p later

end Switch

namespace SwitchEvent

/-- The ports that are announced. -/
def added : SwitchEvent → List OfPort
  | portStatus _ ps => if ps.reason = OFPPR_ADD then [ps.desc] else []
  | portDescriptions _ ports => ports
  | _ => []

/-- A switch has no port after the event that it did not have and that did not come up; what came up
was announced, and what is announced is there. -/
theorem act_ports (e : SwitchEvent) (sw : Switch) :
    (∀ no, no ∈ (e.act sw).1.port →
      no ∈ sw.port ∨ ∃ p, SwitchSignal.portUp p ∈ (e.act sw).2 ∧ p.portNo = no) ∧
    (∀ p, SwitchSignal.portUp p ∈ (e.act sw).2 → p ∈ e.added) ∧
    ∀ p ∈ e.added, p.portNo ∈ (e.act sw).1.port := by
  cases e with
  | switchUp fr => simp [act, Switch.setUp, added]
  | switchDown d => simp [act, Switch.setDown, added]
  | switchDescriptions d desc => simp [act, added]
  | portDescriptions d ports =>
      obtain ⟨mem, announced, present⟩ := Switch.portDescArrived_mem ports sw
      exact ⟨fun no => (mem no).mp, announced, present⟩
  | portStatus d ps =>
      simp only [act, added]
      rcases Switch.portStatus_cases ps sw with ⟨add, present, result⟩ | ⟨add, absent, result⟩ |
          ⟨delete, result⟩ | ⟨modify, old, known, result⟩ | ⟨other, result⟩ <;> rw [result]
      · simp [add, present]
        exact fun no => .inl
      · simp [add, or_comm, eq_comm]
      · have notAdd : ps.reason ≠ OFPPR_ADD := by rw [delete]; decide
        simp [notAdd, AList.mem_erase]
      · have notAdd : ps.reason ≠ OFPPR_ADD := by rw [modify]; decide
        have present : ps.desc.portNo ∈ sw.port := AList.lookup_isSome.mp (by rw [known]; rfl)
        simp only [notAdd, if_false, AList.mem_insert, List.not_mem_nil, false_implies, implies_true,
          and_true]
        refine ⟨fun no either => .inl (either.elim (fun same => same ▸ present) id), fun p mem => ?_⟩
        simp at mem
      · simp [other]

end SwitchEvent

/-- No port is announced of a switch that the spanning tree has forgotten. -/
def AddsToKnown (w : Option Applications) : Happening → Prop
  | .ofSwitch e => ∀ before, w = some before → (before.manager.getSwitch e.dpid).isSome = true →
      before.network.stp.knows e.dpid = false → ∀ port ∈ e.added, ¬port.portNo < OFPP_MAX
  | _ => True

/-! ## One event -/

section

variable {kruskal : TopologyGraph → List LinkProperty} {w w' : Applications} {e : SwitchEvent}

/-- What the manager does after the switch, as the spanning tree hears it. -/
theorem STP.hearAll_afterwards (e : SwitchEvent) (s : STP) :
    s.hearAll e.afterwards = match e with
      | .switchUp fr => s.onSwitchUp fr.datapathId
      | .switchDown dpid => s.onSwitchDown dpid
      | _ => s := by
  cases e <;> rfl

theorem happen_known [AdjacencyList] {sw : Switch} (known : w.manager.getSwitch e.dpid = some sw) :
    happen kruskal (some w) (.ofSwitch e) = some
      ⟨w.manager.put e.dpid (e.act sw).1,
        { w.network with
          stp := (w.network.stp.hearAll ((e.act sw).2.map (.ofSwitch e.dpid))).hearAll e.afterwards }⟩ := by
  simp only [happen, Option.bind_some, SwitchManager.handle_known known, Option.map_some,
    STP.hearAll_append]

/-- A switch that goes down has no port left, and the spanning tree forgets it. -/
theorem covers_switchDown {dpid : BitVec 64} {sw : Switch} {stp : STP}
    (covers : ∀ d no, d ≠ dpid → no < OFPP_MAX → (w.manager.portAt d no).isSome = true →
      stp.has ⟨d, no⟩ = true) :
    Applications.Covers ⟨w.manager.put dpid (sw.setDown).1,
      { w.network with stp := stp.onSwitchDown dpid }⟩ := by
  intro d no usual present
  rw [SwitchManager.portAt_put] at present
  by_cases same : d = dpid
  · simp [same, Switch.setDown] at present
  · rw [if_neg same] at present
    exact STP.has_onSwitchDown.mpr ⟨same, covers d no same usual present⟩

/-- An event of a known switch: what the spanning tree knows afterwards. -/
theorem knows_afterwards (e : SwitchEvent) (s : STP) (signals : List SwitchSignal) (dpid : BitVec 64)
    (isKnown : ((s.hearAll (signals.map (.ofSwitch e.dpid))).hearAll e.afterwards).knows dpid = true) :
    dpid = e.dpid ∨ s.knows dpid = true := by
  have signalled := (STP.hearAll_ofSwitch (d := e.dpid) signals s).1 dpid
  rw [STP.hearAll_afterwards] at isKnown
  cases e with
  | switchUp fr => exact (STP.knows_onSwitchUp.mp isKnown).imp_right fun known => signalled ▸ known
  | switchDown d => exact .inr (signalled ▸ (STP.knows_onSwitchDown.mp isKnown).2)
  | portStatus d ps => exact .inr (signalled ▸ isKnown)
  | portDescriptions d ports => exact .inr (signalled ▸ isKnown)
  | switchDescriptions d desc => exact .inr (signalled ▸ isKnown)

theorem listed_known {sw : Switch} (listed : w.Listed) :
    Applications.Listed ⟨w.manager.put e.dpid (e.act sw).1,
      { w.network with
        stp := (w.network.stp.hearAll ((e.act sw).2.map (.ofSwitch e.dpid))).hearAll e.afterwards }⟩ := by
  intro dpid isKnown
  rw [SwitchManager.getSwitch_put]
  rcases knows_afterwards e _ _ dpid isKnown with rfl | before
  · simp
  · split
    · rfl
    · exact listed dpid before

/-- The ports of a known switch stay known exactly if none is announced that the spanning tree cannot
keep. -/
theorem covers_known_iff {sw : Switch} (covers : w.Covers)
    (known : w.manager.getSwitch e.dpid = some sw) :
    Applications.Covers ⟨w.manager.put e.dpid (e.act sw).1,
      { w.network with
        stp := (w.network.stp.hearAll ((e.act sw).2.map (.ofSwitch e.dpid))).hearAll e.afterwards }⟩ ↔
      (w.network.stp.knows e.dpid = false → ∀ port ∈ e.added, ¬port.portNo < OFPP_MAX) := by
  obtain ⟨ports, announced, present⟩ := e.act_ports sw
  obtain ⟨sameKnown, has⟩ := STP.hearAll_ofSwitch (d := e.dpid) (e.act sw).2 w.network.stp
  have before : ∀ d no, no < OFPP_MAX → (w.manager.portAt d no).isSome = true →
      (w.network.stp.hearAll ((e.act sw).2.map (.ofSwitch e.dpid))).has ⟨d, no⟩ = true :=
    fun d no usual present => (has _).mpr (.inl (covers d no usual present))
  by_cases goesDown : ∃ dpid, e = .switchDown dpid
  · obtain ⟨dpid, rfl⟩ := goesDown
    exact iff_of_true (covers_switchDown fun d no _ => before d no) fun _ _ mem =>
      absurd mem List.not_mem_nil
  have same : ∀ p, ((w.network.stp.hearAll ((e.act sw).2.map (.ofSwitch e.dpid))).hearAll
      e.afterwards).has p = (w.network.stp.hearAll ((e.act sw).2.map (.ofSwitch e.dpid))).has p := by
    intro p
    rw [STP.hearAll_afterwards]
    cases e with
    | switchUp fr => exact STP.has_onSwitchUp
    | switchDown dpid => exact absurd ⟨dpid, rfl⟩ goesDown
    | portStatus d ps => rfl
    | portDescriptions d ports => rfl
    | switchDescriptions d desc => rfl
  constructor
  · intro covered unknown port added usual
    have there := covered e.dpid port.portNo usual (by
      rw [SwitchManager.portAt_put, if_pos rfl, AList.lookup_isSome]
      exact present port added)
    rw [same, has] at there
    rcases there with already | ⟨-, isKnown, -⟩
    · exact absurd (STP.knows_of_has already) (by simp [unknown])
    · exact absurd isKnown (by simp [unknown])
  · intro quiet d no usual there
    rw [same]
    rw [SwitchManager.portAt_put] at there
    by_cases here : d = e.dpid
    · subst here
      rw [if_pos rfl, AList.lookup_isSome] at there
      rcases ports no there with already | ⟨port, up, rfl⟩
      · refine before _ no usual ?_
        rw [portAt_known known, AList.lookup_isSome]
        exact already
      · refine (has _).mpr (.inr ⟨rfl, ?_, usual, port, up, rfl⟩)
        by_contra unknown
        exact quiet (by simpa using unknown) port (announced port up) usual
    · rw [if_neg here] at there
      exact before d no usual there

/-- A switch that is not known comes up without ports. -/
theorem happen_unknown [AdjacencyList] (listed : w.Listed) (covers : w.Covers)
    (unknown : w.manager.getSwitch e.dpid = none)
    (result : happen kruskal (some w) (.ofSwitch e) = some w') : w'.Covers ∧ w'.Listed := by
  obtain ⟨⟨m, out⟩, handled, rfl⟩ := Option.map_eq_some_iff.mp result
  rcases SwitchManager.handle_unknown unknown handled with ⟨fr, rfl, rfl, rfl⟩ | ⟨-, rfl, rfl⟩
  · have fresh : w.network.stp.knows fr.datapathId = false := by
      by_contra isKnown
      have there := listed fr.datapathId (by simpa using isKnown)
      rw [show w.manager.getSwitch fr.datapathId = none from unknown] at there
      cases there
    refine ⟨fun d no usual there => ?_, fun d isKnown => ?_⟩
    · rw [SwitchManager.portAt_make fr unknown] at there
      have had := covers d no usual there
      refine (STP.has_onSwitchUp (s := w.network.stp.onSwitchDiscovered fr.datapathId)).trans ?_
      refine STP.has_onSwitchDiscovered.mpr ⟨?_, had⟩
      rintro rfl
      exact absurd (STP.knows_of_has had) (by simp [fresh])
    · rw [SwitchManager.getSwitch_put]
      split
      · rfl
      · rename_i other
        refine listed d ?_
        have up := STP.knows_onSwitchUp.mp (show ((w.network.stp.onSwitchDiscovered
          fr.datapathId).onSwitchUp fr.datapathId).knows d = true from isKnown)
        exact (STP.knows_onSwitchDiscovered.mp (up.resolve_left other)).resolve_left other
  · exact ⟨covers, listed⟩

/-- What changes links only keeps the ports. -/
theorem covers_of_keeps {n : Network} (kept : w.network.stp.switchList.Keeps n.stp.switchList)
    (covers : w.Covers) (listed : w.Listed) :
    Applications.Covers { w with network := n } ∧ Applications.Listed { w with network := n } :=
  ⟨fun d no usual there => kept.port _ (covers d no usual there),
    fun d isKnown => listed d ((kept.find d).symm.trans isKnown)⟩

theorem happen_listed [AdjacencyList] {h : Happening} (listed : w.Listed) (covers : w.Covers)
    (result : happen kruskal (some w) h = some w') : w'.Listed := by
  cases h with
  | ofSwitch e =>
      cases known : w.manager.getSwitch e.dpid with
      | none => exact (happen_unknown listed covers known result).2
      | some sw =>
          rw [happen_known known] at result
          rw [← Option.some.inj result]
          exact listed_known listed
  | linkDiscovered a b rand =>
      obtain rfl := Option.some.inj result
      exact (covers_of_keeps (STP.onLinkDiscovered_keeps a b) covers listed).2
  | linkBroken a b =>
      obtain rfl := Option.some.inj result
      exact listed
  | timer =>
      obtain ⟨n, handled, rfl⟩ := Option.map_eq_some_iff.mp result
      obtain ⟨stp, computed, rfl⟩ := Option.map_eq_some_iff.mp handled
      exact (covers_of_keeps (STP.computeSpanningTree_keeps computed) covers listed).2

theorem portsKnown_step_iff [AdjacencyList] {h : Happening} (listed : w.Listed) (covers : w.Covers) :
    PortsKnown kruskal (some w) h ↔ AddsToKnown (some w) h := by
  cases h with
  | ofSwitch e =>
      cases known : w.manager.getSwitch e.dpid with
      | none =>
          refine iff_of_true (fun w' result => (happen_unknown listed covers known result).1) ?_
          intro before same there
          rw [← Option.some.inj same, known] at there
          cases there
      | some sw =>
          have step : happen kruskal _ _ = _ := happen_known known
          constructor
          · rintro covered before same -
            obtain rfl := Option.some.inj same
            exact (covers_known_iff covers known).mp (covered _ step)
          · intro quiet w' result
            rw [← Option.some.inj (step.symm.trans result)]
            exact (covers_known_iff covers known).mpr (quiet w rfl (by rw [known]; rfl))
  | linkDiscovered a b rand =>
      refine iff_of_true (fun w' result => ?_) trivial
      obtain rfl := Option.some.inj result
      exact (covers_of_keeps (STP.onLinkDiscovered_keeps a b) covers listed).1
  | linkBroken a b =>
      refine iff_of_true (fun w' result => ?_) trivial
      obtain rfl := Option.some.inj result
      exact covers
  | timer =>
      refine iff_of_true (fun w' result => ?_) trivial
      obtain ⟨n, handled, rfl⟩ := Option.map_eq_some_iff.mp result
      obtain ⟨stp, computed, rfl⟩ := Option.map_eq_some_iff.mp handled
      exact (covers_of_keeps (STP.computeSpanningTree_keeps computed) covers listed).1

end

/-! ## Whole runs -/

/-- **Along every run the spanning tree knows each usual port of each switch, exactly when none is
announced of a switch that it has forgotten.** -/
theorem portsKnown_iff [AdjacencyList] (kruskal : TopologyGraph → List LinkProperty) (hs : List Happening) :
    Each (happen kruskal) (PortsKnown kruskal) (some {}) hs ↔
      Each (happen kruskal) AddsToKnown (some {}) hs := by
  refine each_iff_of_invariant
    (I := fun w => ∀ before, w = some before → before.Listed ∧ before.Covers) ?_ ?_ ?_
  · rintro (_ | w) h inv
    · refine iff_of_true (fun _ result => ?_) ?_
      · cases h <;> cases result
      · cases h <;> first | trivial | (rintro _ ⟨⟩)
    · exact portsKnown_step_iff (inv w rfl).1 (inv w rfl).2
  · rintro (_ | w) h inv adds w' result
    · cases h <;> cases result
    · obtain ⟨listed, covers⟩ := inv w rfl
      exact ⟨happen_listed listed covers result,
        (portsKnown_step_iff listed covers).mpr adds w' result⟩
  · intro w start
    rw [← Option.some.inj start]
    exact ⟨fun _ none => (nomatch none), fun _ _ _ none => (nomatch none)⟩

end Drunos.Topology

/-
# Drunos.Topology.Switches — the switches the controller knows

`Switch.cc`. `SwitchManager` keeps a `Switch` for every datapath id that has ever come up,
and the switch keeps its ports. Applications follow the ports by the signals of the switch:
what they know after replaying them is a `PortView`.

A listener always knows the numbers of the ports (`numbersKnown`), but not always what they
are. A port that is announced although the switch has it already is given to the listeners
and not stored; `portsFollowed_iff` says that nothing else goes wrong.

A message of a switch that has never come up ends the program: `at` throws, and nothing
catches what a slot throws.
-/
import Drunos.Rest.EventManager
import Drunos.Theory.Run
import Drunos.Types.Ethaddr
import Mathlib.Data.List.AList

namespace Drunos.Topology

open Drunos.Rest Drunos.Theory.Run Drunos.Types

set_option autoImplicit false

/-! ## Ports and switches -/

/-- `of13::Port`. -/
structure OfPort where
  portNo : BitVec 32
  hwAddr : Ethaddr
  name : String
  config : BitVec 32
  state : BitVec 32
  curr : BitVec 32
  advertised : BitVec 32
  supported : BitVec 32
  peer : BitVec 32
  deriving DecidableEq

/-- `of13::SwitchDesc`. -/
structure SwitchDesc where
  mfrDesc : String := ""
  hwDesc : String := ""
  swDesc : String := ""
  serialNum : String := ""
  dpDesc : String := ""
  deriving DecidableEq

/-- `of13::FeaturesReply`. -/
structure FeaturesReply where
  datapathId : BitVec 64
  nBuffers : BitVec 32
  nTables : BitVec 8
  capabilities : BitVec 32
  deriving DecidableEq

/-- `SwitchImpl`. The ports are kept by their numbers. -/
structure Switch where
  id : BitVec 64
  nbuffers : BitVec 32
  ntables : BitVec 8
  capabilities : BitVec 32
  desc : SwitchDesc := {}
  port : AList fun _ : BitVec 32 => OfPort := ∅

/-- `of13::PortStatus`. -/
structure PortStatus where
  reason : BitVec 8
  desc : OfPort

def OFPPR_ADD : BitVec 8 := 0
def OFPPR_DELETE : BitVec 8 := 1
def OFPPR_MODIFY : BitVec 8 := 2

/-- The signals of a switch. -/
inductive SwitchSignal where
  | up
  | down
  | portUp (port : OfPort)
  | portDown (portNo : BitVec 32)
  | portModified (port oldPort : OfPort)
  deriving DecidableEq

namespace Switch

/-- The constructor. -/
def make (fr : FeaturesReply) : Switch where
  id := fr.datapathId
  nbuffers := fr.nBuffers
  ntables := fr.nTables
  capabilities := fr.capabilities

def setUp (fr : FeaturesReply) (sw : Switch) : Switch × List SwitchSignal :=
  ({ sw with
      id := fr.datapathId
      nbuffers := fr.nBuffers
      ntables := fr.nTables
      capabilities := fr.capabilities },
    [.up])

def portStatus (ps : PortStatus) (sw : Switch) : Switch × List SwitchSignal :=
  let port := ps.desc
  let portNo := port.portNo
  if ps.reason = OFPPR_ADD then
    -- `insert` leaves a port that is there
    (if portNo ∈ sw.port then sw else { sw with port := sw.port.insert portNo port }, [.portUp port])
  else if ps.reason = OFPPR_DELETE then
    ({ sw with port := sw.port.erase portNo }, [.portDown portNo])
  else if ps.reason = OFPPR_MODIFY then
    match sw.port.lookup portNo with
    | none => (sw, [])
    | some oldPort => ({ sw with port := sw.port.insert portNo port }, [.portModified port oldPort])
  else (sw, [])

def setDown (sw : Switch) : Switch × List SwitchSignal :=
  ({ sw with port := ∅ }, sw.port.keys.map .portDown ++ [.down])

/-- One port of the reply. -/
def portDescribed (sw : Switch) (port : OfPort) : Switch × List SwitchSignal :=
  if port.portNo ∈ sw.port then (sw, [])
  else ({ sw with port := sw.port.insert port.portNo port }, [.portUp port])

def portDescArrived : List OfPort → Switch → Switch × List SwitchSignal
  | [], sw => (sw, [])
  | port :: ports, sw =>
      let (sw', signals) := sw.portDescribed port
      let (last, more) := portDescArrived ports sw'
      (last, signals ++ more)

end Switch

/-! ## SwitchManager -/

/-- What `SwitchManager` does, in order: its own signals, those of its switches, the requests
to a switch and the events for REST clients. -/
inductive Emitted where
  | switchDiscovered (dpid : BitVec 64)
  | switchUp (dpid : BitVec 64)
  | switchDown (dpid : BitVec 64)
  | ofSwitch (dpid : BitVec 64) (signal : SwitchSignal)
  | requestPortDescriptions (dpid : BitVec 64)
  | requestSwitchDescriptions (dpid : BitVec 64)
  | addEvent (type : EventType) (dpid : BitVec 64)
  deriving DecidableEq

structure SwitchManager where
  switches : AList fun _ : BitVec 64 => Switch := ∅

/-- What the controller tells of the connection of a datapath id. That a reply of the features
is of the id of its connection is asserted. -/
inductive SwitchEvent where
  | switchUp (fr : FeaturesReply)
  | switchDown (dpid : BitVec 64)
  | portStatus (dpid : BitVec 64) (ps : PortStatus)
  | portDescriptions (dpid : BitVec 64) (ports : List OfPort)
  | switchDescriptions (dpid : BitVec 64) (desc : SwitchDesc)

namespace SwitchManager

def getSwitch (dpid : BitVec 64) (m : SwitchManager) : Option Switch := m.switches.lookup dpid

def put (dpid : BitVec 64) (sw : Switch) (m : SwitchManager) : SwitchManager :=
  ⟨m.switches.insert dpid sw⟩

def onSwitchUp (fr : FeaturesReply) (m : SwitchManager) : SwitchManager × List Emitted :=
  let dpid := fr.datapathId
  let requests : List Emitted :=
    [.requestPortDescriptions dpid, .requestSwitchDescriptions dpid, .addEvent .add dpid]
  match m.getSwitch dpid with
  | none => (m.put dpid (.make fr), .switchDiscovered dpid :: .switchUp dpid :: requests)
  | some sw =>
      let (sw', signals) := sw.setUp fr
      (m.put dpid sw', signals.map (.ofSwitch dpid) ++ .switchUp dpid :: requests)

def onSwitchDown (dpid : BitVec 64) (m : SwitchManager) : SwitchManager × List Emitted :=
  match m.getSwitch dpid with
  | none => (m, [])
  | some sw =>
      let (sw', signals) := sw.setDown
      (m.put dpid sw', signals.map (.ofSwitch dpid) ++ [.switchDown dpid, .addEvent .delete dpid])

/-- `at(dpid)` and what is done with the switch; there is no result when `at` throws. -/
def at_ (dpid : BitVec 64) (f : Switch → Switch × List SwitchSignal) (m : SwitchManager) :
    Option (SwitchManager × List Emitted) :=
  (m.getSwitch dpid).map fun sw => (m.put dpid (f sw).1, (f sw).2.map (.ofSwitch dpid))

def onPortStatus (dpid : BitVec 64) (ps : PortStatus) (m : SwitchManager) :
    Option (SwitchManager × List Emitted) := m.at_ dpid (Switch.portStatus ps)

def onPortDescriptions (dpid : BitVec 64) (ports : List OfPort) (m : SwitchManager) :
    Option (SwitchManager × List Emitted) := m.at_ dpid (Switch.portDescArrived ports)

def onSwitchDescriptions (dpid : BitVec 64) (desc : SwitchDesc) (m : SwitchManager) :
    Option (SwitchManager × List Emitted) := m.at_ dpid fun sw => ({ sw with desc }, [])

def handle (m : SwitchManager) : SwitchEvent → Option (SwitchManager × List Emitted)
  | .switchUp fr => some (m.onSwitchUp fr)
  | .switchDown dpid => some (m.onSwitchDown dpid)
  | .portStatus dpid ps => m.onPortStatus dpid ps
  | .portDescriptions dpid ports => m.onPortDescriptions dpid ports
  | .switchDescriptions dpid desc => m.onSwitchDescriptions dpid desc

end SwitchManager

/-! ## Listeners -/

/-- What a listener knows of the ports of a switch. -/
abbrev PortView := BitVec 32 → Option OfPort

namespace SwitchSignal

def hear (view : PortView) : SwitchSignal → PortView
  | up => view
  | down => view
  | portUp port => Function.update view port.portNo (some port)
  | portDown portNo => Function.update view portNo none
  | portModified port _ => Function.update view port.portNo (some port)

end SwitchSignal

def replay (view : PortView) (signals : List SwitchSignal) : PortView :=
  signals.foldl SwitchSignal.hear view

/-- The listener knows which ports there are. -/
def SameNumbers (view : PortView) (sw : Switch) : Prop :=
  ∀ no, (view no).isSome = (sw.port.lookup no).isSome

/-- The listener knows the ports. -/
def Mirrors (view : PortView) (sw : Switch) : Prop := ∀ no, view no = sw.port.lookup no

theorem Mirrors.sameNumbers {view : PortView} {sw : Switch} (mirrors : Mirrors view sw) :
    SameNumbers view sw := fun no => congrArg Option.isSome (mirrors no)

@[simp] theorem replay_nil (view : PortView) : replay view [] = view := rfl

@[simp] theorem replay_cons (view : PortView) (signal : SwitchSignal) (signals : List SwitchSignal) :
    replay view (signal :: signals) = replay (signal.hear view) signals := rfl

theorem replay_append (view : PortView) (signals more : List SwitchSignal) :
    replay view (signals ++ more) = replay (replay view signals) more := List.foldl_append

/-- The ports that go down are forgotten. -/
theorem replay_portDown (numbers : List (BitVec 32)) (view : PortView) (no : BitVec 32) :
    replay view (numbers.map .portDown) no = if no ∈ numbers then none else view no := by
  induction numbers generalizing view with
  | nil => rfl
  | cons n numbers ih =>
      rw [List.map_cons, replay_cons, ih]
      by_cases same : no = n
      · simp [same, SwitchSignal.hear]
      · simp [same, SwitchSignal.hear]

theorem lookup_insert_update (ports : AList fun _ : BitVec 32 => OfPort) (port : OfPort) (no : BitVec 32) :
    (ports.insert port.portNo port).lookup no =
      Function.update (fun no => ports.lookup no) port.portNo (some port) no := by
  by_cases same : no = port.portNo
  · subst same
    simp
  · simp [same, AList.lookup_insert_ne]

/-! ## One switch -/

namespace Switch

variable {view : PortView} {sw : Switch}

/-- A port is announced that the switch does not have as something else. -/
def AddsNew (ps : PortStatus) (sw : Switch) : Prop :=
  ps.reason = OFPPR_ADD → ∀ old, sw.port.lookup ps.desc.portNo = some old → old = ps.desc

/-- A port that is stored and given to the listener. -/
theorem mirrors_insert (mirrors : Mirrors view sw) (port : OfPort) :
    Mirrors (Function.update view port.portNo (some port))
      { sw with port := sw.port.insert port.portNo port } := by
  intro no
  rw [lookup_insert_update, show view = fun no => sw.port.lookup no from funext mirrors]

theorem sameNumbers_insert (same : SameNumbers view sw) (port : OfPort) :
    SameNumbers (Function.update view port.portNo (some port))
      { sw with port := sw.port.insert port.portNo port } := by
  intro no
  by_cases here : no = port.portNo
  · subst here
    simp
  · simpa [here, AList.lookup_insert_ne] using same no

theorem erase_lookup (ports : AList fun _ : BitVec 32 => OfPort) (gone no : BitVec 32) :
    (ports.erase gone).lookup no = if no = gone then none else ports.lookup no := by
  by_cases same : no = gone
  · subst same
    simp
  · simp [same, AList.lookup_erase_ne]

/-- What a port status does: only a port that is there already is not taken over. -/
theorem portStatus_cases (ps : PortStatus) (sw : Switch) :
    (ps.reason = OFPPR_ADD ∧ ps.desc.portNo ∈ sw.port ∧
      sw.portStatus ps = (sw, [.portUp ps.desc])) ∨
    (ps.reason = OFPPR_ADD ∧ ps.desc.portNo ∉ sw.port ∧ sw.portStatus ps =
      ({ sw with port := sw.port.insert ps.desc.portNo ps.desc }, [.portUp ps.desc])) ∨
    (ps.reason = OFPPR_DELETE ∧ sw.portStatus ps =
      ({ sw with port := sw.port.erase ps.desc.portNo }, [.portDown ps.desc.portNo])) ∨
    (ps.reason = OFPPR_MODIFY ∧ ∃ old, sw.port.lookup ps.desc.portNo = some old ∧ sw.portStatus ps =
      ({ sw with port := sw.port.insert ps.desc.portNo ps.desc }, [.portModified ps.desc old])) ∨
    ps.reason ≠ OFPPR_ADD ∧ sw.portStatus ps = (sw, []) := by
  by_cases add : ps.reason = OFPPR_ADD
  · by_cases present : ps.desc.portNo ∈ sw.port
    · exact .inl ⟨add, present, by simp [portStatus, add, present]⟩
    · exact .inr (.inl ⟨add, present, by simp [portStatus, add, present]⟩)
  · by_cases delete : ps.reason = OFPPR_DELETE
    · exact .inr (.inr (.inl ⟨delete, by simp [portStatus, delete, OFPPR_ADD, OFPPR_DELETE]⟩))
    · by_cases modify : ps.reason = OFPPR_MODIFY
      · cases known : sw.port.lookup ps.desc.portNo with
        | none => exact .inr (.inr (.inr (.inr ⟨add, by simp [portStatus, add, delete, known]⟩)))
        | some old =>
            exact .inr (.inr (.inr (.inl ⟨modify, old, rfl, by
              simp only [portStatus, if_neg add, if_neg delete, if_pos modify, known]⟩)))
      · exact .inr (.inr (.inr (.inr ⟨add, by simp [portStatus, add, delete, modify]⟩)))

theorem portStatus_sameNumbers (same : SameNumbers view sw) (ps : PortStatus) :
    SameNumbers (replay view (sw.portStatus ps).2) (sw.portStatus ps).1 := by
  rcases portStatus_cases ps sw with ⟨-, present, result⟩ | ⟨-, -, result⟩ | ⟨-, result⟩ |
      ⟨-, old, -, result⟩ | ⟨-, result⟩ <;> rw [result]
  · intro no
    by_cases here : no = ps.desc.portNo
    · subst here
      simpa [SwitchSignal.hear] using (AList.lookup_isSome.mpr present).symm
    · simpa [SwitchSignal.hear, here] using same no
  · exact sameNumbers_insert same ps.desc
  · intro no
    simp only [replay_cons, replay_nil, SwitchSignal.hear, Function.update_apply, erase_lookup]
    split
    · rfl
    · exact same no
  · exact sameNumbers_insert same ps.desc
  · exact same

theorem portStatus_mirrors_iff (mirrors : Mirrors view sw) (ps : PortStatus) :
    Mirrors (replay view (sw.portStatus ps).2) (sw.portStatus ps).1 ↔ AddsNew ps sw := by
  rcases portStatus_cases ps sw with ⟨add, present, result⟩ | ⟨-, absent, result⟩ |
      ⟨delete, result⟩ | ⟨modify, old, -, result⟩ | ⟨other, result⟩ <;> rw [result]
  · -- the listener has the port that was announced, the switch the one it had
    obtain ⟨old, known⟩ := Option.isSome_iff_exists.mp (AList.lookup_isSome.mpr present)
    constructor
    · intro follows _ other found
      have heard := follows ps.desc.portNo
      rw [found] at heard
      simpa [SwitchSignal.hear] using heard.symm
    · intro new no
      have same := new add old known
      by_cases here : no = ps.desc.portNo
      · rw [here, known, same]
        simp [SwitchSignal.hear]
      · simpa [SwitchSignal.hear, here] using mirrors no
  · refine iff_of_true (mirrors_insert mirrors ps.desc) fun _ old known => ?_
    rw [AList.lookup_eq_none.mpr absent] at known
    cases known
  · refine iff_of_true (fun no => ?_) fun add => absurd (delete.symm.trans add) (by decide)
    simp only [replay_cons, replay_nil, SwitchSignal.hear, Function.update_apply, erase_lookup,
      mirrors no]
  · exact iff_of_true (mirrors_insert mirrors ps.desc) fun add =>
      absurd (modify.symm.trans add) (by decide)
  · exact iff_of_true mirrors fun add => absurd add other

/-- A switch that goes down takes all its ports along. -/
theorem setDown_mirrors (same : SameNumbers view sw) :
    Mirrors (replay view sw.setDown.2) sw.setDown.1 := by
  intro no
  have present : no ∈ sw.port.keys ↔ (view no).isSome = true := by
    rw [same no, AList.lookup_isSome, AList.mem_keys]
  show replay view (sw.port.keys.map .portDown ++ [.down]) no = none
  rw [replay_append, replay_cons, replay_nil, SwitchSignal.hear, replay_portDown]
  split
  · rfl
  · simpa [present] using ‹no ∉ sw.port.keys›

theorem portDescribed_sameNumbers (same : SameNumbers view sw) (port : OfPort) :
    SameNumbers (replay view (sw.portDescribed port).2) (sw.portDescribed port).1 := by
  unfold portDescribed
  split
  · exact same
  · exact sameNumbers_insert same port

theorem portDescribed_mirrors (mirrors : Mirrors view sw) (port : OfPort) :
    Mirrors (replay view (sw.portDescribed port).2) (sw.portDescribed port).1 := by
  unfold portDescribed
  split
  · exact mirrors
  · exact mirrors_insert mirrors port

/-- What each port of a reply keeps, the reply keeps. -/
theorem portDescArrived_keeps {R : PortView → Switch → Prop}
    (one : ∀ view sw, R view sw → ∀ port,
      R (replay view (sw.portDescribed port).2) (sw.portDescribed port).1) :
    ∀ (ports : List OfPort) {view : PortView} {sw : Switch}, R view sw →
      R (replay view (portDescArrived ports sw).2) (portDescArrived ports sw).1
  | [], _, _, held => held
  | port :: ports, _, _, held => by
      rw [portDescArrived, replay_append]
      exact portDescArrived_keeps one ports (one _ _ held port)

end Switch

/-! ## One event -/

namespace SwitchEvent

def dpid : SwitchEvent → BitVec 64
  | switchUp fr => fr.datapathId
  | switchDown dpid => dpid
  | portStatus dpid _ => dpid
  | portDescriptions dpid _ => dpid
  | switchDescriptions dpid _ => dpid

/-- What the event does with the switch it is about. -/
def act : SwitchEvent → Switch → Switch × List SwitchSignal
  | switchUp fr => Switch.setUp fr
  | switchDown _ => Switch.setDown
  | portStatus _ ps => Switch.portStatus ps
  | portDescriptions _ ports => Switch.portDescArrived ports
  | switchDescriptions _ desc => fun sw => ({ sw with desc }, [])

/-- What the manager does after the switch. -/
def afterwards : SwitchEvent → List Emitted
  | switchUp fr =>
      [.switchUp fr.datapathId, .requestPortDescriptions fr.datapathId,
        .requestSwitchDescriptions fr.datapathId, .addEvent .add fr.datapathId]
  | switchDown dpid => [.switchDown dpid, .addEvent .delete dpid]
  | _ => []

/-- It announces no port that the switch has as something else. -/
def AddsNew : SwitchEvent → Switch → Prop
  | portStatus _ ps => fun sw => sw.AddsNew ps
  | _ => fun _ => True

variable {view : PortView} {sw : Switch}

theorem act_sameNumbers (same : SameNumbers view sw) (e : SwitchEvent) :
    SameNumbers (replay view (e.act sw).2) (e.act sw).1 := by
  cases e with
  | switchUp fr => exact same
  | switchDown dpid => exact (Switch.setDown_mirrors same).sameNumbers
  | portStatus dpid ps => exact Switch.portStatus_sameNumbers same ps
  | portDescriptions dpid ports =>
      exact Switch.portDescArrived_keeps (fun _ _ => Switch.portDescribed_sameNumbers) ports same
  | switchDescriptions dpid desc => exact same

theorem act_mirrors_iff (mirrors : Mirrors view sw) (e : SwitchEvent) :
    Mirrors (replay view (e.act sw).2) (e.act sw).1 ↔ e.AddsNew sw := by
  cases e with
  | switchUp fr => exact iff_of_true mirrors trivial
  | switchDown dpid => exact iff_of_true (Switch.setDown_mirrors mirrors.sameNumbers) trivial
  | portStatus dpid ps => exact Switch.portStatus_mirrors_iff mirrors ps
  | portDescriptions dpid ports =>
      exact iff_of_true
        (Switch.portDescArrived_keeps (fun _ _ => Switch.portDescribed_mirrors) ports mirrors) trivial
  | switchDescriptions dpid desc => exact iff_of_true mirrors trivial

end SwitchEvent

/-- A listener to all switches. -/
def Emitted.hear (views : BitVec 64 → PortView) : Emitted → BitVec 64 → PortView
  | .ofSwitch dpid signal => Function.update views dpid (signal.hear (views dpid))
  | _ => views

def hearAll (views : BitVec 64 → PortView) (out : List Emitted) : BitVec 64 → PortView :=
  out.foldl Emitted.hear views

theorem hearAll_append (views : BitVec 64 → PortView) (out more : List Emitted) :
    hearAll views (out ++ more) = hearAll (hearAll views out) more := List.foldl_append

theorem hearAll_ofSwitch (dpid : BitVec 64) (signals : List SwitchSignal) (views : BitVec 64 → PortView) :
    hearAll views (signals.map (.ofSwitch dpid)) =
      Function.update views dpid (replay (views dpid) signals) := by
  induction signals generalizing views with
  | nil => simp [hearAll]
  | cons signal signals ih =>
      rw [List.map_cons, hearAll, List.foldl_cons]
      exact (ih _).trans (by simp [Emitted.hear])

/-- The manager's own signals say nothing of ports. -/
theorem hearAll_afterwards (e : SwitchEvent) (views : BitVec 64 → PortView) :
    hearAll views e.afterwards = views := by
  cases e <;> rfl

namespace SwitchManager

variable {m m' : SwitchManager} {e : SwitchEvent} {out : List Emitted}

/-- The port of a known switch. -/
def portAt (dpid : BitVec 64) (no : BitVec 32) (m : SwitchManager) : Option OfPort :=
  (m.getSwitch dpid).bind fun sw => sw.port.lookup no

@[simp] theorem getSwitch_put (dpid d : BitVec 64) (sw : Switch) :
    (m.put d sw).getSwitch dpid = if dpid = d then some sw else m.getSwitch dpid := by
  unfold getSwitch put
  by_cases same : dpid = d
  · subst same
    simp
  · simp [same, AList.lookup_insert_ne]

theorem portAt_put (dpid d : BitVec 64) (sw : Switch) (no : BitVec 32) :
    (m.put d sw).portAt dpid no = if dpid = d then sw.port.lookup no else m.portAt dpid no := by
  unfold portAt
  rw [getSwitch_put]
  split
  · rfl
  · rfl

/-- A known switch does what the event is; its signals come before the manager's own. -/
theorem handle_known {sw : Switch} (known : m.getSwitch e.dpid = some sw) :
    m.handle e = some (m.put e.dpid (e.act sw).1,
      (e.act sw).2.map (.ofSwitch e.dpid) ++ e.afterwards) := by
  cases e with
  | switchUp fr =>
      simp only [handle, onSwitchUp, show m.getSwitch fr.datapathId = some sw from known]
      rfl
  | switchDown dpid =>
      simp only [handle, onSwitchDown, show m.getSwitch dpid = some sw from known]
      rfl
  | portStatus dpid ps =>
      simp [handle, onPortStatus, at_, show m.getSwitch dpid = some sw from known, SwitchEvent.act,
        SwitchEvent.dpid, SwitchEvent.afterwards]
  | portDescriptions dpid ports =>
      simp [handle, onPortDescriptions, at_, show m.getSwitch dpid = some sw from known,
        SwitchEvent.act, SwitchEvent.dpid, SwitchEvent.afterwards]
  | switchDescriptions dpid desc =>
      simp [handle, onSwitchDescriptions, at_, show m.getSwitch dpid = some sw from known,
        SwitchEvent.act, SwitchEvent.dpid, SwitchEvent.afterwards]

/-- A switch that is not known comes up without ports, or goes down unheeded; what else is said of it
ends the program. -/
theorem handle_unknown (unknown : m.getSwitch e.dpid = none) (result : m.handle e = some (m', out)) :
    (∃ fr, e = .switchUp fr ∧ m' = m.put fr.datapathId (.make fr) ∧
      out = .switchDiscovered fr.datapathId :: e.afterwards) ∨
    (∃ dpid, e = .switchDown dpid) ∧ m' = m ∧ out = [] := by
  cases e with
  | switchUp fr =>
      simp only [handle, onSwitchUp, show m.getSwitch fr.datapathId = none from unknown,
        Option.some.injEq, Prod.mk.injEq] at result
      exact .inl ⟨fr, rfl, result.1.symm, result.2.symm⟩
  | switchDown dpid =>
      simp only [handle, onSwitchDown, show m.getSwitch dpid = none from unknown,
        Option.some.injEq, Prod.mk.injEq] at result
      exact .inr ⟨⟨dpid, rfl⟩, result.1.symm, result.2.symm⟩
  | portStatus dpid ps =>
      simp [handle, onPortStatus, at_, show m.getSwitch dpid = none from unknown] at result
  | portDescriptions dpid ports =>
      simp [handle, onPortDescriptions, at_, show m.getSwitch dpid = none from unknown] at result
  | switchDescriptions dpid desc =>
      simp [handle, onSwitchDescriptions, at_, show m.getSwitch dpid = none from unknown] at result

/-- A switch comes without ports. -/
theorem portAt_make (fr : FeaturesReply) (unknown : m.getSwitch fr.datapathId = none)
    (dpid : BitVec 64) (no : BitVec 32) :
    (m.put fr.datapathId (.make fr)).portAt dpid no = m.portAt dpid no := by
  rw [portAt_put]
  split
  · rename_i same
    subst same
    simp [portAt, unknown, Switch.make]
  · rfl

/-- The switches known after an event are those known before, and one that comes up. -/
theorem handle_getSwitch (result : m.handle e = some (m', out)) (dpid : BitVec 64) :
    (m'.getSwitch dpid).isSome = true ↔
      (m.getSwitch dpid).isSome = true ∨ ∃ fr, e = .switchUp fr ∧ fr.datapathId = dpid := by
  cases known : m.getSwitch e.dpid with
  | some sw =>
      obtain ⟨rfl, -⟩ := Prod.mk.inj (Option.some.inj (result.symm.trans (handle_known known)))
      rw [getSwitch_put]
      by_cases same : dpid = e.dpid
      · subst same
        simp [known]
      · rw [if_neg same]
        refine ⟨.inl, fun either => either.elim id ?_⟩
        rintro ⟨fr, rfl, rfl⟩
        exact absurd rfl same
  | none =>
      rcases handle_unknown known result with ⟨fr, rfl, rfl, -⟩ | ⟨⟨d, rfl⟩, rfl, -⟩
      · rw [getSwitch_put]
        by_cases same : dpid = fr.datapathId
        · simp [same]
        · simp [same, Ne.symm same]
      · simp

/-- An `Add` for a switch that comes up, a `Delete` for a known one only. -/
theorem handle_addEvent (result : m.handle e = some (m', out)) :
    (∀ fr, e = .switchUp fr → Emitted.addEvent .add fr.datapathId ∈ out) ∧
      ∀ dpid, Emitted.addEvent .delete dpid ∈ out → (m.getSwitch dpid).isSome = true := by
  have own : ∀ dpid, Emitted.addEvent .delete dpid ∈ e.afterwards → dpid = e.dpid := by
    intro dpid mem
    cases e <;> simp_all [SwitchEvent.afterwards, SwitchEvent.dpid]
  cases known : m.getSwitch e.dpid with
  | some sw =>
      obtain ⟨-, rfl⟩ := Prod.mk.inj (Option.some.inj (result.symm.trans (handle_known known)))
      constructor
      · rintro fr rfl
        exact List.mem_append_right _ (by simp [SwitchEvent.afterwards])
      · intro dpid mem
        obtain rfl := own dpid (by simpa using mem)
        simp [known]
  | none =>
      rcases handle_unknown known result with ⟨fr, rfl, -, rfl⟩ | ⟨⟨d, rfl⟩, -, rfl⟩
      · refine ⟨fun fr' same => ?_, fun dpid mem => ?_⟩
        · obtain rfl := SwitchEvent.switchUp.inj same
          simp [SwitchEvent.afterwards]
        · simp [SwitchEvent.afterwards] at mem
      · exact ⟨fun _ same => (nomatch same), fun _ mem => absurd mem List.not_mem_nil⟩

end SwitchManager

/-! ## Runs -/

/-- The manager and what a listener knows. -/
structure Listened where
  manager : SwitchManager := {}
  views : BitVec 64 → PortView := fun _ _ => none

/-- One event; there is no manager after `at` has thrown. -/
def listen (w : Option Listened) (e : SwitchEvent) : Option Listened :=
  w.bind fun w => (w.manager.handle e).map fun (m, out) => ⟨m, hearAll w.views out⟩

/-- The listener knows which ports there are. -/
def Listened.KnowsNumbers (w : Listened) : Prop :=
  ∀ dpid no, (w.views dpid no).isSome = (w.manager.portAt dpid no).isSome

/-- The listener knows the ports. -/
def Listened.Follows (w : Listened) : Prop := ∀ dpid no, w.views dpid no = w.manager.portAt dpid no

/-- If the program goes on, the listener knows which ports there are. -/
def NumbersKnown (w : Option Listened) (e : SwitchEvent) : Prop :=
  ∀ w', listen w e = some w' → w'.KnowsNumbers

/-- If the program goes on, the listener knows the ports. -/
def PortsFollowed (w : Option Listened) (e : SwitchEvent) : Prop :=
  ∀ w', listen w e = some w' → w'.Follows

/-- No port is announced that its switch has as something else. -/
def AnnouncesNew (w : Option Listened) (e : SwitchEvent) : Prop :=
  ∀ before, w = some before → ∀ sw, before.manager.getSwitch e.dpid = some sw → e.AddsNew sw

variable {w w' : Listened} {e : SwitchEvent}

/-- What becomes of the switch the event is about decides; the others stay. -/
theorem listen_known {sw : Switch} (known : w.manager.getSwitch e.dpid = some sw) :
    listen (some w) e = some
      ⟨w.manager.put e.dpid (e.act sw).1,
        Function.update w.views e.dpid (replay (w.views e.dpid) (e.act sw).2)⟩ := by
  simp only [listen, Option.bind_some, SwitchManager.handle_known known, Option.map_some,
    hearAll_append, hearAll_ofSwitch, hearAll_afterwards]

theorem listen_unknown (unknown : w.manager.getSwitch e.dpid = none)
    (result : listen (some w) e = some w') :
    w'.views = w.views ∧ ∀ dpid no, w'.manager.portAt dpid no = w.manager.portAt dpid no := by
  obtain ⟨⟨m, out⟩, handled, rfl⟩ := Option.map_eq_some_iff.mp result
  rcases SwitchManager.handle_unknown unknown handled with ⟨fr, rfl, rfl, rfl⟩ | ⟨-, rfl, rfl⟩
  · exact ⟨hearAll_afterwards _ _, SwitchManager.portAt_make fr unknown⟩
  · exact ⟨rfl, fun _ _ => rfl⟩

theorem portAt_known {m : SwitchManager} {dpid : BitVec 64} {sw : Switch}
    (known : m.getSwitch dpid = some sw) (no : BitVec 32) :
    m.portAt dpid no = sw.port.lookup no := by
  simp [SwitchManager.portAt, known]

theorem listen_knowsNumbers (knows : w.KnowsNumbers) (result : listen (some w) e = some w') :
    w'.KnowsNumbers := by
  cases known : w.manager.getSwitch e.dpid with
  | none =>
      obtain ⟨views, ports⟩ := listen_unknown known result
      intro dpid no
      rw [views, ports]
      exact knows dpid no
  | some sw =>
      rw [listen_known known] at result
      obtain rfl := Option.some.inj result
      have here : SameNumbers (w.views e.dpid) sw := fun no => by
        rw [← portAt_known known]
        exact knows e.dpid no
      intro dpid no
      by_cases same : dpid = e.dpid
      · subst same
        simpa [SwitchManager.portAt_put] using e.act_sameNumbers here no
      · simpa [SwitchManager.portAt_put, same] using knows dpid no

theorem listen_follows_iff (follows : w.Follows) :
    PortsFollowed (some w) e ↔ AnnouncesNew (some w) e := by
  cases known : w.manager.getSwitch e.dpid with
  | none =>
      refine iff_of_true (fun w' result dpid no => ?_) fun before same sw found => ?_
      · obtain ⟨views, ports⟩ := listen_unknown known result
        rw [views, ports]
        exact follows dpid no
      · rw [← Option.some.inj same, known] at found
        cases found
  | some sw =>
      have here : Mirrors (w.views e.dpid) sw := fun no => by
        rw [← portAt_known known]
        exact follows e.dpid no
      have step := listen_known known
      constructor
      · rintro followed before same sw' found
        obtain rfl := Option.some.inj same
        obtain rfl : sw = sw' := Option.some.inj (known.symm.trans found)
        refine (e.act_mirrors_iff here).mp fun no => ?_
        simpa [SwitchManager.portAt_put] using followed _ step e.dpid no
      · intro announces w' result dpid no
        obtain rfl := Option.some.inj (step.symm.trans result)
        by_cases same : dpid = e.dpid
        · subst same
          simpa [SwitchManager.portAt_put] using (e.act_mirrors_iff here).mpr (announces w rfl sw known) no
        · simpa [SwitchManager.portAt_put, same] using follows dpid no

/-- **A listener that replays the signals of the switches always knows which ports there are; and
it knows the ports throughout exactly when no port is announced that its switch has as something
else.** -/
theorem portsFollowed_iff (es : List SwitchEvent) :
    Each listen NumbersKnown (some {}) es ∧
      (Each listen PortsFollowed (some {}) es ↔ Each listen AnnouncesNew (some {}) es) := by
  refine ⟨each_of_invariant (fun w => ∀ before, w = some before → before.KnowsNumbers) ?_ ?_ es ?_,
    each_iff_of_invariant (I := fun w => ∀ before, w = some before → before.Follows) ?_ ?_ ?_⟩
  · rintro (_ | w) e inv w' result
    · cases result
    · exact listen_knowsNumbers (inv w rfl) result
  · rintro (_ | w) e inv w' result
    · cases result
    · exact listen_knowsNumbers (inv w rfl) result
  · intro w start
    rw [← Option.some.inj start]
    exact fun _ _ => rfl
  · rintro (_ | w) e inv
    · exact iff_of_true (fun _ result => nomatch result) fun _ same => nomatch same
    · exact listen_follows_iff (inv w rfl)
  · rintro (_ | w) e inv announces w' result
    · cases result
    · exact (listen_follows_iff (inv w rfl)).mpr announces w' result
  · intro w start
    rw [← Option.some.inj start]
    exact fun _ _ => rfl

end Drunos.Topology

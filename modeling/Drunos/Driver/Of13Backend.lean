/-
# Drunos.Driver.Of13Backend — the rules retic puts on switches

`Of13Backend` of `Retic.cc`. What a backend installs lives as long as its handle in
`m_storage`. Every call leaves the backend and its log of messages in a later state
(`Later`): the log only grows and the drivers keep their connections.
-/
import Drunos.Driver.OFDriver
import Drunos.Retic.Policy
import Drunos.Theory.Fallible

namespace Drunos.Driver

open Drunos.Oxm Drunos.Theory Drunos.Retic

set_option autoImplicit false

variable [OxmTypes]

/-- `Of13Backend::OfObject`. -/
inductive OfObject where
  | group (g : Fluid13Group)
  | rule (r : Fluid13Rule)

/-- What the constructor of the handle has sent. -/
def OfObject.constructed : OfObject → List Sent
  | .group g => g.constructed
  | .rule r => r.constructed

/-- What its destructor sends. -/
def OfObject.destroyed : OfObject → List Sent
  | .group g => g.destroyed
  | .rule r => r.destroyed

/-- `m_drivers`: the datapath ids in the order of an iteration, and their drivers. -/
structure Drivers where
  dpids : List Nat
  driver : Nat → Fluid13Driver
  nodup : dpids.Nodup

def Drivers.set (d : Drivers) (dpid : Nat) (driver : Fluid13Driver) : Drivers :=
  { d with driver := Function.update d.driver dpid driver }

/-- The driver of one connected switch. -/
def Drivers.single (dpid : Nat) : Drivers where
  dpids := [dpid]
  driver := fun _ => { conn := some dpid }
  nodup := List.nodup_singleton dpid

structure Of13Backend where
  drivers : Drivers
  table : Nat := 0
  storage : List OfObject := []
  /-- The messages that its drivers have sent. -/
  sent : List Sent := []

/-- The mask of a whole field. -/
abbrev whole (t : OxmType) : Mask := ⟨t, BitVec.allOnes _⟩

/-- `Packet::load` of a type: it throws unless the whole field is known. -/
def loadValue (s : FieldSet) (t : OxmType) : Option Nat :=
  if (s.load t (BitVec.allOnes _)).exact then some (s.load t (BitVec.allOnes _)).value.toNat else none

/-- A timeout for the driver. -/
def seconds (d : Nat) : Nat := if d = durationMax then 0 else d

/-- The actions that have an output, each with the timeouts. -/
def buckets (settings : FlowSettings) : List FieldSet → Option (List Actions)
  | [] => some []
  | action :: actions => do
      match action.find outPort with
      | none => buckets settings actions
      | some _ =>
          let port ← loadValue action outPort
          let rest ← buckets settings actions
          return { idleTimeout := seconds settings.idleTimeout
                   hardTimeout := seconds settings.hardTimeout
                   outPort := port
                   setFields := action.erase (whole outPort) } :: rest

namespace Of13Backend

open Fallible

variable {α : Type}

/-- A driver constructs a handle, an object of the given kind. -/
def construct (dpid : Nat) (object : α → OfObject)
    (make : Fluid13Driver → Option (α × Fluid13Driver)) : Fallible Of13Backend α := do
  let b ← get
  let (handle, driver) ← ofOption (make (b.drivers.driver dpid))
  set { b with drivers := b.drivers.set dpid driver, sent := b.sent ++ (object handle).constructed }
  return handle

/-- `m_storage.push_back`. -/
def store (object : OfObject) : Fallible Of13Backend Unit :=
  modify fun b => { b with storage := b.storage ++ [object] }

/-- The end of a handle that is not stored. -/
def discard (object : OfObject) : Fallible Of13Backend Unit :=
  modify fun b => { b with sent := b.sent ++ object.destroyed }

/-- A handle that goes into the storage. -/
def keep (dpid : Nat) (object : α → OfObject)
    (make : Fluid13Driver → Option (α × Fluid13Driver)) : Fallible Of13Backend α := do
  let handle ← construct dpid object make
  store (object handle)
  return handle

def storeRule (dpid : Nat) (match' : FieldSet) (prio : Nat) (actions : Actions) :
    Fallible Of13Backend Unit := do
  let b ← get
  let _ ← keep dpid .rule (·.installRule match' prio actions b.table)

def storeGroup (dpid : Nat) (type : GroupType) (buckets : List Actions) :
    Fallible Of13Backend Fluid13Group :=
  keep dpid .group (·.installGroup type buckets)

def dropRule (dpid : Nat) (match' : FieldSet) (prio : Nat) (actions : Actions) :
    Fallible Of13Backend Unit := do
  let b ← get
  let unstored ← construct dpid OfObject.rule (·.installRule match' prio actions b.table)
  discard (.rule unstored)

/-- `install_on`. -/
def installOn (dpid : Nat) (match' : FieldSet) (actions : List FieldSet) (prio : Nat)
    (settings : FlowSettings) : Fallible Of13Backend Unit := do
  let b ← get
  if dpid ∈ b.drivers.dpids then
    if actions.isEmpty then
      dropRule dpid match' prio {}
    else
      match ← ofOption (buckets settings actions) with
      | [] => storeRule dpid match' prio {}
      | [bucket] => storeRule dpid match' prio bucket
      | first :: second :: more =>
          let group ← storeGroup dpid .all (first :: second :: more)
          storeRule dpid match' prio { groupId := group.id }

/-- `install`. -/
def install (match' : FieldSet) (actions : List FieldSet) (prio : Nat) (settings : FlowSettings) :
    Fallible Of13Backend Unit := do
  if settings.hardTimeout ≠ 0 then
    if (match'.find switchId).isSome then
      let dpid ← ofOption (loadValue match' switchId)
      installOn dpid (match'.erase (whole switchId)) actions prio settings
    else
      (← get).drivers.dpids.forM fun dpid => installOn dpid match' actions prio settings

/-- `installBarrier`. -/
def installBarrier (match' : FieldSet) (prio : Nat) : Fallible Of13Backend Unit := do
  let act : Actions := { outPort := Ports.toController }
  if (match'.find switchId).isSome then
    let dpid ← ofOption (loadValue match' switchId)
    if dpid ∈ (← get).drivers.dpids then
      storeRule dpid (match'.erase (whole switchId)) prio act
  else
    (← get).drivers.dpids.forM fun dpid => storeRule dpid match' prio act

/-- The destructor: it destroys the handles that are stored. -/
def destroyed (b : Of13Backend) : List Sent := b.storage.flatMap OfObject.destroyed

/-! ## Where a call goes -/

/-- The drivers that a match is for. -/
def targets (drivers : Drivers) (match' : FieldSet) : List Nat :=
  if (match'.find switchId).isSome then
    (loadValue match' switchId).toList.filter (· ∈ drivers.dpids)
  else drivers.dpids

/-- The match a switch gets. -/
def onSwitch (match' : FieldSet) : FieldSet :=
  if (match'.find switchId).isSome then match'.erase (whole switchId) else match'

theorem mem_targets {drivers : Drivers} {match' : FieldSet} {dpid : Nat}
    (mem : dpid ∈ targets drivers match') : dpid ∈ drivers.dpids := by
  rw [targets] at mem
  split at mem
  · simpa using (List.mem_filter.mp mem).2
  · exact mem

/-- A switch with a connection gets what is installed for the match. -/
def Reaches (drivers : Drivers) (match' : FieldSet) : Prop :=
  convertible (onSwitch match') = true ∧
    ∃ dpid ∈ targets drivers match', (drivers.driver dpid).conn.isSome = true

/-! ## What a call does to the backend -/

/-- The drivers are those of before and keep their connections. -/
structure SameDrivers (b b' : Of13Backend) : Prop where
  dpids : b'.drivers.dpids = b.drivers.dpids
  conn : ∀ dpid, (b'.drivers.driver dpid).conn = (b.drivers.driver dpid).conn

theorem SameDrivers.refl (b : Of13Backend) : SameDrivers b b := ⟨rfl, fun _ => rfl⟩

theorem SameDrivers.trans {b b' b'' : Of13Backend} (first : SameDrivers b b')
    (next : SameDrivers b' b'') : SameDrivers b b'' :=
  ⟨next.dpids.trans first.dpids, fun dpid => (next.conn dpid).trans (first.conn dpid)⟩

/-- The messages sent in between all have the property. -/
structure Sends (P : Sent → Prop) (b b' : Of13Backend) : Prop extends SameDrivers b b' where
  messages : ∃ new, b'.sent = b.sent ++ new ∧ ∀ m ∈ new, P m

/-- All that is constructed in between is stored. -/
structure Stores (b b' : Of13Backend) : Prop extends SameDrivers b b' where
  objects : ∃ kept, b'.storage = b.storage ++ kept ∧
    b'.sent = b.sent ++ kept.flatMap OfObject.constructed

instance (P : Sent → Prop) : Std.Refl (Sends P) :=
  ⟨fun b => ⟨.refl b, [], by simp⟩⟩

instance (P : Sent → Prop) : IsTrans Of13Backend (Sends P) where
  trans b b' b'' := by
    rintro ⟨drivers, new, sent, all⟩ ⟨drivers', new', sent', all'⟩
    refine ⟨drivers.trans drivers', new ++ new', ?_, ?_⟩
    · rw [sent', sent, List.append_assoc]
    · exact fun m mem => (List.mem_append.mp mem).elim (all m) (all' m)

instance : Std.Refl Stores := ⟨fun b => ⟨.refl b, [], by simp⟩⟩

instance : IsTrans Of13Backend Stores where
  trans b b' b'' := by
    rintro ⟨drivers, kept, storage, sent⟩ ⟨drivers', kept', storage', sent'⟩
    refine ⟨drivers.trans drivers', kept ++ kept', ?_, ?_⟩
    · rw [storage', storage, List.append_assoc]
    · rw [sent', sent, List.flatMap_append, List.append_assoc]

/-- What holds of all messages between two states holds of those in the middle. -/
theorem Sends.middle {P Q Q' Q'' : Sent → Prop} {b t u b' : Of13Backend} (whole : Sends P b b')
    (first : Sends Q b t) (between : Sends Q' t u) (last : Sends Q'' u b') : Sends P t u := by
  obtain ⟨_, all, sent, holds⟩ := whole
  obtain ⟨_, before, sent₁, _⟩ := first
  obtain ⟨drivers, new, sent₂, _⟩ := between
  obtain ⟨_, later, sent₃, _⟩ := last
  refine ⟨drivers, new, sent₂, fun m mem => holds m ?_⟩
  rw [sent₃, sent₂, sent₁, List.append_assoc, List.append_assoc, List.append_cancel_left_eq] at sent
  rw [← sent]
  simp [mem]

section

variable {dpid : Nat} {o : α → OfObject}
  {f : Fluid13Driver → Option (α × Fluid13Driver)}

/-- A handle that is constructed has sent its messages. -/
theorem after_construct {b : Of13Backend} {handle : α} {driver : Fluid13Driver}
    (made : f (b.drivers.driver dpid) = some (handle, driver)) :
    result (construct dpid o f) b = some handle ∧
      after (construct dpid o f) b =
        { b with
            drivers := b.drivers.set dpid driver
            sent := b.sent ++ (o handle).constructed } := by
  simp only [construct, after_get_bind, result_get_bind, made, ofOption_some_bind]
  exact ⟨rfl, rfl⟩

theorem after_construct_thrown {b : Of13Backend} (thrown : f (b.drivers.driver dpid) = none) :
    result (construct dpid o f) b = none ∧ after (construct dpid o f) b = b := by
  simp only [construct, after_get_bind, result_get_bind, thrown, ofOption_none_bind]
  exact ⟨rfl, rfl⟩

/-- Handles that keep the connection of their driver. -/
def Steady (make : Fluid13Driver → Option (α × Fluid13Driver)) : Prop :=
  ∀ d h d', make d = some (h, d') → d'.conn = d.conn

theorem Fluid13Driver.steady_installRule {match' : FieldSet} {prio table : Nat} {acts : Actions} :
    Steady (·.installRule match' prio acts table) := by
  intro d h d' made
  rw [(Fluid13Driver.installRule_eq made).2.2]

theorem Fluid13Driver.steady_installGroup {type : GroupType} {buckets : List Actions} :
    Steady (·.installGroup type buckets) := by
  intro d h d' made
  rw [(Fluid13Driver.installGroup_eq made).2.2]

theorem SameDrivers.set (b : Of13Backend) {driver : Fluid13Driver} {storage : List OfObject}
    {sent : List Sent} (conn : driver.conn = (b.drivers.driver dpid).conn) :
    SameDrivers b
      { b with drivers := b.drivers.set dpid driver, storage := storage, sent := sent } := by
  refine ⟨rfl, fun other => ?_⟩
  by_cases same : other = dpid
  · subst same
    simpa [Drivers.set] using conn
  · simp [Drivers.set, same]

theorem after_keep {b : Of13Backend} {handle : α} {driver : Fluid13Driver}
    (made : f (b.drivers.driver dpid) = some (handle, driver)) :
    result (keep dpid o f) b = some handle ∧
      after (keep dpid o f) b =
        { b with
            drivers := b.drivers.set dpid driver
            sent := b.sent ++ (o handle).constructed
            storage := b.storage ++ [o handle] } := by
  obtain ⟨returned, left⟩ := after_construct (o := o) made
  constructor
  · rw [keep, result_bind returned, result_bind (a := ()) rfl]
    rfl
  · rw [keep, after_bind returned, after_bind (a := ()) rfl, left]
    rfl

theorem after_keep_thrown {b : Of13Backend} (thrown : f (b.drivers.driver dpid) = none) :
    result (keep dpid o f) b = none ∧ after (keep dpid o f) b = b := by
  obtain ⟨fails, left⟩ := after_construct_thrown (o := o) thrown
  exact ⟨by rw [keep, result_bind_fails fails], by rw [keep, after_bind_fails fails, left]⟩

theorem stores_keep (steady : Steady f) : Follows Stores (keep dpid o f) := by
  intro b
  cases made : f (b.drivers.driver dpid) with
  | none =>
      rw [(after_keep_thrown made).2]
      exact Std.Refl.refl b
  | some result =>
      obtain ⟨handle, driver⟩ := result
      rw [(after_keep made).2]
      exact ⟨.set b (steady _ _ _ made), [o handle], rfl, by simp⟩

end

section

variable {match' : FieldSet} {actions : List FieldSet} {prio : Nat} {settings : FlowSettings}

theorem after_installOn_other {dpid : Nat} {b : Of13Backend} (other : dpid ∉ b.drivers.dpids) :
    after (installOn dpid match' actions prio settings) b = b := by
  simp only [installOn, after_get_bind, if_neg other, after_pure]

section

variable {P : Sent → Prop} {dpid : Nat} {acts : Actions}

theorem after_storeRule {b : Of13Backend} {r : Fluid13Rule} {d : Fluid13Driver}
    (installed : (b.drivers.driver dpid).installRule match' prio acts b.table = some (r, d)) :
    result (storeRule dpid match' prio acts) b = some () ∧
      after (storeRule dpid match' prio acts) b =
        { b with
            drivers := b.drivers.set dpid d
            sent := b.sent ++ r.constructed
            storage := b.storage ++ [.rule r] } := by
  obtain ⟨returned, left⟩ :=
    after_keep (o := .rule) (f := (·.installRule match' prio acts b.table)) installed
  constructor
  · rw [storeRule, result_get_bind, result_bind returned]
    rfl
  · rw [storeRule, after_get_bind, after_bind returned, left]
    rfl

theorem after_storeRule_thrown {b : Of13Backend}
    (thrown : (b.drivers.driver dpid).installRule match' prio acts b.table = none) :
    after (storeRule dpid match' prio acts) b = b := by
  obtain ⟨fails, left⟩ :=
    after_keep_thrown (o := .rule) (f := (·.installRule match' prio acts b.table)) thrown
  rw [storeRule, after_get_bind, after_bind_fails fails, left]

/-- A rule that is not stored is deleted at once. -/
theorem after_dropRule {b : Of13Backend} {r : Fluid13Rule} {d : Fluid13Driver}
    (installed : (b.drivers.driver dpid).installRule match' prio acts b.table = some (r, d)) :
    result (dropRule dpid match' prio acts) b = some () ∧
      after (dropRule dpid match' prio acts) b =
        { b with
            drivers := b.drivers.set dpid d
            sent := b.sent ++ (r.constructed ++ r.destroyed) } := by
  obtain ⟨returned, left⟩ :=
    after_construct (o := .rule) (f := (·.installRule match' prio acts b.table)) installed
  constructor
  · rw [dropRule, result_get_bind, result_bind returned]
    rfl
  · rw [dropRule, after_get_bind, after_bind returned, left, ← List.append_assoc]
    rfl

theorem after_dropRule_thrown {b : Of13Backend}
    (thrown : (b.drivers.driver dpid).installRule match' prio acts b.table = none) :
    after (dropRule dpid match' prio acts) b = b := by
  obtain ⟨returned, left⟩ :=
    after_construct_thrown (o := .rule) (f := (·.installRule match' prio acts b.table)) thrown
  rw [dropRule, after_get_bind, after_bind_fails returned, left]

/-- What holds of every message that installs a rule of these actions holds of all
that `storeRule` sends. -/
theorem sends_storeRule {b : Of13Backend}
    (all : ∀ (r : Fluid13Rule) (c : Nat), (b.drivers.driver dpid).conn = some c → r.acts = acts →
      convertible match' = true → convertible acts.setFields = true → P (c, .flowMod r.addMod)) :
    Sends P b (after (storeRule dpid match' prio acts) b) := by
  cases installed : (b.drivers.driver dpid).installRule match' prio acts b.table with
  | none =>
      rw [after_storeRule_thrown installed]
      exact Std.Refl.refl b
  | some made =>
      obtain ⟨r, d⟩ := made
      obtain ⟨rule, -, -⟩ := Fluid13Driver.installRule_eq installed
      rw [(after_storeRule installed).2]
      refine ⟨.set b (Fluid13Driver.steady_installRule _ _ _ installed), _, rfl, fun m mem => ?_⟩
      obtain ⟨c, connected, rfl⟩ := List.mem_map.mp mem
      have conn : (b.drivers.driver dpid).conn = some c := by
        simpa [rule] using connected
      obtain ⟨takes, sets⟩ := Fluid13Driver.convertible_of_installRule installed conn
      exact all r c conn (by rw [rule]) takes sets

theorem sends_dropRule {b : Of13Backend}
    (all : ∀ (r : Fluid13Rule) (c : Nat), (b.drivers.driver dpid).conn = some c → r.acts = acts →
      convertible match' = true → convertible acts.setFields = true →
        P (c, .flowMod r.addMod) ∧ P (c, .flowMod r.deleteMod)) :
    Sends P b (after (dropRule dpid match' prio acts) b) := by
  cases installed : (b.drivers.driver dpid).installRule match' prio acts b.table with
  | none =>
      rw [after_dropRule_thrown installed]
      exact Std.Refl.refl b
  | some made =>
      obtain ⟨r, d⟩ := made
      obtain ⟨rule, -, -⟩ := Fluid13Driver.installRule_eq installed
      rw [(after_dropRule installed).2]
      refine ⟨.set b (Fluid13Driver.steady_installRule _ _ _ installed), _, rfl, fun m mem => ?_⟩
      obtain ⟨c, connected⟩ : ∃ c, r.conn = some c := by
        rcases List.mem_append.mp mem with mem | mem <;> obtain ⟨c, connected, -⟩ := List.mem_map.mp mem
        · exact ⟨c, Option.mem_toList.mp connected⟩
        · exact ⟨c, Option.mem_toList.mp connected⟩
      have conn : (b.drivers.driver dpid).conn = some c := by
        simpa [rule] using connected
      obtain ⟨takes, sets⟩ := Fluid13Driver.convertible_of_installRule installed conn
      obtain ⟨added, deleted⟩ := all r c conn (by rw [rule]) takes sets
      simp only [Fluid13Rule.constructed, Fluid13Rule.destroyed, connected, Option.toList_some,
        List.map_cons, List.map_nil, List.cons_append, List.nil_append, List.mem_cons,
        List.not_mem_nil, or_false] at mem
      rcases mem with rfl | rfl
      · exact added
      · exact deleted

theorem sends_storeGroup {made : List Actions} {b : Of13Backend}
    (all : ∀ (g : Fluid13Group) (c : Nat), (b.drivers.driver dpid).conn = some c →
      P (c, .groupMod g.addMod)) :
    Sends P b (after (storeGroup dpid .all made) b) := by
  cases installed : (b.drivers.driver dpid).installGroup .all made with
  | none =>
      rw [storeGroup, (after_keep_thrown (f := (·.installGroup .all made)) installed).2]
      exact Std.Refl.refl b
  | some result =>
      obtain ⟨g, d⟩ := result
      obtain ⟨group, -, -⟩ := Fluid13Driver.installGroup_eq installed
      rw [storeGroup, (after_keep (f := (·.installGroup .all made)) installed).2]
      refine ⟨.set b (Fluid13Driver.steady_installGroup _ _ _ installed), _, rfl, fun m mem => ?_⟩
      obtain ⟨c, connected, rfl⟩ := List.mem_map.mp mem
      exact all g c (by simpa [group] using connected)

end

/-- The actions that have an output. -/
def outputs (actions : List FieldSet) : List FieldSet :=
  actions.filter fun a => (a.find outPort).isSome

/-- How long a rule of the call lasts, by its number of actions with an output. -/
def RuleActions (settings : FlowSettings) (actions : List FieldSet) (acts : Actions) : Prop :=
  if (outputs actions).length = 1 then
    acts.idleTimeout = seconds settings.idleTimeout ∧ acts.hardTimeout = seconds settings.hardTimeout
  else acts.idleTimeout = 0 ∧ acts.hardTimeout = 0

theorem buckets_spec {made : List Actions} (result : buckets settings actions = some made) :
    made.length = (outputs actions).length ∧
      ∀ acts ∈ made, acts.idleTimeout = seconds settings.idleTimeout ∧
        acts.hardTimeout = seconds settings.hardTimeout := by
  induction actions generalizing made with
  | nil =>
      cases result
      exact ⟨rfl, by simp⟩
  | cons action actions ih =>
      rw [buckets] at result
      cases found : action.find outPort with
      | none =>
          rw [found] at result
          simpa [outputs, found] using ih result
      | some field =>
          simp only [found, Option.bind_eq_bind, Option.bind_eq_some_iff, Option.pure_def,
            Option.some.injEq] at result
          obtain ⟨port, _, rest, later, rfl⟩ := result
          obtain ⟨length, all⟩ := ih later
          rw [List.length_cons, length, outputs, outputs, List.filter_cons_of_pos (by simp [found])]
          refine ⟨rfl, ?_⟩
          exact List.forall_mem_cons.mpr ⟨⟨rfl, rfl⟩, all⟩

/-- `install_on` follows what its ways of installing do. -/
theorem follows_installOn {R : Of13Backend → Of13Backend → Prop} [Std.Refl R] [IsTrans _ R] {dpid : Nat}
    (rule : ∀ acts, actions ≠ [] → RuleActions settings actions acts →
      Follows R (storeRule dpid match' prio acts))
    (group : ∀ made, buckets settings actions = some made → Follows R (storeGroup dpid .all made))
    (drop : actions = [] → Follows R (dropRule dpid match' prio {})) :
    Follows R (installOn dpid match' actions prio settings) := by
  refine Follows.get_bind fun b => ?_
  have nothing : Follows R (pure () : Fallible Of13Backend Unit) :=
    Follows.of_after Std.Refl.refl fun _ => rfl
  split
  case isFalse => exact nothing
  case isTrue =>
    split
    case isTrue none => exact drop (List.isEmpty_iff.mp none)
    case isFalse some =>
      have some : actions ≠ [] := fun none => some (List.isEmpty_iff.mpr none)
      refine Follows.ofOption_bind fun made result => ?_
      obtain ⟨length, all⟩ := buckets_spec result
      match made with
      | [] =>
          refine rule _ some ?_
          rw [RuleActions, ← length, if_neg (by simp)]
          exact ⟨rfl, rfl⟩
      | [bucket] =>
          refine rule _ some ?_
          rw [RuleActions, ← length, if_pos (by simp)]
          exact all bucket (by simp)
      | first :: second :: more =>
          refine (group _ result).bind fun g => rule _ some ?_
          rw [RuleActions, ← length, if_neg (by simp)]
          exact ⟨rfl, rfl⟩

/-- A set of actions that a driver takes: its output is known, and there are fields
of OpenFlow besides. -/
def Sendable (action : FieldSet) : Prop :=
  (action.find outPort).isSome = true →
    (loadValue action outPort).isSome = true ∧ convertible (action.erase (whole outPort)) = true

theorem buckets_returns (settings : FlowSettings) (sendable : ∀ action ∈ actions, Sendable action) :
    ∃ made, buckets settings actions = some made ∧
      ∀ acts ∈ made, convertible acts.setFields = true := by
  induction actions with
  | nil => exact ⟨[], rfl, by simp⟩
  | cons action actions ih =>
      obtain ⟨made, result, all⟩ := ih fun a mem => sendable a (List.mem_cons_of_mem _ mem)
      cases found : action.find outPort with
      | none => exact ⟨made, by simpa [buckets, found] using result, all⟩
      | some field =>
          obtain ⟨known, takes⟩ := sendable action List.mem_cons_self (by simp [found])
          obtain ⟨port, value⟩ := Option.isSome_iff_exists.mp known
          refine ⟨_ :: made, by simp [buckets, found, value, result]; rfl, ?_⟩
          exact List.forall_mem_cons.mpr ⟨takes, all⟩

theorem sendable_of_buckets {made : List Actions} (result : buckets settings actions = some made)
    (all : ∀ acts ∈ made, convertible acts.setFields = true) :
    ∀ action ∈ actions, Sendable action := by
  induction actions generalizing made with
  | nil => exact List.forall_mem_nil _
  | cons action actions ih =>
      rw [buckets] at result
      cases found : action.find outPort with
      | none =>
          rw [found] at result
          exact List.forall_mem_cons.mpr ⟨fun some => by simp [found] at some, ih result all⟩
      | some field =>
          simp only [found, Option.bind_eq_bind, Option.bind_eq_some_iff, Option.pure_def,
            Option.some.injEq] at result
          obtain ⟨port, value, rest, later, rfl⟩ := result
          obtain ⟨takes, all⟩ := List.forall_mem_cons.mp all
          exact List.forall_mem_cons.mpr ⟨fun _ => ⟨by rw [value]; rfl, takes⟩, ih later all⟩

section

variable {dpid : Nat}

theorem sends_installOn :
    Follows (Sends fun _ => True) (installOn dpid match' actions prio settings) :=
  follows_installOn (fun _ _ _ _ => sends_storeRule fun _ _ _ _ _ _ => trivial)
    (fun _ _ _ => sends_storeGroup fun _ _ _ => trivial)
    fun _ _ => sends_dropRule fun _ _ _ _ _ _ => ⟨trivial, trivial⟩

/-- With sets of actions the drivers take, `install_on` sends a rule and does not
throw. -/
theorem after_installOn {b : Of13Backend} (mem : dpid ∈ b.drivers.dpids)
    (takes : convertible match' = true) (sendable : ∀ action ∈ actions, Sendable action) :
    result (installOn dpid match' actions prio settings) b = some () ∧
      ∃ (r : Fluid13Rule) (new : List Sent), r.conn = (b.drivers.driver dpid).conn ∧
        RuleActions settings actions r.acts ∧
          (after (installOn dpid match' actions prio settings) b).sent = b.sent ++ new ∧
            ∀ m ∈ r.constructed, m ∈ new := by
  have nothing : convertible (∅ : FieldSet) = true := rfl
  rw [installOn, result_get_bind, after_get_bind, if_pos mem]
  by_cases none : actions.isEmpty
  · rw [if_pos none]
    obtain ⟨r, d, installed⟩ := (b.drivers.driver dpid).installRule_convertible {}
      prio b.table takes nothing
    obtain ⟨returned, left⟩ := after_dropRule installed
    obtain ⟨rule, -, -⟩ := Fluid13Driver.installRule_eq installed
    refine ⟨returned, r, r.constructed ++ r.destroyed, by rw [rule], ?_, by rw [left],
      fun m mem => List.mem_append_left _ mem⟩
    rw [RuleActions, List.isEmpty_iff.mp none, rule]
    exact ⟨rfl, rfl⟩
  · rw [if_neg none]
    obtain ⟨made, built, sets⟩ := buckets_returns settings sendable
    obtain ⟨length, all⟩ := buckets_spec built
    rw [built, ofOption_some_bind]
    match made with
    | [] =>
        obtain ⟨r, d, installed⟩ := (b.drivers.driver dpid).installRule_convertible {}
          prio b.table takes nothing
        obtain ⟨returned, left⟩ := after_storeRule installed
        obtain ⟨rule, -, -⟩ := Fluid13Driver.installRule_eq installed
        refine ⟨returned, r, r.constructed, by rw [rule], ?_, by rw [left], fun m mem => mem⟩
        rw [RuleActions, ← length, if_neg (by simp), rule]
        exact ⟨rfl, rfl⟩
    | [bucket] =>
        obtain ⟨r, d, installed⟩ := (b.drivers.driver dpid).installRule_convertible bucket
          prio b.table takes (sets bucket (by simp))
        obtain ⟨returned, left⟩ := after_storeRule installed
        obtain ⟨rule, -, -⟩ := Fluid13Driver.installRule_eq installed
        refine ⟨returned, r, r.constructed, by rw [rule], ?_, by rw [left], fun m mem => mem⟩
        rw [RuleActions, ← length, if_pos (by simp), rule]
        exact all bucket (by simp)
    | first :: second :: more =>
        obtain ⟨g, d, grouped⟩ :=
          (b.drivers.driver dpid).installGroup_convertible .all sets
        obtain ⟨given, between⟩ := after_keep (o := .group)
          (f := (·.installGroup .all (first :: second :: more))) grouped
        dsimp only
        rw [storeGroup, result_bind given, after_bind given, between]
        obtain ⟨r, d', installed⟩ := d.installRule_convertible { groupId := g.id }
          prio b.table takes nothing
        obtain ⟨rule, -, -⟩ := Fluid13Driver.installRule_eq installed
        have here : (b.drivers.set dpid d).driver dpid = d := by simp [Drivers.set]
        rw [← here] at installed
        obtain ⟨returned, left⟩ := after_storeRule (b := { b with
          drivers := b.drivers.set dpid d
          sent := b.sent ++ (OfObject.group g).constructed
          storage := b.storage ++ [.group g] }) installed
        refine ⟨returned, r, g.constructed ++ r.constructed, ?_, ?_, ?_,
          fun m mem => List.mem_append_right _ mem⟩
        · rw [rule, Fluid13Driver.steady_installGroup _ _ _ grouped]
        · rw [RuleActions, ← length, if_neg (by simp), rule]
          exact ⟨rfl, rfl⟩
        · rw [left, ← List.append_assoc]
          rfl

theorem returns_installOn (takes : convertible match' = true)
    (sendable : ∀ action ∈ actions, Sendable action) :
    Returns (installOn dpid match' actions prio settings) := by
  intro b
  by_cases mem : dpid ∈ b.drivers.dpids
  · rw [(after_installOn mem takes sendable).1]
    rfl
  · rw [installOn, result_get_bind, if_neg mem]
    rfl

end

/-- `install` goes over the drivers that the match is for. -/
theorem after_install (b : Of13Backend) :
    after (install match' actions prio settings) b =
      if settings.hardTimeout = 0 then b
      else after ((targets b.drivers match').forM fun dpid =>
        installOn dpid (onSwitch match') actions prio settings) b := by
  by_cases zero : settings.hardTimeout = 0
  · simp [install, zero]
  · rw [if_neg zero, install, if_pos zero, onSwitch, targets]
    split
    · cases value : loadValue match' switchId with
      | none => rfl
      | some dpid =>
          by_cases mem : dpid ∈ b.drivers.dpids
          · simp [mem]
          · simp [mem, after_installOn_other mem]
    · rfl

/-- So does `installBarrier`. -/
theorem after_installBarrier (b : Of13Backend) :
    after (installBarrier match' prio) b =
      after ((targets b.drivers match').forM fun dpid =>
        storeRule dpid (onSwitch match') prio { outPort := Ports.toController }) b := by
  rw [installBarrier, onSwitch, targets]
  split
  · cases value : loadValue match' switchId with
    | none => rfl
    | some dpid =>
        by_cases mem : dpid ∈ b.drivers.dpids
        · simp [mem]
        · simp [mem]
  · rfl

end

end Of13Backend

end Drunos.Driver

/-
# Drunos.Driver.OFDriver — rules, groups and the messages of their handles

`OFDriver.cc`. A handle on a rule or on a group puts it on the switch when it is
constructed and deletes it when it is destroyed; a `Fluid13Driver` numbers what it
installs, rules by a cookie of 64 bits and groups by an id of 16 bits. A message
leaves at zero what is not set. A constructor throws before it sends anything if it
meets a field that OpenFlow has not.
-/
import Drunos.Oxm.OpenflowBasic

namespace Drunos.Driver

open Drunos.Oxm

set_option autoImplicit false

variable [OxmTypes]

namespace Ports

/-- `ports::to_controller`; `ports::drop` is 0. -/
def toController : Nat := 0xfffffffd

end Ports

structure Actions where
  outPort : Nat := 0
  groupId : Nat := 0
  /-- Timeouts are in seconds and of 32 bits; zero is for no timeout. -/
  idleTimeout : Nat := 0
  hardTimeout : Nat := 0
  setFields : FieldSet := ∅

/-! ## OpenFlow messages -/

inductive Action where
  | setField (field : Field)
  | output (port : Nat)
  | group (id : Nat)

/-- `convert_to_apply_action`; `convert_to_action_set` is the same. -/
def convertToApplyAction (acts : Actions) : List Action :=
  acts.setFields.fields.map Action.setField ++
    (if acts.outPort ≠ 0 then [.output acts.outPort] else []) ++
      (if acts.groupId ≠ 0 then [.group acts.groupId] else [])

inductive Command where
  | add
  | delete
  deriving DecidableEq

/-- `of13::FlowMod`. -/
structure FlowMod where
  command : Command
  tableId : Nat := 0
  cookie : BitVec 64 := 0
  cookieMask : BitVec 64 := 0
  match' : FieldSet := ∅
  priority : Nat := 0
  idleTimeout : Nat := 0
  hardTimeout : Nat := 0
  bufferId : Nat := 0
  outPort : Nat := 0
  outGroup : Nat := 0
  /-- `OFPFF_CHECK_OVERLAP` -/
  checkOverlap : Bool := false
  /-- `OFPFF_SEND_FLOW_REM` -/
  sendFlowRem : Bool := false
  applyActions : List Action := []

/-- `of13::Bucket`. -/
structure Bucket where
  watchPort : Nat
  watchGroup : Nat
  actions : List Action

/-- `of13::GroupMod` of a group of type ALL. -/
structure GroupMod where
  command : Command
  groupId : Nat := 0
  buckets : List Bucket := []

inductive Message where
  | flowMod (fm : FlowMod)
  | groupMod (gm : GroupMod)

/-- `OFP_NO_BUFFER`, `OFPP_ANY` and `OFPG_ANY`. -/
def any : Nat := 0xffffffff

/-- A message and the connection it is sent over. -/
abbrev Sent : Type := Nat × Message

/-! ## Handles -/

structure Fluid13Rule where
  /-- The connection, if it is not null. -/
  conn : Option Nat
  match' : FieldSet
  table : Nat
  prio : Nat
  acts : Actions
  cookie : BitVec 64

namespace Fluid13Rule

variable (r : Fluid13Rule)

/-- The message of the constructor. Both timeouts are of 16 bits there. -/
def addMod : FlowMod where
  command := .add
  bufferId := any
  tableId := r.table
  cookie := r.cookie
  match' := r.match'
  priority := r.prio
  idleTimeout := r.acts.idleTimeout % 2 ^ 16
  hardTimeout := r.acts.hardTimeout % 2 ^ 16
  checkOverlap := true
  sendFlowRem := true
  applyActions := convertToApplyAction r.acts

/-- The message of the destructor. -/
def deleteMod : FlowMod where
  command := .delete
  cookie := r.cookie
  cookieMask := 0xfffffffff
  outPort := any
  outGroup := any

/-- The constructor does not throw. -/
def constructs : Bool := r.conn.isNone || convertible r.match' && convertible r.acts.setFields

def constructed : List Sent := r.conn.toList.map fun c => (c, .flowMod r.addMod)

def destroyed : List Sent := r.conn.toList.map fun c => (c, .flowMod r.deleteMod)

end Fluid13Rule

inductive GroupType where
  | all

structure Fluid13Group where
  id : Nat
  conn : Option Nat
  type : GroupType
  buckets : List Actions

namespace Fluid13Group

variable (g : Fluid13Group)

def addMod : GroupMod where
  command := .add
  buckets := g.buckets.map fun acts =>
    { watchPort := any, watchGroup := any, actions := convertToApplyAction acts }
  groupId := g.id

def deleteMod : GroupMod where
  command := .delete
  groupId := g.id

def constructs : Bool := g.conn.isNone || g.buckets.all fun acts => convertible acts.setFields

def constructed : List Sent := g.conn.toList.map fun c => (c, .groupMod g.addMod)

def destroyed : List Sent := g.conn.toList.map fun c => (c, .groupMod g.deleteMod)

end Fluid13Group

/-! ## Fluid13Driver -/

structure Fluid13Driver where
  conn : Option Nat
  idGen : BitVec 16 := 630
  cookieGen : BitVec 64 := 0x400000000

namespace Fluid13Driver

/-- `installRule`: the handle and the driver afterwards, if nothing is thrown. -/
def installRule (d : Fluid13Driver) (match' : FieldSet) (prio : Nat) (actions : Actions)
    (table : Nat) : Option (Fluid13Rule × Fluid13Driver) :=
  let ret : Fluid13Rule :=
    { conn := d.conn, match' := match', table := table, prio := prio, acts := actions,
      cookie := d.cookieGen }
  if ret.constructs then some (ret, { d with cookieGen := d.cookieGen + 1 }) else none

/-- `installGroup`. -/
def installGroup (d : Fluid13Driver) (type : GroupType) (buckets : List Actions) :
    Option (Fluid13Group × Fluid13Driver) :=
  let ret : Fluid13Group :=
    { id := d.idGen.toNat, conn := d.conn, type := type, buckets := buckets }
  if ret.constructs then some (ret, { d with idGen := d.idGen + 1 }) else none

/-- What an installed rule is. -/
theorem installRule_eq {d d' : Fluid13Driver} {match' : FieldSet} {prio : Nat} {actions : Actions}
    {table : Nat} {r : Fluid13Rule} (installed : d.installRule match' prio actions table = some (r, d')) :
    r = { conn := d.conn, match' := match', table := table, prio := prio, acts := actions,
          cookie := d.cookieGen } ∧
      r.constructs = true ∧ d' = { d with cookieGen := d.cookieGen + 1 } := by
  simp only [installRule] at installed
  split at installed
  case isTrue constructs =>
    cases installed
    exact ⟨rfl, constructs, rfl⟩
  case isFalse => cases installed

/-- A rule that a switch gets has fields of OpenFlow only. -/
theorem convertible_of_installRule {d d' : Fluid13Driver} {match' : FieldSet} {prio : Nat}
    {actions : Actions} {table c : Nat} {r : Fluid13Rule}
    (installed : d.installRule match' prio actions table = some (r, d')) (conn : d.conn = some c) :
    convertible match' = true ∧ convertible actions.setFields = true := by
  obtain ⟨rule, constructs, -⟩ := installRule_eq installed
  simpa [rule, Fluid13Rule.constructs, conn] using constructs

/-- What an installed group is. -/
theorem installGroup_eq {d d' : Fluid13Driver} {type : GroupType} {buckets : List Actions}
    {g : Fluid13Group} (installed : d.installGroup type buckets = some (g, d')) :
    g = { id := d.idGen.toNat, conn := d.conn, type := type, buckets := buckets } ∧
      g.constructs = true ∧ d' = { d with idGen := d.idGen + 1 } := by
  simp only [installGroup] at installed
  split at installed
  case isTrue constructs =>
    cases installed
    exact ⟨rfl, constructs, rfl⟩
  case isFalse => cases installed

theorem convertible_of_installGroup {d d' : Fluid13Driver} {type : GroupType}
    {buckets : List Actions} {c : Nat} {g : Fluid13Group}
    (installed : d.installGroup type buckets = some (g, d')) (conn : d.conn = some c) :
    ∀ acts ∈ buckets, convertible acts.setFields = true := by
  obtain ⟨group, constructs, -⟩ := installGroup_eq installed
  simpa [group, Fluid13Group.constructs, conn] using constructs

/-- Fields of OpenFlow only make no constructor throw. -/
theorem installRule_convertible (d : Fluid13Driver) {match' : FieldSet} (actions : Actions)
    (prio table : Nat) (matches' : convertible match' = true)
    (sets : convertible actions.setFields = true) :
    ∃ r d', d.installRule match' prio actions table = some (r, d') := by
  simp [installRule, Fluid13Rule.constructs, matches', sets]

theorem installGroup_convertible (d : Fluid13Driver) (type : GroupType) {buckets : List Actions}
    (sets : ∀ acts ∈ buckets, convertible acts.setFields = true) :
    ∃ g d', d.installGroup type buckets = some (g, d') := by
  have all : (buckets.all fun acts => convertible acts.setFields) = true := List.all_eq_true.mpr sets
  simp [installGroup, Fluid13Group.constructs, all]

end Fluid13Driver

end Drunos.Driver

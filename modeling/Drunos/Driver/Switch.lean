/-
# Drunos.Driver.Switch — the handles of a driver and its switch

The flow tables and groups of a switch as OpenFlow 1.3 has them: an entry is added
unless it overlaps one of its priority, deletion goes by table, cookie under a mask
and match, and deleting a group takes the entries that forward to it along. A
`Session` is a driver with the handles it has given out and the switch that has got
their messages.
-/
import Drunos.Driver.OFDriver
import Drunos.Maple.Backend
import Drunos.Theory.Run

namespace Drunos.Driver

open Drunos.Oxm Drunos.Theory

set_option autoImplicit false

section

variable [OxmTypes]

/-! ## An OpenFlow switch -/

structure FlowEntry where
  tableId : Nat
  priority : Nat
  match' : FieldSet
  cookie : BitVec 64
  idleTimeout : Nat
  hardTimeout : Nat
  actions : List Action

structure GroupEntry where
  id : Nat
  buckets : List Bucket

structure Switch where
  flows : List FlowEntry := []
  groups : List GroupEntry := []

/-- The groups that the actions forward to. -/
def groupIds (actions : List Action) : List Nat :=
  actions.filterMap fun
    | .group id => some id
    | _ => none

def FlowEntry.outputs (e : FlowEntry) (port : Nat) : Bool :=
  e.actions.any fun
    | .output out => out = port
    | _ => false

def FlowMod.entry (fm : FlowMod) : FlowEntry where
  tableId := fm.tableId
  priority := fm.priority
  match' := fm.match'
  cookie := fm.cookie
  idleTimeout := fm.idleTimeout
  hardTimeout := fm.hardTimeout
  actions := fm.applyActions

/-- `OFPTT_ALL`: no table, but all of them in a deletion. -/
def allTables : Nat := 255

/-- Two entries of one table and priority. -/
def FlowEntry.beside (e e' : FlowEntry) : Bool := e.tableId = e'.tableId && e.priority = e'.priority

namespace Switch

/-- `OFPFC_ADD`: an entry of the same match is replaced. -/
def addFlow (s : Switch) (fm : FlowMod) : Switch :=
  if fm.tableId = allTables then s
  else if fm.checkOverlap && s.flows.any fun e =>
      e.beside fm.entry && !e.match'.sameAs fm.match' && Maple.overlaps e.match' fm.match' then s
  else if (groupIds fm.applyActions).any fun id => s.groups.all fun g => g.id ≠ id then s
  else
    { s with
        flows := (s.flows.filter fun e => !(e.beside fm.entry && e.match'.sameAs fm.match')) ++
          [fm.entry] }

/-- `OFPFC_DELETE` is for the entry. -/
def deletes (fm : FlowMod) (e : FlowEntry) : Bool :=
  (fm.tableId = allTables || e.tableId = fm.tableId) &&
    e.cookie &&& fm.cookieMask = fm.cookie &&& fm.cookieMask && Maple.covered fm.match' e.match' &&
      (fm.outPort = any || e.outputs fm.outPort) &&
        (fm.outGroup = any || fm.outGroup ∈ groupIds e.actions)

/-- `OFPGC_ADD`: there is no second group of an id. -/
def addGroup (s : Switch) (gm : GroupMod) : Switch :=
  if s.groups.any fun g => g.id = gm.groupId then s
  else { s with groups := s.groups ++ [⟨gm.groupId, gm.buckets⟩] }

/-- `OFPGC_DELETE`: entries that forward to the group go with it. -/
def deleteGroup (s : Switch) (gm : GroupMod) : Switch where
  flows := s.flows.filter fun e => gm.groupId ∉ groupIds e.actions
  groups := s.groups.filter fun g => g.id ≠ gm.groupId

def receive (s : Switch) : Message → Switch
  | .flowMod fm =>
      match fm.command with
      | .add => s.addFlow fm
      | .delete => { s with flows := s.flows.filter fun e => !deletes fm e }
  | .groupMod gm =>
      match gm.command with
      | .add => s.addGroup gm
      | .delete => s.deleteGroup gm

def receiveAll (s : Switch) (sent : List Sent) : Switch :=
  sent.foldl (fun s m => s.receive m.2) s

end Switch

/-! ## Sessions -/

structure LiveRule where
  /-- Which of the handles given out it is. -/
  number : Nat
  rule : Fluid13Rule
  /-- The handle of the group that the rule was made for, if any. -/
  group : Option Nat

structure LiveGroup where
  number : Nat
  group : Fluid13Group

structure Session where
  driver : Fluid13Driver
  switch : Switch := {}
  rules : List LiveRule := []
  groups : List LiveGroup := []
  next : Nat := 0

inductive Op where
  | installRule (match' : FieldSet) (prio : Nat) (acts : Actions) (table : Nat) (group : Option Nat)
  | installGroup (type : GroupType) (buckets : List Actions)
  | destroyRule (number : Nat)
  | destroyGroup (number : Nat)

namespace Session

/-- `group->id()` of a handle, the only group id that a rule is given. -/
def groupId (s : Session) (group : Option Nat) : Nat :=
  match s.groups.find? fun g => some g.number = group with
  | none => 0
  | some g => g.group.id

/-- An operation that throws changes nothing. -/
def step (s : Session) : Op → Session
  | .installRule match' prio acts table group =>
      match s.driver.installRule match' prio { acts with groupId := s.groupId group } table with
      | none => s
      | some (rule, driver) =>
          { s with
              driver := driver
              switch := s.switch.receiveAll rule.constructed
              rules := s.rules ++ [⟨s.next, rule, group⟩]
              next := s.next + 1 }
  | .installGroup type buckets =>
      match s.driver.installGroup type buckets with
      | none => s
      | some (group, driver) =>
          { s with
              driver := driver
              switch := s.switch.receiveAll group.constructed
              groups := s.groups ++ [⟨s.next, group⟩]
              next := s.next + 1 }
  | .destroyRule number =>
      match s.rules.find? fun r => r.number = number with
      | none => s
      | some r =>
          { s with
              switch := s.switch.receiveAll r.rule.destroyed
              rules := s.rules.filter fun r => r.number ≠ number }
  | .destroyGroup number =>
      match s.groups.find? fun g => g.number = number with
      | none => s
      | some g =>
          { s with
              switch := s.switch.receiveAll g.group.destroyed
              groups := s.groups.filter fun g => g.number ≠ number }

/-- A driver that has just been made for a connection. -/
def start (conn : Nat) : Session where
  driver := { conn := some conn }

end Session

end

end Drunos.Driver

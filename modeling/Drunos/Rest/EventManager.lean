/-
# Drunos.Rest.EventManager — the event list of the REST applications

`Event.cc`. Events are numbered in the order they are made. A `Delete` and the last
`Add` of its object become brothers; brothers are pointers to events and are their
numbers here. A client polls with the applications it wants, as a mask, and the last
number it has been given.
-/
import Mathlib.Data.List.Basic

namespace Drunos.Rest

set_option autoImplicit false

/-- `Event::Type`. -/
inductive EventType where
  | add
  | delete
  | change
  deriving DecidableEq

structure RestHandler where
  hash : BitVec 32
  restName : String

variable {Obj : Type}

structure Event (Obj : Type) where
  id : Nat
  type : EventType
  obj : Obj
  hash : BitVec 32
  app : String
  brother : Option Nat

structure EventManager (Obj : Type) where
  events : List (Event Obj) := []
  /-- `EventIDs::last_event`. -/
  lastEvent : Nat := 0

namespace EventManager

section

variable [DecidableEq Obj]

/-- The last `Add` of the object. -/
def findBrother (obj : Obj) (events : List (Event Obj)) : Option (Event Obj) :=
  events.reverse.find? fun it => it.obj = obj && it.type = .add

/-- The event with the number gets a brother. -/
def setBrother (id brother : Nat) (events : List (Event Obj)) : List (Event Obj) :=
  events.map fun it => if it.id = id then { it with brother := some brother } else it

/-- There is no result when a `Delete` finds no brother: the null pointer is followed. -/
def addToEventList (type : EventType) (obj : Obj) (rest : RestHandler) (m : EventManager Obj) :
    Option (EventManager Obj) :=
  if rest.hash = 0 then some m
  else
    let ev : Event Obj := ⟨m.lastEvent + 1, type, obj, rest.hash, rest.restName, none⟩
    if type = .delete then
      (findBrother obj m.events).map fun it =>
        ⟨setBrother it.id ev.id m.events ++ [{ ev with brother := some it.id }], ev.id⟩
    else some ⟨m.events ++ [ev], ev.id⟩

end

/-- Whether the client need not be told of the event. -/
def checkOverlap (ev : Event Obj) (last : Nat) : Bool :=
  match ev.type with
  | .add => ev.brother.isSome
  | .delete => ev.brother.any fun brother => last < brother
  | .change => false

/-- The events a client is told of. -/
def told (hashMap : BitVec 32) (last : Nat) (m : EventManager Obj) : List (Event Obj) :=
  m.events.filter fun it =>
    (it.hash &&& hashMap ≠ 0 && last < it.id) && !checkOverlap it last

/-- The last number told, or the client's own if there is none, and for each
application the events of it. -/
def timeout (hashMap : BitVec 32) (last : Nat) (m : EventManager Obj) :
    Nat × (String → List (Event Obj)) :=
  let events := m.told hashMap last
  let lastEvent := events.foldl (fun lastEvent it => if lastEvent < it.id then it.id else lastEvent) 0
  (if lastEvent = 0 then last else lastEvent, fun app => events.filter fun it => it.app = app)

end EventManager

end Drunos.Rest

/-
# Drunos.Controller.Callbacks — the two callbacks of ControllerImpl

`Controller.cc` answers libfluid through two callbacks: `message_callback`, for a
message on a connection, and `connection_callback`, for a change of the
connection itself. Both reach the switch through the connection's application
data, a pointer into the table `switches`; entries of that table are never
erased, so the pointer is the datapath id it was created for.

What libfluid decides is an input here: the type byte of a message, whether its
bytes unpack as that type, the datapath id, the transaction id and the multipart
type they carry. A callback returns the new controller and what it did, in order
(`Effect`). Reading `ctx->connection` through a null context is the effect
`nullContext`, reading the xid of a message without a `base()` is `nullBase`, and
`outOfBounds` is an index behind the end of `static_ofresponse`; after each of them
the callback goes no further.
-/
import Drunos.Theory.Run
import Mathlib.Logic.Function.Basic

namespace Drunos.Controller

set_option autoImplicit false

abbrev ConnId := Nat
abbrev Dpid := Nat

/-! ## Messages -/

/-- `OFPT_` constants of OpenFlow 1.3. -/
abbrev OFPT_ERROR : UInt8 := 1
abbrev OFPT_FEATURES_REPLY : UInt8 := 6
abbrev OFPT_GET_CONFIG_REPLY : UInt8 := 8
abbrev OFPT_PACKET_IN : UInt8 := 10
abbrev OFPT_FLOW_REMOVED : UInt8 := 11
abbrev OFPT_PORT_STATUS : UInt8 := 12
abbrev OFPT_MULTIPART_REPLY : UInt8 := 19
abbrev OFPT_BARRIER_REPLY : UInt8 := 21
abbrev OFPT_QUEUE_GET_CONFIG_REPLY : UInt8 := 23
abbrev OFPT_ROLE_REPLY : UInt8 := 25
abbrev OFPT_GET_ASYNC_REPLY : UInt8 := 27

/-- The types the constructor of `OFMsgUnion` has a case for. -/
def ofMsgUnionTypes : List UInt8 :=
  [OFPT_ERROR, OFPT_FEATURES_REPLY, OFPT_GET_CONFIG_REPLY, OFPT_PACKET_IN, OFPT_FLOW_REMOVED,
    OFPT_PORT_STATUS, OFPT_BARRIER_REPLY, OFPT_QUEUE_GET_CONFIG_REPLY, OFPT_ROLE_REPLY,
    OFPT_GET_ASYNC_REPLY, OFPT_MULTIPART_REPLY]

/-- The `OFPMP_` constants `reparseMultipartReply` has a case for, `OFPMP_DESC` to
`OFPMP_PORT_DESC`. -/
def multipartTypes : List UInt16 := (List.range 14).map UInt16.ofNat

/-- A message as the callback sees it: `unpacks` says that its bytes unpack as
`type`, the fields after it are what they then say. -/
structure Message where
  type : UInt8
  unpacks : Bool
  xid : BitVec 32
  datapathId : Dpid
  mpartType : UInt16 := 0
  deriving DecidableEq

/-- What the constructor of `OFMsgUnion` does with the bytes. A multipart reply of
another type is destroyed again, and `base()` is null then. -/
inductive Union
  | parsed
  | withoutBase
  | parseError
  | unhandledType
  deriving DecidableEq

def ofMsgUnion (m : Message) : Union :=
  if m.type ∈ ofMsgUnionTypes then
    if m.unpacks then
      if m.type = OFPT_MULTIPART_REPLY ∧ m.mpartType ∉ multipartTypes then .withoutBase else .parsed
    else .parseError
  else .unhandledType

/-! ## State -/

/-- What `SwitchBase` sends when it is created or reinitialised. -/
inductive SwitchMessage
  | clearTables
  | barrierRequest
  | installGoto (table next : UInt8)
  | installTableMiss (table : UInt8)
  deriving DecidableEq

/-- `ControllerImpl`'s settings: `handlers` maps a message type to the handlers
registered for it, `none` where the map has no entry. -/
structure Config where
  cbench : Bool
  maxTable : UInt8
  handlers : UInt8 → Option (List Nat)

/-- `ControllerImpl`: the application data of each connection, for each known
datapath id the connection its `SwitchConnection` refers to (`m_ofconn`), the
table of static transactions, null where one was destroyed, and the xid behind
theirs. -/
structure ControllerImpl where
  applicationData : ConnId → Option Dpid
  switches : Dpid → Option (Option ConnId)
  staticOfresponse : List (Option Nat)
  minSessionXid : BitVec 32

def minXid : BitVec 32 := 0xfff

/-- No connection has a context and no switch is known; `min_session_xid` was
incremented for each entry of the table. -/
def ControllerImpl.initial (staticOfresponse : List (Option Nat)) : ControllerImpl where
  applicationData := fun _ => none
  switches := fun _ => none
  staticOfresponse := staticOfresponse
  minSessionXid := minXid + BitVec.ofNat 32 staticOfresponse.length

/-- What a callback does. -/
inductive Effect
  | packetOut (conn : ConnId) (xid : BitVec 32)
  | handler (id : Nat) (dpid : Dpid)
  | uncaughtParseError
  | nullContext
  | nullBase
  | outOfBounds
  | discarded
  | malformed
  | unhandledType
  | send (conn : ConnId) (message : SwitchMessage)
  | switchUp (dpid : Dpid)
  | switchDown (dpid : Dpid)
  | portStatus (dpid : Dpid)
  | flowRemoved (dpid : Dpid)
  | transactionError (id : Nat) (dpid : Dpid)
  | transactionResponse (id : Nat) (dpid : Dpid)
  deriving DecidableEq

/-! ## message_callback -/

/-- `SwitchBase::reinit`, and the body of its constructor. -/
def reinit (maxTable : UInt8) : List SwitchMessage :=
  .clearTables ::
    ((List.range maxTable.toNat).flatMap fun i =>
        [.barrierRequest, .installGoto (UInt8.ofNat i) (UInt8.ofNat i + 1)]) ++
      [.barrierRequest, .installTableMiss maxTable]

/-- `createSwitchBase`: a known datapath id keeps its entry, whose connection is
replaced; either way the tables of the switch are set up again. -/
def createSwitchBase (cfg : Config) (s : ControllerImpl) (conn : ConnId) (dpid : Dpid) :
    ControllerImpl × List Effect :=
  ({ s with switches := Function.update s.switches dpid (some (some conn)) },
    (reinit cfg.maxTable).map (.send conn))

/-- The handlers registered for the type of `m`, and whether the callback goes
on after them. `ctx->connection` is read before `apply` is entered. -/
def applyHandlers (cfg : Config) (ctx : Option Dpid) (m : Message) : List Effect × Bool :=
  match cfg.handlers m.type with
  | none => ([], true)
  | some hs =>
      match ctx with
      | none => ([.nullContext], false)
      | some dpid =>
          if m.unpacks then (hs.map (.handler · dpid), true) else ([.uncaughtParseError], false)

/-- The transaction the `default` branch finds for an xid, or nothing where it
reads behind the end of the vector. -/
def transactionOf (staticOfresponse : List (Option Nat)) (minSessionXid xid : BitVec 32) :
    Option (Option Nat) :=
  if xid < minXid then some none
  else if xid < minSessionXid then staticOfresponse[(xid - minXid).toNat]?
  else some none

/-- The `default` branch: a reply to a static transaction. -/
def dispatchTransaction (s : ControllerImpl) (dpid : Dpid) (m : Message) : List Effect :=
  match transactionOf s.staticOfresponse s.minSessionXid m.xid with
  | some (some id) =>
      if m.type = OFPT_ERROR then [.transactionError id dpid] else [.transactionResponse id dpid]
  | some none => []
  | none => [.outOfBounds]

/-- The `switch` over the type of a parsed message. -/
def dispatchMessage (cfg : Config) (s : ControllerImpl) (conn : ConnId) (m : Message) :
    ControllerImpl × List Effect :=
  if m.type = OFPT_FEATURES_REPLY then
    let created := createSwitchBase cfg s conn m.datapathId
    ({ created.1 with
        applicationData := Function.update s.applicationData conn (some m.datapathId) },
      created.2 ++ [.switchUp m.datapathId])
  else
    match s.applicationData conn with
    | none => (s, if m.type = OFPT_PORT_STATUS then [] else [.nullContext])
    | some dpid =>
        if m.type = OFPT_PORT_STATUS then (s, [.portStatus dpid])
        else if m.type = OFPT_FLOW_REMOVED then (s, [.flowRemoved dpid])
        else (s, dispatchTransaction s dpid m)

def messageCallback (cfg : Config) (s : ControllerImpl) (conn : ConnId) (m : Message) :
    ControllerImpl × List Effect :=
  if cfg.cbench ∧ m.type = OFPT_PACKET_IN then (s, [.packetOut conn m.xid])
  else
    let ctx := s.applicationData conn
    let (applied, goesOn) := applyHandlers cfg ctx m
    if goesOn then
      if ctx = none ∧ m.type ≠ OFPT_FEATURES_REPLY then (s, applied ++ [.discarded])
      else
        match ofMsgUnion m with
        | .parseError => (s, applied ++ [.malformed])
        | .unhandledType => (s, applied ++ [.unhandledType])
        | .withoutBase => (s, applied ++ [.nullBase])
        | .parsed =>
            let (next, effects) := dispatchMessage cfg s conn m
            (next, applied ++ effects)
    else (s, applied)

/-! ## connection_callback -/

/-- The events of `OFConnection` the callback distinguishes. -/
inductive ConnectionEvent
  | started
  | established
  | failedNegotiation
  | closed
  | dead
  deriving DecidableEq

/-- The common body of `EVENT_CLOSED` and `EVENT_DEAD`. -/
def detach (s : ControllerImpl) (conn : ConnId) : ControllerImpl × List Effect :=
  match s.applicationData conn with
  | none => (s, [])
  | some dpid =>
      ({ s with
          applicationData := Function.update s.applicationData conn none
          switches := Function.update s.switches dpid (some none) },
        [.switchDown dpid])

def connectionCallback (s : ControllerImpl) (conn : ConnId) :
    ConnectionEvent → ControllerImpl × List Effect
  | .started => ({ s with applicationData := Function.update s.applicationData conn none }, [])
  | .established => (s, [])
  | .failedNegotiation => (s, [])
  | .closed => detach s conn
  | .dead => detach s conn

/-! ## The system -/

/-- What libfluid reports, on one of the connections. -/
inductive Event
  | connection (conn : ConnId) (event : ConnectionEvent)
  | message (conn : ConnId) (m : Message)
  deriving DecidableEq

/-- Runs the callback of one event. -/
def callback (cfg : Config) (s : ControllerImpl) : Event → ControllerImpl × List Effect
  | .connection conn event => connectionCallback s conn event
  | .message conn m => messageCallback cfg s conn m

end Drunos.Controller

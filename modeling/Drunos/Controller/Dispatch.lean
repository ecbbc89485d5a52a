/-
# Drunos.Controller.Dispatch — what a message may reach

A connection gets a context with its first `FEATURES_REPLY` and loses it when it
ends. Before and after, `message_callback` should give no handler, transaction or
signal the message, and should not read the context. `Phase` is what the events
of one connection say about it, whatever the controller did with them.

The callback looks for registered handlers before it looks at the context, and
its `FEATURES_REPLY` case does not ask whether the connection has ended.
`servesOnlyReady_iff` says that these two are all: a run serves ready connections
only, exactly when no other connection sends a message of a type some handler is
registered for or a packet-in the benchmark mode answers, and none that has ended
sends a `FEATURES_REPLY`.
-/
import Drunos.Controller.Superseded

namespace Drunos.Controller

open Drunos.Theory.Run

set_option autoImplicit false

/-- What has happened on a connection since it started. -/
inductive Phase
  | fresh
  | ready
  | closed
  deriving DecidableEq

/-- The controller with the phase of every connection. -/
structure Phased where
  controller : ControllerImpl
  phase : ConnId → Phase

def Phased.initial (staticOfresponse : List (Option Nat)) : Phased where
  controller := .initial staticOfresponse
  phase := fun _ => .fresh

/-- A readable `FEATURES_REPLY`. -/
def Message.isFeaturesReply (m : Message) : Bool :=
  m.type = OFPT_FEATURES_REPLY ∧ m.unpacks = true

/-- A started connection is fresh, a `FEATURES_REPLY` makes it ready, and its end
closes it for good. -/
def Phase.after (phase : Phase) : Event → Phase
  | .connection _ .started => .fresh
  | .connection _ event => if event.ends then .closed else phase
  | .message _ m => if phase ≠ .closed ∧ m.isFeaturesReply then .ready else phase

def Event.conn : Event → ConnId
  | .connection conn _ => conn
  | .message conn _ => conn

def phasedStep (cfg : Config) (w : Phased) (e : Event) : Phased where
  controller := (callback cfg w.controller e).1
  phase := Function.update w.phase e.conn ((w.phase e.conn).after e)

/-- The message is given to a handler, a transaction or a signal. -/
def Effect.delivers : Effect → Bool
  | .handler .. | .switchUp .. | .portStatus .. | .flowRemoved .. => true
  | .transactionError .. | .transactionResponse .. => true
  | _ => false

/-- No callback reads a null context. A message on a connection that is not ready
is delivered to nothing, unless it is the `FEATURES_REPLY` that makes it ready;
and it is discarded, unless it is a `FEATURES_REPLY`. -/
def ServesOnlyReady (cfg : Config) (w : Phased) (e : Event) : Prop :=
  Effect.nullContext ∉ (callback cfg w.controller e).2 ∧
  ∀ conn m, e = .message conn m → w.phase conn ≠ .ready →
    (¬(w.phase conn = .fresh ∧ m.isFeaturesReply) →
      ∀ effect ∈ (callback cfg w.controller e).2, effect.delivers = false) ∧
    (m.type ≠ OFPT_FEATURES_REPLY →
      callback cfg w.controller e = (w.controller, [.discarded]))

/-- A message on a connection that is not ready has no registered handler, is no
benchmark packet-in, and is no `FEATURES_REPLY` if the connection ended. -/
def Expected (cfg : Config) (w : Phased) (e : Event) : Prop :=
  ∀ conn m, e = .message conn m → w.phase conn ≠ .ready →
    cfg.handlers m.type = none ∧ ¬(cfg.cbench ∧ m.type = OFPT_PACKET_IN) ∧
      (w.phase conn = .closed → ¬m.isFeaturesReply)

/-- Exactly the ready connections have a context. -/
def ContextWhenReady (w : Phased) : Prop :=
  ∀ conn, (w.controller.applicationData conn).isSome ↔ w.phase conn = .ready

theorem initial_contextWhenReady (staticOfresponse : List (Option Nat)) :
    ContextWhenReady (.initial staticOfresponse) := by
  simp [ContextWhenReady, Phased.initial, ControllerImpl.initial]

theorem isFeaturesReply_iff {m : Message} :
    m.isFeaturesReply = true ↔ m.type = OFPT_FEATURES_REPLY ∧ m.unpacks = true := by
  simp [Message.isFeaturesReply]

/-! ## What one callback does -/

theorem dispatchTransaction_notNull (s : ControllerImpl) (dpid : Dpid) (m : Message) :
    Effect.nullContext ∉ dispatchTransaction s dpid m := by
  unfold dispatchTransaction
  repeat' split
  all_goals simp

/-- With a context at hand no callback reads a null one. -/
theorem messageCallback_notNull {cfg : Config} {s : ControllerImpl} {conn : ConnId} {dpid : Dpid}
    (m : Message) (held : s.applicationData conn = some dpid) :
    Effect.nullContext ∉ (messageCallback cfg s conn m).2 := by
  have applied : Effect.nullContext ∉ (applyHandlers cfg (some dpid) m).1 := by
    unfold applyHandlers
    repeat' split
    all_goals simp_all
  have dispatched : Effect.nullContext ∉ (dispatchMessage cfg s conn m).2 := by
    unfold dispatchMessage
    split
    · simp [createSwitchBase]
    · simp only [held]
      have silent := dispatchTransaction_notNull s dpid m
      repeat' split
      all_goals simp [silent]
  simp only [messageCallback, held]
  repeat' split
  all_goals simp_all

/-- Without a context and without a handler, a message that is no
`FEATURES_REPLY` is discarded. -/
theorem messageCallback_discards {cfg : Config} {s : ControllerImpl} {conn : ConnId} {m : Message}
    (held : s.applicationData conn = none) (unhandled : cfg.handlers m.type = none)
    (noBench : ¬(cfg.cbench ∧ m.type = OFPT_PACKET_IN)) (other : m.type ≠ OFPT_FEATURES_REPLY) :
    messageCallback cfg s conn m = (s, [.discarded]) := by
  simp [messageCallback, applyHandlers, held, unhandled, other, if_neg noBench]

/-- Without a handler a `FEATURES_REPLY` announces the switch if its bytes can be
read, and is malformed otherwise. -/
theorem messageCallback_featuresReply {cfg : Config} (s : ControllerImpl) (conn : ConnId)
    {m : Message} (unhandled : cfg.handlers m.type = none) (reply : m.type = OFPT_FEATURES_REPLY) :
    (messageCallback cfg s conn m).2 =
      if m.unpacks then (reinit cfg.maxTable).map (.send conn) ++ [.switchUp m.datapathId]
      else [.malformed] := by
  have noBench : ¬(cfg.cbench ∧ m.type = OFPT_PACKET_IN) := by
    rw [reply]
    exact fun packetIn => absurd packetIn.2 (by decide)
  have union := ofMsgUnion_featuresReply reply
  simp only [messageCallback, if_neg noBench, applyHandlers, unhandled]
  cases unpacks : m.unpacks with
  | false => simp [reply, union, unpacks]
  | true => simp [reply, union, unpacks, dispatchMessage_featuresReply reply]

theorem connectionCallback_notNull (s : ControllerImpl) (conn : ConnId) (event : ConnectionEvent) :
    Effect.nullContext ∉ (connectionCallback s conn event).2 := by
  cases event <;> simp only [connectionCallback, detach] <;> (try split) <;> simp

/-- A readable `FEATURES_REPLY` announces the datapath, unless a handler for its
type meets a null context first. -/
theorem announces_iff {cfg : Config} {s : ControllerImpl} {conn : ConnId} {m : Message}
    (safe : Effect.nullContext ∉ (messageCallback cfg s conn m).2) :
    Announces cfg s conn m ↔ m.isFeaturesReply = true := by
  rw [isFeaturesReply_iff]
  exact ⟨fun h => ⟨h.1, h.2.1⟩, fun h => ⟨h.1, h.2, safe⟩⟩

/-! ## What one event does -/

theorem servesOnlyReady_of_expected {cfg : Config} {w : Phased} {e : Event}
    (context : ContextWhenReady w) (expected : Expected cfg w e) : ServesOnlyReady cfg w e := by
  cases e with
  | connection conn event =>
      exact ⟨connectionCallback_notNull _ _ _, fun _ _ message => by cases message⟩
  | message conn m =>
      by_cases ready : w.phase conn = .ready
      · obtain ⟨dpid, held⟩ := Option.isSome_iff_exists.mp ((context conn).mpr ready)
        refine ⟨messageCallback_notNull m held, ?_⟩
        rintro _ _ ⟨⟩ notReady
        exact absurd ready notReady
      · obtain ⟨unhandled, noBench, closedSilent⟩ := expected conn m rfl ready
        have held : w.controller.applicationData conn = none := by
          simpa [ready] using context conn
        by_cases reply : m.type = OFPT_FEATURES_REPLY
        · have effects := messageCallback_featuresReply w.controller conn unhandled reply
          refine ⟨?_, ?_⟩
          · simp only [callback, effects]
            split <;> simp
          · rintro _ _ ⟨⟩ -
            refine ⟨fun notFresh => ?_, fun other => absurd reply other⟩
            -- a readable reply is on a fresh connection, the case excluded here
            have unread : m.unpacks = false := by
              by_contra unpacks
              have isReply := isFeaturesReply_iff.mpr ⟨reply, by simpa using unpacks⟩
              cases phase : w.phase conn with
              | fresh => exact notFresh ⟨phase, isReply⟩
              | ready => exact ready phase
              | closed => exact closedSilent phase isReply
            simp [callback, effects, unread, Effect.delivers]
        · have discards := messageCallback_discards held unhandled noBench reply
          refine ⟨by simp [callback, discards], ?_⟩
          rintro _ _ ⟨⟩ -
          refine ⟨fun _ => ?_, fun _ => discards⟩
          simp [callback, discards, Effect.delivers]

/-- A handler registered for the type of a message that comes without a context
makes the callback read the null context. -/
theorem messageCallback_handled {cfg : Config} {s : ControllerImpl} {conn : ConnId} {m : Message}
    (held : s.applicationData conn = none) (handled : cfg.handlers m.type ≠ none)
    (noBench : ¬(cfg.cbench ∧ m.type = OFPT_PACKET_IN)) :
    messageCallback cfg s conn m = (s, [.nullContext]) := by
  obtain ⟨hs, registered⟩ := Option.ne_none_iff_exists'.mp handled
  simp [messageCallback, applyHandlers, held, registered, if_neg noBench]

theorem expected_of_servesOnlyReady {cfg : Config} {w : Phased} {e : Event}
    (context : ContextWhenReady w) (serves : ServesOnlyReady cfg w e) : Expected cfg w e := by
  rintro conn m rfl notReady
  obtain ⟨safe, messages⟩ := serves
  obtain ⟨undelivered, discarded⟩ := messages conn m rfl notReady
  have held : w.controller.applicationData conn = none := by
    simpa [notReady] using context conn
  have noBench : ¬(cfg.cbench ∧ m.type = OFPT_PACKET_IN) := by
    intro bench
    have other : m.type ≠ OFPT_FEATURES_REPLY := by
      rw [bench.2]
      decide
    have answered := congrArg Prod.snd (discarded other)
    simp [callback, messageCallback, bench] at answered
  have unhandled : cfg.handlers m.type = none := by
    by_contra handled
    rw [callback, messageCallback_handled held handled noBench] at safe
    simp at safe
  refine ⟨unhandled, noBench, fun closed isReply => ?_⟩
  obtain ⟨reply, unpacks⟩ := isFeaturesReply_iff.mp isReply
  have effects := messageCallback_featuresReply w.controller conn unhandled reply
  have silent := undelivered (by simp [closed]) (.switchUp m.datapathId)
  simp [callback, effects, unpacks, Effect.delivers] at silent

/-- One event is served as it should exactly when it is expected. -/
theorem servesOnlyReady_step_iff {cfg : Config} {w : Phased} {e : Event}
    (context : ContextWhenReady w) : ServesOnlyReady cfg w e ↔ Expected cfg w e :=
  ⟨expected_of_servesOnlyReady context, servesOnlyReady_of_expected context⟩

/-- The application data of the other connections is kept. -/
theorem callback_other (cfg : Config) (s : ControllerImpl) {e : Event} {other : ConnId}
    (ne : other ≠ e.conn) :
    (callback cfg s e).1.applicationData other = s.applicationData other := by
  cases e with
  | connection conn event =>
      simp only [Event.conn] at ne
      cases event <;> simp only [callback, connectionCallback, detach] <;> (try split) <;>
        simp [Function.update_of_ne ne]
  | message conn m =>
      simp only [Event.conn] at ne
      simp only [callback, messageCallback_state]
      split <;> simp [Function.update_of_ne ne]

theorem phasedStep_contextWhenReady {cfg : Config} {w : Phased} {e : Event}
    (context : ContextWhenReady w) (expected : Expected cfg w e) :
    ContextWhenReady (phasedStep cfg w e) := by
  intro other
  by_cases ne : other = e.conn
  swap
  · simpa [phasedStep, callback_other cfg w.controller ne, Function.update_of_ne ne]
      using context other
  subst ne
  simp only [phasedStep, Function.update_self]
  cases e with
  | connection conn event =>
      have same := context conn
      cases event with
      | started => simp [callback, connectionCallback, Event.conn, Phase.after]
      | established | failedNegotiation =>
          simpa [callback, connectionCallback, Event.conn, Phase.after, ConnectionEvent.ends]
            using same
      | closed | dead =>
          cases held : w.controller.applicationData conn <;>
            simp [callback, connectionCallback, detach, held, Event.conn, Phase.after,
              ConnectionEvent.ends]
  | message conn m =>
      have safe := (servesOnlyReady_of_expected context expected).1
      have same := context conn
      simp only [callback, messageCallback_state, announces_iff safe, Event.conn, Phase.after]
      by_cases isReply : m.isFeaturesReply = true
      · have isOpen : w.phase conn ≠ .closed := fun closed =>
          (expected conn m rfl (by simp [closed])).2.2 closed isReply
        simp [isReply, isOpen]
      · simpa [isReply] using same

/-! ## Whole runs -/

/-- **A run gives handlers, transactions and signals no message of a connection
that is not ready, and discards such messages, exactly when they are all expected:
of a type without a handler, no benchmark packet-in, and no `FEATURES_REPLY` after
the connection ended.** -/
theorem servesOnlyReady_iff (cfg : Config) (staticOfresponse : List (Option Nat))
    (es : List Event) :
    Each (phasedStep cfg) (ServesOnlyReady cfg) (.initial staticOfresponse) es ↔
      Each (phasedStep cfg) (Expected cfg) (.initial staticOfresponse) es :=
  each_iff_of_invariant (fun _ _ => servesOnlyReady_step_iff)
    (fun _ _ => phasedStep_contextWhenReady) (initial_contextWhenReady staticOfresponse)

/-- A packet-in before the `FEATURES_REPLY`, with a handler registered for it:
the callback reads the null context. -/
def earlyPacketIn : List Event :=
  [.connection 1 .started,
    .message 1 { type := OFPT_PACKET_IN, unpacks := true, xid := 0, datapathId := 0 }]

theorem earlyPacketIn_readsNull :
    let cfg : Config :=
      { cbench := false, maxTable := 0
        handlers := fun type => if type = OFPT_PACKET_IN then some [0] else none }
    ¬Each (phasedStep cfg) (ServesOnlyReady cfg) (.initial []) earlyPacketIn := by
  rintro cfg ⟨-, ⟨safe, -⟩, -⟩
  exact safe (by decide)

/-- A `FEATURES_REPLY` after the connection was closed: the switch goes up. -/
example :
    let cfg : Config := { cbench := false, maxTable := 0, handlers := fun _ => none }
    let reply : Message :=
      { type := OFPT_FEATURES_REPLY, unpacks := true, xid := 0, datapathId := 7 }
    ¬Each (phasedStep cfg) (ServesOnlyReady cfg) (.initial [])
      [.connection 1 .closed, .message 1 reply] := by
  rintro cfg reply ⟨-, ⟨-, messages⟩, -⟩
  have silent := (messages 1 reply rfl (by decide)).1 (by decide) (.switchUp 7)
  exact absurd (silent (by decide)) (by decide)

end Drunos.Controller

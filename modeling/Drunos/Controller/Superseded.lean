/-
# Drunos.Controller.Superseded — which connection a datapath id refers to

Several connections may announce one datapath id. The entry of the id in
`switches` should follow the newest of them, and the late close of an older one
should pass without effect. `Watched` puts beside the controller what an observer
of the events knows: for each datapath id the connection that announced it last,
and whether that connection has stayed open since.

`createSwitchBase` takes the entry over but leaves the application data of the
older connection in place, so that `connection_callback` still finds the entry
when the older one goes. `keepsNewest_iff` says that this is the only way the
entry goes wrong: a run keeps every entry with its newest connection exactly when
no connection goes away whose entry another one has taken over.
-/
import Drunos.Controller.Callbacks

namespace Drunos.Controller

open Drunos.Theory.Run

set_option autoImplicit false

/-- `m` is a `FEATURES_REPLY` the callback reads to its end: it does not stop at
a null context on the way. -/
def Announces (cfg : Config) (s : ControllerImpl) (conn : ConnId) (m : Message) : Prop :=
  m.type = OFPT_FEATURES_REPLY ∧ m.unpacks = true ∧
    Effect.nullContext ∉ (messageCallback cfg s conn m).2

instance (cfg : Config) (s : ControllerImpl) (conn : ConnId) (m : Message) :
    Decidable (Announces cfg s conn m) :=
  inferInstanceAs (Decidable (_ ∧ _ ∧ _))

/-- The connection that announced each datapath id last, and whether it has been
open since. -/
abbrev Announced := Dpid → Option (ConnId × Bool)

/-- Connection `conn` is gone. -/
def Announced.gone (last : Announced) (conn : ConnId) : Announced := fun dpid =>
  (last dpid).map fun a => if a.1 = conn then (a.1, false) else a

/-- The controller with what an observer of the events knows. -/
structure Watched where
  controller : ControllerImpl
  last : Announced

def Watched.initial (staticOfresponse : List (Option Nat)) : Watched where
  controller := .initial staticOfresponse
  last := fun _ => none

/-- The event ends the connection. -/
def ConnectionEvent.ends : ConnectionEvent → Bool
  | .closed | .dead => true
  | _ => false

def observe (cfg : Config) (w : Watched) : Event → Announced
  | .connection conn event => if event.ends then w.last.gone conn else w.last
  | .message conn m =>
      if Announces cfg w.controller conn m then
        Function.update w.last m.datapathId (some (conn, true))
      else w.last

def watchedStep (cfg : Config) (w : Watched) (e : Event) : Watched where
  controller := (callback cfg w.controller e).1
  last := observe cfg w e

/-- After the event every datapath id whose newest announcer is still open
refers to it; and if the event ends a connection that another one has superseded
for `dpid`, it neither reports the switch down nor touches the entry. -/
def KeepsNewest (cfg : Config) (w : Watched) (e : Event) : Prop :=
  (∀ dpid conn, (watchedStep cfg w e).last dpid = some (conn, true) →
    (watchedStep cfg w e).controller.switches dpid = some (some conn)) ∧
  ∀ conn event, e = .connection conn event → event.ends = true →
    ∀ dpid newer isOpen, w.last dpid = some (newer, isOpen) → newer ≠ conn →
      Effect.switchDown dpid ∉ (callback cfg w.controller e).2 ∧
      (watchedStep cfg w e).controller.switches dpid = w.controller.switches dpid

/-- If the event ends a connection that still carries a context, no other
connection has announced the context's datapath id since. -/
def EndsOwnContext (w : Watched) (e : Event) : Prop :=
  ∀ conn event, e = .connection conn event → event.ends = true →
    ∀ dpid, w.controller.applicationData conn = some dpid →
      ∀ newest isOpen, w.last dpid = some (newest, isOpen) → newest = conn

/-! ## What one callback changes -/

theorem dispatchMessage_other {cfg : Config} {s : ControllerImpl} {conn : ConnId} {m : Message}
    (other : m.type ≠ OFPT_FEATURES_REPLY) : (dispatchMessage cfg s conn m).1 = s := by
  unfold dispatchMessage
  rw [if_neg other]
  cases s.applicationData conn with
  | none => rfl
  | some dpid => simp only; split <;> [rfl; (split <;> rfl)]

theorem ofMsgUnion_featuresReply {m : Message} (reply : m.type = OFPT_FEATURES_REPLY) :
    ofMsgUnion m = if m.unpacks then .parsed else .parseError := by
  have single : ¬(m.type = OFPT_MULTIPART_REPLY ∧ m.mpartType ∉ multipartTypes) := by
    rw [reply]
    exact fun multipart => absurd multipart.1 (by decide)
  unfold ofMsgUnion
  rw [if_pos (by rw [reply]; decide), if_neg single]

theorem dispatchMessage_featuresReply {cfg : Config} {s : ControllerImpl} {conn : ConnId}
    {m : Message} (reply : m.type = OFPT_FEATURES_REPLY) :
    dispatchMessage cfg s conn m =
      ({ s with
          applicationData := Function.update s.applicationData conn (some m.datapathId)
          switches := Function.update s.switches m.datapathId (some (some conn)) },
        (reinit cfg.maxTable).map (.send conn) ++ [.switchUp m.datapathId]) := by
  simp [dispatchMessage, createSwitchBase, reply]

/-- The handlers stop the callback at a null context or at bytes that do not
unpack, and only then is a null context read. -/
theorem applyHandlers_spec (cfg : Config) (ctx : Option Dpid) (m : Message) :
    ((applyHandlers cfg ctx m).2 = true ∧ Effect.nullContext ∉ (applyHandlers cfg ctx m).1) ∨
      applyHandlers cfg ctx m = ([.nullContext], false) ∨
      (m.unpacks = false ∧ applyHandlers cfg ctx m = ([.uncaughtParseError], false)) := by
  unfold applyHandlers
  cases cfg.handlers m.type with
  | none => exact .inl (by simp)
  | some hs =>
      cases ctx with
      | none => exact .inr (.inl rfl)
      | some dpid =>
          cases unpacks : m.unpacks with
          | false => exact .inr (.inr ⟨rfl, by simp⟩)
          | true => exact .inl (by simp)

/-- A callback either announces, and then the entry of the datapath id and the
application data of the connection are set, or it changes nothing. -/
theorem messageCallback_state (cfg : Config) (s : ControllerImpl) (conn : ConnId) (m : Message) :
    (messageCallback cfg s conn m).1 =
      if Announces cfg s conn m then
        { s with
          applicationData := Function.update s.applicationData conn (some m.datapathId)
          switches := Function.update s.switches m.datapathId (some (some conn)) }
      else s := by
  by_cases reply : m.type = OFPT_FEATURES_REPLY
  · have notPacketIn : ¬(cfg.cbench ∧ m.type = OFPT_PACKET_IN) := by
      rw [reply]
      exact fun packetIn => absurd packetIn.2 (by decide)
    have union := ofMsgUnion_featuresReply reply
    simp only [Announces, messageCallback, if_neg notPacketIn]
    rcases applyHandlers_spec cfg (s.applicationData conn) m with
      ⟨goesOn, notNull⟩ | stops | ⟨unpacks, stops⟩
    · cases unpacks : m.unpacks with
      | false => simp [goesOn, reply, union, unpacks]
      | true =>
          simp [goesOn, notNull, reply, union, unpacks, dispatchMessage_featuresReply reply]
    · simp [stops]
    · simp [stops, unpacks]
  · have silent : ¬Announces cfg s conn m := fun announces => reply announces.1
    rw [if_neg silent]
    simp only [messageCallback]
    repeat' split
    all_goals first | rfl | exact dispatchMessage_other reply

/-! ## What one event keeps -/

/-- What every watched run keeps: an entry whose newest announcer is open refers
to it, and a context is only held for a datapath id that was announced. -/
structure Follows (w : Watched) : Prop where
  newest : ∀ dpid conn, w.last dpid = some (conn, true) →
    w.controller.switches dpid = some (some conn)
  announced : ∀ conn dpid, w.controller.applicationData conn = some dpid →
    (w.last dpid).isSome = true

theorem initial_follows (staticOfresponse : List (Option Nat)) :
    Follows (.initial staticOfresponse) where
  newest := by simp [Watched.initial]
  announced := by simp [Watched.initial, ControllerImpl.initial]

theorem gone_open {last : Announced} {conn other : ConnId} {dpid : Dpid} :
    last.gone conn dpid = some (other, true) ↔ last dpid = some (other, true) ∧ other ≠ conn := by
  unfold Announced.gone
  rcases last dpid with _ | ⟨announcer, isOpen⟩
  · simp
  · by_cases same : announcer = conn
    · subst same; simp; tauto
    · simp only [Option.map_some, same, if_false, Option.some.injEq, Prod.mk.injEq]
      constructor
      · rintro ⟨rfl, rfl⟩; exact ⟨⟨rfl, rfl⟩, same⟩
      · exact fun h => h.1

@[simp] theorem gone_isSome {last : Announced} {conn : ConnId} {dpid : Dpid} :
    (last.gone conn dpid).isSome = (last dpid).isSome := by
  simp [Announced.gone]

/-- A connection that ends is detached, whichever way it ends. -/
theorem connectionCallback_ends {s : ControllerImpl} {conn : ConnId} {event : ConnectionEvent}
    (ends : event.ends = true) : connectionCallback s conn event = detach s conn := by
  cases event <;> first | rfl | simp [ConnectionEvent.ends] at ends

/-- Any other connection event leaves the entries alone and at most clears the
application data of its connection. -/
theorem connectionCallback_stays (s : ControllerImpl) (conn : ConnId) {event : ConnectionEvent}
    (stays : event.ends = false) :
    (connectionCallback s conn event).1.switches = s.switches ∧
      ∀ other dpid, (connectionCallback s conn event).1.applicationData other = some dpid →
        s.applicationData other = some dpid := by
  cases event with
  | started =>
      refine ⟨rfl, fun other dpid held => ?_⟩
      by_cases same : other = conn
      · subst same; simp [connectionCallback] at held
      · simpa [connectionCallback, same] using held
  | established => exact ⟨rfl, fun _ _ held => held⟩
  | failedNegotiation => exact ⟨rfl, fun _ _ held => held⟩
  | closed => simp [ConnectionEvent.ends] at stays
  | dead => simp [ConnectionEvent.ends] at stays

theorem message_follows {cfg : Config} {w : Watched} {conn : ConnId} {m : Message}
    (follows : Follows w) : Follows (watchedStep cfg w (.message conn m)) := by
  by_cases announces : Announces cfg w.controller conn m
  · refine ⟨fun dpid other newest => ?_, fun other dpid held => ?_⟩
    · simp only [watchedStep, callback, observe, messageCallback_state, if_pos announces]
        at newest ⊢
      by_cases same : dpid = m.datapathId
      · subst same; simp_all
      · simp only [Function.update_of_ne same] at newest ⊢
        exact follows.newest dpid other newest
    · simp only [watchedStep, callback, observe, messageCallback_state, if_pos announces] at held ⊢
      by_cases same : dpid = m.datapathId
      · subst same; simp
      · rw [Function.update_of_ne same]
        by_cases self : other = conn
        · subst self; simp [Ne.symm same] at held
        · rw [Function.update_of_ne self] at held
          exact follows.announced other dpid held
  · simpa only [watchedStep, callback, observe, messageCallback_state, if_neg announces]
      using follows

/-- The end of a connection keeps every entry, when its context's datapath id
was not announced by another connection since. -/
theorem ends_follows {cfg : Config} {w : Watched} {conn : ConnId} {event : ConnectionEvent}
    (follows : Follows w) (ends : event.ends = true)
    (own : EndsOwnContext w (.connection conn event)) :
    Follows (watchedStep cfg w (.connection conn event)) := by
  simp only [watchedStep, callback, observe, connectionCallback_ends ends, ends, if_true]
  cases held : w.controller.applicationData conn with
  | none =>
      refine ⟨fun dpid other newest => ?_, fun other dpid context => ?_⟩
      · simp only [detach, held] at newest ⊢
        exact follows.newest dpid other (gone_open.mp newest).1
      · simp only [detach, held] at context ⊢
        simpa using follows.announced other dpid context
  | some context =>
      refine ⟨fun dpid other newest => ?_, fun other dpid kept => ?_⟩
      · simp only [detach, held] at newest ⊢
        obtain ⟨before, ne⟩ := gone_open.mp newest
        by_cases same : dpid = context
        · subst same
          exact absurd (own conn event rfl ends dpid held other true before) ne
        · rw [Function.update_of_ne same]
          exact follows.newest dpid other before
      · simp only [detach, held] at kept ⊢
        by_cases self : other = conn
        · subst self; simp at kept
        · rw [Function.update_of_ne self] at kept
          simpa using follows.announced other dpid kept

theorem watchedStep_follows {cfg : Config} {w : Watched} {e : Event} (follows : Follows w)
    (own : EndsOwnContext w e) : Follows (watchedStep cfg w e) := by
  cases e with
  | message conn m => exact message_follows follows
  | connection conn event =>
      cases ends : event.ends with
      | true => exact ends_follows follows ends own
      | false =>
          obtain ⟨switches, context⟩ := connectionCallback_stays w.controller conn ends
          refine ⟨fun dpid other newest => ?_, fun other dpid held => ?_⟩
          · simp only [watchedStep, callback, observe, ends, switches] at newest ⊢
            exact follows.newest dpid other newest
          · simp only [watchedStep, callback, observe, ends] at held ⊢
            exact follows.announced other dpid (context other dpid held)

/-- One event keeps every entry with its newest connection exactly when it does
not end a connection whose context another one has taken over. -/
theorem keepsNewest_step_iff {cfg : Config} {w : Watched} {e : Event} (follows : Follows w) :
    KeepsNewest cfg w e ↔ EndsOwnContext w e := by
  constructor
  · intro keeps conn event same ends dpid held newest isOpen announced
    by_contra superseded
    have silent := (keeps.2 conn event same ends dpid newest isOpen announced superseded).1
    subst same
    exact silent (by simp [callback, connectionCallback_ends ends, detach, held])
  · intro own
    refine ⟨(watchedStep_follows follows own).newest, ?_⟩
    intro conn event same ends dpid newer isOpen announced superseded
    subst same
    simp only [watchedStep, callback, connectionCallback_ends ends]
    cases held : w.controller.applicationData conn with
    | none => simp [detach, held]
    | some context =>
        have ne : dpid ≠ context := by
          rintro rfl
          exact superseded (own conn event rfl ends dpid held newer isOpen announced)
        simp [detach, held, ne]

/-! ## Whole runs -/

/-- **A run keeps every datapath id with its newest open connection, and passes
over the end of a superseded one, exactly when no connection ends while it still
carries a context that another connection has taken over.** -/
theorem keepsNewest_iff (cfg : Config) (staticOfresponse : List (Option Nat)) (es : List Event) :
    Each (watchedStep cfg) (KeepsNewest cfg) (.initial staticOfresponse) es ↔
      Each (watchedStep cfg) EndsOwnContext (.initial staticOfresponse) es :=
  each_iff_of_invariant (fun _ _ => keepsNewest_step_iff) (fun _ _ => watchedStep_follows)
    (initial_follows staticOfresponse)

/-- A switch reconnects and its old connection is closed afterwards: the close
reports the switch down and detaches the new connection. -/
def lateClose : List Event :=
  let reply : Message := { type := OFPT_FEATURES_REPLY, unpacks := true, xid := 0, datapathId := 7 }
  [.connection 1 .started, .message 1 reply, .connection 2 .started, .message 2 reply,
    .connection 1 .closed]

theorem lateClose_detaches :
    ¬Each (watchedStep { cbench := false, maxTable := 0, handlers := fun _ => none })
        (KeepsNewest { cbench := false, maxTable := 0, handlers := fun _ => none })
        (.initial []) lateClose := by
  rintro ⟨-, -, -, -, ⟨newest, -⟩, -⟩
  exact absurd (newest 7 2 (by decide)) (by decide)

end Drunos.Controller

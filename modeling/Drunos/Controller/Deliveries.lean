/-
# Drunos.Controller.Deliveries — what the controller tells the switch manager

The signals and responses of the controller are slots of `SwitchManager` (`init` of
`Switch.cc`), called in the order they were emitted. The manager looks a switch up with `at`,
which throws for one that has never come up, and its `Delete` event follows a pointer to the
`Add` of the switch.

A callback that reports a port or a response has a context, and a context comes with a
`switchUp` (`upFirst_run`). So neither goes wrong, whatever the connections do:
`deliveries_safe`.
-/
import Drunos.Controller.Superseded
import Drunos.Topology.Switches

namespace Drunos.Controller

open Drunos.Theory.Run Drunos.Topology

set_option autoImplicit false

/-! ## The effects of a run -/

/-- What the callbacks do along a run. -/
def effectsOf (cfg : Config) : ControllerImpl → List Event → List Effect
  | _, [] => []
  | s, e :: es => (callback cfg s e).2 ++ effectsOf cfg (callback cfg s e).1 es

/-- The switch manager looks the switch up with `at`. -/
def Effect.AsksFor (dpid : Dpid) : Effect → Prop
  | .portStatus d => d = dpid
  | .transactionResponse _ d => d = dpid
  | _ => False

/-- No switch is looked up before it has come up, when `known` ones have already. -/
def UpFirst (known : Dpid → Prop) : List Effect → Prop
  | [] => True
  | effect :: rest => (∀ dpid, effect.AsksFor dpid → known dpid) ∧
      UpFirst (fun dpid => known dpid ∨ effect = .switchUp dpid) rest

theorem UpFirst.mono {effects : List Effect} : ∀ {known more : Dpid → Prop},
    (∀ dpid, known dpid → more dpid) → UpFirst known effects → UpFirst more effects := by
  induction effects with
  | nil => exact fun _ _ => trivial
  | cons effect rest ih =>
      rintro known more sub ⟨first, later⟩
      exact ⟨fun dpid asks => sub dpid (first dpid asks),
        ih (fun dpid => Or.imp_left (sub dpid)) later⟩

theorem upFirst_append {effects rest : List Effect} : ∀ {known : Dpid → Prop},
    UpFirst known effects → UpFirst (fun dpid => known dpid ∨ .switchUp dpid ∈ effects) rest →
      UpFirst known (effects ++ rest) := by
  induction effects with
  | nil => exact fun _ later => later.mono fun dpid => by simp
  | cons effect effects ih =>
      rintro known ⟨first, more⟩ later
      refine ⟨first, ih more (later.mono fun dpid => ?_)⟩
      simp only [List.mem_cons, or_assoc, eq_comm, imp_self]

theorem upFirst_of_known {effects : List Effect} : ∀ {known : Dpid → Prop},
    (∀ effect ∈ effects, ∀ dpid, effect.AsksFor dpid → known dpid) → UpFirst known effects := by
  induction effects with
  | nil => exact fun _ => trivial
  | cons effect rest ih =>
      intro known all
      obtain ⟨first, later⟩ := List.forall_mem_cons.mp all
      exact ⟨first, ih fun other mem dpid asks => .inl (later other mem dpid asks)⟩

/-! ## One callback -/

section

variable {cfg : Config} {s : ControllerImpl} {e : Event} {conn : ConnId} {dpid : Dpid}

theorem dispatchTransaction_asks {m : Message} {d : Dpid} {effect : Effect}
    (mem : effect ∈ dispatchTransaction s d m) (asks : effect.AsksFor dpid) : d = dpid := by
  unfold dispatchTransaction at mem
  repeat' split at mem
  all_goals simp_all [Effect.AsksFor]

theorem dispatchMessage_asks {m : Message} {effect : Effect}
    (mem : effect ∈ (dispatchMessage cfg s conn m).2) (asks : effect.AsksFor dpid) :
    s.applicationData conn = some dpid := by
  by_cases reply : m.type = OFPT_FEATURES_REPLY
  · rw [dispatchMessage_featuresReply reply] at mem
    rcases List.mem_append.mp mem with sent | up
    · obtain ⟨message, -, rfl⟩ := List.mem_map.mp sent
      exact asks.elim
    · rw [List.mem_singleton.mp up] at asks
      exact asks.elim
  · rw [dispatchMessage, if_neg reply] at mem
    cases held : s.applicationData conn with
    | none =>
        simp only [held] at mem
        split at mem
        · exact absurd mem List.not_mem_nil
        · rw [List.mem_singleton.mp mem] at asks
          exact asks.elim
    | some d =>
        simp only [held] at mem
        refine congrArg some ?_
        split at mem
        · rw [List.mem_singleton.mp mem] at asks
          exact asks
        · split at mem
          · rw [List.mem_singleton.mp mem] at asks
            exact asks.elim
          · exact dispatchTransaction_asks mem asks

/-- The registered handlers look no switch up. -/
theorem applyHandlers_asks {ctx : Option Dpid} {m : Message} {effect : Effect}
    (mem : effect ∈ (applyHandlers cfg ctx m).1) : ¬effect.AsksFor dpid := by
  unfold applyHandlers at mem
  split at mem
  · exact absurd mem List.not_mem_nil
  · split at mem
    · rw [List.mem_singleton.mp mem]
      exact id
    · split at mem
      · obtain ⟨handler, -, rfl⟩ := List.mem_map.mp mem
        exact id
      · rw [List.mem_singleton.mp mem]
        exact id

/-- A message is dispatched after the handlers, or goes no further than they do. -/
theorem messageCallback_cases (cfg : Config) (s : ControllerImpl) (conn : ConnId) (m : Message) :
    ((messageCallback cfg s conn m).1 = s ∧
      ∀ effect ∈ (messageCallback cfg s conn m).2, ∀ dpid, ¬effect.AsksFor dpid) ∨
    messageCallback cfg s conn m = ((dispatchMessage cfg s conn m).1,
      (applyHandlers cfg (s.applicationData conn) m).1 ++ (dispatchMessage cfg s conn m).2) := by
  have applied : ∀ effect ∈ (applyHandlers cfg (s.applicationData conn) m).1, ∀ dpid,
      ¬effect.AsksFor dpid := fun _ mem _ => applyHandlers_asks mem
  have stops : ∀ last : Effect, (∀ dpid, ¬last.AsksFor dpid) →
      ∀ effect ∈ (applyHandlers cfg (s.applicationData conn) m).1 ++ [last], ∀ dpid,
        ¬effect.AsksFor dpid := by
    intro last silent effect mem
    rcases List.mem_append.mp mem with before | after
    · exact applied effect before
    · rw [List.mem_singleton.mp after]
      exact silent
  unfold messageCallback
  split
  · exact .inl ⟨rfl, fun effect mem dpid => by rw [List.mem_singleton.mp mem]; exact id⟩
  · simp only
    split
    · split
      · exact .inl ⟨rfl, stops .discarded fun _ => id⟩
      · split
        · exact .inl ⟨rfl, stops .malformed fun _ => id⟩
        · exact .inl ⟨rfl, stops .unhandledType fun _ => id⟩
        · exact .inl ⟨rfl, stops .nullBase fun _ => id⟩
        · exact .inr rfl
    · exact .inl ⟨rfl, applied⟩

/-- What the callback looks up belongs to the context of its connection. -/
theorem callback_asks {effect : Effect} (mem : effect ∈ (callback cfg s e).2)
    (asks : effect.AsksFor dpid) : ∃ conn, s.applicationData conn = some dpid := by
  cases e with
  | connection conn event =>
      have silent : ∀ effect ∈ (connectionCallback s conn event).2, ¬effect.AsksFor dpid := by
        cases event <;> simp only [connectionCallback, detach] <;> (try split) <;>
          simp [Effect.AsksFor]
      exact absurd asks (silent effect mem)
  | message conn m =>
      simp only [callback] at mem
      rcases messageCallback_cases cfg s conn m with ⟨-, silent⟩ | dispatched
      · exact absurd asks (silent effect mem dpid)
      · rw [dispatched] at mem
        rcases List.mem_append.mp mem with applied | dispatched
        · exact absurd asks (applyHandlers_asks applied)
        · exact ⟨conn, dispatchMessage_asks dispatched asks⟩

/-- A new context comes with a `switchUp`. -/
theorem callback_context (held : (callback cfg s e).1.applicationData conn = some dpid) :
    s.applicationData conn = some dpid ∨ Effect.switchUp dpid ∈ (callback cfg s e).2 := by
  cases e with
  | connection other event =>
      refine .inl ?_
      cases ends : event.ends with
      | false => exact (connectionCallback_stays s other ends).2 conn dpid held
      | true =>
          simp only [callback, connectionCallback_ends ends, detach] at held
          split at held
          · exact held
          · by_cases same : conn = other
            · simp [same] at held
            · simpa [same] using held
  | message other m =>
      simp only [callback] at held ⊢
      rcases messageCallback_cases cfg s other m with ⟨same, -⟩ | dispatched
      · rw [same] at held
        exact .inl held
      · rw [dispatched] at held ⊢
        by_cases reply : m.type = OFPT_FEATURES_REPLY
        · rw [dispatchMessage_featuresReply reply] at held ⊢
          by_cases same : conn = other
          · subst same
            obtain rfl : m.datapathId = dpid := by simpa using held
            exact .inr (by simp)
          · exact .inl (by simpa [same] using held)
        · rw [dispatchMessage_other reply] at held
          exact .inl held

end

/-- **No callback reports a port or a response of a switch before one has reported that the switch
has come up.** -/
theorem upFirst_run (cfg : Config) : ∀ (es : List Event) {s : ControllerImpl} {known : Dpid → Prop},
    (∀ conn dpid, s.applicationData conn = some dpid → known dpid) →
      UpFirst known (effectsOf cfg s es)
  | [], _, _, _ => trivial
  | e :: es, s, known, contexts => by
      refine upFirst_append (upFirst_of_known fun effect mem dpid asks => ?_)
        (upFirst_run cfg es fun conn dpid held => ?_)
      · obtain ⟨conn, held⟩ := callback_asks mem asks
        exact contexts conn dpid held
      · exact (callback_context held).imp_left (contexts conn dpid)

/-! ## The switch manager -/

/-- What the switch manager is given for the effects, when its transactions for the ports and for the
description have the numbers `pdescr` and `swdescr`. A response of an unexpected type is logged. -/
inductive Delivered (pdescr swdescr : Nat) : List Effect → List SwitchEvent → Prop
  | nil : Delivered pdescr swdescr [] []
  | switchUp {dpid : Dpid} {fr : FeaturesReply} {rest : List Effect} {ss : List SwitchEvent}
      (own : fr.datapathId = BitVec.ofNat 64 dpid) (more : Delivered pdescr swdescr rest ss) :
      Delivered pdescr swdescr (.switchUp dpid :: rest) (.switchUp fr :: ss)
  | switchDown {dpid : Dpid} {rest : List Effect} {ss : List SwitchEvent}
      (more : Delivered pdescr swdescr rest ss) :
      Delivered pdescr swdescr (.switchDown dpid :: rest) (.switchDown (BitVec.ofNat 64 dpid) :: ss)
  | portStatus {dpid : Dpid} {ps : PortStatus} {rest : List Effect} {ss : List SwitchEvent}
      (more : Delivered pdescr swdescr rest ss) :
      Delivered pdescr swdescr (.portStatus dpid :: rest)
        (.portStatus (BitVec.ofNat 64 dpid) ps :: ss)
  | portDescriptions {dpid : Dpid} {ports : List OfPort} {rest : List Effect} {ss : List SwitchEvent}
      (more : Delivered pdescr swdescr rest ss) :
      Delivered pdescr swdescr (.transactionResponse pdescr dpid :: rest)
        (.portDescriptions (BitVec.ofNat 64 dpid) ports :: ss)
  | switchDescriptions {dpid : Dpid} {desc : SwitchDesc} {rest : List Effect} {ss : List SwitchEvent}
      (more : Delivered pdescr swdescr rest ss) :
      Delivered pdescr swdescr (.transactionResponse swdescr dpid :: rest)
        (.switchDescriptions (BitVec.ofNat 64 dpid) desc :: ss)
  | unexpected {id : Nat} {dpid : Dpid} {rest : List Effect} {ss : List SwitchEvent}
      (more : Delivered pdescr swdescr rest ss) :
      Delivered pdescr swdescr (.transactionResponse id dpid :: rest) ss
  | other {effect : Effect} {rest : List Effect} {ss : List SwitchEvent}
      (foreign : ∀ dpid, effect ≠ .switchUp dpid ∧ effect ≠ .switchDown dpid ∧ ¬effect.AsksFor dpid)
      (more : Delivered pdescr swdescr rest ss) :
      Delivered pdescr swdescr (effect :: rest) ss

/-- An event for REST clients; there is no event manager after a null pointer was followed. -/
def record (rest : Rest.RestHandler) (events : Rest.EventManager (BitVec 64)) :
    Emitted → Option (Rest.EventManager (BitVec 64))
  | .addEvent type dpid => events.addToEventList type dpid rest
  | _ => some events

/-- What the switch manager does with an event, if it goes on. -/
def serve (rest : Rest.RestHandler) (s : SwitchManager × Rest.EventManager (BitVec 64))
    (e : SwitchEvent) : Option (SwitchManager × Rest.EventManager (BitVec 64)) :=
  (s.1.handle e).bind fun (m, out) => (out.foldlM (record rest) s.2).map fun events => (m, events)

/-- The switches that have come up are known, and the `Delete` of each finds an `Add`. -/
structure Serves (rest : Rest.RestHandler) (known : Dpid → Prop)
    (s : SwitchManager × Rest.EventManager (BitVec 64)) : Prop where
  found : ∀ dpid, known dpid → (s.1.getSwitch (BitVec.ofNat 64 dpid)).isSome = true
  added : rest.hash ≠ 0 → ∀ dpid, (s.1.getSwitch dpid).isSome = true →
    (Rest.EventManager.findBrother dpid s.2.events).isSome = true

section

variable {rest : Rest.RestHandler}

open Drunos.Rest Drunos.Rest.EventManager

theorem findBrother_isSome {dpid : BitVec 64} {events : List (Rest.Event (BitVec 64))} :
    (findBrother dpid events).isSome = true ↔ ∃ it ∈ events, it.obj = dpid ∧ it.type = .add := by
  simp [findBrother, List.find?_isSome]

/-- An event is added unless it is a `Delete` without an `Add`; what has an `Add` keeps it. -/
theorem addToEventList_added {events : EventManager (BitVec 64)} (type : EventType) {dpid : BitVec 64}
    (brother : rest.hash ≠ 0 → type = .delete → (findBrother dpid events.events).isSome = true) :
    ∃ events', events.addToEventList type dpid rest = some events' ∧
      (∀ d, (findBrother d events.events).isSome = true → (findBrother d events'.events).isSome = true) ∧
      (rest.hash ≠ 0 → type = .add → (findBrother dpid events'.events).isSome = true) := by
  unfold addToEventList
  by_cases off : rest.hash = 0
  · exact ⟨events, if_pos off, fun _ => id, fun on => absurd off on⟩
  · simp only [if_neg off]
    by_cases deletes : type = .delete
    · obtain ⟨it, found⟩ := Option.isSome_iff_exists.mp (brother off deletes)
      refine ⟨_, by rw [if_pos deletes, found]; rfl, fun d => ?_, fun _ adds => ?_⟩
      · simp only [findBrother_isSome]
        rintro ⟨a, mem, same, add⟩
        refine ⟨if a.id = it.id then { a with brother := some (events.lastEvent + 1) } else a,
          List.mem_append_left _ (List.mem_map_of_mem mem), ?_⟩
        split <;> exact ⟨same, add⟩
      · rw [adds] at deletes
        cases deletes
    · refine ⟨_, if_neg deletes, fun d => ?_, fun _ adds => ?_⟩
      · simp only [findBrother_isSome]
        rintro ⟨a, mem, found⟩
        exact ⟨a, List.mem_append_left _ mem, found⟩
      · rw [findBrother_isSome]
        exact ⟨_, List.mem_append_right _ (List.mem_singleton_self _), rfl, adds⟩

/-- The events of one signal of the controller. -/
theorem record_run : ∀ {out : List Emitted} (events : EventManager (BitVec 64)),
    (rest.hash ≠ 0 → ∀ dpid, .addEvent .delete dpid ∈ out →
      (findBrother dpid events.events).isSome = true) →
    ∃ events', out.foldlM (record rest) events = some events' ∧
      (∀ d, (findBrother d events.events).isSome = true → (findBrother d events'.events).isSome = true) ∧
      (rest.hash ≠ 0 → ∀ dpid, .addEvent .add dpid ∈ out →
        (findBrother dpid events'.events).isSome = true)
  | [], events, _ => ⟨events, rfl, fun _ => id, fun _ _ mem => absurd mem List.not_mem_nil⟩
  | emitted :: out, events, brothers => by
      have one : ∃ events', record rest events emitted = some events' ∧
          (∀ d, (findBrother d events.events).isSome = true →
            (findBrother d events'.events).isSome = true) ∧
          (rest.hash ≠ 0 → ∀ dpid, emitted = .addEvent .add dpid →
            (findBrother dpid events'.events).isSome = true) := by
        by_cases event : ∃ type d, emitted = .addEvent type d
        · obtain ⟨type, d, rfl⟩ := event
          obtain ⟨events', result, kept, added⟩ := addToEventList_added type fun on deletes => brothers on d (deletes ▸ List.mem_cons_self)
          refine ⟨events', result, kept, fun on dpid same => ?_⟩
          obtain ⟨rfl, rfl⟩ := Emitted.addEvent.inj same
          exact added on rfl
        · refine ⟨events, ?_, fun _ => id, fun _ dpid same => absurd ⟨_, _, same⟩ event⟩
          cases emitted <;> first | rfl | exact absurd ⟨_, _, rfl⟩ event
      obtain ⟨next, result, kept, added⟩ := one
      obtain ⟨last, more, keptMore, addedMore⟩ := record_run next fun on dpid mem =>
        kept dpid (brothers on dpid (List.mem_cons_of_mem _ mem))
      refine ⟨last, by rw [List.foldlM_cons, result]; exact more,
        fun d before => keptMore d (kept d before), fun on dpid mem => ?_⟩
      rcases List.mem_cons.mp mem with same | mem
      · exact keptMore dpid (added on dpid same.symm)
      · exact addedMore on dpid mem

theorem serve_known {s : SwitchManager × EventManager (BitVec 64)} {known : Dpid → Prop}
    (serves : Serves rest known s) {e : SwitchEvent} (handled : (s.1.handle e).isSome = true) :
    ∃ s', serve rest s e = some s' ∧
      Serves rest (fun dpid => known dpid ∨ ∃ fr, e = .switchUp fr ∧ fr.datapathId = BitVec.ofNat 64 dpid) s' := by
  obtain ⟨⟨m, out⟩, result⟩ := Option.isSome_iff_exists.mp handled
  obtain ⟨adds, deletes⟩ := SwitchManager.handle_addEvent result
  obtain ⟨events, recorded, kept, added⟩ := record_run s.2 fun on dpid mem =>
    serves.added on dpid (deletes dpid mem)
  refine ⟨(m, events), by simp only [serve, result, Option.bind_some, recorded, Option.map_some],
    ⟨?_, ?_⟩⟩
  · intro dpid either
    rw [SwitchManager.handle_getSwitch result]
    exact either.imp (serves.found dpid) id
  · intro on dpid isKnown
    rcases (SwitchManager.handle_getSwitch result dpid).mp isKnown with before | ⟨fr, same, rfl⟩
    · exact kept dpid (serves.added on dpid before)
    · exact added on _ (adds fr same)

/-- A switch is looked up when it comes up or goes down, or is known. -/
theorem handle_isSome {m : SwitchManager} {e : SwitchEvent}
    (known : (m.getSwitch e.dpid).isSome = true) : (m.handle e).isSome = true := by
  obtain ⟨sw, found⟩ := Option.isSome_iff_exists.mp known
  rw [SwitchManager.handle_known found]
  rfl

theorem delivered_served {pdescr swdescr : Nat} {effects : List Effect} {ss : List SwitchEvent}
    (delivered : Delivered pdescr swdescr effects ss) :
    ∀ {known : Dpid → Prop} {s : SwitchManager × EventManager (BitVec 64)}, UpFirst known effects →
      Serves rest known s → (ss.foldlM (serve rest) s).isSome = true := by
  -- a signal that is handled, and then the rest
  have next : ∀ {effect : Effect} {e : SwitchEvent} {ss : List SwitchEvent} {known : Dpid → Prop}
      {s : SwitchManager × EventManager (BitVec 64)}, Serves rest known s →
      (s.1.handle e).isSome = true →
      (∀ dpid, effect = .switchUp dpid → ∃ fr, e = .switchUp fr ∧ fr.datapathId = BitVec.ofNat 64 dpid) →
      (∀ {s}, Serves rest (fun dpid => known dpid ∨ effect = .switchUp dpid) s →
        (ss.foldlM (serve rest) s).isSome = true) →
      ((e :: ss).foldlM (serve rest) s).isSome = true := by
    intro effect e ss known s serves handled ups ih
    obtain ⟨s', result, serves'⟩ := serve_known serves handled
    rw [List.foldlM_cons, result]
    exact ih ⟨fun dpid either => serves'.found dpid (either.imp_right (ups dpid)), serves'.added⟩
  induction delivered with
  | nil => exact fun _ _ => rfl
  | switchUp own more ih =>
      rintro known s ⟨-, later⟩ serves
      refine next serves rfl (fun dpid same => ?_) (ih later)
      obtain rfl := Effect.switchUp.inj same
      exact ⟨_, rfl, own⟩
  | switchDown more ih =>
      rintro known s ⟨-, later⟩ serves
      exact next serves rfl (by rintro _ ⟨⟩) (ih later)
  | @portStatus dpid _ _ _ more ih =>
      rintro known s ⟨first, later⟩ serves
      exact next serves (handle_isSome (serves.found dpid (first dpid rfl)))
        (by rintro _ ⟨⟩) (ih later)
  | @portDescriptions dpid _ _ _ more ih =>
      rintro known s ⟨first, later⟩ serves
      exact next serves (handle_isSome (serves.found dpid (first dpid rfl)))
        (by rintro _ ⟨⟩) (ih later)
  | @switchDescriptions dpid _ _ _ more ih =>
      rintro known s ⟨first, later⟩ serves
      exact next serves (handle_isSome (serves.found dpid (first dpid rfl)))
        (by rintro _ ⟨⟩) (ih later)
  | unexpected more ih =>
      rintro known s ⟨-, later⟩ serves
      exact ih (later.mono fun dpid either => either.elim id fun same => nomatch same) serves
  | other foreign more ih =>
      rintro known s ⟨-, later⟩ serves
      exact ih (later.mono fun dpid either => either.elim id fun same =>
        absurd same (foreign dpid).1) serves

theorem serve_run_getSwitch : ∀ {ss : List SwitchEvent} {s s' : SwitchManager × EventManager (BitVec 64)},
    ss.foldlM (serve rest) s = some s' → ∀ dpid, (s'.1.getSwitch dpid).isSome = true ↔
      (s.1.getSwitch dpid).isSome = true ∨ ∃ fr, SwitchEvent.switchUp fr ∈ ss ∧ fr.datapathId = dpid
  | [], s, s', ended, dpid => by
      obtain rfl : s = s' := Option.some.inj ended
      simp
  | e :: ss, s, s', ended, dpid => by
      obtain ⟨⟨m, events⟩, first, more⟩ := Option.bind_eq_some_iff.mp ended
      obtain ⟨⟨m', out⟩, result, recorded⟩ := Option.bind_eq_some_iff.mp first
      obtain ⟨_, -, same⟩ := Option.map_eq_some_iff.mp recorded
      obtain ⟨rfl, rfl⟩ := Prod.mk.inj same
      rw [serve_run_getSwitch more, SwitchManager.handle_getSwitch result]
      simp only [List.mem_cons, or_and_right, exists_or, or_assoc, @eq_comm _ (SwitchEvent.switchUp _)]

end

/-- **Whatever libfluid reports, the switch manager looks up no switch that it does not know, and
follows no null pointer for its events; and the switches it knows are those that have come up.** -/
theorem deliveries_safe (cfg : Config) (staticOfresponse : List (Option Nat)) (es : List Event)
    {pdescr swdescr : Nat} (rest : Rest.RestHandler) {ss : List SwitchEvent}
    (delivered : Delivered pdescr swdescr (effectsOf cfg (.initial staticOfresponse) es) ss) :
    ∃ s, ss.foldlM (serve rest) ({}, {}) = some s ∧
      ∀ dpid, (s.1.getSwitch dpid).isSome = true ↔
        ∃ fr, SwitchEvent.switchUp fr ∈ ss ∧ fr.datapathId = dpid := by
  have start : Serves rest (fun _ => False) (({}, {}) : SwitchManager × Rest.EventManager (BitVec 64)) :=
    ⟨fun _ none => none.elim, fun _ dpid none => by simp [SwitchManager.getSwitch] at none⟩
  have first : UpFirst (fun _ => False) (effectsOf cfg (.initial staticOfresponse) es) :=
    upFirst_run cfg es fun conn dpid held => nomatch held
  obtain ⟨s, ended⟩ := Option.isSome_iff_exists.mp (delivered_served delivered first start)
  refine ⟨s, ended, fun dpid => (serve_run_getSwitch ended dpid).trans ?_⟩
  simp [SwitchManager.getSwitch]

/-- A switch announces itself and reports a port. -/
theorem deliveries_safe_port :
    ∃ s, [SwitchEvent.switchUp ⟨7, 0, 1, 0⟩,
        .portStatus 7 ⟨OFPPR_ADD, ⟨1, 5, "eth1", 0, 0, 0, 0, 0, 0⟩⟩].foldlM
          (serve ⟨1, "switch-manager"⟩) ({}, {}) = some s ∧
      ∀ dpid, (s.1.getSwitch dpid).isSome = true ↔ ∃ fr, SwitchEvent.switchUp fr ∈
        [SwitchEvent.switchUp ⟨7, 0, 1, 0⟩,
          .portStatus 7 ⟨OFPPR_ADD, ⟨1, 5, "eth1", 0, 0, 0, 0, 0, 0⟩⟩] ∧ fr.datapathId = dpid := by
  refine deliveries_safe { cbench := false, maxTable := 0, handlers := fun _ => none } []
    [.connection 1 .started, .message 1 ⟨OFPT_FEATURES_REPLY, true, 0, 7, 0⟩,
      .message 1 ⟨OFPT_PORT_STATUS, true, 0, 0, 0⟩] _ (?_ : Delivered 0 1 _ _)
  have effects : effectsOf { cbench := false, maxTable := 0, handlers := fun _ => none } (.initial [])
      [.connection 1 .started, .message 1 ⟨OFPT_FEATURES_REPLY, true, 0, 7, 0⟩,
        .message 1 ⟨OFPT_PORT_STATUS, true, 0, 0, 0⟩] =
      [.send 1 .clearTables, .send 1 .barrierRequest, .send 1 (.installTableMiss 0), .switchUp 7,
        .portStatus 7] := by decide
  rw [effects]
  exact .other (by simp [Effect.AsksFor]) (.other (by simp [Effect.AsksFor]) (.other
    (by simp [Effect.AsksFor]) (.switchUp rfl (.portStatus .nil))))

end Drunos.Controller

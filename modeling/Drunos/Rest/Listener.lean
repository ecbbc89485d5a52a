/-
# Drunos.Rest.Listener — whose events a client is told

`RestListener.cc`. Every application that makes events gets a bit of its own when it is
registered, until after the thirty-second one the bits have been shifted out. A client
asks for applications by their names; the listener looks up their bits and asks the event
manager with all of them. However registrations and events come, the client is told the
events of just the applications it has named (`timeout_apps`).
-/
import Drunos.Rest.EventManager
import Mathlib.Data.List.Induction
import Mathlib.Logic.Function.Basic

namespace Drunos.Rest

set_option autoImplicit false

structure RestListener where
  restHandlers : String → Option RestHandler := fun _ => none
  curHash : BitVec 32 := 1

namespace RestListener

def registerRestHandler (restName : String) (eventable : Bool) (l : RestListener) : RestListener :=
  if eventable then
    { restHandlers := Function.update l.restHandlers restName (some ⟨l.curHash, restName⟩)
      curHash := l.curHash * 2 }
  else { l with restHandlers := Function.update l.restHandlers restName (some ⟨0, restName⟩) }

/-- `apps_map` of a `/timeout` request. -/
def appsMap (apps : List String) (l : RestListener) : BitVec 32 :=
  apps.foldl (fun map app =>
    match l.restHandlers app with
    | none => map
    | some handler => map ||| handler.hash) 0

end RestListener

namespace RestListener

variable (l : RestListener) (eventable : Bool)

theorem register_same (restName : String) : (l.registerRestHandler restName eventable).restHandlers restName =
    some ⟨if eventable then l.curHash else 0, restName⟩ := by
  cases eventable <;> simp [registerRestHandler]

theorem register_other {restName other : String} (apart : other ≠ restName) :
    (l.registerRestHandler restName eventable).restHandlers other = l.restHandlers other := by
  cases eventable <;> simp [registerRestHandler, apart]

theorem register_curHash (restName : String) : (l.registerRestHandler restName eventable).curHash =
    if eventable then l.curHash * 2 else l.curHash := by
  cases eventable <;> rfl

end RestListener

/-! ## Bits -/

theorem curHash_next (n : Nat) : BitVec.twoPow 32 n * 2 = BitVec.twoPow 32 (n + 1) := by
  apply BitVec.eq_of_toNat_eq
  have two : (2 : BitVec 32).toNat = 2 := rfl
  rw [BitVec.toNat_mul, BitVec.toNat_twoPow, BitVec.toNat_twoPow, Nat.pow_succ, two]
  omega

theorem twoPow_ne_zero (n : Nat) : BitVec.twoPow 32 n ≠ 0 ↔ n < 32 := by
  constructor
  · intro some
    by_contra large
    exact some (BitVec.eq_of_toNat_eq (BitVec.toNat_twoPow_of_le (Nat.not_lt.mp large)))
  · intro small zero
    have value := congrArg BitVec.toNat zero
    rw [BitVec.toNat_twoPow_of_lt small] at value
    exact absurd value (Nat.ne_of_gt (Nat.two_pow_pos n))

/-- No bit is given twice. -/
theorem twoPow_apart {n k : Nat} (less : k < n) (same : BitVec.twoPow 32 n = BitVec.twoPow 32 k) :
    BitVec.twoPow 32 n = 0 := by
  by_contra some
  have small := (twoPow_ne_zero n).mp some
  have value := congrArg BitVec.toNat same
  rw [BitVec.toNat_twoPow_of_lt small, BitVec.toNat_twoPow_of_lt (Nat.lt_trans less small)] at value
  exact absurd (Nat.pow_lt_pow_right (by decide) less) (Nat.not_lt_of_le (Nat.le_of_eq value))

theorem twoPow_and_ne_zero (n : Nat) (map : BitVec 32) :
    BitVec.twoPow 32 n &&& map ≠ 0 ↔ map.getLsbD n = true := by
  rw [BitVec.twoPow_and]
  constructor
  · intro some
    by_contra other
    exact some (if_neg other)
  · intro inside
    rw [if_pos inside]
    exact (twoPow_ne_zero n).mpr (BitVec.lt_of_getLsbD inside)

/-! ## Registering, and making events -/

/-- What happens to the listener and the event manager. -/
inductive Happening (Obj : Type) where
  | register (restName : String) (eventable : Bool)
  | event (type : EventType) (obj : Obj) (restName : String)

variable {Obj : Type}

/-- The listener and the event manager it has. -/
structure Listening (Obj : Type) where
  listener : RestListener := {}
  em : EventManager Obj := {}

/-- The name that is registered. -/
def Happening.registers : Happening Obj → Option String
  | .register restName _ => some restName
  | .event .. => none

/-- Whether an application is registered that makes events. -/
def Happening.isEventable : Happening Obj → Bool
  | .register _ eventable => eventable
  | .event .. => false

section

variable [DecidableEq Obj]

/-- There is no result when an application has not been registered, whose `em` is not set. -/
def Listening.happen (s : Listening Obj) : Happening Obj → Option (Listening Obj)
  | .register restName eventable =>
      some { s with listener := s.listener.registerRestHandler restName eventable }
  | .event type obj restName =>
      match s.listener.restHandlers restName with
      | none => none
      | some handler => (s.em.addToEventList type obj handler).map fun em => { s with em }

/-- What has been registered has a bit of its own, and the events have the bits of their applications. -/
structure Listed (happened : List (Happening Obj)) (s : Listening Obj) : Prop where
  curHash : s.listener.curHash = BitVec.twoPow 32 (happened.countP Happening.isEventable)
  given : ∀ restName, .register restName true ∈ happened → ∃ k < happened.countP Happening.isEventable,
    s.listener.restHandlers restName = some ⟨BitVec.twoPow 32 k, restName⟩
  taken : ∀ k < happened.countP Happening.isEventable, ∃ restName, .register restName true ∈ happened ∧
    s.listener.restHandlers restName = some ⟨BitVec.twoPow 32 k, restName⟩
  named : ∀ restName handler, s.listener.restHandlers restName = some handler →
    handler.restName = restName ∧ restName ∈ happened.filterMap Happening.registers
  quiet : ∀ restName handler, s.listener.restHandlers restName = some handler → handler.hash ≠ 0 →
    .register restName true ∈ happened
  apart : ∀ restName other handler handler', s.listener.restHandlers restName = some handler →
    s.listener.restHandlers other = some handler' → handler.hash = handler'.hash → handler.hash ≠ 0 →
      restName = other
  recorded : ∀ e ∈ s.em.events, e.hash ≠ 0 ∧ s.listener.restHandlers e.app = some ⟨e.hash, e.app⟩

omit [DecidableEq Obj] in
theorem Listed.initial : Listed [] ({} : Listening Obj) where
  curHash := rfl
  given _ mem := absurd mem List.not_mem_nil
  taken _ small := absurd small (Nat.not_lt_zero _)
  named _ _ is := absurd is.symm (Option.some_ne_none _)
  quiet _ _ is := absurd is.symm (Option.some_ne_none _)
  apart _ _ _ _ is := absurd is.symm (Option.some_ne_none _)
  recorded _ mem := absurd mem List.not_mem_nil

variable {happened : List (Happening Obj)} {s s' : Listening Obj}

omit [DecidableEq Obj] in
theorem registers_mem {restName : String} {eventable : Bool}
    (mem : Happening.register restName eventable ∈ happened) :
    restName ∈ happened.filterMap Happening.registers := List.mem_filterMap.mpr ⟨_, mem, rfl⟩

omit [DecidableEq Obj] in
/-- An application is registered under a new name. -/
theorem Listed.register (listed : Listed happened s) {restName : String} (eventable : Bool)
    (fresh : restName ∉ happened.filterMap Happening.registers) :
    Listed (happened ++ [.register restName eventable])
      { s with listener := s.listener.registerRestHandler restName eventable } := by
  have count : (happened ++ [Happening.register restName eventable]).countP Happening.isEventable =
      happened.countP Happening.isEventable + if eventable then 1 else 0 := by
    rw [List.countP_append, List.countP_singleton]
    rfl
  have apart {other : String} (mem : other ∈ happened.filterMap Happening.registers) : other ≠ restName := by
    rintro rfl
    exact fresh mem
  have same := s.listener.register_same eventable restName
  rw [listed.curHash] at same
  constructor
  · rw [count, RestListener.register_curHash, listed.curHash]
    cases eventable
    · rfl
    · exact curHash_next _
  · intro other mem
    rw [count]
    rcases List.mem_append.mp mem with old | new
    · obtain ⟨k, small, handler⟩ := listed.given other old
      exact ⟨k, by omega, by rw [RestListener.register_other _ _ (apart (registers_mem old)), handler]⟩
    · obtain ⟨rfl, rfl⟩ := Happening.register.inj (List.mem_singleton.mp new)
      exact ⟨_, Nat.lt_succ_self _, same⟩
  · intro k small
    rw [count] at small
    by_cases old : k < happened.countP Happening.isEventable
    · obtain ⟨other, mem, handler⟩ := listed.taken k old
      refine ⟨other, List.mem_append_left _ mem, ?_⟩
      rw [RestListener.register_other _ _ (apart (registers_mem mem)), handler]
    · cases eventable
      · exact absurd small old
      · obtain rfl : k = happened.countP Happening.isEventable := by
          simp only [if_true] at small
          omega
        exact ⟨restName, List.mem_append_right _ (List.mem_singleton_self _), same⟩
  · intro other handler is
    by_cases new : other = restName
    · subst new
      obtain rfl := Option.some.inj (same.symm.trans is)
      exact ⟨rfl, registers_mem (List.mem_append_right _ (List.mem_singleton_self _))⟩
    · rw [RestListener.register_other _ _ new] at is
      obtain ⟨name, mem⟩ := listed.named other handler is
      rw [List.filterMap_append]
      exact ⟨name, List.mem_append_left _ mem⟩
  · intro other handler is some
    by_cases new : other = restName
    · subst new
      obtain rfl := Option.some.inj (same.symm.trans is)
      cases eventable
      · exact absurd rfl some
      · exact List.mem_append_right _ (List.mem_singleton_self _)
    · rw [RestListener.register_other _ _ new] at is
      exact List.mem_append_left _ (listed.quiet other handler is some)
  · have unshared (other : String) (handler handler' : RestHandler)
        (is : s.listener.restHandlers other = some handler')
        (new : some handler =
          some ⟨if eventable then BitVec.twoPow 32 (happened.countP Happening.isEventable) else 0, restName⟩)
        (hash : handler.hash = handler'.hash) (some : handler.hash ≠ 0) : False := by
      obtain rfl := Option.some.inj new
      obtain ⟨k, small, handler⟩ := listed.given other (listed.quiet other handler' is (hash ▸ some))
      obtain rfl := Option.some.inj (is.symm.trans handler)
      cases eventable
      · exact some rfl
      · exact some (twoPow_apart small hash)
    intro one other handler handler' is is' hash some
    by_cases new : one = restName
    · by_cases new' : other = restName
      · exact new.trans new'.symm
      · rw [RestListener.register_other _ _ new'] at is'
        rw [new, same] at is
        exact (unshared other handler handler' is' is.symm hash some).elim
    · rw [RestListener.register_other _ _ new] at is
      by_cases new' : other = restName
      · rw [new', same] at is'
        exact (unshared one handler' handler is is'.symm hash.symm (hash ▸ some)).elim
      · rw [RestListener.register_other _ _ new'] at is'
        exact listed.apart one other handler handler' is is' hash some
  · intro e mem
    obtain ⟨some, handler⟩ := listed.recorded e mem
    have known := (listed.named e.app _ handler).2
    exact ⟨some, by rw [RestListener.register_other _ _ (apart known), handler]⟩

/-- What is recorded of an event is that of its handler. -/
theorem addToEventList_recorded {type : EventType} {obj : Obj} {rest : RestHandler} {m m' : EventManager Obj}
    (added : m.addToEventList type obj rest = some m') : ∀ e ∈ m'.events,
      (∃ e' ∈ m.events, e'.hash = e.hash ∧ e'.app = e.app) ∨
        rest.hash ≠ 0 ∧ e.hash = rest.hash ∧ e.app = rest.restName := by
  rw [EventManager.addToEventList] at added
  split at added
  · obtain rfl := Option.some.inj added
    exact fun e mem => .inl ⟨e, mem, rfl, rfl⟩
  · rename_i some
    split at added
    · obtain ⟨it, -, rfl⟩ := Option.map_eq_some_iff.mp added
      intro e mem
      rcases List.mem_append.mp mem with old | new
      · obtain ⟨e', mem', rfl⟩ := List.mem_map.mp old
        refine .inl ⟨e', mem', ?_⟩
        split <;> exact ⟨rfl, rfl⟩
      · obtain rfl := List.mem_singleton.mp new
        exact .inr ⟨some, rfl, rfl⟩
    · obtain rfl := Option.some.inj added
      intro e mem
      rcases List.mem_append.mp mem with old | new
      · exact .inl ⟨e, old, rfl, rfl⟩
      · obtain rfl := List.mem_singleton.mp new
        exact .inr ⟨some, rfl, rfl⟩

/-- An event is made. -/
theorem Listed.event (listed : Listed happened s) {type : EventType} {obj : Obj} {restName : String}
    (happens : s.happen (.event type obj restName) = some s') :
    Listed (happened ++ [.event type obj restName]) s' := by
  cases known : s.listener.restHandlers restName with
  | none =>
      rw [Listening.happen, known] at happens
      cases happens
  | some handler =>
      rw [Listening.happen, known] at happens
      obtain ⟨em, added, rfl⟩ := Option.map_eq_some_iff.mp happens
      have count : (happened ++ [Happening.event type obj restName]).countP Happening.isEventable =
          happened.countP Happening.isEventable := by
        rw [List.countP_append]
        rfl
      have mem_iff (other : String) : Happening.register other true ∈ happened ++ [.event type obj restName] ↔
          .register other true ∈ happened := by simp
      refine ⟨by rw [count]; exact listed.curHash, ?_, ?_, ?_, ?_, listed.apart, ?_⟩
      · simpa only [count, mem_iff] using listed.given
      · simpa only [count, mem_iff] using listed.taken
      · intro other handler is
        obtain ⟨name, mem⟩ := listed.named other handler is
        rw [List.filterMap_append]
        exact ⟨name, List.mem_append_left _ mem⟩
      · exact fun other handler is some => List.mem_append_left _ (listed.quiet other handler is some)
      · intro e mem
        rcases addToEventList_recorded added e mem with ⟨e', mem', hash, app⟩ | ⟨some, hash, app⟩
        · exact hash ▸ app ▸ listed.recorded e' mem'
        · have name := (listed.named restName handler known).1
          refine ⟨hash ▸ some, ?_⟩
          rw [app, hash, name]
          exact known.trans (congrArg Option.some (congrArg (RestHandler.mk handler.hash) name))

/-- The listener after all that happens. -/
def Listening.run (happenings : List (Happening Obj)) : Option (Listening Obj) :=
  happenings.foldlM Listening.happen {}

/-- **Along a run with new names, every event has the bit of its application.** -/
theorem run_listed {happenings : List (Happening Obj)} (fresh : (happenings.filterMap Happening.registers).Nodup)
    (ran : Listening.run happenings = some s) : Listed happenings s := by
  induction happenings using List.reverseRecOn generalizing s with
  | nil =>
      obtain rfl := Option.some.inj ran
      exact .initial
  | append_singleton happenings last ih =>
      rw [Listening.run, List.foldlM_append] at ran
      obtain ⟨before, ran, happens⟩ := Option.bind_eq_some_iff.mp ran
      have happens : before.happen last = some s := by simpa using happens
      rw [List.filterMap_append, List.nodup_append] at fresh
      have listed := ih fresh.1 ran
      cases last with
      | register restName eventable =>
          obtain rfl := Option.some.inj happens
          refine listed.register eventable fun mem => ?_
          exact fresh.2.2 restName mem restName (List.mem_singleton_self _) rfl
      | event type obj restName => exact listed.event happens

omit [DecidableEq Obj] in
/-- The bits of the applications that a client asks for. -/
theorem getLsbD_appsMap (l : RestListener) (apps : List String) (k : Nat) :
    (l.appsMap apps).getLsbD k = true ↔
      ∃ app ∈ apps, ∃ handler, l.restHandlers app = some handler ∧ handler.hash.getLsbD k = true := by
  induction apps using List.reverseRecOn with
  | nil => simp [RestListener.appsMap]
  | append_singleton apps app ih =>
      have last : l.appsMap (apps ++ [app]) =
          match l.restHandlers app with
          | none => l.appsMap apps
          | some handler => l.appsMap apps ||| handler.hash := List.foldl_concat ..
      rw [last]
      cases known : l.restHandlers app with
      | none => simp [ih, known, or_and_right, exists_or]
      | some handler => simp [ih, known, or_and_right, exists_or]

omit [DecidableEq Obj] in
/-- An event is of the mask when its application is asked for. -/
theorem Listed.selected_iff (listed : Listed happened s) (apps : List String) {e : Event Obj}
    (mem : e ∈ s.em.events) : e.hash &&& s.listener.appsMap apps ≠ 0 ↔ e.app ∈ apps := by
  obtain ⟨some, handler⟩ := listed.recorded e mem
  obtain ⟨k, -, is⟩ := listed.given e.app (listed.quiet e.app _ handler some)
  have hash : e.hash = BitVec.twoPow 32 k := congrArg RestHandler.hash (Option.some.inj (handler.symm.trans is))
  have small : k < 32 := (twoPow_ne_zero k).mp (hash ▸ some)
  rw [hash, twoPow_and_ne_zero, getLsbD_appsMap]
  constructor
  · rintro ⟨app, asked, other, known, bit⟩
    have nonzero : other.hash ≠ 0 := by
      intro zero
      rw [zero] at bit
      simp at bit
    obtain ⟨k', -, is'⟩ := listed.given app (listed.quiet app _ known nonzero)
    obtain rfl := Option.some.inj (known.symm.trans is')
    rw [BitVec.getLsbD_twoPow] at bit
    obtain rfl : k' = k := by simpa [small] using (Bool.and_eq_true_iff.mp bit).2
    exact listed.apart app e.app _ _ known handler hash.symm nonzero ▸ asked
  · intro asked
    refine ⟨e.app, asked, _, handler, ?_⟩
    rw [hash, BitVec.getLsbD_twoPow]
    simp [small]

/-- **A client is told the events of the applications it asks for and of no other, and every application
that makes events has a bit exactly when there are no more than thirty-two of them.** -/
theorem timeout_apps {happenings : List (Happening Obj)}
    (fresh : (happenings.filterMap Happening.registers).Nodup) (ran : Listening.run happenings = some s)
    (apps : List String) (last : Nat) :
    (∀ app, (s.em.timeout (s.listener.appsMap apps) last).2 app =
      if app ∈ apps then
        s.em.events.filter fun e => e.app = app && last < e.id && !EventManager.checkOverlap e last
      else []) ∧
    ((∀ app, .register app true ∈ happenings →
        ∃ handler, s.listener.restHandlers app = some handler ∧ handler.hash ≠ 0) ↔
      happenings.countP Happening.isEventable ≤ 32) := by
  have listed := run_listed fresh ran
  constructor
  · intro app
    have told : (s.em.timeout (s.listener.appsMap apps) last).2 app = s.em.events.filter fun e =>
        e.app = app && ((e.hash &&& s.listener.appsMap apps ≠ 0 && last < e.id) &&
          !EventManager.checkOverlap e last) := List.filter_filter ..
    rw [told]
    split
    · rename_i asked
      refine List.filter_congr fun e mem => ?_
      by_cases own : e.app = app
      · have selected := (listed.selected_iff apps mem).mpr (own ▸ asked)
        rw [decide_eq_true selected, Bool.true_and, ← Bool.and_assoc]
      · simp [own]
    · rename_i other
      refine List.filter_eq_nil_iff.mpr fun e mem => ?_
      by_cases own : e.app = app
      · have selected := (listed.selected_iff apps mem).not.mpr (own ▸ other)
        rw [ne_eq, not_not] at selected
        simp [selected]
      · simp [own]
  · constructor
    · intro all
      by_contra many
      obtain ⟨app, mem, is⟩ := listed.taken 32 (Nat.not_le.mp many)
      obtain ⟨handler, known, some⟩ := all app mem
      obtain rfl := Option.some.inj (is.symm.trans known)
      exact absurd ((twoPow_ne_zero 32).mp some) (Nat.lt_irrefl 32)
    · intro few app mem
      obtain ⟨k, small, is⟩ := listed.given app mem
      exact ⟨_, is, (twoPow_ne_zero k).mpr (Nat.lt_of_lt_of_le small few)⟩

end

/-- Two applications, and an event of each. -/
def twoApps : List (Happening Nat) :=
  [.register "flow-manager" true, .register "host-manager" true, .event .add 0 "flow-manager",
    .event .add 1 "host-manager"]

theorem timeout_apps_two : ∃ s, Listening.run twoApps = some s ∧ ∀ app,
    (s.em.timeout (s.listener.appsMap ["flow-manager"]) 0).2 app =
      if app ∈ ["flow-manager"] then
        s.em.events.filter fun e => e.app = app && 0 < e.id && !EventManager.checkOverlap e 0
      else [] :=
  have fresh : (twoApps.filterMap Happening.registers).Nodup := by decide
  ⟨_, rfl, (timeout_apps fresh rfl ["flow-manager"] 0).1⟩

end Drunos.Rest

/-
# Drunos.Rest.Polls — what a polling client knows of the objects

A client polls with one mask and passes back the last number it was given. Replaying
what it is told should give the live objects of its applications. An object that is
added and deleted between two polls is passed over, its `Add` because it has a
brother and its `Delete` because the brother is newer than the client's number. But
the number the client is given next may lie between the two: then the `Delete` looks
like one the client has to be told. `tells_run` says that this is all that goes wrong.
-/
import Drunos.Rest.EventManager
import Drunos.Theory.Run
import Mathlib.Data.List.Nodup

namespace Drunos.Rest

open Drunos.Theory.Run

set_option autoImplicit false

variable {Obj : Type}

/-! ## The client -/

/-- Whether the client knows the object after it is told of events of it: `Add` and
`Delete` in turn. -/
def replay : Bool → List EventType → Option Bool
  | known, [] => some known
  | false, .add :: types => replay true types
  | true, .delete :: types => replay false types
  | _, _ :: _ => none

theorem replay_append (known : Bool) (types more : List EventType) :
    replay known (types ++ more) = (replay known types).bind fun known => replay known more := by
  fun_induction replay known types with
  | case1 known => rfl
  | case2 types ih => exact ih
  | case3 types ih => exact ih
  | case4 known type types notAdd notDelete =>
      cases known <;> cases type <;> simp_all [replay]

/-! ## The events of one object -/

/-- An `Add` and the `Delete` that is its brother. -/
structure Brothers (a d : Event Obj) : Prop where
  add : a.type = .add
  delete : d.type = .delete
  newer : a.brother = some d.id
  older : d.brother = some a.id

/-- Pairs of brothers, and an `Add` at the end if the object is live. -/
inductive Paired : Bool → List (Event Obj) → Prop
  | none : Paired false []
  | live {a : Event Obj} (add : a.type = .add) (single : a.brother = none) : Paired true [a]
  | pair {a d : Event Obj} {live : Bool} {rest : List (Event Obj)} (brothers : Brothers a d)
      (more : Paired live rest) : Paired live (a :: d :: rest)

/-- An object that is not live is added. -/
theorem Paired.append_add {events : List (Event Obj)} {live : Bool} (paired : Paired live events)
    (gone : live = false) {a : Event Obj} (add : a.type = .add) (single : a.brother = .none) :
    Paired true (events ++ [a]) := by
  induction paired with
  | none => exact .live add single
  | live => cases gone
  | pair brothers _ ih => exact .pair brothers (ih gone)

/-- A live object has an `Add` at the end, which gets its brother. -/
theorem Paired.append_delete {events : List (Event Obj)} {live : Bool}
    (paired : Paired live events) (isLive : live = true) :
    ∃ before a, events = before ++ [a] ∧ a.type = .add ∧ a.brother = .none ∧
      ∀ a' d, Brothers a' d → Paired false (before ++ [a', d]) := by
  induction paired with
  | none => cases isLive
  | @live a add single => exact ⟨[], a, rfl, add, single, fun a' d brothers => .pair brothers .none⟩
  | @pair a d live rest brothers _ ih =>
      obtain ⟨before, a', same, add, single, next⟩ := ih isLive
      exact ⟨a :: d :: before, a', by rw [same]; rfl, add, single,
        fun b e more => .pair brothers (next b e more)⟩

/-- The object was live at a number: it has an `Add` by then, and no `Delete`. -/
def liveAt (last : Nat) (events : List (Event Obj)) : Bool :=
  events.any fun a => a.type = .add && a.id ≤ last && a.brother.all fun d => last < d

/-- What a client is told of events, whatever the mask. -/
def news (last : Nat) (events : List (Event Obj)) : List (Event Obj) :=
  events.filter fun it => last < it.id && !EventManager.checkOverlap it last

theorem liveAt_newer {last : Nat} {events : List (Event Obj)}
    (newer : ∀ e ∈ events, last < e.id) : liveAt last events = false := by
  rw [liveAt, List.any_eq_false]
  intro e mem
  simp [Nat.not_le.mpr (newer e mem)]

/-- Events newer than the number leave what was live at it alone. -/
theorem liveAt_append {last : Nat} {events more : List (Event Obj)}
    (newer : ∀ e ∈ more, last < e.id) : liveAt last (events ++ more) = liveAt last events := by
  have none : liveAt last more = false := liveAt_newer newer
  unfold liveAt at none ⊢
  rw [List.any_append, none, Bool.or_false]

/-- What a client is told of an object takes it from what it was at the client's
number to what it is now. -/
theorem replay_news {live : Bool} {events : List (Event Obj)} (paired : Paired live events)
    (sorted : events.Pairwise fun a b => a.id < b.id) (last : Nat) :
    replay (liveAt last events) ((news last events).map Event.type) = some live := by
  induction paired with
  | none => rfl
  | @live a add single =>
      by_cases newer : last < a.id
      · simp [news, liveAt, EventManager.checkOverlap, add, single, newer, replay,
          Nat.not_le.mpr newer]
      · simp [news, liveAt, add, single, newer, replay, Nat.not_lt.mp newer]
  | @pair a d live rest brothers more ih =>
      obtain ⟨first, sorted⟩ := List.pairwise_cons.mp sorted
      obtain ⟨second, sorted⟩ := List.pairwise_cons.mp sorted
      have ih := ih sorted
      have order : a.id < d.id := first d List.mem_cons_self
      have add := brothers.add
      have delete := brothers.delete
      by_cases before : d.id ≤ last
      · -- both have been told
        have notNewer : ¬last < d.id := Nat.not_lt.mpr before
        have notNewer' : ¬last < a.id := by omega
        have same : news last (a :: d :: rest) = news last rest := by
          simp [news, notNewer, notNewer']
        have was : liveAt last (a :: d :: rest) = liveAt last rest := by
          simp [liveAt, brothers.newer, delete, notNewer]
        rw [same, was, ih]
      · have newer : last < d.id := Nat.lt_of_not_le before
        by_cases between : a.id ≤ last
        · -- the client knows the object and is told that it is gone
          have notNewer : ¬last < a.id := Nat.not_lt.mpr between
          have same : news last (a :: d :: rest) = d :: news last rest := by
            simp [news, notNewer, newer, EventManager.checkOverlap, delete, brothers.older]
          have was : liveAt last (a :: d :: rest) = true := by
            simp [liveAt, add, between, brothers.newer, newer]
          have gone : liveAt last rest = false :=
            liveAt_newer fun e mem => Nat.lt_trans newer (second e mem)
          rw [gone] at ih
          rw [same, was, List.map_cons, delete, replay, ih]
        · -- the pair is passed over
          have newer' : last < a.id := Nat.lt_of_not_le between
          have same : news last (a :: d :: rest) = news last rest := by
            simp [news, EventManager.checkOverlap, add, delete, brothers.newer, brothers.older,
              newer']
          have was : liveAt last (a :: d :: rest) = liveAt last rest := by
            simp [liveAt, delete, between]
          rw [same, was, ih]

/-- The events in a list of pairs: each `Add` is the last one or has its brother. -/
theorem Paired.add_cases {events : List (Event Obj)} {live : Bool} (paired : Paired live events) :
    (live = true → ∃ a ∈ events, a.type = .add ∧ a.brother = .none) ∧
      ∀ a ∈ events, a.type = .add →
        a.brother = .none ∧ live = true ∨ ∃ d ∈ events, Brothers a d := by
  induction paired with
  | none => exact ⟨fun no => (nomatch no), fun a mem => absurd mem List.not_mem_nil⟩
  | @live a add single =>
      refine ⟨fun _ => ⟨a, List.mem_singleton_self a, add, single⟩, fun b mem _ => .inl ?_⟩
      rw [List.mem_singleton.mp mem]
      exact ⟨single, rfl⟩
  | @pair a d live rest brothers _ ih =>
      refine ⟨fun isLive => ?_, fun b mem add => ?_⟩
      · obtain ⟨b, mem, found⟩ := ih.1 isLive
        exact ⟨b, List.mem_cons_of_mem _ (List.mem_cons_of_mem _ mem), found⟩
      · rcases List.mem_cons.mp mem with rfl | mem
        · exact .inr ⟨d, List.mem_cons_of_mem _ List.mem_cons_self, brothers⟩
        · rcases List.mem_cons.mp mem with rfl | mem
          · rw [brothers.delete] at add
            cases add
          · exact (ih.2 b mem add).imp_right fun ⟨e, mem, more⟩ =>
              ⟨e, List.mem_cons_of_mem _ (List.mem_cons_of_mem _ mem), more⟩

/-- A number up to which the client has been told everything, and that separates no
brothers the client was not told of, is as good as the present. -/
theorem liveAt_next {live : Bool} {events : List (Event Obj)} (paired : Paired live events)
    {last next : Nat} (later : last ≤ next) (told : ∀ e ∈ news last events, e.id ≤ next)
    (clear : ∀ a ∈ events, ∀ d ∈ events, Brothers a d → last < a.id → a.id ≤ next → d.id ≤ next) :
    liveAt next events = live := by
  obtain ⟨open', cases⟩ := paired.add_cases
  rw [Bool.eq_iff_iff]
  simp only [liveAt, List.any_eq_true, Bool.and_eq_true, decide_eq_true_eq, and_assoc]
  constructor
  · rintro ⟨a, mem, add, before, after⟩
    rcases cases a mem add with ⟨-, isLive⟩ | ⟨d, mem', brothers⟩
    · exact isLive
    · have after : next < d.id := by simpa [brothers.newer] using after
      by_cases old : a.id ≤ last
      · -- the client has been told of the `Delete`
        have isNews : d ∈ news last events := by
          have newer : last < d.id := Nat.lt_of_le_of_lt later after
          simp [news, mem', newer, EventManager.checkOverlap, brothers.delete, brothers.older, old]
        have := told d isNews
        omega
      · have := clear a mem d mem' brothers (Nat.lt_of_not_le old) before
        omega
  · intro isLive
    obtain ⟨a, mem, add, single⟩ := open' isLive
    refine ⟨a, mem, add, ?_, by simp [single]⟩
    by_cases old : a.id ≤ last
    · exact Nat.le_trans old later
    · refine told a ?_
      simp [news, mem, Nat.lt_of_not_le old, EventManager.checkOverlap, add, single]

/-! ## Events and polls -/

inductive Change (Obj : Type) where
  | add (obj : Obj)
  | delete (obj : Obj)
  | poll

/-- The event manager with the live objects, and a client. -/
structure Polling (Obj : Type) where
  /-- There is none after a null pointer was followed. -/
  manager : Option (EventManager Obj) := some {}
  live : Obj → Bool := fun _ => false
  last : Nat := 0
  received : Obj → List EventType := fun _ => []

variable [DecidableEq Obj] (owner : Obj → RestHandler) (mask : BitVec 32)

/-- The object belongs to an application of the client's mask. -/
def inMask (obj : Obj) : Bool := (owner obj).hash &&& mask ≠ 0

/-- The client takes the events of each application and the number. -/
def Polling.poll (s : Polling Obj) : Polling Obj :=
  match s.manager with
  | some m =>
      let (last, result) := m.timeout mask s.last
      { s with
        last
        received := fun obj => s.received obj ++
          ((result (owner obj).restName).filter fun it => it.obj = obj).map Event.type }
  | none => s

def step (s : Polling Obj) : Change Obj → Polling Obj
  | .add obj =>
      { s with
        manager := s.manager.bind fun m => m.addToEventList .add obj (owner obj)
        live := Function.update s.live obj true }
  | .delete obj =>
      { s with
        manager := s.manager.bind fun m => m.addToEventList .delete obj (owner obj)
        live := Function.update s.live obj false }
  | .poll => s.poll owner mask

/-- Only live objects are deleted. -/
def Valid (s : Polling Obj) : Change Obj → Prop
  | .delete obj => s.live obj = true
  | _ => True

/-- No null pointer is followed; and after a poll the client has been told `Add` and
`Delete` of each object in turn, starting with `Add`, and knows the live objects of
its applications. -/
def Tells (s : Polling Obj) (change : Change Obj) : Prop :=
  (step owner mask s change).manager.isSome = true ∧
    (change = .poll → ∀ obj, replay false ((step owner mask s change).received obj) =
      some ((step owner mask s change).live obj && inMask owner mask obj))

/-- The event is one for the client: of its mask, newer than its number, not passed
over. -/
def IsNews (last : Nat) (e : Event Obj) : Prop :=
  e.hash &&& mask ≠ 0 ∧ last < e.id ∧ EventManager.checkOverlap e last = false

/-- The last event for the client does not come between two brothers that are both
newer than its number. -/
def NotBetween (last : Nat) (m : EventManager Obj) : Prop :=
  ∀ a ∈ m.events, ∀ d ∈ m.events, a.hash &&& mask ≠ 0 → Brothers a d → last < a.id →
    ∀ e ∈ m.events, IsNews mask last e → a.id < e.id → e.id < d.id →
      ∃ e' ∈ m.events, IsNews mask last e' ∧ d.id < e'.id

/-- Objects of the client's applications are added while they are not live, and polls do not come at a bad
time. -/
def Clear (s : Polling Obj) : Change Obj → Prop
  | .add obj => inMask owner mask obj = true → s.live obj = false
  | .delete _ => True
  | .poll => ∀ m ∈ s.manager, NotBetween mask s.last m

instance (s : Polling Obj) : DecidablePred (Valid s)
  | .delete obj => inferInstanceAs (Decidable (s.live obj = true))
  | .add _ | .poll => .isTrue trivial

instance (a d : Event Obj) : Decidable (Brothers a d) :=
  decidable_of_iff (a.type = .add ∧ d.type = .delete ∧ a.brother = some d.id ∧ d.brother = some a.id)
    ⟨fun ⟨add, delete, newer, older⟩ => ⟨add, delete, newer, older⟩,
      fun ⟨add, delete, newer, older⟩ => ⟨add, delete, newer, older⟩⟩

instance (last : Nat) (e : Event Obj) : Decidable (IsNews mask last e) :=
  inferInstanceAs (Decidable (_ ∧ _ ∧ _))

instance (last : Nat) (m : EventManager Obj) : Decidable (NotBetween mask last m) :=
  inferInstanceAs (Decidable (∀ a ∈ m.events, ∀ d ∈ m.events, _ → _))

instance (s : Polling Obj) : DecidablePred (Clear owner mask s)
  | .add obj => inferInstanceAs (Decidable (inMask owner mask obj = true → s.live obj = false))
  | .delete _ => .isTrue trivial
  | .poll => inferInstanceAs (Decidable (∀ m ∈ s.manager, NotBetween mask s.last m))

/-! ## What every step keeps -/

/-- The events of an object, in order. -/
def EventManager.eventsOf (obj : Obj) (m : EventManager Obj) : List (Event Obj) :=
  m.events.filter fun it => it.obj = obj

structure Good (s : Polling Obj) (m : EventManager Obj) : Prop where
  manager : s.manager = some m
  sorted : m.events.Pairwise fun a b => a.id < b.id
  made : ∀ e ∈ m.events, 0 < e.id ∧ e.id ≤ m.lastEvent
  owned : ∀ e ∈ m.events, e.hash = (owner e.obj).hash ∧ e.app = (owner e.obj).restName
  paired : ∀ obj, inMask owner mask obj = true → Paired (s.live obj) (m.eventsOf obj)
  added : ∀ obj, (owner obj).hash ≠ 0 → s.live obj = true → ∃ a ∈ m.events, a.obj = obj ∧ a.type = .add
  given : s.last ≤ m.lastEvent
  known : ∀ obj, inMask owner mask obj = true →
    replay false (s.received obj) = some (liveAt s.last (m.eventsOf obj))
  unknown : ∀ obj, inMask owner mask obj = false → s.received obj = []

theorem Good.initial : Good owner mask ({} : Polling Obj) {} :=
  ⟨rfl, .nil, fun _ mem => absurd mem List.not_mem_nil, fun _ mem => absurd mem List.not_mem_nil,
    fun _ _ => .none, fun _ _ no => (nomatch no), Nat.le_refl 0, fun _ _ => rfl, fun _ _ => rfl⟩

variable {owner mask} {s : Polling Obj} {m : EventManager Obj}

theorem eventsOf_sorted (good : Good owner mask s m) (obj : Obj) :
    (m.eventsOf obj).Pairwise fun a b => a.id < b.id :=
  good.sorted.sublist List.filter_sublist

omit [DecidableEq Obj] in
theorem hash_of_inMask {obj : Obj} (inside : inMask owner mask obj = true) :
    (owner obj).hash ≠ 0 := by
  intro zero
  simp [inMask, zero] at inside

/-! ## Adding -/

/-- Of an object without an application there are no events. -/
theorem Good.ignored (good : Good owner mask s m) {obj : Obj} (ignored : (owner obj).hash = 0)
    (isLive : Bool) : Good owner mask { s with live := Function.update s.live obj isLive } m where
  manager := good.manager
  sorted := good.sorted
  made := good.made
  owned := good.owned
  paired other inside := by
    have ne : other ≠ obj := fun same => hash_of_inMask inside (same ▸ ignored)
    simpa only [Function.update_of_ne ne] using good.paired other inside
  added other counted := by
    have ne : other ≠ obj := fun same => counted (same ▸ ignored)
    simpa only [Function.update_of_ne ne] using good.added other counted
  given := good.given
  known := good.known
  unknown := good.unknown

omit [DecidableEq Obj] in
/-- An event with the next number goes to the end. -/
theorem made_append {events : List (Event Obj)} {ev : Event Obj} {last : Nat}
    (sorted : events.Pairwise fun a b => a.id < b.id)
    (made : ∀ e ∈ events, 0 < e.id ∧ e.id ≤ last) (next : ev.id = last + 1) :
    ((events ++ [ev]).Pairwise fun a b => a.id < b.id) ∧
      ∀ e ∈ events ++ [ev], 0 < e.id ∧ e.id ≤ ev.id := by
  constructor
  · refine List.pairwise_append.mpr ⟨sorted, List.pairwise_singleton _ _, fun e mem e' isNew => ?_⟩
    have bound := made e mem
    rw [List.mem_singleton.mp isNew]
    omega
  · intro e mem
    rcases List.mem_append.mp mem with old | isNew
    · have bound := made e old
      omega
    · rw [List.mem_singleton.mp isNew]
      omega

theorem add_good (good : Good owner mask s m) {obj : Obj}
    (isNew : inMask owner mask obj = true → s.live obj = false) :
    ∃ m', Good owner mask (step owner mask s (.add obj)) m' := by
  by_cases ignored : (owner obj).hash = 0
  · have result : m.addToEventList .add obj (owner obj) = some m := if_pos ignored
    exact ⟨m, by simpa [step, good.manager, result] using good.ignored ignored true⟩
  · let ev : Event Obj :=
      ⟨m.lastEvent + 1, .add, obj, (owner obj).hash, (owner obj).restName, none⟩
    have result : m.addToEventList .add obj (owner obj) = some ⟨m.events ++ [ev], ev.id⟩ := by
      rw [EventManager.addToEventList, if_neg ignored, if_neg (by decide)]
    have eventsOf : ∀ other, EventManager.eventsOf other ⟨m.events ++ [ev], ev.id⟩ =
        m.eventsOf other ++ if obj = other then [ev] else [] := by
      intro other
      rw [EventManager.eventsOf, List.filter_append]
      by_cases same : obj = other <;> simp [EventManager.eventsOf, same, ev]
    obtain ⟨sorted, made⟩ := made_append good.sorted good.made (show ev.id = _ from rfl)
    refine ⟨⟨m.events ++ [ev], ev.id⟩, by simp [step, good.manager, result], sorted, made, ?_, ?_, ?_,
      Nat.le_succ_of_le good.given, ?_, good.unknown⟩
    · intro e mem
      rcases List.mem_append.mp mem with old | isNew
      · exact good.owned e old
      · rw [List.mem_singleton.mp isNew]
        exact ⟨rfl, rfl⟩
    · intro other inside
      rw [eventsOf]
      by_cases same : obj = other
      · subst same
        rw [if_pos rfl]
        simpa [step] using (good.paired obj inside).append_add (isNew inside) (a := ev) rfl rfl
      · rw [if_neg same, List.append_nil]
        simpa [step, Function.update_of_ne (Ne.symm same)] using good.paired other inside
    · intro other counted isLive
      by_cases same : obj = other
      · exact ⟨ev, List.mem_append_right _ List.mem_cons_self, same, rfl⟩
      · simp only [step, Function.update_of_ne (Ne.symm same)] at isLive
        obtain ⟨a, mem, own, add⟩ := good.added other counted isLive
        exact ⟨a, List.mem_append_left _ mem, own, add⟩
    · intro other inside
      rw [eventsOf, liveAt_append]
      · exact good.known other inside
      · intro e mem
        split at mem
        · rw [List.mem_singleton.mp mem]
          exact Nat.lt_succ_of_le good.given
        · cases mem

/-! ## Deleting -/

/-- The brother of a `Delete` is the last event of its object, if that is an `Add`. -/
theorem findBrother_last {events before : List (Event Obj)} {obj : Obj} {a : Event Obj}
    (last : (events.filter fun it => it.obj = obj) = before ++ [a]) (add : a.type = .add) :
    EventManager.findBrother obj events = some a := by
  have reversed : (events.reverse.filter fun it => it.obj = obj) = a :: before.reverse := by
    rw [List.filter_reverse, last, List.reverse_append]
    rfl
  have found : (events.reverse.filter fun it => it.obj = obj).find? (fun it => it.type = .add) =
      some a := by
    rw [reversed]
    exact List.find?_cons_of_pos (by simpa using add)
  rw [List.find?_filter] at found
  rw [EventManager.findBrother, ← found]
  congr 1
  funext it
  simp

omit [DecidableEq Obj] in
theorem eq_of_id {events : List (Event Obj)} (sorted : events.Pairwise fun a b => a.id < b.id)
    {a b : Event Obj} (mem : a ∈ events) (mem' : b ∈ events) (same : a.id = b.id) : a = b := by
  have nodup : (events.map Event.id).Nodup := List.pairwise_map.mpr (sorted.imp Nat.ne_of_lt)
  exact List.inj_on_of_nodup_map nodup mem mem' same

/-- Setting the brother of an event changes that event only. -/
theorem eventsOf_setBrother (a : Event Obj) (number : Nat) (other : Obj) :
    ((EventManager.setBrother a.id number m.events).filter fun it => it.obj = other) =
      EventManager.setBrother a.id number (m.eventsOf other) := by
  rw [EventManager.setBrother, List.filter_map, EventManager.setBrother, EventManager.eventsOf]
  congr 1
  refine List.filter_congr fun it _ => ?_
  simp only [Function.comp_apply]
  split <;> rfl

omit [DecidableEq Obj] in
theorem setBrother_of_ne {a : Event Obj} {number : Nat} {es : List (Event Obj)}
    (ne : ∀ e ∈ es, e.id ≠ a.id) : EventManager.setBrother a.id number es = es := by
  refine (List.map_congr_left fun e mem => ?_).trans (List.map_id es)
  rw [if_neg (ne e mem), id]

/-- The events of other objects have no brother set. -/
theorem eventsOf_setBrother_ne (sorted : m.events.Pairwise fun a b => a.id < b.id) {a : Event Obj}
    (mem : a ∈ m.events) (number : Nat) {other : Obj} (ne : a.obj ≠ other) :
    ((EventManager.setBrother a.id number m.events).filter fun it => it.obj = other) =
      m.eventsOf other := by
  rw [eventsOf_setBrother]
  refine setBrother_of_ne fun e member equal => ne ?_
  simp only [EventManager.eventsOf, List.mem_filter, decide_eq_true_eq] at member
  rw [← eq_of_id sorted member.1 mem equal, member.2]

/-- Of the own ones it is the last. -/
theorem eventsOf_setBrother_self (sorted : m.events.Pairwise fun a b => a.id < b.id) {obj : Obj}
    {before : List (Event Obj)} {a : Event Obj} (last : m.eventsOf obj = before ++ [a])
    (number : Nat) :
    ((EventManager.setBrother a.id number m.events).filter fun it => it.obj = obj) =
      before ++ [{ a with brother := some number }] := by
  have order := sorted.sublist (List.filter_sublist (p := fun it : Event Obj => it.obj = obj))
  rw [← EventManager.eventsOf, last] at order
  have earlier : ∀ e ∈ before, e.id ≠ a.id := fun e mem =>
    Nat.ne_of_lt ((List.pairwise_append.mp order).2.2 e mem a List.mem_cons_self)
  rw [eventsOf_setBrother, last, EventManager.setBrother, List.map_append, ← EventManager.setBrother,
    setBrother_of_ne earlier]
  simp

/-- An object that is live has an `Add` that a `Delete` takes for its brother. -/
theorem Good.findBrother (good : Good owner mask s m) {obj : Obj} (counted : (owner obj).hash ≠ 0)
    (isLive : s.live obj = true) :
    ∃ a, EventManager.findBrother obj m.events = some a ∧ a ∈ m.events ∧ a.obj = obj := by
  obtain ⟨b, mem, own, add⟩ := good.added obj counted isLive
  have some : (EventManager.findBrother obj m.events).isSome = true := by
    rw [EventManager.findBrother, List.find?_isSome]
    exact ⟨b, List.mem_reverse.mpr mem, by simp [own, add]⟩
  obtain ⟨a, found⟩ := Option.isSome_iff_exists.mp some
  have own' := List.find?_some found
  simp only [Bool.and_eq_true, decide_eq_true_eq] at own'
  exact ⟨a, found, List.mem_reverse.mp (List.mem_of_find?_eq_some found), by tauto⟩

theorem delete_good (good : Good owner mask s m) {obj : Obj} (isLive : s.live obj = true) :
    ∃ m', Good owner mask (step owner mask s (.delete obj)) m' := by
  by_cases ignored : (owner obj).hash = 0
  · have result : m.addToEventList .delete obj (owner obj) = some m := if_pos ignored
    exact ⟨m, by simpa [step, good.manager, result] using good.ignored ignored false⟩
  · obtain ⟨a, found, mem, own⟩ := good.findBrother ignored isLive
    let ev : Event Obj :=
      ⟨m.lastEvent + 1, .delete, obj, (owner obj).hash, (owner obj).restName, some a.id⟩
    let m' : EventManager Obj := ⟨EventManager.setBrother a.id ev.id m.events ++ [ev], ev.id⟩
    have result : m.addToEventList .delete obj (owner obj) = some m' := by
      rw [EventManager.addToEventList, if_neg ignored, if_pos rfl, found]
      rfl
    have others : ∀ other, obj ≠ other → m'.eventsOf other = m.eventsOf other := by
      intro other ne
      rw [EventManager.eventsOf, List.filter_append, eventsOf_setBrother_ne good.sorted mem _ (own ▸ ne)]
      simp [ne, ev]
    have old : ∀ e ∈ EventManager.setBrother a.id ev.id m.events, ∃ e' ∈ m.events,
        e.id = e'.id ∧ e.hash = e'.hash ∧ e.obj = e'.obj ∧ e.app = e'.app := by
      intro e mem
      obtain ⟨e', mem', rfl⟩ := List.mem_map.mp mem
      refine ⟨e', mem', ?_⟩
      split <;> exact ⟨rfl, rfl, rfl, rfl⟩
    have ordered : (EventManager.setBrother a.id ev.id m.events).Pairwise fun a b => a.id < b.id := by
      refine List.pairwise_map.mpr (good.sorted.imp fun {x y} less => ?_)
      split <;> split <;> exact less
    have numbered : ∀ e ∈ EventManager.setBrother a.id ev.id m.events,
        0 < e.id ∧ e.id ≤ m.lastEvent := by
      intro e mem
      obtain ⟨e', mem', same, -⟩ := old e mem
      exact same ▸ good.made e' mem'
    obtain ⟨sorted, made⟩ := made_append ordered numbered (show ev.id = _ from rfl)
    -- the pairs of an object of the mask, and what was live at the client's number
    have pair (inside : inMask owner mask obj = true) : Paired false (m'.eventsOf obj) ∧
        liveAt s.last (m'.eventsOf obj) = liveAt s.last (m.eventsOf obj) := by
      obtain ⟨before, b, last, add, single, next⟩ := (good.paired obj inside).append_delete isLive
      obtain rfl : b = a := Option.some.inj ((findBrother_last last add).symm.trans found)
      have events : m'.eventsOf obj = before ++ [{ b with brother := some ev.id }, ev] := by
        rw [EventManager.eventsOf, List.filter_append, eventsOf_setBrother_self good.sorted last]
        simp [ev]
      have newer : s.last < m.lastEvent + 1 := Nat.lt_succ_of_le good.given
      rw [events, last]
      exact ⟨next _ _ ⟨add, rfl, rfl, rfl⟩, by simp [liveAt, add, single, ev, newer]⟩
    refine ⟨m', by simp [step, good.manager, result], sorted, made, ?_, ?_, ?_,
      Nat.le_succ_of_le good.given, ?_, good.unknown⟩
    · intro e mem
      rcases List.mem_append.mp mem with before | isNew
      · obtain ⟨e', mem', -, hash, object, app⟩ := old e before
        rw [hash, object, app]
        exact good.owned e' mem'
      · rw [List.mem_singleton.mp isNew]
        exact ⟨rfl, rfl⟩
    · intro other inside
      by_cases same : obj = other
      · subst same
        simpa [step] using (pair inside).1
      · rw [others other same]
        simpa [step, Function.update_of_ne (Ne.symm same)] using good.paired other inside
    · intro other counted otherLive
      by_cases same : obj = other
      · subst same
        simp [step] at otherLive
      · simp only [step, Function.update_of_ne (Ne.symm same)] at otherLive
        obtain ⟨b, memB, ownB, addB⟩ := good.added other counted otherLive
        refine ⟨_, List.mem_append_left _ (List.mem_map_of_mem memB), ?_⟩
        split <;> exact ⟨ownB, addB⟩
    · intro other inside
      have before := good.known other inside
      by_cases same : obj = other
      · subst same
        rw [step, (pair inside).2]
        exact before
      · rw [others other same]
        exact before

/-! ## Polling -/

/-- Of an object of the mask the client gets what is new, of others nothing. -/
theorem timeout_news (good : Good owner mask s m) (obj : Obj) :
    (((m.timeout mask s.last).2 (owner obj).restName).filter fun it => it.obj = obj) =
      if inMask owner mask obj then news s.last (m.eventsOf obj) else [] := by
  simp only [EventManager.timeout, EventManager.told, List.filter_filter]
  cases inside : inMask owner mask obj with
  | false =>
      simp only [Bool.false_eq_true, if_false]
      refine List.filter_eq_nil_iff.mpr fun it mem => ?_
      by_cases same : it.obj = obj
      · have hash := (good.owned it mem).1
        have outside : (owner obj).hash &&& mask = 0 := by simpa [inMask] using inside
        simp [hash, same, outside]
      · simp [same]
  | true =>
      simp only [if_true, news, EventManager.eventsOf, List.filter_filter]
      refine List.filter_congr fun it mem => ?_
      by_cases same : it.obj = obj
      · obtain ⟨hash, app⟩ := good.owned it mem
        have inside : decide ((owner obj).hash &&& mask = 0#32) = false := by
          simpa [inMask] using inside
        simp [same, hash, app, inside]
      · simp [same]

omit [DecidableEq Obj] in
/-- The number `timeout` computes is the greatest one. -/
theorem greatest : ∀ (events : List (Event Obj)) (first : Nat),
    let last := events.foldl (fun last it => if last < it.id then it.id else last) first
    (last = first ∨ ∃ e ∈ events, last = e.id) ∧ first ≤ last ∧ ∀ e ∈ events, e.id ≤ last
  | [], first => ⟨.inl rfl, Nat.le_refl first, fun _ mem => absurd mem List.not_mem_nil⟩
  | e :: events, first => by
      obtain ⟨which, above, all⟩ := greatest events (if first < e.id then e.id else first)
      have bound : first ≤ (if first < e.id then e.id else first) ∧
          e.id ≤ (if first < e.id then e.id else first) := by
        split <;> omega
      refine ⟨?_, Nat.le_trans bound.1 above, fun e' mem => ?_⟩
      · rcases which with same | ⟨e', mem, same⟩
        · rw [List.foldl_cons, same]
          split
          · exact .inr ⟨e, List.mem_cons_self, rfl⟩
          · exact .inl rfl
        · exact .inr ⟨e', List.mem_cons_of_mem _ mem, same⟩
      · rcases List.mem_cons.mp mem with rfl | later
        · exact Nat.le_trans bound.2 above
        · exact all e' later

omit [DecidableEq Obj] in
/-- The number a client is given is its own or that of an event it is told of, and
not before any of these. -/
theorem timeout_last (m : EventManager Obj) (mask : BitVec 32) (s : Polling Obj) :
    let next := (m.timeout mask s.last).1
    (next = s.last ∨ ∃ e ∈ m.told mask s.last, next = e.id) ∧ s.last ≤ next ∧
      ∀ e ∈ m.told mask s.last, e.id ≤ next := by
  have newer : ∀ e ∈ m.told mask s.last, s.last < e.id := by
    intro e mem
    simp only [EventManager.told, List.mem_filter, Bool.and_eq_true, decide_eq_true_eq] at mem
    exact mem.2.1.2
  obtain ⟨which, -, all⟩ := greatest (m.told mask s.last) 0
  simp only [EventManager.timeout]
  split
  · rename_i zero
    refine ⟨.inl rfl, Nat.le_refl _, fun e mem => ?_⟩
    have := newer e mem
    have := all e mem
    omega
  · rename_i positive
    obtain ⟨e, mem, same⟩ := which.resolve_left positive
    exact ⟨.inr ⟨e, mem, same⟩, by rw [same]; exact Nat.le_of_lt (newer e mem), all⟩

omit [DecidableEq Obj] in
theorem mem_told {last : Nat} {e : Event Obj} :
    e ∈ m.told mask last ↔ e ∈ m.events ∧ IsNews mask last e := by
  simp [EventManager.told, IsNews, and_assoc]

/-- At the number a client is given, objects were live that are live now. -/
theorem liveAt_timeout (good : Good owner mask s m) (clear : NotBetween mask s.last m) {obj : Obj}
    (inside : inMask owner mask obj = true) :
    liveAt (m.timeout mask s.last).1 (m.eventsOf obj) = s.live obj := by
  obtain ⟨which, later, all⟩ := timeout_last m mask s
  have ofMask : ∀ e ∈ m.eventsOf obj, e ∈ m.events ∧ e.hash &&& mask ≠ 0 := by
    intro e mem
    obtain ⟨mem, same⟩ := List.mem_filter.mp mem
    have same : e.obj = obj := by simpa using same
    rw [(good.owned e mem).1, same]
    exact ⟨mem, by simpa [inMask] using inside⟩
  refine liveAt_next (good.paired obj inside) later (fun e mem => ?_)
    fun a memA d memD brothers newer before => ?_
  · simp only [news, List.mem_filter, Bool.and_eq_true, Bool.not_eq_true', decide_eq_true_eq] at mem
    exact all e (mem_told.mpr ⟨(ofMask e mem.1).1, (ofMask e mem.1).2, mem.2.1, mem.2.2⟩)
  · by_contra after
    rcases which with same | ⟨e, mem, same⟩
    · omega
    · obtain ⟨mem, isNews⟩ := mem_told.mp mem
      have other : a.id ≠ e.id := by
        intro equal
        obtain rfl := eq_of_id good.sorted (ofMask a memA).1 mem equal
        simpa [EventManager.checkOverlap, brothers.add, brothers.newer] using isNews.2.2
      obtain ⟨e', mem', isNews', beyond⟩ := clear a (ofMask a memA).1 d (ofMask d memD).1
        (ofMask a memA).2 brothers newer e mem isNews (by omega) (by omega)
      have := all e' (mem_told.mpr ⟨mem', isNews'⟩)
      omega

/-- After a poll the client knows the live objects, and can go on if the poll came at a
good time. -/
theorem poll_good (good : Good owner mask s m) :
    (∀ obj, replay false ((step owner mask s .poll).received obj) =
        some (s.live obj && inMask owner mask obj)) ∧
      (NotBetween mask s.last m → Good owner mask (step owner mask s .poll) m) := by
  have state : step owner mask s .poll = { s with
      last := (m.timeout mask s.last).1
      received := fun obj => s.received obj ++
        ((((m.timeout mask s.last).2 (owner obj).restName).filter fun it => it.obj = obj).map
          Event.type) } := by
    simp only [step, Polling.poll, good.manager]
  have received : ∀ obj, replay false ((step owner mask s .poll).received obj) =
      some (s.live obj && inMask owner mask obj) := by
    intro obj
    rw [state]
    simp only [timeout_news good obj]
    cases inside : inMask owner mask obj with
    | false => simp [good.unknown obj inside, replay]
    | true =>
        rw [if_pos rfl, replay_append, good.known obj inside, Option.bind_some,
          replay_news (good.paired obj inside) (eventsOf_sorted good obj),
          Bool.and_true]
  refine ⟨received, fun clear => ⟨?_, good.sorted, good.made, good.owned, ?_, ?_, ?_, ?_, ?_⟩⟩
  · rw [state]
    exact good.manager
  · rw [state]
    exact good.paired
  · rw [state]
    exact good.added
  · rw [state]
    obtain ⟨which, -, -⟩ := timeout_last m mask s
    rcases which with same | ⟨e, mem, same⟩
    · rw [same]
      exact good.given
    · rw [same]
      exact (good.made e (mem_told.mp mem).1).2
  · intro obj inside
    rw [received obj, inside, Bool.and_true, state, liveAt_timeout good clear inside]
  · intro obj outside
    rw [state]
    simp only [timeout_news good obj, outside]
    simp [good.unknown obj outside]

/-! ## Whole runs -/

/-- **A client is told `Add` and `Delete` of each object in turn and always knows the
live objects of its applications, along every run in which no poll gives it a number
between two brothers that are both new to it.** -/
theorem tells_run {owner : Obj → RestHandler} {mask : BitVec 32} {changes : List (Change Obj)}
    (valid : Each (step owner mask) Valid {} changes)
    (clear : Each (step owner mask) (Clear owner mask) {} changes) :
    Each (step owner mask) (Tells owner mask) {} changes := by
  suffices run : ∀ (changes : List (Change Obj)) (s : Polling Obj) (m : EventManager Obj),
      Good owner mask s m → Each (step owner mask) Valid s changes →
      Each (step owner mask) (Clear owner mask) s changes →
      Each (step owner mask) (Tells owner mask) s changes from
    run changes {} {} (.initial owner mask) valid clear
  intro changes
  induction changes with
  | nil => exact fun _ _ _ _ _ => trivial
  | cons change changes ih =>
      rintro s m good ⟨valid, laterValid⟩ ⟨clear, laterClear⟩
      cases change with
      | add obj =>
          obtain ⟨m', good'⟩ := add_good good clear
          refine ⟨⟨?_, fun no => nomatch no⟩, ih _ m' good' laterValid laterClear⟩
          rw [good'.manager]
          rfl
      | delete obj =>
          obtain ⟨m', good'⟩ := delete_good good valid
          refine ⟨⟨?_, fun no => nomatch no⟩, ih _ m' good' laterValid laterClear⟩
          rw [good'.manager]
          rfl
      | poll =>
          obtain ⟨received, next⟩ := poll_good good
          have good' := next (clear m good.manager)
          refine ⟨⟨?_, fun _ obj => ?_⟩, ih _ m good' laterValid laterClear⟩
          · rw [good'.manager]
            rfl
          · rw [received obj]
            simp [step, Polling.poll, good.manager]

/-- An object is added, polled, and deleted while another one is added. -/
theorem tells_replaced :
    Each (step (fun _ : Nat => ⟨1, "topology"⟩) 1) (Tells (fun _ => ⟨1, "topology"⟩) 1) {}
      [.add 0, .poll, .add 1, .delete 0, .poll, .poll] :=
  tells_run (by decide) (by decide)

/-- Object 0 is added and deleted around the addition of object 1, then a client polls
twice. -/
def shortLived : List (Change Nat) := [.add 0, .add 1, .delete 0, .poll, .poll]

/-- The second poll tells the client that object 0 is gone, of which it has never heard. -/
theorem shortLived_told :
    Each (step (fun _ : Nat => ⟨1, "topology"⟩) 1) Valid {} shortLived ∧
      ¬Each (step (fun _ : Nat => ⟨1, "topology"⟩) 1) (Tells (fun _ => ⟨1, "topology"⟩) 1) {}
        shortLived := by
  refine ⟨by decide, ?_⟩
  rintro ⟨-, -, -, -, ⟨-, told⟩, -⟩
  exact absurd (told rfl 0) (by decide)

end Drunos.Rest

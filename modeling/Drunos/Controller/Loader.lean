/-
# Drunos.Controller.Loader — the initialization of the applications

`initialize` of `Loader.cc` and the loop over the services in `startAll`. An application is marked,
its dependencies are initialized in the order of their list, and then it is placed in a thread and
initialized itself. If a dependency is missing, the application is given up and its mark stays. A
dependency with a mark counts as a cycle, and the program ends.

Applications are initialized once and behind their dependencies, whatever happens. If the program does
not end, they are those that are complete and reached through tried dependencies. It ends where a
cycle is tried, and where the mark of an application is met that was given up for an earlier service
(`startAll_outcome`). `startsAll_iff` says when nothing is missed and no cycle made up.
-/
import Drunos.Theory.Dependency
import Mathlib.Data.List.Nodup
import Mathlib.Logic.Function.Basic

namespace Drunos.Controller

open Relation Drunos.Theory.Dependency

set_option autoImplicit false

/-- `APP_STARTED` follows when all services are initialized. -/
inductive ApplicationState where
  | registered
  | initializing
  | initialized
  deriving DecidableEq

structure Application where
  provides : String
  dependsOn : List String

/-- The array ends at the first empty text. -/
def Application.dependencies (app : Application) : List String :=
  app.dependsOn.takeWhile (· != "")

/-- What the loader reads. Of two applications with one name only the first is registered. -/
structure Loader where
  registry : List Application
  threads : Nat
  pinToThread : String → Int

namespace Loader

def find (m : Loader) (serviceId : String) : Option Application :=
  m.registry.find? fun app => app.provides == serviceId

def deps (m : Loader) (serviceId : String) : Option (List String) :=
  (m.find serviceId).map Application.dependencies

end Loader

/-- The states of the applications, and the calls of `init` with their threads. -/
structure Startup where
  state : String → ApplicationState
  lastThread : Nat
  inits : List (String × Nat)

namespace Startup

def mark (st : Startup) (serviceId : String) (state : ApplicationState) : Startup :=
  { st with state := Function.update st.state serviceId state }

/-- The applications that are initialized, in this order. -/
def initialized (st : Startup) : List String := st.inits.map Prod.fst

/-- A pinned application has its thread; all others take turns. Without threads `thread[last_thread]` is
outside of the vector. -/
def init (m : Loader) (st : Startup) (serviceId : String) : Option Startup :=
  let specificThread := m.pinToThread serviceId
  let initialized := st.mark serviceId .initialized
  if 0 ≤ specificThread ∧ specificThread < m.threads then
    some { initialized with inits := st.inits ++ [(serviceId, specificThread.toNat)] }
  else if st.lastThread < m.threads then
    some { initialized with
      lastThread := if st.lastThread + 1 = m.threads then 0 else st.lastThread + 1
      inits := st.inits ++ [(serviceId, st.lastThread)] }
  else none

end Startup

/-- The information of the service, a null pointer, the end of the program, or an access outside of the
threads. -/
inductive Result where
  | app (st : Startup)
  | null (st : Startup)
  /-- "Cyclic dependencies detected" -/
  | fatal (st : Startup)
  | outOfBounds
  | outOfFuel

/-- A null pointer is returned at once, and the program may have ended. -/
def Result.andThen (result : Result) (next : Startup → Result) : Result :=
  match result with
  | .app st => next st
  | _ => result

/-- The loop over the dependencies of an application. -/
def dependencies (callee : String → Startup → Result) : List String → Startup → Result
  | [], st => .app st
  | dependsOn :: rest, st =>
      (callee dependsOn st).andThen fun st =>
        if st.state dependsOn = .initializing then .fatal st
        else dependencies callee rest st

/-- `LoaderImpl::initialize`. The fuel bounds the depth of the recursion; one more than the number of
applications is enough. -/
def initializeService (m : Loader) : Nat → String → Startup → Result
  | 0, _, _ => .outOfFuel
  | fuel + 1, serviceId, st =>
      match m.find serviceId with
      | none => .null st
      | some app =>
          if st.state serviceId ≠ .registered then .app st
          else
            (dependencies (initializeService m fuel) app.dependencies
              (st.mark serviceId .initializing)).andThen fun st =>
                match st.init m serviceId with
                | some st => .app st
                | none => .outOfBounds

/-- A service that is missing is passed over. -/
def startServices (m : Loader) : List String → Startup → Result
  | [], st => .app st
  | service :: rest, st =>
      match initializeService m (m.registry.length + 1) service st with
      | .app st => startServices m rest st
      | .null st => startServices m rest st
      | result => result

/-- Before the first service. -/
def started : Startup := { state := fun _ => .registered, lastThread := 0, inits := [] }

def startAll (m : Loader) (services : List String) : Result := startServices m services started

/-! ## What is asked for -/

section

variable (m : Loader) (services : List String)

/-- Reached from the services. -/
def Reached (x : String) : Prop := ∃ s ∈ services, ReflTransGen (Depends m.deps) s x

/-- Asked for by the services, through dependencies that are tried. -/
def Asked (x : String) : Prop := ∃ s ∈ services, ReflTransGen (Tried m.deps) s x

/-- A cycle among what is asked for. -/
def TriesCycle : Prop := ∃ x, Asked m services x ∧ TransGen (Tried m.deps) x x

/-- An application that is asked for by a service, and by none in front of it, comes to a dependency
that was given up for one of those. -/
def ReadsMark : Prop :=
  ∃ front service back x d, services = front ++ service :: back ∧
    (Asked m [service] x ∧ ¬Asked m front x) ∧ Tried m.deps x d ∧
      Asked m front d ∧ ¬Complete m.deps d ∧ ¬Missing m.deps d

/-! ## The invariant -/

/-- The loop over the dependencies of `x` is at `d`. -/
def Pending (st : Startup) (x d : String) : Prop :=
  ∃ front back, m.deps x = some (front ++ d :: back) ∧ ∀ e ∈ front, st.state e = .initialized

/-- Who asks for an application: the innermost one that is not done, or the service that is started. -/
def Requested (current : String) (st : Startup) : List String → String → Prop
  | [], s => s = current
  | x :: _, s => Pending m st x s

/-- The applications that are not done, the innermost one first. -/
def Path (current : String) (st : Startup) : List String → Prop
  | [] => True
  | x :: stack => Requested m current st stack x ∧ Path current st stack

/-- What is known of an application that was given up. -/
structure GivenUp (st : Startup) (x : String) : Prop where
  incomplete : ¬Complete m.deps x
  tried : ∀ d, Tried m.deps x d → Missing m.deps d ∨ st.state d ≠ .registered

/-- What always holds, once these services were asked for. -/
structure Common (st : Startup) : Prop where
  asked : ∀ x, st.state x ≠ .registered → Asked m services x ∧ ¬Missing m.deps x
  inits : ∀ x, x ∈ st.initialized ↔ st.state x = .initialized
  nodup : st.initialized.Nodup
  ordered : Ordered m.deps st.initialized
  complete : ∀ x, st.state x = .initialized → Complete m.deps x
  thread : 0 < m.threads → st.lastThread < m.threads

/-- Between two services: these are done. -/
structure Settled (st : Startup) : Prop extends Common m services st where
  done : ∀ x, Asked m services x → Missing m.deps x ∨ st.state x ≠ .registered
  marks : ∀ x, st.state x = .initializing → GivenUp m st x

/-- While a service is started: those in front of it are done. -/
structure Inv (front : List String) (current : String) (stack : List String) (st : Startup) : Prop
    extends Common m (front ++ [current]) st where
  path : Path m current st stack
  onStack : ∀ x ∈ stack, st.state x = .initializing
  done : ∀ x, Asked m front x → Missing m.deps x ∨ st.state x ≠ .registered
  fresh : ∀ x ∈ stack, ¬Asked m front x
  marks : ∀ x, st.state x = .initializing → x ∈ stack ∨ GivenUp m st x ∧ Asked m front x

/-- Where the program ends. -/
structure Stopped (st : Startup) : Prop where
  inits : ∀ x, x ∈ st.initialized ↔ st.state x = .initialized
  nodup : st.initialized.Nodup
  ordered : Ordered m.deps st.initialized
  reason : TriesCycle m services ∨ ReadsMark m services

/-- What a result ensures. -/
def Result.Ensures (app null fatal : Startup → Prop) : Result → Prop
  | .app st => app st
  | .null st => null st
  | .fatal st => fatal st
  | .outOfBounds => m.threads = 0
  | .outOfFuel => False

variable {m services}

theorem Result.Ensures.imp {app app' null null' fatal fatal' : Startup → Prop} {result : Result}
    (ensures : result.Ensures m app null fatal) (apps : ∀ st, app st → app' st)
    (nulls : ∀ st, null st → null' st) (fatals : ∀ st, fatal st → fatal' st) :
    result.Ensures m app' null' fatal' := by
  cases result with
  | app st => exact apps st ensures
  | null st => exact nulls st ensures
  | fatal st => exact fatals st ensures
  | outOfBounds => exact ensures
  | outOfFuel => exact ensures

theorem Result.Ensures.andThen {app app' null fatal : Startup → Prop} {result : Result}
    {next : Startup → Result} (ensures : result.Ensures m app null fatal)
    (goesOn : ∀ st, app st → (next st).Ensures m app' null fatal) :
    (result.andThen next).Ensures m app' null fatal := by
  cases result with
  | app st => exact goesOn st ensures
  | null st => exact ensures
  | fatal st => exact ensures
  | outOfBounds => exact ensures
  | outOfFuel => exact ensures

end

/-- States are left in one direction. -/
structure Grows (st st' : Startup) : Prop where
  initialized : ∀ x, st.state x = .initialized → st'.state x = .initialized
  visited : ∀ x, st.state x ≠ .registered → st'.state x ≠ .registered

theorem Grows.refl (st : Startup) : Grows st st := ⟨fun _ h => h, fun _ h => h⟩

theorem Grows.trans {st st' st'' : Startup} (first : Grows st st') (second : Grows st' st'') :
    Grows st st'' :=
  ⟨fun x h => second.initialized x (first.initialized x h),
    fun x h => second.visited x (first.visited x h)⟩

section

variable {m : Loader} {services front back : List String} {current : String} {st st' : Startup}
  {stack : List String} {s x d : String}

@[simp] theorem mark_state_self (st : Startup) (x : String) (state : ApplicationState) :
    (st.mark x state).state x = state := by
  simp [Startup.mark]

@[simp] theorem mark_state_ne (st : Startup) {x y : String} (state : ApplicationState) (ne : y ≠ x) :
    (st.mark x state).state y = st.state y := by
  simp [Startup.mark, ne]

@[simp] theorem mark_initialized (st : Startup) (x : String) (state : ApplicationState) :
    (st.mark x state).initialized = st.initialized := rfl

/-- In whatever thread. -/
theorem init_some (placed : st.init m x = some st') :
    st'.state = Function.update st.state x .initialized ∧ st'.initialized = st.initialized ++ [x] ∧
      (st.lastThread < m.threads → st'.lastThread < m.threads) := by
  unfold Startup.init at placed
  dsimp only at placed
  split at placed
  · obtain rfl := Option.some.inj placed
    exact ⟨rfl, by simp [Startup.initialized], fun inside => inside⟩
  · split at placed
    · obtain rfl := Option.some.inj placed
      refine ⟨rfl, by simp [Startup.initialized], fun inside => ?_⟩
      dsimp only
      split_ifs <;> omega
    · cases placed

theorem init_none (none : st.init m x = none) : ¬st.lastThread < m.threads := by
  unfold Startup.init at none
  dsimp only at none
  split at none
  · cases none
  · split at none
    · cases none
    · assumption

theorem Pending.depends (pending : Pending m st x d) : Depends m.deps x d := by
  obtain ⟨front, back, list, -⟩ := pending
  exact ⟨_, list, by simp⟩

theorem Pending.mono (grows : Grows st st') (pending : Pending m st x d) : Pending m st' x d := by
  obtain ⟨front, back, list, done⟩ := pending
  exact ⟨front, back, list, fun e mem => grows.initialized e (done e mem)⟩

theorem Requested.mono (grows : Grows st st') (requested : Requested m current st stack s) :
    Requested m current st' stack s := by
  cases stack with
  | nil => exact requested
  | cons x stack => exact Pending.mono grows requested

theorem Path.mono (grows : Grows st st') : ∀ {stack : List String}, Path m current st stack →
    Path m current st' stack
  | [], _ => trivial
  | _ :: _, ⟨requested, path⟩ => ⟨requested.mono grows, path.mono grows⟩

theorem Asked.mono (subset : ∀ s ∈ front, s ∈ services) (asked : Asked m front x) :
    Asked m services x := by
  obtain ⟨service, mem, path⟩ := asked
  exact ⟨service, subset service mem, path⟩

theorem Asked.tail (asked : Asked m services x) (tried : Tried m.deps x d) : Asked m services d := by
  obtain ⟨service, mem, path⟩ := asked
  exact ⟨service, mem, path.tail tried⟩

theorem Asked.reached (asked : Asked m services x) : Reached m services x := by
  obtain ⟨service, mem, path⟩ := asked
  exact ⟨service, mem, ReflTransGen.mono (fun _ _ => Tried.depends) _ _ path⟩

theorem Common.tried (kept : Common m services st) (pending : Pending m st x d) : Tried m.deps x d := by
  obtain ⟨front, back, list, done⟩ := pending
  exact ⟨front, back, list, fun e mem => kept.complete e (done e mem)⟩

/-- The service that is started asks for what is requested. -/
theorem Path.requests (kept : Common m services st) : ∀ {stack : List String} {s : String},
    Path m current st stack → Requested m current st stack s → ReflTransGen (Tried m.deps) current s
  | [], _, _, same => same ▸ .refl
  | _ :: _, _, ⟨requested, path⟩, pending => (path.requests kept requested).tail (kept.tried pending)

/-- The innermost application is tried for all that wait for it. -/
theorem Path.tried (kept : Common m services st) : ∀ {stack : List String} {x : String},
    Path m current st (x :: stack) → ∀ y ∈ x :: stack, ReflTransGen (Tried m.deps) y x
  | [], _, _, y, mem => List.mem_singleton.mp mem ▸ .refl
  | _ :: _, _, ⟨requested, path⟩, y, mem => by
      rcases List.mem_cons.mp mem with rfl | mem
      · exact .refl
      · exact (path.tried kept y mem).tail (kept.tried requested)

/-! ## Steps of the initialization -/

theorem grows_mark (unmarked : st.state s = .registered) : Grows st (st.mark s .initializing) := by
  constructor
  · intro x done
    have ne : x ≠ s := by
      rintro rfl
      simp [unmarked] at done
    rwa [mark_state_ne _ _ ne]
  · intro x visited
    by_cases same : x = s
    · simp [same]
    · rwa [mark_state_ne _ _ same]

theorem GivenUp.mono (grows : Grows st st') (givenUp : GivenUp m st x) : GivenUp m st' x :=
  ⟨givenUp.incomplete, fun d tried => (givenUp.tried d tried).imp_right (grows.visited d)⟩

/-- An application is marked. -/
theorem Inv.mark (inv : Inv m front current stack st) (requested : Requested m current st stack s)
    (unmarked : st.state s = .registered) (known : ¬Missing m.deps s) :
    Inv m front current (s :: stack) (st.mark s .initializing) := by
  have grows := grows_mark unmarked
  have other {x : String} (visited : st.state x ≠ .registered) : x ≠ s := by
    rintro rfl
    exact visited unmarked
  refine ⟨⟨?_, ?_, inv.nodup, inv.ordered, ?_, inv.thread⟩,
    ⟨requested.mono grows, inv.path.mono grows⟩, ?_, ?_, ?_, ?_⟩
  · intro x visited
    by_cases same : x = s
    · exact same ▸ ⟨⟨current, by simp, inv.path.requests inv.toCommon requested⟩, known⟩
    · exact inv.asked x (by rwa [mark_state_ne _ _ same] at visited)
  · intro x
    rw [mark_initialized, inv.inits]
    by_cases same : x = s
    · simp [same, unmarked]
    · rw [mark_state_ne _ _ same]
  · intro x done
    by_cases same : x = s
    · simp [same] at done
    · exact inv.complete x (by rwa [mark_state_ne _ _ same] at done)
  · intro x mem
    rcases List.mem_cons.mp mem with rfl | mem
    · simp
    · have marked := inv.onStack x mem
      rwa [mark_state_ne _ _ (other (by simp [marked]))]
  · exact fun x asked => (inv.done x asked).imp_right (grows.visited x)
  · intro x mem
    rcases List.mem_cons.mp mem with rfl | mem
    · exact fun asked => (inv.done x asked).elim known fun visited => visited unmarked
    · exact inv.fresh x mem
  · intro x marked
    by_cases same : x = s
    · exact .inl (by simp [same])
    · rw [mark_state_ne _ _ same] at marked
      exact (inv.marks x marked).imp (List.mem_cons_of_mem s) (And.imp_left (GivenUp.mono grows))

/-- An application is initialized behind all its dependencies. -/
theorem Inv.init {list : List String} (inv : Inv m front current (s :: stack) st) (off : s ∉ stack)
    (known : m.deps s = some list) (done : ∀ d ∈ list, st.state d = .initialized)
    (placed : st.init m s = some st') : Inv m front current stack st' ∧ Grows st st' := by
  obtain ⟨state, initialized, thread⟩ := init_some placed
  have marked := inv.onStack s (by simp)
  have self : st'.state s = .initialized := by simp [state]
  have same {x : String} (ne : x ≠ s) : st'.state x = st.state x := by simp [state, ne]
  have complete : Complete m.deps s :=
    complete_iff.mpr ⟨list, known, fun d mem => inv.complete d (done d mem)⟩
  have grows : Grows st st' := by
    constructor
    · intro x before
      by_cases here : x = s
      · rw [here, self]
      · rwa [same here]
    · intro x before
      by_cases here : x = s
      · simp [here, self]
      · rwa [same here]
  refine ⟨⟨⟨?_, ?_, ?_, ?_, ?_, fun some => thread (inv.thread some)⟩, inv.path.2.mono grows, ?_,
    fun x asked => (inv.done x asked).imp_right (grows.visited x),
    fun x mem => inv.fresh x (List.mem_cons_of_mem s mem), ?_⟩, grows⟩
  · intro x visited
    by_cases here : x = s
    · exact here ▸ inv.asked s (by simp [marked])
    · exact inv.asked x (by rwa [same here] at visited)
  · intro x
    rw [initialized, List.mem_append, List.mem_singleton, inv.inits]
    by_cases here : x = s
    · simp [here, self]
    · simp [here, same here]
  · rw [initialized]
    refine inv.nodup.append (List.nodup_singleton s) ?_
    simp [inv.inits, marked]
  · rw [initialized]
    refine inv.ordered.concat fun d depends => ?_
    obtain ⟨list', known', mem⟩ := depends
    obtain rfl : list = list' := Option.some.inj (known.symm.trans known')
    exact (inv.inits d).mpr (done d mem)
  · intro x after
    by_cases here : x = s
    · exact here ▸ complete
    · exact inv.complete x (by rwa [same here] at after)
  · intro x mem
    have ne : x ≠ s := fun here => off (here ▸ mem)
    rw [same ne]
    exact inv.onStack x (List.mem_cons_of_mem s mem)
  · intro x after
    have ne : x ≠ s := by
      rintro rfl
      simp [self] at after
    rw [same ne] at after
    exact (inv.marks x after).imp (fun mem => by simpa [ne] using mem) (And.imp_left (GivenUp.mono grows))

/-- Whatever the services ask for is missing or visited, once they are. -/
theorem asked_visits (kept : Common m services st)
    (marks : ∀ x, st.state x = .initializing → GivenUp m st x)
    (all : ∀ s ∈ services, Missing m.deps s ∨ st.state s ≠ .registered) (asked : Asked m services x) :
    Missing m.deps x ∨ st.state x ≠ .registered := by
  obtain ⟨service, mem, path⟩ := asked
  induction path with
  | refl => exact all service mem
  | @tail x d path tried ih =>
      rcases ih with missing | visited
      · obtain ⟨front, back, list, -⟩ := tried
        simp [Missing, list] at missing
      · cases state : st.state x with
        | registered => exact (visited state).elim
        | initializing => exact (marks x state).tried d tried
        | initialized =>
            have logged := kept.ordered.mem ((kept.inits x).mpr state) tried.depends
            exact .inr (by simp [(kept.inits d).mp logged])

/-- A service is done. -/
theorem Inv.settled (inv : Inv m front current stack st)
    (marks : ∀ x, st.state x = .initializing → GivenUp m st x)
    (asked : Missing m.deps current ∨ st.state current ≠ .registered) :
    Settled m (front ++ [current]) st := by
  refine ⟨inv.toCommon, fun x => asked_visits inv.toCommon marks fun service mem => ?_, marks⟩
  rcases List.mem_append.mp mem with before | here
  · exact inv.done service ⟨service, before, .refl⟩
  · exact List.mem_singleton.mp here ▸ asked

/-- With something incomplete, all that wait for it are given up. -/
theorem givenUp_of_path : ∀ {stack : List String} {s : String}, Path m current st stack →
    (∀ x ∈ stack, st.state x = .initializing) → Requested m current st stack s →
      ¬Complete m.deps s → (Missing m.deps s ∨ st.state s ≠ .registered) → ∀ x ∈ stack, GivenUp m st x
  | y :: stack, s, ⟨requested, path⟩, marked, pending, incomplete, asked, x, mem => by
      obtain ⟨front, back, list, done⟩ := pending
      have depends : Depends m.deps y s := ⟨_, list, by simp⟩
      have incomplete' : ¬Complete m.deps y := fun complete => incomplete (complete.of_depends depends)
      have marked' := List.forall_mem_cons.mp marked
      rcases List.mem_cons.mp mem with rfl | mem
      · refine ⟨incomplete', fun d tried => ?_⟩
        rcases tried.of_first list incomplete with before | rfl
        · exact .inr (by simp [done d before])
        · exact asked
      · exact givenUp_of_path path marked'.2 requested incomplete' (.inr (by simp [marked'.1])) x mem

/-- The service that is started is on the stack, or requested. -/
theorem Path.current_mem : ∀ {stack : List String} {s : String}, Path m current st stack →
    Requested m current st stack s → s = current ∨ current ∈ stack
  | [], _, _, same => .inl same
  | _ :: _, _, ⟨requested, path⟩, _ =>
      .inr ((path.current_mem requested).elim (fun same => by simp [same]) (List.mem_cons_of_mem _))

/-- A missing dependency: the null pointer is passed through to `startAll`. -/
theorem Inv.giveUp (inv : Inv m front current stack st) (requested : Requested m current st stack s)
    (missing : Missing m.deps s) : Settled m (front ++ [current]) st := by
  refine inv.settled (fun x marked => ?_) ?_
  · rcases inv.marks x marked with mem | givenUp
    · exact givenUp_of_path inv.path inv.onStack requested (not_complete_of_missing missing)
        (.inl missing) x mem
    · exact givenUp.1
  · rcases inv.path.current_mem requested with rfl | mem
    · exact .inl missing
    · exact .inr (by simp [inv.onStack _ mem])

/-- A dependency with a mark waits for the application itself, or was given up for a service before. -/
theorem Inv.stopped (inv : Inv m front current (x :: stack) st) (pending : Pending m st x d)
    (marked : st.state d = .initializing) :
    Stopped m (front ++ current :: back) st := by
  have tried := inv.tried pending
  have waits := inv.onStack x (by simp)
  have subset : ∀ s ∈ front ++ [current], s ∈ front ++ current :: back := by
    intro s mem
    rcases List.mem_append.mp mem with before | here
    · exact List.mem_append_left _ before
    · simp [List.mem_singleton.mp here]
  refine ⟨inv.inits, inv.nodup, inv.ordered, ?_⟩
  rcases inv.marks d marked with mem | ⟨givenUp, before⟩
  · have asked := (inv.asked d (by simp [marked])).1
    exact .inl ⟨d, asked.mono subset, .tail' (inv.path.tried inv.toCommon d mem) tried⟩
  · refine .inr ⟨front, current, back, x, d, rfl, ⟨?_, inv.fresh x (by simp)⟩, tried, before,
      givenUp.incomplete, (inv.asked d (by simp [marked])).2⟩
    exact ⟨current, by simp, inv.path.2.requests inv.toCommon inv.path.1⟩

/-! ## The fuel -/

/-- How many applications are registered only. -/
def pending (m : Loader) (st : Startup) : Nat :=
  m.registry.countP fun app => st.state app.provides = .registered

theorem pending_mono (m : Loader) (grows : Grows st st') : pending m st' ≤ pending m st := by
  refine List.countP_mono_left fun app _ left => ?_
  simp only [decide_eq_true_eq] at left ⊢
  by_contra visited
  exact grows.visited _ visited left

theorem pending_mark (m : Loader) {app : Application} (found : m.find s = some app)
    (unmarked : st.state s = .registered) : pending m (st.mark s .initializing) < pending m st := by
  obtain rfl : app.provides = s := by simpa using List.find?_some found
  obtain ⟨front, back, registry⟩ := List.append_of_mem (List.mem_of_find?_eq_some found)
  have fewer (apps : List Application) :
      (apps.countP fun app' => (st.mark app.provides .initializing).state app'.provides = .registered) ≤
        apps.countP fun app' => st.state app'.provides = .registered :=
    pending_mono ⟨apps, 0, fun _ => 0⟩ (grows_mark unmarked)
  have first := fewer front
  have last := fewer back
  simp only [pending, registry, List.countP_append, List.countP_cons, mark_state_self, unmarked]
  simp only [decide_true, if_true, reduceCtorEq, decide_false, Bool.false_eq_true, if_false]
  omega

/-! ## Runs of the initialization -/

/-- The loop, if each call in it is right. -/
theorem dependencies_ensures {callee : String → Startup → Result} {fuel : Nat} {null fatal : Startup → Prop}
    (stops : ∀ st d, Inv m front current (x :: stack) st → Pending m st x d →
      st.state d = .initializing → fatal st)
    (step : ∀ (d : String) (st : Startup), Inv m front current (x :: stack) st → Pending m st x d →
      pending m st < fuel → (callee d st).Ensures m
        (fun st' => Inv m front current (x :: stack) st' ∧ Grows st st' ∧ st'.state d ≠ .registered)
        null fatal) :
    ∀ (behind before : List String) (st : Startup), m.deps x = some (before ++ behind) →
      (∀ e ∈ before, st.state e = .initialized) → Inv m front current (x :: stack) st →
        pending m st < fuel →
          (dependencies callee behind st).Ensures m
            (fun st' => Inv m front current (x :: stack) st' ∧ Grows st st' ∧
              ∀ e ∈ before ++ behind, st'.state e = .initialized)
            null fatal := by
  intro behind
  induction behind with
  | nil =>
      intro before st list done inv enough
      exact ⟨inv, .refl st, by simpa using done⟩
  | cons d behind ih =>
      intro before st list done inv enough
      have asks : Pending m st x d := ⟨before, behind, list, done⟩
      rw [dependencies]
      refine (step d st inv asks enough).andThen fun st' ⟨inv', grows, visited⟩ => ?_
      split_ifs with marked
      · exact stops st' d inv' (asks.mono grows) marked
      · have init : st'.state d = .initialized := by
          cases state : st'.state d with
          | registered => exact (visited state).elim
          | initializing => exact (marked state).elim
          | initialized => rfl
        have done' : ∀ e ∈ before ++ [d], st'.state e = .initialized := by
          intro e mem
          rcases List.mem_append.mp mem with front | here
          · exact grows.initialized e (done e front)
          · rw [List.mem_singleton.mp here, init]
        have enough' := Nat.lt_of_le_of_lt (pending_mono m grows) enough
        refine (ih (before ++ [d]) st' (by simpa using list) done' inv' enough').imp ?_
          (fun _ null => null) fun _ fatal => fatal
        exact fun st'' ⟨inv'', grows', all⟩ => ⟨inv'', grows.trans grows', by simpa using all⟩

/-- A call keeps the invariant, and a null pointer leaves everything that waits given up. -/
theorem initializeService_ensures (back : List String) :
    ∀ (fuel : Nat) (s : String) (stack : List String) (st : Startup),
      Inv m front current stack st → Requested m current st stack s → pending m st < fuel →
        (initializeService m fuel s st).Ensures m
          (fun st' => Inv m front current stack st' ∧ Grows st st' ∧ st'.state s ≠ .registered)
          (Settled m (front ++ [current])) (Stopped m (front ++ current :: back)) := by
  intro fuel
  induction fuel with
  | zero =>
      intro s stack st inv requested enough
      omega
  | succ fuel ih =>
      intro s stack st inv requested enough
      rw [initializeService]
      cases found : m.find s with
      | none => exact inv.giveUp requested (by simp [Missing, Loader.deps, found])
      | some app =>
          have known : m.deps s = some app.dependencies := by simp [Loader.deps, found]
          simp only
          split_ifs with visited
          · exact ⟨inv, .refl st, visited⟩
          · have unmarked : st.state s = .registered := not_not.mp visited
            have off : s ∉ stack := fun mem => by simp [inv.onStack s mem] at unmarked
            have fewer := pending_mark m found unmarked
            have loop := dependencies_ensures (fun st d inv => inv.stopped)
              (fun d st inv asks enough => ih d (s :: stack) st inv asks enough)
              app.dependencies [] _ known (by simp)
              (inv.mark requested unmarked (by simp [Missing, known])) (by omega)
            refine loop.andThen ?_
            rintro st' ⟨inv', grows', all⟩
            cases placed : st'.init m s with
            | none => exact Nat.eq_zero_of_not_pos fun some => init_none placed (inv'.thread some)
            | some st'' =>
                obtain ⟨inv'', grows''⟩ := inv'.init off known all placed
                have visited' := grows'.visited s (by simp)
                exact ⟨inv'', ((grows_mark unmarked).trans grows').trans grows'', grows''.visited s visited'⟩

/-- The next service can be started. -/
theorem Settled.next (settled : Settled m front st) (current : String) : Inv m front current [] st where
  asked x visited := (settled.asked x visited).imp_left (.mono fun _ => List.mem_append_left _)
  inits := settled.inits
  nodup := settled.nodup
  ordered := settled.ordered
  complete := settled.complete
  thread := settled.thread
  path := trivial
  onStack := by simp
  done := settled.done
  fresh := by simp
  marks x marked := .inr ⟨settled.marks x marked, (settled.asked x (by simp [marked])).1⟩

theorem startServices_ensures : ∀ (rest : List String) {front : List String} {st : Startup},
    Settled m front st → (startServices m rest st).Ensures m (Settled m (front ++ rest))
      (fun _ => False) (Stopped m (front ++ rest))
  | [], front, st, settled => by simpa [startServices, Result.Ensures] using settled
  | service :: rest, front, st, settled => by
      have enough : pending m st < m.registry.length + 1 := Nat.lt_succ_of_le List.countP_le_length
      have called := initializeService_ensures rest _ service [] st (settled.next service) rfl enough
      -- missing or not, the loop goes on
      have goesOn {st' : Startup} (settled' : Settled m (front ++ [service]) st') :
          (startServices m rest st').Ensures m (Settled m (front ++ service :: rest))
            (fun _ => False) (Stopped m (front ++ service :: rest)) := by
        simpa using startServices_ensures rest settled'
      rw [startServices]
      cases result : initializeService m (m.registry.length + 1) service st with
      | app st' =>
          rw [result] at called
          obtain ⟨inv, -, visited⟩ := called
          refine goesOn (inv.settled (fun x marked => ?_) (.inr visited))
          exact ((inv.marks x marked).resolve_left List.not_mem_nil).1
      | null st' =>
          rw [result] at called
          exact goesOn called
      | fatal st' =>
          rw [result] at called
          exact called
      | outOfBounds =>
          rw [result] at called
          exact called
      | outOfFuel =>
          rw [result] at called
          exact called

theorem settled_started (m : Loader) : Settled m [] started where
  asked := by simp [started]
  inits := by simp [started, Startup.initialized]
  nodup := List.nodup_nil
  ordered := by
    intro front x back split
    simp [started, Startup.initialized] at split
  complete := by simp [started]
  thread := fun some => some
  done := by simp [Asked]
  marks := by simp [started]

/-- Where the program does not end, the complete applications that are asked for are initialized. -/
theorem Settled.initialized_iff (settled : Settled m services st) (x : String) :
    x ∈ st.initialized ↔ Complete m.deps x ∧ Asked m services x := by
  rw [settled.inits]
  constructor
  · intro done
    exact ⟨settled.complete x done, (settled.asked x (by simp [done])).1⟩
  · rintro ⟨complete, asked⟩
    have visited := (settled.done x asked).resolve_left (complete x .refl)
    cases state : st.state x with
    | registered => exact (visited state).elim
    | initializing => exact ((settled.marks x state).incomplete complete).elim
    | initialized => rfl

/-- Of complete services everything that is reached is asked for. -/
theorem Reached.asked (services_complete : ∀ s ∈ services, Complete m.deps s)
    (reached : Reached m services x) : Complete m.deps x ∧ Asked m services x := by
  obtain ⟨service, mem, path⟩ := reached
  induction path with
  | refl => exact ⟨services_complete service mem, service, mem, .refl⟩
  | tail _ depends ih =>
      obtain ⟨complete, service', mem', path'⟩ := ih
      obtain ⟨list, known, here⟩ := depends
      obtain ⟨front, back, rfl⟩ := List.append_of_mem here
      have before : ∀ e ∈ front, Complete m.deps e := fun e early =>
        complete.of_depends ⟨_, known, List.mem_append_left _ early⟩
      exact ⟨complete.of_depends ⟨_, known, here⟩, service', mem',
        path'.tail ⟨front, back, known, before⟩⟩

theorem startAll_cases (some : 0 < m.threads) (services : List String) :
    (∃ st, startAll m services = .app st ∧ Settled m services st) ∨
      ∃ st, startAll m services = .fatal st ∧ Stopped m services st := by
  have run := startServices_ensures services (settled_started m)
  rw [startAll]
  cases result : startServices m services started with
  | app st =>
      rw [result] at run
      exact .inl ⟨st, rfl, run⟩
  | fatal st =>
      rw [result] at run
      exact .inr ⟨st, rfl, run⟩
  | null st =>
      rw [result] at run
      exact run.elim
  | outOfBounds =>
      rw [result] at run
      exact absurd run (Nat.ne_of_gt some)
  | outOfFuel =>
      rw [result] at run
      exact run.elim

end

/-- Applications are initialized once and behind all their dependencies. If the program does not end,
they are those that are complete and asked for. It ends only where a cycle is tried, or the mark of
something that was given up is read. -/
theorem startAll_outcome {m : Loader} (some : 0 < m.threads) (services : List String) :
    ∃ st, (startAll m services = .app st ∨ startAll m services = .fatal st) ∧
      st.initialized.Nodup ∧ Ordered m.deps st.initialized ∧
        (startAll m services = .app st →
          ∀ x, x ∈ st.initialized ↔ Complete m.deps x ∧ Asked m services x) ∧
          (startAll m services = .fatal st → TriesCycle m services ∨ ReadsMark m services) := by
  rcases startAll_cases some services with ⟨st, ends, settled⟩ | ⟨st, ends, stopped⟩
  · refine ⟨st, .inl ends, settled.nodup, settled.ordered, fun _ => settled.initialized_iff,
      fun other => ?_⟩
    cases ends.symm.trans other
  · refine ⟨st, .inr ends, stopped.nodup, stopped.ordered, fun other => ?_, fun _ => stopped.reason⟩
    cases ends.symm.trans other

/-! ## What is newly visited -/

/-- From a state to a later one: marks stay, and nothing that is tried for what is newly visited had
one. -/
structure Steps (m : Loader) (st st' : Startup) : Prop extends Grows st st' where
  marks : ∀ x, st.state x = .initializing → st'.state x = .initializing
  unmarked : ∀ x d, st.state x = .registered → st'.state x ≠ .registered → Tried m.deps x d →
    ¬Missing m.deps d → st.state d ≠ .initializing

/-- What a call from a state makes of it. -/
def Result.Goes (m : Loader) (st : Startup) (s : String) : Result → Prop
  | .app st' => Steps m st st'
  | .null st' => Steps m st st' ∧ ¬Complete m.deps s ∧ (Missing m.deps s ∨ st.state s = .registered)
  | .fatal st' => Grows st st'
  | _ => True

section

variable {m : Loader} {services front back : List String} {st st' st'' : Startup} {s x d : String}

theorem Steps.refl (m : Loader) (st : Startup) : Steps m st st :=
  ⟨.refl st, fun _ marked => marked, fun _ _ before after => (after before).elim⟩

theorem Steps.trans (first : Steps m st st') (second : Steps m st' st'') : Steps m st st'' := by
  refine ⟨first.toGrows.trans second.toGrows, fun x marked => second.marks x (first.marks x marked), ?_⟩
  intro x d before after tried known
  by_cases visited : st'.state x = .registered
  · exact fun marked => second.unmarked x d visited after tried known (first.marks d marked)
  · exact first.unmarked x d before visited tried known

/-- The loop over the dependencies, if each call in it goes so. -/
theorem dependencies_goes {callee : String → Startup → Result}
    (step : ∀ d st, (callee d st).Goes m st d) : ∀ (rest : List String) (st : Startup),
      match dependencies callee rest st with
      | .app st' => Steps m st st' ∧ ∀ d ∈ rest, st.state d ≠ .initializing
      | .null st' => Steps m st st' ∧ ∃ before e behind, rest = before ++ e :: behind ∧
          ¬Complete m.deps e ∧ ∀ d ∈ before ++ [e], ¬Missing m.deps d → st.state d ≠ .initializing
      | .fatal st' => Grows st st'
      | _ => True := by
  intro rest
  induction rest with
  | nil => exact fun st => ⟨.refl m st, by simp⟩
  | cons d rest ih =>
      intro st
      have called := step d st
      rw [dependencies]
      cases result : callee d st with
      | app st₁ =>
          rw [result] at called
          simp only [Result.andThen]
          split_ifs with marked
          · exact called.toGrows
          · have here : st.state d ≠ .initializing := fun before => marked (called.marks d before)
            have back {e : String} (later : st₁.state e ≠ .initializing) : st.state e ≠ .initializing :=
              fun before => later (called.marks e before)
            have later := ih st₁
            cases loop : dependencies callee rest st₁ with
            | app st' =>
                rw [loop] at later
                exact ⟨called.trans later.1, List.forall_mem_cons.mpr ⟨here, fun e mem => back (later.2 e mem)⟩⟩
            | null st' =>
                rw [loop] at later
                obtain ⟨steps, before, e, behind, split, incomplete, unmarked⟩ := later
                refine ⟨called.trans steps, d :: before, e, behind, by rw [split]; rfl, incomplete, ?_⟩
                exact List.forall_mem_cons.mpr
                  ⟨fun _ => here, fun c mem known => back (unmarked c mem known)⟩
            | fatal st' =>
                rw [loop] at later
                exact called.toGrows.trans later
            | outOfBounds => trivial
            | outOfFuel => trivial
      | null st₁ =>
          rw [result] at called
          obtain ⟨steps, incomplete, unmarked⟩ := called
          refine ⟨steps, [], d, rest, rfl, incomplete, ?_⟩
          intro e mem known
          obtain rfl := List.mem_singleton.mp mem
          simp [unmarked.resolve_left known]
      | fatal st₁ =>
          rw [result] at called
          exact called
      | outOfBounds => trivial
      | outOfFuel => trivial

/-- A call marks an application, goes over its dependencies, and may initialize it. -/
theorem steps_marked (unmarked : st.state s = .registered)
    (loop : Steps m (st.mark s .initializing) st')
    (tried : ∀ d, Tried m.deps s d → ¬Missing m.deps d → (st.mark s .initializing).state d ≠ .initializing)
    (other : ∀ x, x ≠ s → st''.state x = st'.state x)
    (visited : st'.state s ≠ .registered → st''.state s ≠ .registered) : Steps m st st'' := by
  have kept {x : String} (marked : st.state x = .initializing) :
      x ≠ s ∧ (st.mark s .initializing).state x = .initializing := by
    have ne : x ≠ s := by
      rintro rfl
      simp [unmarked] at marked
    exact ⟨ne, by rwa [mark_state_ne _ _ ne]⟩
  have grows := (grows_mark unmarked).trans loop.toGrows
  refine ⟨⟨fun x done => ?_, fun x before => ?_⟩, fun x marked => ?_, fun x d before after trying known => ?_⟩
  · have ne : x ≠ s := by
      rintro rfl
      simp [unmarked] at done
    exact other x ne ▸ grows.initialized x done
  · by_cases same : x = s
    · exact same ▸ visited (loop.visited s (by simp))
    · exact other x same ▸ grows.visited x before
  · exact other x (kept marked).1 ▸ loop.marks x (kept marked).2
  · intro marked
    by_cases same : x = s
    · exact tried d (same ▸ trying) known (kept marked).2
    · refine loop.unmarked x d ?_ (other x same ▸ after) trying known (kept marked).2
      rwa [mark_state_ne _ _ same]

theorem initializeService_goes (m : Loader) : ∀ (fuel : Nat) (s : String) (st : Startup),
    (initializeService m fuel s st).Goes m st s := by
  intro fuel
  induction fuel with
  | zero => exact fun _ _ => trivial
  | succ fuel ih =>
      intro s st
      rw [initializeService]
      cases found : m.find s with
      | none =>
          have missing : Missing m.deps s := by simp [Missing, Loader.deps, found]
          exact ⟨.refl m st, not_complete_of_missing missing, .inl missing⟩
      | some app =>
          have known : m.deps s = some app.dependencies := by simp [Loader.deps, found]
          simp only
          split_ifs with visited
          · exact .refl m st
          · have unmarked : st.state s = .registered := not_not.mp visited
            have loop := dependencies_goes ih app.dependencies (st.mark s .initializing)
            cases result : dependencies (initializeService m fuel) app.dependencies
              (st.mark s .initializing) with
            | app st' =>
                rw [result] at loop
                simp only [Result.andThen]
                cases placed : st'.init m s with
                | none => trivial
                | some st'' =>
                    obtain ⟨state, -, -⟩ := init_some placed
                    refine steps_marked unmarked loop.1 (fun d tried _ => ?_) (fun x ne => ?_) fun _ => ?_
                    · obtain ⟨list, known', mem⟩ := tried.depends
                      obtain rfl := Option.some.inj (known.symm.trans known')
                      exact loop.2 d mem
                    · simp [state, ne]
                    · simp [state]
            | null st' =>
                rw [result] at loop
                obtain ⟨steps, before, e, behind, split, incomplete, marks⟩ := loop
                rw [split] at known
                refine ⟨steps_marked unmarked steps (fun d tried present => ?_) (fun _ _ => rfl) id, ?_,
                  .inr unmarked⟩
                · refine marks d ?_ present
                  rcases tried.of_first known incomplete with mem | rfl
                  · exact List.mem_append_left _ mem
                  · simp
                · exact fun complete => incomplete (complete.of_depends ⟨_, known, by simp⟩)
            | fatal st' =>
                rw [result] at loop
                exact (grows_mark unmarked).trans loop
            | outOfBounds => trivial
            | outOfFuel => trivial

theorem startServices_grows (m : Loader) : ∀ (rest : List String) (st : Startup),
    match startServices m rest st with
    | .app st' => Grows st st'
    | .fatal st' => Grows st st'
    | _ => True
  | [], st => .refl st
  | service :: rest, st => by
      have called := initializeService_goes m (m.registry.length + 1) service st
      have goesOn {st' : Startup} (grows : Grows st st') :
          match startServices m rest st' with
          | .app st'' => Grows st st''
          | .fatal st'' => Grows st st''
          | _ => True := by
        have later := startServices_grows m rest st'
        split at later
        · exact grows.trans later
        · exact grows.trans later
        · trivial
      rw [startServices]
      cases result : initializeService m (m.registry.length + 1) service st with
      | app st' =>
          rw [result] at called
          exact goesOn called.toGrows
      | null st' =>
          rw [result] at called
          exact goesOn called.1.toGrows
      | fatal st' =>
          rw [result] at called
          exact called
      | outOfBounds => trivial
      | outOfFuel => trivial

/-- The services in front are started first. -/
theorem startServices_append (m : Loader) : ∀ (front rest : List String) (st : Startup),
    startServices m (front ++ rest) st = (startServices m front st).andThen (startServices m rest)
  | [], _, _ => rfl
  | service :: front, rest, st => by
      rw [List.cons_append, startServices, startServices]
      cases initializeService m (m.registry.length + 1) service st with
      | app st' => exact startServices_append m front rest st'
      | null st' => exact startServices_append m front rest st'
      | _ => rfl

/-- A program that does not end has read no mark. -/
theorem not_readsMark (some : 0 < m.threads) (ends : startAll m services = .app st) :
    ¬ReadsMark m services := by
  rintro ⟨front, service, back, x, d, rfl, ⟨asked, fresh⟩, tried, before, incomplete, present⟩
  rw [startAll, startServices_append] at ends
  -- in front of the service all is well
  have run := startAll_cases some front
  rw [startAll] at run
  rcases run with ⟨st₁, first, settled⟩ | ⟨st₁, first, -⟩
  · have marked : st₁.state d = .initializing := by
      cases state : st₁.state d with
      | registered => exact ((settled.done d before).resolve_left present state).elim
      | initializing => rfl
      | initialized => exact (incomplete (settled.complete d state)).elim
    have unvisited : st₁.state x = .registered := by
      by_contra visited
      exact fresh (settled.asked x visited).1
    have exists_x : ¬Missing m.deps x := by
      obtain ⟨list, known, -⟩ := tried.depends
      simp [Missing, known]
    have single := startServices_ensures [service] settled
    have called := initializeService_goes m (m.registry.length + 1) service st₁
    rw [first, Result.andThen, startServices] at ends
    rw [startServices] at single
    -- behind it the application is visited, which met the mark
    have meets {st₂ : Startup} (steps : Steps m st₁ st₂) (settled₂ : Settled m (front ++ [service]) st₂) :
        False := by
      refine steps.unmarked x d unvisited ?_ tried present marked
      exact (settled₂.done x (asked.mono fun _ => List.mem_append_right _)).resolve_left exists_x
    cases result : initializeService m (m.registry.length + 1) service st₁ with
    | app st₂ =>
        rw [result] at called single
        exact meets called single
    | null st₂ =>
        rw [result] at called single
        exact meets called.1 single
    | fatal st₂ => simp [result] at ends
    | outOfBounds => simp [result] at ends
    | outOfFuel => simp [result] at ends
  · rw [first] at ends
    cases ends

end

/-! ## When the initialization is right -/

/-- Nothing missing and no cycle is reached. -/
def Sound (m : Loader) (x : String) : Prop :=
  Complete m.deps x ∧ ∀ y, ReflTransGen (Depends m.deps) x y → ¬TransGen (Depends m.deps) y y

/-- What one expects of the initialization. -/
def StartsAll (m : Loader) (services : List String) : Prop :=
  ∃ st, (startAll m services = .app st ∨ startAll m services = .fatal st) ∧
    st.initialized.Nodup ∧ Ordered m.deps st.initialized ∧
      (∀ x, Reached m services x → Sound m x → x ∈ st.initialized) ∧
        (startAll m services = .fatal st → ∃ x, TransGen (Depends m.deps) x x)

/-- The first services, or all of them, ask for everything sound that is reached, and then neither a
mark was read nor a cycle tried. If they are not all, there is a cycle. -/
def InTime (m : Loader) (services : List String) : Prop :=
  ∃ front back, services = front ++ back ∧ ¬ReadsMark m front ∧ ¬TriesCycle m front ∧
    (∀ x, Reached m services x → Sound m x → Asked m front x) ∧
      (back = [] ∨ ∃ x, TransGen (Depends m.deps) x x)

section

variable {m : Loader} {services : List String}

/-- What is initialized for the first services stays so. -/
theorem startsAll_of_inTime (some : 0 < m.threads) (inTime : InTime m services) :
    StartsAll m services := by
  obtain ⟨front, back, rfl, unread, acyclic, asked, rest⟩ := inTime
  obtain ⟨st₁, first, settled⟩ : ∃ st, startAll m front = .app st ∧ Settled m front st := by
    rcases startAll_cases some front with app | ⟨st, -, stopped⟩
    · exact app
    · exact (stopped.reason.elim acyclic unread).elim
  have behind : startAll m (front ++ back) = startServices m back st₁ := by
    rw [startAll] at first
    rw [startAll, startServices_append, first]
    rfl
  have early {x : String} (reached : Reached m (front ++ back) x) (sound : Sound m x) :
      st₁.state x = .initialized :=
    (settled.inits x).mp ((settled.initialized_iff x).mpr ⟨sound.1, asked x reached sound⟩)
  have grows := startServices_grows m back st₁
  rw [← behind] at grows
  rcases startAll_cases some (front ++ back) with ⟨st, ends, settled'⟩ | ⟨st, ends, stopped⟩
  · rw [ends] at grows
    refine ⟨st, .inl ends, settled'.nodup, settled'.ordered, fun x reached sound => ?_, fun other => ?_⟩
    · exact (settled'.inits x).mpr (grows.initialized x (early reached sound))
    · cases ends.symm.trans other
  · rw [ends] at grows
    refine ⟨st, .inr ends, stopped.nodup, stopped.ordered, fun x reached sound => ?_, fun _ => ?_⟩
    · exact (stopped.inits x).mpr (grows.initialized x (early reached sound))
    · rcases rest with rfl | cycle
      · cases ends.symm.trans (behind.trans rfl)
      · exact cycle

end

/-! ## What is missed -/

/-- One thread, and nothing pinned. -/
def loaderOf (registry : List Application) : Loader := ⟨registry, 1, fun _ => -1⟩

/-- "a" is given up before "b" is tried. -/
def givenUpEarly : Loader := loaderOf [⟨"a", ["c", "b", ""]⟩, ⟨"b", [""]⟩]

/-- "a" depends on itself. -/
def selfCycle : Loader := loaderOf [⟨"a", ["a", ""]⟩, ⟨"b", [""]⟩]

/-- "a" is given up, and "b" depends on it. -/
def markLeft : Loader := loaderOf [⟨"a", ["c", ""]⟩, ⟨"b", ["a", ""]⟩, ⟨"d", [""]⟩]

theorem markLeft_deps {x d : String} (depends : Depends markLeft.deps x d) :
    x = "a" ∧ d = "c" ∨ x = "b" ∧ d = "a" := by
  obtain ⟨list, known, mem⟩ := depends
  obtain ⟨app, found, rfl⟩ := Option.map_eq_some_iff.mp known
  obtain rfl : app.provides = x := by simpa using List.find?_some found
  have registered := List.mem_of_find?_eq_some found
  simp only [markLeft, loaderOf, List.mem_cons, List.not_mem_nil, or_false] at registered
  rcases registered with rfl | rfl | rfl
  · exact .inl ⟨rfl, by simpa [Application.dependencies] using mem⟩
  · exact .inr ⟨rfl, by simpa [Application.dependencies] using mem⟩
  · simp [Application.dependencies] at mem

theorem markLeft_acyclic (x : String) : ¬TransGen (Depends markLeft.deps) x x := by
  let rank (s : String) : Nat := if s = "b" then 2 else if s = "a" then 1 else 0
  refine acyclic_of_rank rank (fun x d depends => ?_) x
  rcases markLeft_deps depends with ⟨rfl, rfl⟩ | ⟨rfl, rfl⟩
  · decide
  · decide

/-- "a" reaches "c", which is missing. -/
theorem markLeft_incomplete : ¬Complete markLeft.deps "a" := fun complete =>
  complete "c" (.single ⟨["c"], rfl, by simp⟩) rfl

end Drunos.Controller

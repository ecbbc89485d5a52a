/-
# Drunos.Controller.Transactions — static transactions and the replies to them

An application registers static transactions before the start and may destroy them at any time. Each
one gets the next xid from `min_xid` on and the next place of `static_ofresponse`. A reply is looked
up at its xid less `min_xid`; what a destroyed transaction nulls is the place at its xid itself, so
another transaction loses its replies, or the index is behind the end of the vector, and the place of
the destroyed one still points to it.

`message_callback` looks up only what gets to its `default` branch (`Arrival.HandedOn`). Of what does,
a reply with any xid is given to the live transaction that has it, and to none if there is none,
exactly if no transaction is destroyed and fewer are registered than there are xids left from
`min_xid` on (`answered_iff`).
-/
import Drunos.Controller.Callbacks
import Mathlib.Data.List.Induction

namespace Drunos.Controller

set_option autoImplicit false

/-- `OFTransaction`s by the order in which they are constructed. -/
abbrev TransactionId := Nat

/-- The members of `ControllerImpl` that transactions use, and the transactions that are not destroyed
yet with the xid that the lambda connected to `destroyed` has captured. -/
structure Transactions where
  started : Bool
  minSessionXid : BitVec 32
  staticOfresponse : List (Option TransactionId)
  alive : List (TransactionId × BitVec 32)

def Transactions.initial : Transactions where
  started := false
  minSessionXid := minXid
  staticOfresponse := []
  alive := []

def registerStaticTransaction (s : Transactions) : Transactions :=
  if s.started then s
  else
    { s with
      minSessionXid := s.minSessionXid + 1
      staticOfresponse := s.staticOfresponse ++ [some s.staticOfresponse.length]
      alive := s.alive ++ [(s.staticOfresponse.length, s.minSessionXid)] }

/-- The lambda connected to `destroyed`. Nothing is defined after a write outside of the vector. -/
def onDestroyed (s : Transactions) (xid : BitVec 32) : Option Transactions :=
  if xid.toNat < s.staticOfresponse.length then
    some { s with staticOfresponse := s.staticOfresponse.set xid.toNat none }
  else none

/-- Which of them an xid finds. -/
def Transactions.transactionOf (s : Transactions) (xid : BitVec 32) : Option (Option TransactionId) :=
  Controller.transactionOf s.staticOfresponse s.minSessionXid xid

inductive TransactionEvent
  | register
  | startUp
  | destroy (transaction : TransactionId)
  deriving DecidableEq

/-- What there is not, is not destroyed. -/
def transactionStep (s : Transactions) : TransactionEvent → Option Transactions
  | .register => some (registerStaticTransaction s)
  | .startUp => some { s with started := true }
  | .destroy t =>
      match s.alive.find? (·.1 = t) with
      | none => some s
      | some (_, xid) => onDestroyed { s with alive := s.alive.filter (·.1 ≠ t) } xid

/-! ## Histories -/

/-- How many transactions are registered before the start. -/
def registered (history : List TransactionEvent) : Nat :=
  (history.takeWhile (· ≠ .startUp)).count .register

/-- An xid finds the live transaction that has it, and none if there is none. -/
def Answers (s : Transactions) : Prop :=
  ∀ xid, ∃ receiver, s.transactionOf xid = some receiver ∧
    ∀ t, receiver = some t ↔ (t, xid) ∈ s.alive

/-- No transaction is destroyed that was registered. -/
def NoneDestroyed (history : List TransactionEvent) : Prop :=
  ∀ earlier t later, history = earlier ++ .destroy t :: later → registered earlier ≤ t

/-- The table with `n` transactions, none of them destroyed. -/
def table (n : Nat) (started : Bool) : Transactions where
  started := started
  minSessionXid := minXid + BitVec.ofNat 32 n
  staticOfresponse := (List.range n).map some
  alive := (List.range n).map fun t => (t, minXid + BitVec.ofNat 32 t)

theorem registered_concat (history : List TransactionEvent) (e : TransactionEvent) :
    registered (history ++ [e]) =
      if e = .register ∧ .startUp ∉ history then registered history + 1 else registered history := by
  induction history with
  | nil => cases e <;> simp [registered]
  | cons head tail ih =>
      cases head <;> simp_all [registered]
      split <;> simp_all

theorem noneDestroyed_concat (history : List TransactionEvent) (e : TransactionEvent) :
    NoneDestroyed (history ++ [e]) ↔
      NoneDestroyed history ∧ ∀ t, e = .destroy t → registered history ≤ t := by
  constructor
  · intro none
    refine ⟨fun earlier t later split => none earlier t (later ++ [e]) (by simp [split]), ?_⟩
    rintro t rfl
    exact none history t [] rfl
  · rintro ⟨before, last⟩ earlier t later split
    rcases List.eq_nil_or_concat later with rfl | ⟨middle, e', rfl⟩
    · obtain ⟨rfl, same⟩ := List.append_inj' split rfl
      exact last t (List.cons.inj same).1
    · rw [List.concat_eq_append, ← List.cons_append, ← List.append_assoc] at split
      obtain ⟨rfl, -⟩ := List.append_inj' split rfl
      exact before earlier t middle rfl

/-! ## One step -/

@[simp] theorem table_started (n : Nat) (started : Bool) : (table n started).started = started := rfl
@[simp] theorem table_minSessionXid (n : Nat) (started : Bool) :
    (table n started).minSessionXid = minXid + BitVec.ofNat 32 n := rfl
@[simp] theorem table_staticOfresponse (n : Nat) (started : Bool) :
    (table n started).staticOfresponse = (List.range n).map some := rfl
@[simp] theorem table_alive (n : Nat) (started : Bool) :
    (table n started).alive = (List.range n).map fun t => (t, minXid + BitVec.ofNat 32 t) := rfl

@[simp] theorem minXid_toNat : minXid.toNat = 4095 := rfl

theorem transactionOf_session {s : Transactions} {xid : BitVec 32} (late : 4095 ≤ xid.toNat)
    (session : xid.toNat < s.minSessionXid.toNat) :
    s.transactionOf xid = s.staticOfresponse[xid.toNat - 4095]? := by
  have early : ¬xid < minXid := by
    rw [BitVec.lt_def, minXid_toNat]
    omega
  have place : (xid - minXid).toNat = xid.toNat - 4095 :=
    BitVec.toNat_sub_of_le (BitVec.not_lt.mp early)
  rw [Transactions.transactionOf, Controller.transactionOf, if_neg early,
    if_pos (BitVec.lt_def.mpr session), place]

theorem transactionOf_other {s : Transactions} {xid : BitVec 32}
    (other : xid.toNat < 4095 ∨ s.minSessionXid.toNat ≤ xid.toNat) :
    s.transactionOf xid = some none := by
  simp only [Transactions.transactionOf, Controller.transactionOf, BitVec.lt_def, minXid_toNat]
  split_ifs <;> first | rfl | omega

theorem xid_toNat (t : Nat) : (minXid + BitVec.ofNat 32 t).toNat = (4095 + t) % 4294967296 := by
  simp

theorem mem_alive {n t : Nat} {started : Bool} {xid : BitVec 32} :
    (t, xid) ∈ (table n started).alive ↔ t < n ∧ xid.toNat = (4095 + t) % 4294967296 := by
  rw [← xid_toNat, BitVec.toNat_inj]
  simp [eq_comm]

/-- As long as the xids do not wrap round, every reply gets where it belongs. -/
theorem table_answers {n : Nat} {started : Bool} (bound : 4095 + n < 4294967296) :
    Answers (table n started) := by
  intro xid
  have next : (table n started).minSessionXid.toNat = 4095 + n := by
    rw [table_minSessionXid, xid_toNat]
    omega
  by_cases session : 4095 ≤ xid.toNat ∧ xid.toNat < 4095 + n
  · obtain ⟨late, session⟩ := session
    have inside : xid.toNat - 4095 < n := by omega
    refine ⟨some (xid.toNat - 4095), ?_, fun t => ?_⟩
    · rw [transactionOf_session late (by omega)]
      simp [inside]
    · rw [mem_alive, Option.some.injEq]
      constructor
      · rintro rfl
        omega
      · rintro ⟨registered, own⟩
        show xid.toNat - 4095 = t
        omega
  · refine ⟨none, transactionOf_other (by omega), fun t => ?_⟩
    rw [mem_alive]
    simp only [reduceCtorEq, false_iff]
    omega

/-- Once the xids wrap round, nobody gets a reply. -/
theorem table_wraps {n : Nat} {started : Bool} (bound : 4095 + n = 4294967296) :
    ¬Answers (table n started) := by
  intro answers
  obtain ⟨receiver, found, right⟩ := answers minXid
  have next : (table n started).minSessionXid.toNat = 0 := by
    rw [table_minSessionXid, xid_toNat, bound]
  have first : (0, minXid) ∈ (table n started).alive := by
    rw [mem_alive, minXid_toNat]
    omega
  rw [transactionOf_other (by omega)] at found
  rw [← right, ← Option.some.inj found] at first
  cases first

theorem register_table (n : Nat) (started : Bool) :
    registerStaticTransaction (table n started) =
      table (if started then n else n + 1) started := by
  cases started with
  | true => rfl
  | false =>
      have next : minXid + BitVec.ofNat 32 n + 1#32 = minXid + BitVec.ofNat 32 (n + 1) := by
        rw [BitVec.add_assoc, ← BitVec.ofNat_add]
      simp [registerStaticTransaction, table, List.range_succ, next]

/-- What nobody has registered nobody destroys. -/
theorem destroy_table {n t : Nat} {started : Bool} (none : n ≤ t) :
    transactionStep (table n started) (.destroy t) = some (table n started) := by
  have absent : (table n started).alive.find? (·.1 = t) = Option.none := by
    simp
    omega
  simp only [transactionStep, absent]

theorem find_alive {n t : Nat} {started : Bool} (inside : t < n) :
    (table n started).alive.find? (·.1 = t) = some (t, minXid + BitVec.ofNat 32 t) := by
  cases found : (table n started).alive.find? (·.1 = t) with
  | none =>
      have absent := List.find?_eq_none.mp found (t, minXid + BitVec.ofNat 32 t)
        (mem_alive.mpr ⟨inside, xid_toNat t⟩)
      simp at absent
  | some entry =>
      obtain ⟨own, xid⟩ := entry
      obtain rfl : own = t := by simpa using List.find?_some found
      have known := (mem_alive.mp (List.mem_of_find?_eq_some found)).2
      rw [← xid_toNat, BitVec.toNat_inj] at known
      rw [known]

/-- A destroyed transaction still receives the replies to it, or the write was out of bounds: the place
that is nulled is that of another transaction. -/
theorem destroy_wrong {n t : Nat} {started : Bool} (inside : t < n)
    (bound : 4095 + n < 4294967296) {s : Transactions}
    (step : transactionStep (table n started) (.destroy t) = some s) : ¬Answers s := by
  have own : (minXid + BitVec.ofNat 32 t).toNat = 4095 + t := by
    rw [xid_toNat]
    omega
  have next : (table n started).minSessionXid.toNat = 4095 + n := by
    rw [table_minSessionXid, xid_toNat]
    omega
  simp only [transactionStep, find_alive inside, onDestroyed, own] at step
  split_ifs at step
  obtain rfl := Option.some.inj step
  intro answers
  obtain ⟨receiver, found, right⟩ := answers (minXid + BitVec.ofNat 32 t)
  have other : 4095 + t ≠ t := by
      omega
  rw [transactionOf_session (by omega) (by simp only [own, next]; omega), own,
    Nat.add_sub_cancel_left, List.getElem?_set_ne other] at found
  have still : receiver = some t := by simpa [inside, eq_comm] using found
  rw [right] at still
  simp at still

/-! ## The whole history -/

/-- A history in which no transaction is destroyed and the xids do not wrap round. -/
structure Kept (history : List TransactionEvent) : Prop where
  undestroyed : NoneDestroyed history
  few : registered history + 0xfff < 0x100000000

/-- An event that keeps the history so. -/
def Keeps (history : List TransactionEvent) : TransactionEvent → Prop
  | .register => .startUp ∈ history ∨ registered history + 1 + 0xfff < 0x100000000
  | .startUp => True
  | .destroy t => registered history ≤ t

theorem kept_concat (history : List TransactionEvent) (e : TransactionEvent) :
    Kept (history ++ [e]) ↔ Kept history ∧ Keeps history e := by
  constructor
  · rintro ⟨none, few⟩
    rw [noneDestroyed_concat] at none
    rw [registered_concat] at few
    refine ⟨⟨none.1, by split_ifs at few <;> omega⟩, ?_⟩
    cases e with
    | register =>
        by_cases started : .startUp ∈ history
        · exact .inl started
        · exact .inr (by simpa [started] using few)
    | startUp => trivial
    | destroy t => exact none.2 t rfl
  · rintro ⟨⟨none, few⟩, keeps⟩
    refine ⟨(noneDestroyed_concat history e).mpr ⟨none, ?_⟩, ?_⟩
    · rintro t rfl
      exact keeps
    · rw [registered_concat]
      split_ifs with counted
      · obtain ⟨rfl, early⟩ := counted
        exact keeps.resolve_left early
      · exact few

theorem kept_run {history : List TransactionEvent} (kept : Kept history) :
    history.foldlM transactionStep .initial =
      some (table (registered history) (decide (.startUp ∈ history))) := by
  induction history using List.reverseRecOn with
  | nil => rfl
  | append_singleton earlier e ih =>
      obtain ⟨before, keeps⟩ := (kept_concat earlier e).mp kept
      rw [List.foldlM_append, ih before, registered_concat]
      cases e with
      | register =>
          by_cases started : TransactionEvent.startUp ∈ earlier <;>
            simp [transactionStep, register_table, started]
      | startUp => simp [transactionStep, table]
      | destroy t =>
          have left : transactionStep (table (registered earlier) (decide (.startUp ∈ earlier)))
              (.destroy t) = some (table (registered earlier) (decide (.startUp ∈ earlier))) :=
            destroy_table keeps
          simp [left]

theorem kept_answers {history : List TransactionEvent} (kept : Kept history) :
    ∃ s, history.foldlM transactionStep .initial = some s ∧ Answers s := by
  have few := kept.few
  exact ⟨_, kept_run kept, table_answers (by omega)⟩

/-- The first event that does not keep the history so leaves a state in which an xid goes wrong. -/
theorem not_answers_of_not_keeps {history : List TransactionEvent} {e : TransactionEvent}
    (kept : Kept history) (not : ¬Keeps history e) {s : Transactions}
    (run : (history ++ [e]).foldlM transactionStep .initial = some s) : ¬Answers s := by
  have few := kept.few
  rw [List.foldlM_append, kept_run kept] at run
  cases e with
  | register =>
      obtain ⟨early, many⟩ := not_or.mp not
      obtain rfl : table (registered history + 1) false = s := by
        simpa [transactionStep, register_table, early] using run
      exact table_wraps (by omega)
  | startUp => exact (not trivial).elim
  | destroy t =>
      have step : transactionStep (table (registered history) (decide (.startUp ∈ history)))
          (.destroy t) = some s := by simpa using run
      exact destroy_wrong (Nat.lt_of_not_le not) (by omega) step

/-- In every state of the history, and no write is out of bounds. -/
def Throughout (holds : Transactions → Prop) (history : List TransactionEvent) : Prop :=
  ∀ earlier, earlier <+: history →
    ∃ s, earlier.foldlM transactionStep .initial = some s ∧ holds s

theorem throughout_concat (holds : Transactions → Prop) (history : List TransactionEvent)
    (e : TransactionEvent) :
    Throughout holds (history ++ [e]) ↔ Throughout holds history ∧
      ∃ s, (history ++ [e]).foldlM transactionStep .initial = some s ∧ holds s := by
  simp only [Throughout, List.prefix_concat_iff]
  constructor
  · intro all
    exact ⟨fun earlier within => all earlier (.inr within), all _ (.inl rfl)⟩
  · rintro ⟨before, last⟩ earlier (rfl | within)
    · exact last
    · exact before earlier within

theorem Throughout.imp {holds holds' : Transactions → Prop} {history : List TransactionEvent}
    (sub : ∀ s, holds s → holds' s) (all : Throughout holds history) : Throughout holds' history := by
  intro earlier within
  obtain ⟨s, run, here⟩ := all earlier within
  exact ⟨s, run, sub s here⟩

theorem throughout_nil {holds : Transactions → Prop} (here : holds .initial) :
    Throughout holds [] := by
  intro earlier within
  rw [List.prefix_nil.mp within]
  exact ⟨.initial, rfl, here⟩

theorem kept_nil : Kept [] := ⟨fun earlier t later split => by simp at split, by decide⟩

theorem throughout_answers_iff (history : List TransactionEvent) :
    Throughout Answers history ↔ Kept history := by
  induction history using List.reverseRecOn with
  | nil =>
      obtain ⟨s, run, answers⟩ := kept_answers kept_nil
      obtain rfl : Transactions.initial = s := Option.some.inj run
      exact ⟨fun _ => kept_nil, fun _ => throughout_nil answers⟩
  | append_singleton earlier e ih =>
      rw [throughout_concat, ih]
      constructor
      · rintro ⟨kept, s, run, answers⟩
        refine (kept_concat earlier e).mpr ⟨kept, Classical.byContradiction fun not => ?_⟩
        exact not_answers_of_not_keeps kept not run answers
      · intro kept
        exact ⟨((kept_concat earlier e).mp kept).1, kept_answers kept⟩

theorem registered_le_append (earlier later : List TransactionEvent) :
    registered earlier ≤ registered (earlier ++ later) := by
  induction later using List.reverseRecOn with
  | nil => simp
  | append_singleton later e ih =>
      rw [← List.append_assoc, registered_concat]
      split_ifs <;> omega

theorem kept_of_none {history : List TransactionEvent} (none : registered history = 0) :
    Kept history := by
  refine ⟨fun earlier t later split => ?_, by omega⟩
  have few := registered_le_append earlier (.destroy t :: later)
  rw [← split] at few
  omega

/-- No transaction is live in any state of the history exactly if none is registered. -/
theorem throughout_none_iff (history : List TransactionEvent) :
    Throughout (fun s => s.alive = []) history ↔ registered history = 0 := by
  induction history using List.reverseRecOn with
  | nil => exact ⟨fun _ => rfl, fun _ => throughout_nil rfl⟩
  | append_singleton earlier e ih =>
      rw [throughout_concat, ih]
      constructor
      · rintro ⟨none, s, run, dead⟩
        rw [registered_concat, none]
        split_ifs with counted
        · -- the first one is live after its registration
          obtain ⟨rfl, early⟩ := counted
          rw [List.foldlM_append, kept_run (kept_of_none none), none] at run
          obtain rfl : table 1 false = s := by simpa [transactionStep, register_table, early] using run
          simp at dead
        · rfl
      · intro none
        have before := registered_le_append earlier [e]
        exact ⟨by omega, _, kept_run (kept_of_none none), by rw [none, table_alive]; rfl⟩

/-! ## The replies -/

/-- A message arrives on a connection. -/
structure Arrival where
  cfg : Config
  applicationData : ConnId → Option Dpid
  switches : Dpid → Option (Option ConnId)
  conn : ConnId
  m : Message

namespace Arrival

/-- The same with another xid. -/
def withXid (a : Arrival) (xid : BitVec 32) : Arrival := { a with m := { a.m with xid } }

/-- The controller it meets. -/
def controller (a : Arrival) (s : Transactions) : ControllerImpl where
  applicationData := a.applicationData
  switches := a.switches
  staticOfresponse := s.staticOfresponse
  minSessionXid := s.minSessionXid

/-- What `message_callback` does with it. -/
def effects (a : Arrival) (s : Transactions) : List Effect :=
  (messageCallback a.cfg (a.controller s) a.conn a.m).2

end Arrival

/-- The transaction whose signal is emitted. -/
def Effect.receiver? : Effect → Option TransactionId
  | .transactionError t _ => some t
  | .transactionResponse t _ => some t
  | _ => none

namespace Arrival

/-- The transactions the message is given to. -/
def receivers (a : Arrival) (s : Transactions) : List TransactionId :=
  (a.effects s).filterMap Effect.receiver?

/-- The message is given to the live transaction that has its xid and to no other, and to none if there
is none; its xid is not read through a null pointer, and no index is outside of the vector. -/
structure Right (a : Arrival) (s : Transactions) : Prop where
  read : .nullBase ∉ a.effects s
  inside : .outOfBounds ∉ a.effects s
  live : ∀ t, (t, a.m.xid) ∈ s.alive → a.receivers s = [t]
  other : (∀ t, (t, a.m.xid) ∉ s.alive) → a.receivers s = []

/-- A multipart reply of a type that `reparseMultipartReply` has no case for. -/
def UnknownMultipart (a : Arrival) : Prop :=
  a.m.type = OFPT_MULTIPART_REPLY ∧ a.m.mpartType ∉ multipartTypes

instance (a : Arrival) : Decidable a.UnknownMultipart := inferInstanceAs (Decidable (_ ∧ _))

/-- The `default` branch is reached: by a readable message on a connection with a context, of a type that
`OFMsgUnion` has a case for and the callback has not. -/
def ReachesDefault (a : Arrival) : Prop :=
  (a.applicationData a.conn).isSome ∧ a.m.unpacks = true ∧ a.m.type ∈ ofMsgUnionTypes ∧
    a.m.type ∉ [OFPT_FEATURES_REPLY, OFPT_PORT_STATUS, OFPT_FLOW_REMOVED] ∧
    ¬(a.cfg.cbench = true ∧ a.m.type = OFPT_PACKET_IN)

/-- The `default` branch looks up its xid. -/
def HandedOn (a : Arrival) : Prop := a.ReachesDefault ∧ ¬a.UnknownMultipart

end Arrival

/-- The effect neither gives the message to a transaction nor ends the callback in the `default`
branch. -/
def Effect.silent : Effect → Bool
  | .transactionError .. | .transactionResponse .. | .nullBase | .outOfBounds => false
  | _ => true

theorem applyHandlers_silent (cfg : Config) (ctx : Option Dpid) (m : Message) :
    ∀ effect ∈ (applyHandlers cfg ctx m).1, effect.silent = true := by
  unfold applyHandlers
  repeat' split
  all_goals simp [Effect.silent]

namespace Arrival

variable {a : Arrival} {s : Transactions}

/-- Nothing is given to a transaction, and nothing goes wrong. -/
theorem silent_receivers (silent : ∀ effect ∈ a.effects s, effect.silent = true) :
    .nullBase ∉ a.effects s ∧ .outOfBounds ∉ a.effects s ∧ a.receivers s = [] := by
  refine ⟨fun mem => absurd (silent _ mem) (by decide), fun mem => absurd (silent _ mem) (by decide), ?_⟩
  rw [receivers, List.filterMap_eq_nil_iff]
  intro effect mem
  have quiet := silent effect mem
  cases effect <;> first | rfl | simp [Effect.silent] at quiet

/-- In the `default` branch the handlers have had the message. -/
theorem effects_default (reaches : a.ReachesDefault) (s : Transactions) : ∃ dpid applied,
    (∀ effect ∈ applied, effect.silent = true) ∧
      a.effects s = applied ++
        if a.UnknownMultipart then [.nullBase] else dispatchTransaction (a.controller s) dpid a.m := by
  obtain ⟨context, unpacks, known, other, bench⟩ := reaches
  obtain ⟨dpid, held⟩ := Option.isSome_iff_exists.mp context
  have goesOn : (applyHandlers a.cfg (some dpid) a.m).2 = true := by
    unfold applyHandlers
    cases a.cfg.handlers a.m.type <;> simp [unpacks]
  have union : ofMsgUnion a.m = if a.UnknownMultipart then .withoutBase else .parsed := by
    rw [ofMsgUnion, if_pos known, if_pos unpacks]
    rfl
  simp only [List.mem_cons, List.not_mem_nil, or_false, not_or] at other
  obtain ⟨notFeatures, notStatus, notRemoved⟩ := other
  have context' : (a.controller s).applicationData a.conn = some dpid := held
  refine ⟨dpid, (applyHandlers a.cfg (some dpid) a.m).1, applyHandlers_silent _ _ _, ?_⟩
  rw [effects, messageCallback, if_neg bench]
  simp only [context', goesOn, if_true, reduceCtorEq, false_and, if_false, union]
  split_ifs
  · rfl
  · simp only [dispatchMessage, context', if_neg notFeatures, if_neg notStatus, if_neg notRemoved]

/-- The cases of the callback itself give a message to no transaction. -/
theorem dispatchMessage_silent {cfg : Config} {impl : ControllerImpl} {conn : ConnId} {m : Message}
    (own : impl.applicationData conn = none ∨
      m.type ∈ [OFPT_FEATURES_REPLY, OFPT_PORT_STATUS, OFPT_FLOW_REMOVED]) :
    ∀ effect ∈ (dispatchMessage cfg impl conn m).2, effect.silent = true := by
  simp only [List.mem_cons, List.not_mem_nil, or_false] at own
  by_cases features : m.type = OFPT_FEATURES_REPLY
  · rw [dispatchMessage, if_pos features]
    intro effect mem
    rcases List.mem_append.mp mem with sent | up
    · obtain ⟨message, -, rfl⟩ := List.mem_map.mp sent
      rfl
    · rw [List.mem_singleton.mp up]
      rfl
  · rw [dispatchMessage, if_neg features]
    cases held : impl.applicationData conn with
    | none =>
        simp only
        split <;> simp [Effect.silent]
    | some dpid =>
        simp only [held, reduceCtorEq, features, false_or] at own ⊢
        rcases own with status | removed
        · simp [status, Effect.silent]
        · rw [removed, if_neg (by decide), if_pos rfl]
          simp [Effect.silent]

/-- What does not get to the `default` branch is given to no transaction. -/
theorem effects_elsewhere (elsewhere : ¬a.ReachesDefault) (s : Transactions) :
    ∀ effect ∈ a.effects s, effect.silent = true := by
  have applied := applyHandlers_silent a.cfg ((a.controller s).applicationData a.conn) a.m
  have after {more : List Effect} (silent : ∀ effect ∈ more, effect.silent = true) :
      ∀ effect ∈ (applyHandlers a.cfg ((a.controller s).applicationData a.conn) a.m).1 ++ more,
        effect.silent = true :=
    fun effect mem => (List.mem_append.mp mem).elim (applied effect) (silent effect)
  have known (unpacked : ofMsgUnion a.m = .parsed ∨ ofMsgUnion a.m = .withoutBase) :
      a.m.type ∈ ofMsgUnionTypes ∧ a.m.unpacks = true := by
    unfold ofMsgUnion at unpacked
    split_ifs at unpacked with type unpacks <;> simp_all
  -- a case of the callback itself, or no context
  have own (bench : ¬(a.cfg.cbench = true ∧ a.m.type = OFPT_PACKET_IN))
      (unpacked : ofMsgUnion a.m = .parsed ∨ ofMsgUnion a.m = .withoutBase) :
      (a.controller s).applicationData a.conn = none ∨
        a.m.type ∈ [OFPT_FEATURES_REPLY, OFPT_PORT_STATUS, OFPT_FLOW_REMOVED] := by
    by_contra neither
    obtain ⟨context, other⟩ := not_or.mp neither
    obtain ⟨type, unpacks⟩ := known unpacked
    exact elsewhere ⟨Option.isSome_iff_ne_none.mpr context, unpacks, type, other, bench⟩
  unfold effects messageCallback
  split_ifs with bench
  · simp [Effect.silent]
  · simp only
    split_ifs with goesOn early
    · exact after (by simp [Effect.silent])
    · split
      · exact after (by simp [Effect.silent])
      · exact after (by simp [Effect.silent])
      · next withoutBase =>
          have multipart : a.m.type = OFPT_MULTIPART_REPLY := by
            unfold ofMsgUnion at withoutBase
            split_ifs at withoutBase with _ _ unknown
            exact unknown.1
          have none : (a.controller s).applicationData a.conn = none :=
            (own bench (.inr withoutBase)).resolve_right (by rw [multipart]; decide)
          exact absurd ⟨none, by rw [multipart]; decide⟩ early
      · next parsed => exact after (dispatchMessage_silent (own bench (.inl parsed)))
    · exact applied

/-- What the `default` branch does with a message it looks up. -/
theorem handedOn_spec (handed : a.HandedOn) (s : Transactions) :
    .nullBase ∉ a.effects s ∧
      (.outOfBounds ∉ a.effects s ↔ (s.transactionOf a.m.xid).isSome) ∧
      a.receivers s = (s.transactionOf a.m.xid).join.toList := by
  obtain ⟨dpid, applied, silent, effects⟩ := effects_default handed.1 s
  rw [if_neg handed.2] at effects
  have quiet : applied.filterMap Effect.receiver? = [] := by
    rw [List.filterMap_eq_nil_iff]
    intro effect mem
    have quiet := silent effect mem
    cases effect <;> first | rfl | simp [Effect.silent] at quiet
  have noBase : Effect.nullBase ∉ applied := fun mem => absurd (silent _ mem) (by decide)
  have noBound : Effect.outOfBounds ∉ applied := fun mem => absurd (silent _ mem) (by decide)
  have same : transactionOf (a.controller s).staticOfresponse (a.controller s).minSessionXid a.m.xid =
      s.transactionOf a.m.xid := rfl
  rw [receivers, effects, List.filterMap_append, quiet, List.nil_append, dispatchTransaction, same]
  cases s.transactionOf a.m.xid with
  | none => simp [noBase, Effect.receiver?]
  | some found =>
      cases found with
      | none => simp [noBase, noBound]
      | some t => split_ifs <;> simp [noBase, noBound, Effect.receiver?]

/-- **A message that the `default` branch looks up is right with any xid exactly if the table answers.** -/
theorem right_iff_answers (handed : a.HandedOn) (s : Transactions) :
    (∀ xid, (a.withXid xid).Right s) ↔ Answers s := by
  have each (xid : BitVec 32) : (a.withXid xid).Right s ↔
      ∃ receiver, s.transactionOf xid = some receiver ∧
        ∀ t, receiver = some t ↔ (t, xid) ∈ s.alive := by
    obtain ⟨noBase, bounds, receivers⟩ := handedOn_spec (a := a.withXid xid) handed s
    change (_ ↔ (s.transactionOf xid).isSome = true) at bounds
    change _ = (s.transactionOf xid).join.toList at receivers
    constructor
    · rintro ⟨-, inside, live, other⟩
      obtain ⟨receiver, found⟩ := Option.isSome_iff_exists.mp (bounds.mp inside)
      refine ⟨receiver, found, fun t => ⟨?_, fun alive => ?_⟩⟩
      · rintro rfl
        by_contra dead
        have given : (a.withXid xid).receivers s = [t] := by rw [receivers, found]; rfl
        by_cases some : ∃ t', (t', xid) ∈ s.alive
        · obtain ⟨t', alive⟩ := some
          obtain rfl := List.singleton_inj.mp (given.symm.trans (live t' alive))
          exact dead alive
        · rw [other fun t' alive => some ⟨t', alive⟩] at given
          cases given
      · have given := receivers.symm.trans (live t alive)
        rw [found] at given
        cases receiver <;> simp_all
    · rintro ⟨receiver, found, right⟩
      rw [found] at receivers
      refine ⟨noBase, bounds.mpr (by rw [found]; rfl), fun t alive => ?_, fun none => ?_⟩
      · rw [receivers, (right t).mpr alive]
        rfl
      · cases receiver with
        | none => exact receivers
        | some t => exact absurd ((right t).mp rfl) (none t)
  simp only [each, Answers]

/-- Any other message is right with any xid exactly if no transaction is live and its xid is not read. -/
theorem right_iff_none (not : ¬a.HandedOn) (s : Transactions) :
    (∀ xid, (a.withXid xid).Right s) ↔ s.alive = [] ∧ ¬a.ReachesDefault := by
  by_cases reaches : a.ReachesDefault
  · -- a multipart reply of an unknown type
    have unknown : a.UnknownMultipart := Classical.byContradiction fun single => not ⟨reaches, single⟩
    refine iff_of_false (fun right => ?_) fun none => none.2 reaches
    obtain ⟨dpid, applied, -, effects⟩ := effects_default (a := a.withXid 0) reaches s
    have unknown' : (a.withXid 0).UnknownMultipart := unknown
    have read := (right 0).read
    rw [effects, if_pos unknown'] at read
    exact read (List.mem_append_right _ (List.mem_singleton_self _))
  · have silent (xid : BitVec 32) := silent_receivers (effects_elsewhere (a := a.withXid xid) reaches s)
    constructor
    · refine fun right => ⟨?_, reaches⟩
      rw [List.eq_nil_iff_forall_not_mem]
      rintro ⟨t, xid⟩ alive
      have given := (right xid).live t alive
      rw [(silent xid).2.2] at given
      cases given
    · rintro ⟨none, -⟩ xid
      obtain ⟨noBase, inside, receivers⟩ := silent xid
      exact ⟨noBase, inside, fun t alive => by simp [none] at alive, fun _ => receivers⟩

end Arrival

/-- In every state of the history the message, with any xid, gets to the live transaction that has it. -/
def Answered (a : Arrival) (history : List TransactionEvent) : Prop :=
  Throughout (fun s => ∀ xid, (a.withXid xid).Right s) history

/-- **In every state of a history a message with any xid gets to the live transaction that has the xid
and to nobody else, and no index is out of bounds, exactly if no transaction is destroyed, the xids do
not wrap round, and the callback looks such messages up**, which matters only where transactions are
registered. -/
theorem answered_iff (a : Arrival) (history : List TransactionEvent) :
    Answered a history ↔
      NoneDestroyed history ∧ registered history + 0xfff < 0x100000000 ∧
        (a.HandedOn ∨ registered history = 0 ∧ ¬a.ReachesDefault) := by
  by_cases handed : a.HandedOn
  · simp only [Answered, Arrival.right_iff_answers handed, throughout_answers_iff, handed, true_or,
      and_true]
    exact ⟨fun kept => ⟨kept.undestroyed, kept.few⟩, fun both => ⟨both.1, both.2⟩⟩
  · simp only [Answered, Arrival.right_iff_none handed, handed, false_or]
    constructor
    · intro all
      have none := (throughout_none_iff history).mp (all.imp fun _ both => both.1)
      obtain ⟨s, -, -, elsewhere⟩ := all history (List.prefix_refl _)
      have kept := kept_of_none none
      exact ⟨kept.undestroyed, kept.few, none, elsewhere⟩
    · rintro ⟨-, -, none, elsewhere⟩
      exact ((throughout_none_iff history).mpr none).imp fun _ dead => ⟨dead, elsewhere⟩

/-- Destroying the only transaction writes behind the end of the vector, before any reply. -/
theorem destroy_outOfBounds :
    let reply : Arrival :=
      { cfg := { cbench := false, maxTable := 0, handlers := fun _ => none }
        applicationData := fun _ => some 7
        switches := fun _ => none
        conn := 1
        m := { type := OFPT_BARRIER_REPLY, unpacks := true, xid := 0xfff, datapathId := 0 } }
    reply.HandedOn ∧
      ([.register, .destroy 0] : List TransactionEvent).foldlM transactionStep .initial = none ∧
      ¬Answered reply [.register, .destroy 0] := by
  intro reply
  have outside : ([.register, .destroy 0] : List TransactionEvent).foldlM transactionStep .initial =
      none := by decide
  refine ⟨⟨⟨rfl, rfl, by decide, by decide, by decide⟩, by decide⟩, outside, fun answered => ?_⟩
  obtain ⟨s, run, -⟩ := answered [.register, .destroy 0] (List.prefix_refl _)
  rw [outside] at run
  cases run

end Drunos.Controller

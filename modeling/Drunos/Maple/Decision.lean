/-
# Drunos.Maple.Decision — what the handlers ask for a packet

A `Decision` is passed from one handler of the pipeline to the next, each of which asks
for something more. A request for an output is refused (`decision_conflict`) when the
decision has another one; timeouts are only lowered. `drop` and `clear` overwrite what has
been asked for. As long as nobody asks for them the handlers may come in any order
(`asks_perm`), and they are refused exactly when two of their outputs disagree
(`asks_isSome_iff`).
-/
import Drunos.Theory.Run
import Drunos.Oxm.FieldSet
import Drunos.Oxm.OpenflowBasic
import Mathlib.Data.Fin.Basic
import Mathlib.Data.List.Perm.Basic
import Mathlib.Order.Lattice

namespace Drunos.Maple

open Drunos.Oxm Drunos.Theory Drunos.Theory.Run

set_option autoImplicit false

instance neZero_bytes : NeZero (2 ^ 16) := ⟨by decide⟩

instance neZero_seconds : NeZero (2 ^ 32) := ⟨by decide⟩

section

variable [OxmTypes]

/-! ## Actions -/

/-- The actions of OpenFlow that maple or a decision of the repository puts in a list. -/
inductive Action where
  | setField (field : Field)
  | output (port : BitVec 32) (maxLen : Fin (2 ^ 16))
  | group (id : BitVec 32)

/-- `Decision::CustomDecision`. -/
structure CustomDecision where
  apply : List Action → Nat → List Action
  /-- None are for all switches. -/
  switches : List Nat := []

/-! ## Decisions -/

/-- Seconds in a `uint32_t`. -/
abbrev Duration := Fin (2 ^ 32)

/-- `Decision::duration::max`, which is no timeout. -/
def Duration.max : Duration := Fin.last _

omit [OxmTypes] in
theorem Duration.max_le : Duration.max ≤ Duration.max := le_rfl

/-- `Decision::Base`. The methods lower the idle timeout with the hard one. -/
@[ext]
structure Base where
  return_ : Bool := false
  idleTimeout : Duration := Duration.max
  hardTimeout : Duration := Duration.max
  ordered : idleTimeout ≤ hardTimeout := by exact Duration.max_le

namespace Base

def noMore (b : Base) : Base := { b with return_ := true }

def lowerIdle (seconds : Duration) (b : Base) : Base :=
  { b with
      idleTimeout := min seconds b.idleTimeout
      ordered := (min_le_right _ _).trans b.ordered }

def lowerHard (seconds : Duration) (b : Base) : Base :=
  { b with
      hardTimeout := min seconds b.hardTimeout
      idleTimeout := min seconds b.idleTimeout
      ordered := min_le_min_left _ b.ordered }

end Base

/-- `Decision::Multicast::PortSet`, in the order of its iterators. -/
structure PortSet where
  ports : List (BitVec 32)
  nodup : ports.Nodup

/-- `operator==` of sets. -/
def PortSet.same (p q : PortSet) : Bool := p.ports.isPerm q.ports

omit [OxmTypes] in
theorem PortSet.same_iff {p q : PortSet} : p.same q = true ↔ p.ports.Perm q.ports := List.isPerm_iff

/-- `Decision::DecisionData`, with handlers of type `H`. -/
inductive DecisionData (H : Type) where
  | undefined
  | drop
  | unicast (port : BitVec 32)
  | multicast (ports : PortSet)
  | broadcast
  | inspect (sendBytesLen : Fin (2 ^ 16)) (handler : H)
  | custom (body : CustomDecision)

structure Decision (H : Type) where
  base : Base := {}
  data : DecisionData H := .undefined

variable {H : Type}

namespace DecisionData

/-- A request for the second output is not refused by a decision for the first. -/
def agrees : DecisionData H → DecisionData H → Bool
  | unicast p, unicast q => p == q
  | multicast ps, multicast qs => ps.same qs
  | broadcast, broadcast => true
  | inspect _ _, inspect _ _ => true
  | custom _, custom _ => true
  | _, _ => false

def isUndefined : DecisionData H → Bool
  | undefined => true
  | _ => false

end DecisionData

namespace Decision

def return_ (d : Decision H) : Decision H := { d with base := d.base.noMore }

def idleTimeout (seconds : Duration) (d : Decision H) : Decision H :=
  { d with base := d.base.lowerIdle seconds }

def hardTimeout (seconds : Duration) (d : Decision H) : Decision H :=
  { d with base := d.base.lowerHard seconds }

/-- What the five methods for an output have in common. `none` is `decision_conflict`. -/
def output (data : DecisionData H) (d : Decision H) : Option (Decision H) :=
  if d.data.isUndefined || d.data.agrees data then some { d with data := data } else none

def unicast (port : BitVec 32) : Decision H → Option (Decision H) := output (.unicast port)

def multicast (ports : PortSet) : Decision H → Option (Decision H) := output (.multicast ports)

def broadcast : Decision H → Option (Decision H) := output .broadcast

def inspect (bytes : Fin (2 ^ 16)) (handler : H) (d : Decision H) : Option (Decision H) :=
  match d.data with
  | .inspect sendBytesLen _ => d.output (.inspect (max bytes sendBytesLen) handler)
  | _ => d.output (.inspect bytes handler)

def custom (body : CustomDecision) : Decision H → Option (Decision H) := output (.custom body)

def drop (d : Decision H) : Decision H := { d with data := .drop }

/-- The timeouts are cleared as well. -/
def clear (_ : Decision H) : Decision H := {}

end Decision

/-! ## Requests -/

/-- A call of a handler on the decision it was given. -/
inductive Request (H : Type) where
  | return_
  | idleTimeout (seconds : Duration)
  | hardTimeout (seconds : Duration)
  | unicast (port : BitVec 32)
  | multicast (ports : PortSet)
  | broadcast
  | inspect (bytes : Fin (2 ^ 16)) (handler : H)
  | custom (body : CustomDecision)
  | drop
  | clear

namespace Decision

def ask (d : Decision H) : Request H → Option (Decision H)
  | .return_ => some d.return_
  | .idleTimeout seconds => some (d.idleTimeout seconds)
  | .hardTimeout seconds => some (d.hardTimeout seconds)
  | .unicast port => d.unicast port
  | .multicast ports => d.multicast ports
  | .broadcast => d.broadcast
  | .inspect bytes handler => d.inspect bytes handler
  | .custom body => d.custom body
  | .drop => some d.drop
  | .clear => some d.clear

def asks (d : Decision H) (rs : List (Request H)) : Option (Decision H) := rs.foldlM ask d

/-- The output that is decided already. -/
def wanted (d : Decision H) : Option (DecisionData H) :=
  if d.data.isUndefined then none else some d.data

end Decision

namespace Request

/-- The output that is asked for. -/
def wanted : Request H → Option (DecisionData H)
  | unicast port => some (.unicast port)
  | multicast ports => some (.multicast ports)
  | broadcast => some .broadcast
  | inspect bytes handler => some (.inspect bytes handler)
  | custom body => some (.custom body)
  | _ => none

/-- It overwrites nothing. -/
def merges : Request H → Bool
  | drop => false
  | clear => false
  | _ => true

/-- What the request does to the timeouts and to `return_`. -/
def lower (b : Base) : Request H → Base
  | return_ => b.noMore
  | idleTimeout seconds => b.lowerIdle seconds
  | hardTimeout seconds => b.lowerHard seconds
  | _ => b

end Request

namespace DecisionData

def bytes : DecisionData H → Fin (2 ^ 16)
  | inspect sendBytesLen _ => sendBytesLen
  | _ => 0

/-- The output, with at least this prefix of the packet. -/
def joined (n : Fin (2 ^ 16)) : DecisionData H → DecisionData H
  | inspect sendBytesLen handler => inspect (max sendBytesLen n) handler
  | o => o

/-- Some output of the sort is wanted. -/
def isOutput (o : DecisionData H) : Bool := o.agrees o

theorem agrees_symm {a b : DecisionData H} (same : a.agrees b = true) : b.agrees a = true := by
  cases a <;> cases b <;> simp_all [agrees, PortSet.same_iff, List.perm_comm]

theorem agrees_trans {a b c : DecisionData H} (ab : a.agrees b = true) (bc : b.agrees c = true) :
    a.agrees c = true := by
  cases a <;> cases b <;> simp [agrees, PortSet.same_iff] at ab <;>
    cases c <;> simp_all [agrees, PortSet.same_iff]
  exact ab.trans bc

theorem not_isUndefined {o : DecisionData H} (output : o.isOutput = true) : o.isUndefined = false := by
  cases o <;> first | rfl | cases output

/-- Only a request to inspect has a prefix, and it disagrees with what has none. -/
theorem bytes_joined {a o : DecisionData H} (agrees : a.isUndefined = true ∨ a.agrees o = true) :
    (o.joined a.bytes).bytes = max o.bytes a.bytes := by
  cases o <;> cases a <;> simp_all [DecisionData.agrees, isUndefined, joined, bytes]

theorem joined_agrees (n : Fin (2 ^ 16)) (o o' : DecisionData H) :
    (o.joined n).agrees o' = o.agrees o' := by
  cases o <;> cases o' <;> rfl

theorem joined_isOutput (n : Fin (2 ^ 16)) (o : DecisionData H) : (o.joined n).isOutput = o.isOutput := by
  cases o with
  | inspect sendBytesLen handler => rfl
  | undefined => rfl
  | drop => rfl
  | unicast port => rfl
  | multicast ports => rfl
  | broadcast => rfl
  | custom body => rfl

end DecisionData

namespace Request

theorem wanted_isOutput {r : Request H} {o : DecisionData H} (asked : r.wanted = some o) :
    o.isOutput = true := by
  cases r <;> cases asked <;> simp [DecisionData.isOutput, DecisionData.agrees, PortSet.same_iff]

theorem lower_comm (b : Base) (r r' : Request H) : (r'.lower (r.lower b)) = r.lower (r'.lower b) := by
  cases r <;> cases r' <;>
    simp [lower, Base.noMore, Base.lowerIdle, Base.lowerHard, min_left_comm]

end Request

namespace Decision

/-- A request that merges is refused if it disagrees with what is decided. Otherwise the decision
has its output, if it is for one, with the longer prefix of the packet. -/
theorem ask_merges {r : Request H} (merges : r.merges = true) (d : Decision H) :
    d.ask r =
      match r.wanted with
      | none => some ⟨r.lower d.base, d.data⟩
      | some o =>
          if d.wanted.all fun w => w.agrees o then some ⟨r.lower d.base, o.joined d.data.bytes⟩
          else none := by
  obtain ⟨base, data⟩ := d
  cases r with
  | drop => cases merges
  | clear => cases merges
  | return_ => rfl
  | idleTimeout seconds => rfl
  | hardTimeout seconds => rfl
  | unicast port => cases data <;> rfl
  | multicast ports => cases data <;> rfl
  | broadcast => cases data <;> rfl
  | custom body => cases data <;> rfl
  | inspect bytes handler =>
      -- a decision for something else has no prefix
      have whole : max bytes 0 = bytes := max_eq_left (Fin.zero_le bytes)
      have joined : (DecisionData.inspect bytes handler).joined 0 = .inspect bytes handler := by
        rw [DecisionData.joined, whole]
      cases data with
      | undefined => exact congrArg (fun data => some (Decision.mk base data)) joined.symm
      | inspect sendBytesLen handler => rfl
      | drop => rfl
      | unicast port => rfl
      | multicast ports => rfl
      | broadcast => rfl
      | custom body => rfl

theorem wanted_joined {d : Base} {o : DecisionData H} (n : Fin (2 ^ 16)) (defined : o.isOutput = true) :
    wanted ⟨d, o.joined n⟩ = some (o.joined n) := by
  cases o <;> simp_all [wanted, DecisionData.isOutput, DecisionData.agrees, DecisionData.joined,
    DecisionData.isUndefined]

/-- **Requests that overwrite nothing are refused exactly when two of the outputs that they are for,
or that are decided before them, disagree.** -/
theorem asks_isSome_iff {rs : List (Request H)} (merges : ∀ r ∈ rs, r.merges = true) (d : Decision H) :
    (d.asks rs).isSome = true ↔
      (d.wanted.toList ++ rs.filterMap Request.wanted).Pairwise fun a b => a.agrees b = true := by
  induction rs generalizing d with
  | nil =>
      simp only [asks, List.foldlM_nil, List.filterMap_nil, List.append_nil]
      cases d.wanted <;> simp
  | cons r rs ih =>
      obtain ⟨first, rest⟩ := List.forall_mem_cons.mp merges
      rw [asks, List.foldlM_cons, ask_merges first]
      cases asked : r.wanted with
      | none =>
          rw [List.filterMap_cons_none asked]
          exact ih rest ⟨r.lower d.base, d.data⟩
      | some o =>
          have defined := Request.wanted_isOutput asked
          rw [List.filterMap_cons_some asked]
          -- after the request the decision is for `o`
          have later : ((asks ⟨r.lower d.base, o.joined d.data.bytes⟩ rs).isSome = true) ↔
              (o :: rs.filterMap Request.wanted).Pairwise fun a b => a.agrees b = true := by
            rw [ih rest, wanted_joined _ defined]
            simp [DecisionData.joined_agrees]
          cases now : d.wanted with
          | none => exact later
          | some w =>
              by_cases agrees : w.agrees o = true
              · simp only [Option.all_some, agrees, if_true]
                refine later.trans ?_
                simp only [Option.toList_some, List.singleton_append, List.pairwise_cons,
                  List.forall_mem_cons, agrees, true_and, iff_and_self, and_imp]
                exact fun same _ o' mem => DecisionData.agrees_trans agrees (same o' mem)
              · refine iff_of_false ?_ fun pairs => ?_
                · simp [agrees]
                · exact agrees ((List.pairwise_cons.mp pairs).1 o List.mem_cons_self)

/-- What merging requests leave: the timeouts lowered, the longest prefix, and an output that agrees
with each that is asked for. -/
theorem asks_some {rs : List (Request H)} (merges : ∀ r ∈ rs, r.merges = true) {d e : Decision H}
    (ended : d.asks rs = some e) :
    e.base = rs.foldl (fun b r => r.lower b) d.base ∧
      e.data.bytes = (rs.filterMap Request.wanted).foldl (fun n o => max o.bytes n) d.data.bytes ∧
      (rs.filterMap Request.wanted = [] → e.data = d.data) ∧
      (d.data.isOutput = true → d.data.agrees e.data = true) ∧
      ∀ o ∈ rs.filterMap Request.wanted, o.agrees e.data = true := by
  induction rs generalizing d with
  | nil =>
      obtain rfl := Option.some.inj ended
      exact ⟨rfl, rfl, fun _ => rfl, id, nofun⟩
  | cons r rs ih =>
      obtain ⟨first, rest⟩ := List.forall_mem_cons.mp merges
      rw [asks, List.foldlM_cons, ask_merges first] at ended
      cases asked : r.wanted with
      | none =>
          rw [List.filterMap_cons_none asked]
          rw [asked] at ended
          exact ih rest ended
      | some o =>
          rw [List.filterMap_cons_some asked]
          simp only [asked] at ended
          split at ended
          · rename_i agree
            obtain ⟨base, bytes, kept, stays, agrees⟩ := ih rest ended
            have defined := Request.wanted_isOutput asked
            have own : o.agrees e.data = true := by
              rw [← DecisionData.joined_agrees d.data.bytes]
              exact stays (DecisionData.joined_isOutput d.data.bytes o ▸ defined)
            have before : d.data.isUndefined = true ∨ d.data.agrees o = true := by
              cases undefined : d.data.isUndefined with
              | true => exact .inl rfl
              | false => simpa [wanted, undefined] using agree
            refine ⟨base, ?_, nofun, fun output => ?_, List.forall_mem_cons.mpr ⟨own, agrees⟩⟩
            · rw [bytes, List.foldl_cons, DecisionData.bytes_joined before]
            · refine DecisionData.agrees_trans (before.resolve_left ?_) own
              simp [DecisionData.not_isUndefined output]
          · cases ended

/-- Two decisions for the same, up to who is asked for it: the handler of the packets sent to the
controller, the body of a custom decision. -/
structure Alike (d e : Decision H) : Prop where
  base : d.base = e.base
  bytes : d.data.bytes = e.data.bytes
  data : d.data = e.data ∨ d.data.agrees e.data = true

/-- **In whatever order requests come that overwrite nothing, they are refused alike or leave
decisions alike.** -/
theorem asks_perm {rs rs' : List (Request H)} (merges : ∀ r ∈ rs, r.merges = true)
    (perm : rs.Perm rs') (d : Decision H) : Option.Rel Alike (d.asks rs) (d.asks rs') := by
  have merges' : ∀ r ∈ rs', r.merges = true := fun r mem => merges r (perm.mem_iff.mpr mem)
  have wanted := perm.filterMap Request.wanted
  have both : (d.asks rs).isSome = true ↔ (d.asks rs').isSome = true := by
    rw [asks_isSome_iff merges, asks_isSome_iff merges']
    exact (wanted.append_left _).pairwise_iff DecisionData.agrees_symm
  cases ended : d.asks rs with
  | none =>
      cases ended' : d.asks rs' with
      | none => exact .none
      | some e' => simp [ended, ended'] at both
  | some e =>
      obtain ⟨e', ended'⟩ := Option.isSome_iff_exists.mp (both.mp (by simp [ended]))
      rw [ended']
      obtain ⟨base, bytes, kept, -, agrees⟩ := asks_some merges ended
      obtain ⟨base', bytes', kept', -, agrees'⟩ := asks_some merges' ended'
      refine .some ⟨?_, ?_, ?_⟩
      · rw [base, base']
        exact perm.foldl_eq' (fun r _ r' _ b => Request.lower_comm b r r') _
      · rw [bytes, bytes']
        exact wanted.foldl_eq' (fun o _ o' _ n => max_left_comm ..) _
      · cases asked : rs.filterMap Request.wanted with
        | nil =>
            rw [asked] at wanted
            exact .inl ((kept asked).trans (kept' (List.nil_perm.mp wanted)).symm)
        | cons o os =>
            have mem : o ∈ rs.filterMap Request.wanted := by simp [asked]
            exact .inr (DecisionData.agrees_trans (DecisionData.agrees_symm (agrees o mem))
              (agrees' o (wanted.mem_iff.mp mem)))

end Decision

end

section

open scoped Drunos.Oxm.OpenflowBasic

/-- Packets are sent to two handlers, some bytes to one and more to the other, with timeouts on the way. -/
theorem Decision.asks_perm_inspections :
    let requests : List (Request Nat) :=
      [.inspect 64 1, .idleTimeout 60, .return_, .inspect 128 2, .hardTimeout 30]
    (Decision.asks {} requests).isSome = true ∧
      Option.Rel Decision.Alike (Decision.asks {} requests) (Decision.asks {} requests.reverse) :=
  ⟨by decide, Decision.asks_perm (by decide) (List.reverse_perm _).symm {}⟩

end

end Drunos.Maple

/-
# Drunos.Retic.MergedNodes — the nodes of a merged trace

`mergeTrace` keeps of each call the bits that the cache and the calls before it leave
open (`cut`). The traces are about one packet, so a packet that has the cached bits and
satisfies what was kept satisfies every call (`cut_complete`).

The packet of the traces satisfies what was kept of loads and of passed tests. Of a failed
test it may pass what was kept, if the fixed bits alone made the test fail; `FailsAnew` says
that it does not, and then, and only then, the merged trace is true of the packet.
-/
import Drunos.Retic.Traced

namespace Drunos.Retic

open Drunos.Oxm Drunos.Theory Drunos.Maple

set_option autoImplicit false

section

variable [OxmTypes]

/-- The bits of the field that are not fixed. -/
def unfixed (known : FieldSet) (f : Field) : BitVec (nbits f.type) :=
  (known.get f.type).unknownOf f.bits.mask

/-- The field, less what is fixed. -/
def unexploredOf (known : FieldSet) (f : Field) : Field := ⟨f.type, f.bits.restrict (unfixed known f)⟩

/-- What is kept of a call. -/
def cut (known : FieldSet) : TraceCall → List TraceCall
  | .load f => if unfixed known f = 0 then [] else [.load (unexploredOf known f)]
  | .test f b => if unfixed known f = 0 then [] else [.test (unexploredOf known f) b]

/-- Every failed test of which bits are not yet fixed fails on these. -/
def FailsAnew (x : Packet) (cache : FieldSet) (calls : List TraceCall) : Prop :=
  ∀ before f after, calls = before ++ .test f false :: after →
    unfixed (before.foldl noteCall cache) f = 0 ∨
      x.test (unexploredOf (before.foldl noteCall cache) f) = false

/-- The trace that `Tracer::trace` makes of a function on the packet. -/
def Recorded (x : Packet) (trace : Trace) : Prop :=
  ∃ (h : Handler Policy) (r : TracedRun Policy),
    runTraced h x ∅ ∅ = some r ∧ trace = ⟨r.calls, withMods r.mods r.result⟩

/-- What a merged trace is for. -/
structure Merges (x : Packet) (cache : FieldSet) (traces : List Trace) (merged : Trace) : Prop where
  satisfied : ∀ node ∈ merged.values, Holds x node
  complete : ∀ y : Packet, cache.test y = true → (∀ node ∈ merged.values, Holds y node) →
    ∀ trace ∈ traces, ∀ node ∈ trace.values, Holds y node
  unrepeated : ∀ before g after, merged.values = before ++ .load g :: after →
    Avoids (before.foldl noteCall cache) g

theorem Recorded.holds {x : Packet} {trace : Trace} (recorded : Recorded x trace) :
    ∀ call ∈ trace.values, Holds x call := by
  obtain ⟨h, r, ran, rfl⟩ := recorded
  rw [runTraced_log] at ran
  obtain rfl := Option.some.inj ran
  exact log_holds h (FieldSet.apply_empty x)

/-! ## Merging, call by call -/

/-- The same bits are fixed. -/
def SameMasks (s s' : FieldSet) : Prop := ∀ t, (s.get t).mask = (s'.get t).mask

theorem SameMasks.modify {s s' : FieldSet} (same : SameMasks s s') {t : OxmType}
    {b b' : MaskedBits (nbits t)}
    (mask : ((s.get t).overwrite b).mask = ((s'.get t).overwrite b').mask) :
    SameMasks (s.modify ⟨t, b⟩) (s'.modify ⟨t, b'⟩) := by
  intro u
  by_cases here : u = t
  · subst here
    exact (congrArg _ (FieldSet.get_modify_self s ⟨u, b⟩)).trans
      (mask.trans (congrArg _ (FieldSet.get_modify_self s' ⟨u, b'⟩)).symm)
  · rw [FieldSet.get_modify_of_ne s here, FieldSet.get_modify_of_ne s' here]
    exact same u

theorem SameMasks.noteCall {s s' : FieldSet} (same : SameMasks s s') (call : TraceCall) :
    SameMasks (noteCall s call) (noteCall s' call) := by
  have modify (f : Field) : SameMasks (s.modify f) (s'.modify f) := by
    refine same.modify ?_
    rw [MaskedBits.overwrite_mask, MaskedBits.overwrite_mask, same f.type]
  cases call with
  | load f => exact modify f
  | test f b =>
      cases b with
      | true => exact modify f
      | false => exact same

theorem SameMasks.cut {s s' : FieldSet} (same : SameMasks s s') (call : TraceCall) :
    cut s call = cut s' call := by
  have fixed (f : Field) : unfixed s f = unfixed s' f := by
    simp only [unfixed, MaskedBits.unknownOf, MaskedBits.restrict_mask, same f.type]
  cases call <;> simp only [Retic.cut, unexploredOf, fixed]

/-- A call fixes the same bits as what is kept of it. -/
theorem cut_masks (s : FieldSet) (call : TraceCall) :
    SameMasks ((cut s call).foldl noteCall s) (noteCall s call) := by
  have modify (f : Field) : SameMasks
      (if unfixed s f = 0 then s else s.modify (unexploredOf s f)) (s.modify f) := by
    split_ifs with nothing
    · intro t
      by_cases here : t = f.type
      · subst here
        rw [FieldSet.get_modify_self, MaskedBits.overwrite_mask_of_known nothing]
      · rw [FieldSet.get_modify_of_ne s here]
    · have same : SameMasks s s := fun _ => rfl
      exact same.modify (MaskedBits.overwrite_restrict_mask _ _)
  cases call with
  | load f =>
      refine cast (congrArg (SameMasks · _) ?_) (modify f)
      rw [cut]
      split_ifs <;> rfl
  | test f b =>
      cases b with
      | true =>
          refine cast (congrArg (SameMasks · _) ?_) (modify f)
          rw [cut]
          split_ifs <;> rfl
      | false =>
          intro t
          rw [cut]
          split_ifs <;> rfl

theorem mergeCalls_cons (call : TraceCall) (rest : List TraceCall) (cache : FieldSet) :
    mergeCalls (call :: rest) cache =
      cut cache call ++ mergeCalls rest ((cut cache call).foldl noteCall cache) := by
  cases call with
  | load f =>
      refine (mergeCalls_load f rest cache).trans ?_
      show (if unfixed cache f = 0 then _ else _) = _
      rw [cut]
      split_ifs <;> rfl
  | test f b =>
      refine (mergeCalls_test f b rest cache).trans ?_
      show (if unfixed cache f = 0 then _ else _) = _
      rw [cut]
      by_cases nothing : unfixed cache f = 0
      · rw [if_pos nothing, if_pos nothing]
        rfl
      · rw [if_neg nothing, if_neg nothing]
        cases b <;> rfl

theorem mergeCalls_congr (calls : List TraceCall) : ∀ {c c' : FieldSet}, SameMasks c c' →
    mergeCalls calls c = mergeCalls calls c' := by
  induction calls with
  | nil => exact fun _ => rfl
  | cons call rest ih =>
      intro c c' same
      have after : SameMasks ((cut c call).foldl noteCall c) ((cut c' call).foldl noteCall c') :=
        fun t => (cut_masks c call t).trans ((same.noteCall call t).trans (cut_masks c' call t).symm)
      rw [mergeCalls_cons, mergeCalls_cons, ih after, same.cut]

/-- What is merged, with what the call itself fixes. -/
theorem mergeCalls_step (call : TraceCall) (rest : List TraceCall) (cache : FieldSet) :
    mergeCalls (call :: rest) cache = cut cache call ++ mergeCalls rest (noteCall cache call) := by
  rw [mergeCalls_cons, mergeCalls_congr rest (cut_masks cache call)]

/-! ## What is kept says of a packet -/

theorem noteCall_of {known : FieldSet} {x : Packet} {call : TraceCall} (of : known.test x = true)
    (holds : Holds x call) : (noteCall known call).test x = true := by
  cases call with
  | load f => exact FieldSet.test_modify of holds
  | test f b =>
      cases b with
      | true => exact FieldSet.test_modify of holds
      | false => exact of

/-- A test, by the fixed bits and by those that are not. -/
theorem test_unexplored {known : FieldSet} {x : Packet} (of : known.test x = true) (f : Field) :
    x.test f = (decide (((known.get f.type).restrict f.bits.mask).Compatible f.bits) &&
      x.test (unexploredOf known f)) :=
  known_and_test (FieldSet.test_iff.mp of) f

theorem test_unexplored_of_fixed {known : FieldSet} {f : Field} (nothing : unfixed known f = 0)
    (x : Packet) : x.test (unexploredOf known f) = true := by
  rw [unexploredOf, nothing]
  exact Packet.test_iff.mpr (by simp [MaskedBits.Matches, MaskedBits.restrict])

/-- Of two packets with the fixed bits, one satisfies the call if the other does and it satisfies what
is kept of it. -/
theorem cut_complete {known : FieldSet} {x y : Packet} {call : TraceCall}
    (of : known.test x = true) (of' : known.test y = true) (holds : Holds x call)
    (kept : ∀ node ∈ cut known call, Holds y node) : Holds y call := by
  have same (f : Field) (b : Bool) (has : x.test f = b)
      (rest : ¬unfixed known f = 0 → y.test (unexploredOf known f) = b) : y.test f = b := by
    rw [test_unexplored of f] at has
    rw [test_unexplored of' f]
    by_cases nothing : unfixed known f = 0
    · rwa [test_unexplored_of_fixed nothing] at has ⊢
    · rw [rest nothing]
      cases b with
      | false => exact Bool.and_false _
      | true => rw [(Bool.and_eq_true_iff.mp has).1, Bool.and_self]
  cases call with
  | load f =>
      refine same f true holds fun open' => kept (.load _) ?_
      rw [cut, if_neg open']
      exact List.mem_singleton_self _
  | test f b =>
      refine same f b holds fun open' => kept (.test _ b) ?_
      rw [cut, if_neg open']
      exact List.mem_singleton_self _

/-- **A packet with the cached bits that satisfies the merged trace satisfies all of it.** -/
theorem mergeCalls_complete {x y : Packet} {calls : List TraceCall} :
    ∀ {cache : FieldSet}, cache.test x = true → cache.test y = true →
      (∀ call ∈ calls, Holds x call) → (∀ node ∈ mergeCalls calls cache, Holds y node) →
        ∀ call ∈ calls, Holds y call := by
  induction calls with
  | nil => exact fun _ _ _ _ call mem => absurd mem List.not_mem_nil
  | cons call rest ih =>
      intro cache of of' holds kept
      obtain ⟨head, tail⟩ := List.forall_mem_cons.mp holds
      rw [mergeCalls_step] at kept
      obtain ⟨here, later⟩ := List.forall_mem_append.mp kept
      have head' := cut_complete of of' head here
      exact List.forall_mem_cons.mpr
        ⟨head', ih (noteCall_of of head) (noteCall_of of' head') tail later⟩

/-! ## No load of known bits -/

theorem mergeCalls_avoid {calls : List TraceCall} :
    ∀ {cache : FieldSet} {before : List TraceCall} {g : Field} {after : List TraceCall},
      mergeCalls calls cache = before ++ .load g :: after →
        Avoids (before.foldl noteCall cache) g := by
  induction calls with
  | nil => exact fun same => absurd same (by simp [mergeCalls])
  | cons call rest ih =>
      intro cache before g after same
      rw [mergeCalls_cons] at same
      have kept : cut cache call = [] ∨ ∃ node, cut cache call = [node] ∧
          ∀ f, node = .load f → Avoids cache f := by
        cases call with
        | load f =>
            rw [cut]
            split_ifs with nothing
            · exact .inl rfl
            · refine .inr ⟨_, rfl, fun g here => ?_⟩
              injection here with here
              subst here
              intro i bit
              have bound : i < nbits f.type := BitVec.lt_of_getLsbD bit
              show ((f.bits.restrict (unfixed cache f)).mask).getLsbD i = false
              rw [unfixed, MaskedBits.restrict_unknownOf_mask, MaskedBits.unknownOf_bit _ _ bound]
              have fixed : (cache.get f.type).mask.getLsbD i = true := bit
              rw [fixed, Bool.not_true, Bool.and_false]
        | test f b =>
            rw [cut]
            split_ifs
            · exact .inl rfl
            · exact .inr ⟨_, rfl, fun g here => by cases here⟩
      rcases kept with none | ⟨node, one, avoids⟩
      · rw [none] at same
        exact ih same
      · rw [one] at same
        cases before with
        | nil =>
            obtain ⟨here, -⟩ := List.cons.inj same
            exact avoids g here
        | cons first before =>
            obtain ⟨here, tail⟩ := List.cons.inj same
            have later := ih tail
            rw [here] at later
            exact later

/-! ## When the packet satisfies what is kept -/

theorem cut_holds_iff {known : FieldSet} {x : Packet} {call : TraceCall}
    (of : known.test x = true) (holds : Holds x call) :
    (∀ node ∈ cut known call, Holds x node) ↔
      ∀ f, call = .test f false → unfixed known f = 0 ∨ x.test (unexploredOf known f) = false := by
  have has (f : Field) (pass : x.test f = true) : x.test (unexploredOf known f) = true :=
    (Bool.and_eq_true_iff.mp ((test_unexplored of f).symm.trans pass)).2
  cases call with
  | load f =>
      refine iff_of_true (fun node mem => ?_) fun g here => by cases here
      rw [cut] at mem
      split_ifs at mem
      · exact absurd mem List.not_mem_nil
      · obtain rfl := List.mem_singleton.mp mem
        exact has f holds
  | test f b =>
      cases b with
      | true =>
          refine iff_of_true (fun node mem => ?_) fun g here => by cases here
          rw [cut] at mem
          split_ifs at mem
          · exact absurd mem List.not_mem_nil
          · obtain rfl := List.mem_singleton.mp mem
            exact has f holds
      | false =>
          rw [cut]
          split_ifs with nothing
          · refine iff_of_true (fun node mem => absurd mem List.not_mem_nil) fun g here => ?_
            cases here
            exact .inl nothing
          · constructor
            · intro kept g here
              cases here
              exact .inr (kept _ (List.mem_singleton_self _))
            · intro fails node mem
              obtain rfl := List.mem_singleton.mp mem
              exact (fails f rfl).resolve_left nothing

theorem failsAnew_cons {x : Packet} {cache : FieldSet} {call : TraceCall} {rest : List TraceCall} :
    FailsAnew x cache (call :: rest) ↔
      (∀ f, call = .test f false → unfixed cache f = 0 ∨ x.test (unexploredOf cache f) = false) ∧
        FailsAnew x (noteCall cache call) rest := by
  constructor
  · intro fails
    constructor
    · intro f here
      exact fails [] f rest (by rw [here]; rfl)
    · intro before f after split
      exact fails (call :: before) f after (by rw [split]; rfl)
  · rintro ⟨here, later⟩ before f after split
    cases before with
    | nil => exact here f (List.cons.inj split).1
    | cons first before =>
        obtain ⟨here', tail⟩ := List.cons.inj split
        have fails := later before f after tail
        rw [here'] at fails
        exact fails

theorem mergeCalls_holds_iff {x : Packet} {calls : List TraceCall} :
    ∀ {cache : FieldSet}, cache.test x = true → (∀ call ∈ calls, Holds x call) →
      ((∀ node ∈ mergeCalls calls cache, Holds x node) ↔ FailsAnew x cache calls) := by
  induction calls with
  | nil =>
      intro cache of holds
      refine iff_of_true (fun node mem => absurd mem List.not_mem_nil) fun before f after split => ?_
      exact absurd split (by simp)
  | cons call rest ih =>
      intro cache of holds
      obtain ⟨head, tail⟩ := List.forall_mem_cons.mp holds
      rw [mergeCalls_step, List.forall_mem_append, cut_holds_iff of head, failsAnew_cons,
        ih (noteCall_of of head) tail]

/-- **A merged trace is what it is for if and only if each failed test fails on bits that are fixed
nowhere before it.** Only the packet of the traces can be lost: with the cached bits, what
satisfies the merged trace always satisfies the traces, and no load of it reads fixed bits. -/
theorem mergeTrace_iff {x : Packet} {cache : FieldSet} {traces : List Trace} {merged : Trace}
    (cached : cache.test x = true) (recorded : ∀ trace ∈ traces, Recorded x trace)
    (result : mergeTrace traces cache = pure merged) :
    Merges x cache traces merged ↔ FailsAnew x cache (traces.flatMap (·.values)) := by
  have values : merged.values = mergeCalls (traces.flatMap (·.values)) cache := by
    cases traces with
    | nil => cases result
    | cons first rest =>
        cases result
        rfl
  have holds : ∀ call ∈ traces.flatMap (·.values), Holds x call := by
    intro call mem
    obtain ⟨trace, there, mem⟩ := List.mem_flatMap.mp mem
    exact (recorded trace there).holds call mem
  rw [← mergeCalls_holds_iff cached holds, ← values]
  refine ⟨Merges.satisfied, fun satisfied => ⟨satisfied, ?_, ?_⟩⟩
  · intro y cached' kept trace there node mem
    exact mergeCalls_complete cached cached' holds (values ▸ kept) node
      (List.mem_flatMap.mpr ⟨trace, there, mem⟩)
  · intro before g after split
    exact mergeCalls_avoid (values ▸ split)

end

section

open scoped Drunos.Oxm.OpenflowBasic

def loadsDigit : Handler Policy := .load ⟨ipv4Src, 0x0F#32⟩ fun _ => .ret .id

def testsAddress : Handler Policy := .test (.exactly ipv4Src 0x32#32) fun _ => .ret .id

def addressPacket (address : BitVec 32) : Packet := OpenflowBasic.packet [.exactly ipv4Src address]

/-- Of a packet of the address, the traces of the two functions. -/
def digitTraces (address : BitVec 32) : List Trace :=
  [loadsDigit, testsAddress].map fun h =>
    let kept := (log h (addressPacket address) ∅).traced ∅
    ⟨kept.calls, withMods kept.mods kept.result⟩

theorem digitTraces_recorded (address : BitVec 32) :
    ∀ trace ∈ digitTraces address, Recorded (addressPacket address) trace := by
  intro trace mem
  obtain ⟨h, -, rfl⟩ := List.mem_map.mp mem
  exact ⟨h, _, runTraced_log h _ ∅ ∅, rfl⟩

theorem mergeTrace_iff_passed :
    let merged : Trace := ⟨mergeCalls ((digitTraces 0x32#32).flatMap (·.values)) ∅, .add .id .id⟩
    Merges (addressPacket 0x32#32) ∅ (digitTraces 0x32#32) merged ↔
      FailsAnew (addressPacket 0x32#32) ∅ ((digitTraces 0x32#32).flatMap (·.values)) :=
  mergeTrace_iff rfl (digitTraces_recorded 0x32#32) rfl

/-- Address 0x31 fails the test for 0x32 by the digit that is fixed; it passes what is kept. -/
theorem mergeTrace_loses : loadsDigit.Fits ∧ testsAddress.Fits ∧
    ¬∀ (x : Packet) (cache : FieldSet) (traces : List Trace) (merged : Trace),
      cache.test x = true → (∀ trace ∈ traces, Recorded x trace) →
        mergeTrace traces cache = pure merged → Merges x cache traces merged := by
  refine ⟨⟨by decide, fun _ => trivial⟩, ⟨by decide, fun _ => trivial⟩, fun all => ?_⟩
  have merges := all (addressPacket 0x31#32) ∅ (digitTraces 0x31#32) _ rfl
    (digitTraces_recorded 0x31#32) rfl
  have fails : (addressPacket 0x31#32).test ⟨ipv4Src, .read 0x30#32 0xFFFFFFF0#32⟩ = false :=
    merges.satisfied (.test _ false) (.tail _ (.head _))
  exact absurd fails (by decide)

end

end Drunos.Retic

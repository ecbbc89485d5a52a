/-
# Drunos.Maple.TraceablePacket — what a tracer is told

`TraceablePacketImpl` stands between a program and the packet. It tells a tracer
what the program reads, less the bits it knows: those read before, those a
successful test has shown and those the program itself has put in (`cache`).

`traceable` is the program run that way. What the tracer is told does not depend
on the packet but through the answers: it is what another program, `unexplored`,
asks of the packet as it came in (`traceable_asked`), and that one returns what the
first one returns (`unexplored_run`).
-/
import Drunos.Oxm.Handler
import Drunos.Theory.Exploration

namespace Drunos.Maple

open Drunos.Oxm Drunos.Theory Drunos.Theory.Exploration

set_option autoImplicit false

variable [OxmTypes] {R : Type}

/-- What the tracer is told. -/
inductive TraceCall where
  | load (unexplored : Field)
  | test (pred : Field) (ret : Bool)
  deriving DecidableEq

/-- A run of a program: what the tracer is told, with the packet at that moment,
then the result and the packet as it is left. -/
structure TraceableRun (R : Type) where
  calls : List (TraceCall × Packet)
  result : R
  packet : Packet

def TraceableRun.told (call : TraceCall) (x : Packet) (r : TraceableRun R) : TraceableRun R :=
  { r with calls := (call, x) :: r.calls }

/-- The program run on a `TraceablePacketImpl`. -/
def traceable : Handler R → Packet → FieldSet → TraceableRun R
  | .ret r, x, _ => ⟨[], r, x⟩
  | .load m next, x, cache =>
      let read := MaskedBits.read (x m.type) m.bits
      let unexplored := read.without (cache.load m.type m.bits).mask
      if unexplored.wildcard then traceable (next read.value) x cache
      else
        (traceable (next read.value) x (cache.modify ⟨m.type, unexplored⟩)).told
          (.load ⟨m.type, unexplored⟩) x
  | .test need next, x, cache =>
      let read := MaskedBits.read (x need.type) need.bits.mask
      let explored := cache.load need.type need.bits.mask
      let unexplored := read.without explored.mask
      if explored.Compatible need.bits then
        if unexplored.wildcard then traceable (next true) x cache
        else
          let ret := decide (unexplored.Compatible need.bits)
          let pred := need.bits.restrict unexplored.mask
          (traceable (next ret) x (if ret then cache.modify ⟨need.type, unexplored⟩ else cache)).told
            (.test ⟨need.type, pred⟩ ret) x
      else traceable (next false) x cache
  | .modify patch next, x, cache => traceable next (x.modify patch) (cache.modify patch)

/-! ## Masks that can be built -/

/-- The field of a call. -/
def TraceCall.field : TraceCall → Field
  | .load unexplored => unexplored
  | .test pred _ => pred

/-- A program that asks for what can be built is traced in fields that can be built: no mask that is
made on the way throws. -/
theorem traceable_fits {h : Handler R} (built : h.Fits) : ∀ {x : Packet} {cache : FieldSet}, cache.Fits →
    ∀ call ∈ (traceable h x cache).calls, call.1.field.Fits := by
  -- the bits of a mask that the cache does not know
  have unknown {cache : FieldSet} (fits : cache.Fits) {t : OxmType} {m : BitVec (nbits t)}
      (allowed : Allowed t m) : Allowed t (m &&& ~~~((cache.get t).mask &&& m)) :=
    allowed.and ((fits t).and allowed).not
  induction h with
  | ret r => exact fun {_ _} _ _ mem => absurd mem List.not_mem_nil
  | modify patch next ih => exact fun {_ _} fits => ih built.2 (FieldSet.fits_modify fits built.1)
  | load m next ih =>
      intro x cache fits
      have allowed := unknown fits built.1
      rw [traceable]
      split_ifs
      · exact ih _ (built.2 _) fits
      · exact List.forall_mem_cons.mpr ⟨allowed, ih _ (built.2 _) (FieldSet.fits_modify fits allowed)⟩
  | test need next ih =>
      intro x cache fits
      have allowed := unknown fits built.1
      rw [traceable]
      split_ifs with compatible known
      · exact ih _ (built.2 _) fits
      · refine List.forall_mem_cons.mpr ⟨built.1.and allowed, ih _ (built.2 _) ?_⟩
        split
        · exact FieldSet.fits_modify fits allowed
        · exact fits
      · exact ih _ (built.2 _) fits

/-! ## Packets as answers -/

/-- The bits of a field, as a tree keys its cases. -/
def valueBits (f : Field) : Nat := f.bits.value.toNat

/-- What a packet answers. -/
def answers (x : Packet) : Answers Mask Nat Field where
  load m := valueBits (x.load m)
  test := x.test

def TraceCall.asked : TraceCall → Asked Mask Nat Field
  | .load f => .load f.mask (valueBits f)
  | .test f b => .test f b

/-- What is asked of the packet as it came in: the known bits come from the cache. -/
def unexplored : Handler R → FieldSet → Prog Mask Nat Field R
  | .ret r, _ => .ret r
  | .load m next, cache =>
      let explored := cache.load m.type m.bits
      let mask := (cache.get m.type).unknownOf m.bits
      if mask = 0 then unexplored (next explored.value) cache
      else
        .load ⟨m.type, mask⟩ fun v =>
          let read := MaskedBits.read (BitVec.ofNat _ v) mask
          unexplored (next (explored.value ||| read.value)) (cache.modify ⟨m.type, read⟩)
  | .test need next, cache =>
      let explored := cache.load need.type need.bits.mask
      let mask := (cache.get need.type).unknownOf need.bits.mask
      if explored.Compatible need.bits then
        if mask = 0 then unexplored (next true) cache
        else
          let pred : Field := ⟨need.type, need.bits.restrict mask⟩
          .test pred fun b => unexplored (next b) (if b then cache.modify pred else cache)
      else unexplored (next false) cache
  | .modify patch next, cache => unexplored next (cache.modify patch)

/-! ## The two programs -/

/-- Putting in what is there changes nothing. -/
theorem modify_known {x : Packet} {f : Field} (has : x.test f = true) : x.modify f = x := by
  rw [Packet.modify, MaskedBits.write_eq_self (Packet.test_iff.mp has), Function.update_eq_self]

/-- The packet as a program has it, in terms of the packet as it came in. -/
theorem now_eq {x₀ x : Packet} {cache : FieldSet} (applied : cache.apply x₀ = x) (t : OxmType) :
    x t = (cache.get t).write (x₀ t) := by
  rw [← applied, FieldSet.apply_apply]

/-- Caching what is read of the packet as it came in keeps the cache's account of
the packet. -/
theorem apply_modify_read {x₀ x : Packet} {cache : FieldSet} (applied : cache.apply x₀ = x)
    (t : OxmType) (m : BitVec (nbits t)) :
    (cache.modify ⟨t, .read (x₀ t) ((cache.get t).unknownOf m)⟩).apply x₀ = x := by
  rw [FieldSet.apply_modify, applied, modify_known]
  have read := MaskedBits.read_without_known (cache.get t) (x₀ t) m
  rw [← now_eq applied] at read
  rw [Packet.test_iff, ← read]
  exact (MaskedBits.read_matches _ _).restrict _

/-- Caching a test that succeeded keeps the cache's account of the packet. -/
theorem apply_modify_pred {x₀ x : Packet} {cache : FieldSet} (applied : cache.apply x₀ = x)
    (need : Field) :
    let pred : Field := ⟨need.type, need.bits.restrict ((cache.get need.type).unknownOf need.bits.mask)⟩
    (if x₀.test pred then cache.modify pred else cache).apply x₀ = x := by
  intro pred
  split
  · have has := Packet.test_iff.mp ‹_›
    show (cache.modify ⟨need.type, _⟩).apply x₀ = x
    rw [MaskedBits.restrict_eq_read has]
    exact apply_modify_read applied _ _
  · exact applied

theorem traceable_load {x₀ x : Packet} {cache : FieldSet} (applied : cache.apply x₀ = x) (m : Mask)
    (next : BitVec (nbits m.type) → Handler R) :
    let mask := (cache.get m.type).unknownOf m.bits
    let read : Field := ⟨m.type, .read (x₀ m.type) mask⟩
    let value := (cache.load m.type m.bits).value ||| read.bits.value
    traceable (.load m next) x cache =
      if mask = 0 then traceable (next value) x cache
      else (traceable (next value) x (cache.modify read)).told (.load read) x := by
  have value := MaskedBits.known_or_read (cache.get m.type) (x₀ m.type) m.bits
  have read := MaskedBits.read_without_known (cache.get m.type) (x₀ m.type) m.bits
  rw [← now_eq applied] at value read
  simp only [traceable, FieldSet.load, read, ← value, MaskedBits.read_wildcard]

theorem traceable_test {x₀ x : Packet} {cache : FieldSet} (applied : cache.apply x₀ = x)
    (need : Field) (next : Bool → Handler R) :
    let mask := (cache.get need.type).unknownOf need.bits.mask
    let pred : Field := ⟨need.type, need.bits.restrict mask⟩
    traceable (.test need next) x cache =
      if (cache.load need.type need.bits.mask).Compatible need.bits then
        if mask = 0 then traceable (next true) x cache
        else
          (traceable (next (x₀.test pred)) x
            (if x₀.test pred then cache.modify pred else cache)).told (.test pred (x₀.test pred)) x
      else traceable (next false) x cache := by
  have read := MaskedBits.read_without_known (cache.get need.type) (x₀ need.type) need.bits.mask
  rw [← now_eq applied] at read
  have answer : ∀ bits : MaskedBits (nbits need.type),
      decide (bits.Matches (x₀ need.type)) = x₀.test ⟨need.type, bits⟩ := fun _ => rfl
  simp only [traceable, FieldSet.load, read, MaskedBits.read_compatible_iff,
    MaskedBits.read_wildcard, MaskedBits.read_mask, answer]
  split_ifs with compatible known has
  · rfl
  · -- the bits of a test that succeeded are those of the test
    rw [MaskedBits.restrict_eq_read (Packet.test_iff.mp has)]
  · rfl
  · rfl

/-- What the tracer is told is what `unexplored` asks of the packet as it came in,
and the results are the same. -/
theorem traceable_unexplored (h : Handler R) : ∀ {x₀ x : Packet} {cache : FieldSet},
    cache.apply x₀ = x →
      (traceable h x cache).calls.map (·.1.asked) = (unexplored h cache).asked (answers x₀) ∧
        (traceable h x cache).result = (unexplored h cache).run (answers x₀) := by
  induction h with
  | ret r => exact fun _ => ⟨rfl, rfl⟩
  | modify patch next ih =>
      intro x₀ x cache applied
      exact ih (by rw [FieldSet.apply_modify, applied])
  | load m next ih =>
      intro x₀ x cache applied
      rw [traceable_load applied, unexplored]
      split_ifs with known
      · have nothing : (cache.load m.type m.bits).value |||
            (MaskedBits.read (x₀ m.type) ((cache.get m.type).unknownOf m.bits)).value =
              (cache.load m.type m.bits).value := by
          rw [known]
          simp [MaskedBits.read]
        rw [nothing]
        exact ih _ applied
      · obtain ⟨asked, result⟩ := ih ((cache.load m.type m.bits).value |||
          (MaskedBits.read (x₀ m.type) ((cache.get m.type).unknownOf m.bits)).value)
          (apply_modify_read applied m.type m.bits)
        have answer : MaskedBits.read (BitVec.ofNat _ ((answers x₀).load
            ⟨m.type, (cache.get m.type).unknownOf m.bits⟩)) ((cache.get m.type).unknownOf m.bits) =
              .read (x₀ m.type) ((cache.get m.type).unknownOf m.bits) :=
          MaskedBits.read_ofNat _ _
        simp only [Prog.asked, Prog.run, answer]
        exact ⟨congrArg (List.cons _) asked, result⟩
  | test need next ih =>
      intro x₀ x cache applied
      rw [traceable_test applied, unexplored]
      have cached := apply_modify_pred applied need
      by_cases compatible : (cache.load need.type need.bits.mask).Compatible need.bits
      · rw [if_pos compatible, if_pos compatible]
        by_cases known : (cache.get need.type).unknownOf need.bits.mask = 0
        · rw [if_pos known, if_pos known]
          exact ih true applied
        · rw [if_neg known, if_neg known]
          obtain ⟨asked, result⟩ := ih _ cached
          exact ⟨congrArg (List.cons _) asked, result⟩
      · rw [if_neg compatible, if_neg compatible]
        exact ih false applied

/-- A traceable packet behaves as the packet does. -/
theorem traceable_run (h : Handler R) : ∀ {x₀ x : Packet} {cache : FieldSet},
    cache.apply x₀ = x →
      ((traceable h x cache).result, (traceable h x cache).packet) = h.run x := by
  induction h with
  | ret r => exact fun _ => rfl
  | modify patch next ih =>
      intro x₀ x cache applied
      exact ih (by rw [FieldSet.apply_modify, applied])
  | load m next ih =>
      intro x₀ x cache applied
      have value := MaskedBits.known_or_read (cache.get m.type) (x₀ m.type) m.bits
      rw [← now_eq applied] at value
      rw [traceable_load applied, Handler.run]
      split_ifs with known
      · rw [value]
        exact ih _ applied
      · rw [value]
        exact ih _ (apply_modify_read applied m.type m.bits)
  | test need next ih =>
      intro x₀ x cache applied
      have tested := MaskedBits.matches_write_iff (cache.get need.type) need.bits (x₀ need.type)
      rw [← now_eq applied] at tested
      rw [traceable_test applied, Handler.run]
      have cached := apply_modify_pred applied need
      by_cases compatible : (cache.load need.type need.bits.mask).Compatible need.bits
      · rw [if_pos compatible]
        by_cases known : (cache.get need.type).unknownOf need.bits.mask = 0
        · have whole : x.test need = true := by
            refine Packet.test_iff.mpr (tested.mpr ⟨compatible, ?_⟩)
            rw [known]
            simp [MaskedBits.Matches, MaskedBits.restrict]
          rw [if_pos known, whole]
          exact ih true applied
        · have same : x.test need = x₀.test
              ⟨need.type, need.bits.restrict ((cache.get need.type).unknownOf need.bits.mask)⟩ := by
            rw [Bool.eq_iff_iff, Packet.test_iff, Packet.test_iff, tested]
            exact and_iff_right compatible
          rw [if_neg known, same]
          exact ih _ cached
      · have fails : x.test need = false := by
          rw [Bool.eq_false_iff]
          exact fun has => compatible (tested.mp (Packet.test_iff.mp has)).1
        rw [if_neg compatible, fails]
        exact ih false applied

end Drunos.Maple

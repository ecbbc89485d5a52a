/-
# Drunos.Oxm.Overlaps — fields that share no bits

Fields of one type that are about different bits of it. None of them includes another, so that
adding one to a set leaves the others as they are and erasing its mask leaves them again
(`erase_add`). A match that such fields were added to takes those of one type for alternatives: it
asks for all of them exactly when they are of different types (`addAll_all_iff`).
-/
import Drunos.Oxm.AddedFields

namespace Drunos.Oxm

open Drunos.Theory

set_option autoImplicit false

variable [OxmTypes]

/-! ## Masks -/

/-- Of the bits of one is none of the other. -/
def Mask.Apart (m m' : Mask) : Prop := ∀ b, m' = ⟨m.type, b⟩ → m.bits &&& b = 0

theorem Mask.Apart.symm {m m' : Mask} (apart : m.Apart m') : m'.Apart m := by
  rintro b rfl
  obtain ⟨t, bits⟩ := m'
  rw [BitVec.and_comm]
  exact apart bits rfl

/-- Bits that none of the masks has. -/
def Mask.New (known : List Mask) (m : Mask) : Prop := m.bits ≠ 0 ∧ ∀ m' ∈ known, m.Apart m'

/-- None of the masks has bits of another, or none at all. -/
def Unshared (fs : List Field) : Prop :=
  (∀ f ∈ fs, f.bits.mask ≠ 0) ∧ fs.Pairwise fun f g => f.mask.Apart g.mask

/-! ## Adding and erasing -/

namespace MultiFieldSet

/-- The fields have masks of the list. -/
def Under (known : List Mask) (s : MultiFieldSet) : Prop :=
  ∀ t, ∀ b ∈ s.elements t, ⟨t, b.mask⟩ ∈ known ∧ b.mask ≠ 0

theorem under_empty (known : List Mask) : (∅ : MultiFieldSet).Under known :=
  fun _ _ mem => nomatch mem

theorem Under.congr {known : List Mask} {s s' : MultiFieldSet} (under : s.Under known)
    (same : s'.elements = s.elements) : s'.Under known := by
  intro t b mem
  rw [same] at mem
  exact under t b mem

omit [OxmTypes] in
/-- A field with bits that one of the others has not is not covered, nor the other way. -/
theorem addLoop_apart {n : Nat} {f : MaskedBits n} {bits : List (MaskedBits n)} (some : f.mask ≠ 0)
    (apart : ∀ b ∈ bits, f.mask &&& b.mask = 0 ∧ b.mask ≠ 0) : addLoop f bits = (bits, false) := by
  induction bits with
  | nil => rfl
  | cons g rest ih =>
      obtain ⟨⟨none, someG⟩, apart⟩ := List.forall_mem_cons.mp apart
      have inside : within f g = false := by
        simpa [within, none] using fun empty : 0#n = g.mask => absurd empty.symm someG
      have covers : within g f = false := by
        simpa [within, BitVec.and_comm, none] using fun empty : 0#n = f.mask => absurd empty.symm some
      simp [addLoop, inside, covers, ih apart]

theorem elements_add_new {known : List Mask} {s : MultiFieldSet} (under : s.Under known) {f : Field}
    (new : f.mask.New known) : (s.add f).elements f.type = f.bits :: s.elements f.type := by
  have loop : addLoop f.bits (s.elements f.type) = (s.elements f.type, false) :=
    addLoop_apart new.1 fun b mem => ⟨new.2 _ (under _ b mem).1 _ rfl, (under _ b mem).2⟩
  simp [add, loop]

theorem Under.add {known : List Mask} {s : MultiFieldSet} (under : s.Under known) {f : Field}
    (new : f.mask.New known) : (s.add f).Under (f.mask :: known) := by
  intro t b mem
  by_cases same : t = f.type
  · subst same
    rcases mem_elements_add mem with rfl | old
    · exact ⟨List.mem_cons_self, new.1⟩
    · exact (under _ b old).imp_left (List.mem_cons_of_mem _)
  · rw [elements_add_of_ne s same] at mem
    exact (under t b mem).imp_left (List.mem_cons_of_mem _)

omit [OxmTypes] in
theorem without_apart {n : Nat} {b : MaskedBits n} {m : BitVec n} (none : m &&& b.mask = 0) :
    b.without m = b := by
  have mask : b.mask &&& ~~~m = b.mask := by
    refine BitVec.eq_of_getLsbD_eq fun i bound => ?_
    have bit := congrArg (fun v => v.getLsbD i) none
    simp only [BitVec.getLsbD_and] at bit
    simp only [BitVec.getLsbD_and, BitVec.getLsbD_not, bound, decide_true, Bool.true_and]
    revert bit
    cases m.getLsbD i <;> simp
  refine MaskedBits.ext ?_ mask
  show b.value &&& ~~~m = b.value
  rw [← b.masked, BitVec.and_assoc, mask]

/-- Fields that share no bits with a mask stay when it is erased. -/
theorem erase_add {known : List Mask} {s : MultiFieldSet} (under : s.Under known) {f : Field}
    (new : f.mask.New known) : ((s.add f).erase f.mask).elements = s.elements := by
  funext t
  by_cases same : t = f.type
  · subst same
    have gone : (f.bits.without f.bits.mask).wildcard = true := by
      simp [MaskedBits.without, MaskedBits.restrict, MaskedBits.wildcard]
    have kept : ((s.elements f.type).map fun b => b.without f.bits.mask) = s.elements f.type :=
      (List.map_congr_left fun b mem => without_apart (new.2 _ (under _ b mem).1 _ rfl)).trans
        (List.map_id _)
    have all : ∀ b ∈ s.elements f.type, (!b.wildcard) = true := fun b mem => by
      simpa [MaskedBits.wildcard] using (under _ b mem).2
    have erased : ((s.add f).erase f.mask).elements f.type =
        (((s.add f).elements f.type).map fun b => b.without f.bits.mask).filter fun b => !b.wildcard := by
      simp [erase, Field.mask]
    rw [erased, elements_add_new under new, List.map_cons, kept, List.filter_cons_of_neg (by simp [gone]),
      List.filter_eq_self.mpr all]
  · rw [elements_erase_of_ne _ same, elements_add_of_ne s same]

theorem elements_add_congr {s s' : MultiFieldSet} (same : s.elements = s'.elements) (f : Field) :
    (s.add f).elements = (s'.add f).elements := by
  simp only [add, elements_setElements, same]

theorem elements_foldl_add_congr {fs : List Field} : ∀ {s s' : MultiFieldSet},
    s.elements = s'.elements → (fs.foldl add s).elements = (fs.foldl add s').elements := by
  induction fs with
  | nil => exact id
  | cons f fs ih => exact fun same => ih (elements_add_congr same f)

/-! ## Alternatives -/

omit [OxmTypes] in
/-- A value that fits one of the fields and not the other. -/
theorem exists_only {n : Nat} {f b : MaskedBits n} (some : f.mask ≠ 0) (none : f.mask &&& b.mask = 0) :
    ∃ v, b.Matches v ∧ ¬ f.Matches v := by
  refine ⟨b.write (~~~f.value), b.write_matches _, fun has => some ?_⟩
  refine BitVec.eq_of_getLsbD_eq fun i bound => ?_
  have apart : (f.mask.getLsbD i && b.mask.getLsbD i) = false := by
    rw [← BitVec.getLsbD_and, none]
    exact BitVec.getLsbD_zero
  have bit := MaskedBits.matches_iff.mp has i bound
  rw [b.write_bit _ bound] at bit
  cases asked : f.mask.getLsbD i with
  | false => exact BitVec.getLsbD_zero.symm
  | true =>
      rw [asked, Bool.true_and] at apart
      rw [asked, apart, BitVec.getLsbD_not] at bit
      simp [bound] at bit

/-- **A match with fields that share no bits asks for all of them if and only if no two are of one
type.** -/
theorem addAll_all_iff {fs : List Field} (unshared : Unshared fs) :
    (∀ x : Packet, (addAll fs).test x = true ↔ ∀ f ∈ fs, x.test f = true) ↔
      (fs.map Field.type).Nodup := by
  constructor
  · intro all
    refine List.pairwise_map.mpr (unshared.2.imp_of_mem fun {f g} memF memG apart same => ?_)
    obtain ⟨t, b⟩ := g
    obtain rfl : f.type = t := same
    obtain ⟨v, has, lacks⟩ := exists_only (unshared.1 f memF) (apart b.mask rfl)
    -- of every other type some field, and of this one only the second
    classical
    let others : Packet := fun u =>
      if some : ∃ b : MaskedBits (nbits u), ⟨u, b⟩ ∈ fs then some.choose.value else 0
    let x : Packet := Function.update others f.type v
    have alternatives : (addAll fs).test x = true := by
      refine (addAll_test fs x).mpr fun h mem => ?_
      by_cases same : h.type = f.type
      · refine ⟨⟨f.type, b⟩, memG, same.symm, Packet.test_iff.mpr ?_⟩
        simpa [x] using has
      · have some : ∃ b : MaskedBits (nbits h.type), ⟨h.type, b⟩ ∈ fs := ⟨h.bits, mem⟩
        refine ⟨⟨h.type, some.choose⟩, some.choose_spec, rfl, Packet.test_iff.mpr ?_⟩
        simpa [x, same, others, some, MaskedBits.Matches] using some.choose.masked
    have both := Packet.test_iff.mp ((all x).mp alternatives f memF)
    simp only [x, Function.update_self] at both
    exact lacks both
  · intro nodup x
    rw [addAll_test]
    constructor
    · intro all f mem
      obtain ⟨g, memG, same, has⟩ := all f mem
      rwa [List.inj_on_of_nodup_map nodup mem memG same.symm]
    · exact fun all f mem => ⟨f, mem, rfl, all f mem⟩

end MultiFieldSet

end Drunos.Oxm

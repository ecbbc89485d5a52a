/-
# Drunos.Retic.Places — where the leaves of a diagram are in a table

A translation gives every leaf a place: the match of the tests that are passed on the way to
it, and the priorities that are left for it. The rule of the leaf is in the middle of these;
when the leaf has packet functions, what is installed for what they return comes between them
too. So the places are apart, not the rules only: what is installed at a place that matches a
packet is below the whole of the packet's own place (`places_apart`).

The tests may have any masks. What a diagram must be for this is that no bit is tested where it
is known (`Separate`), and that every halving leaves a priority (`Roomy`).
-/
import Drunos.Retic.PreMatch
import Drunos.Retic.TranslatorTable
import Drunos.Retic.Sound
import Drunos.Retic.MergedNodes

namespace Drunos.Retic

open Drunos.Oxm Drunos.Theory PriorityTable

set_option autoImplicit false

variable [OxmTypes] {T : Type}

/-- The sets of actions, if none of the units has a packet function. -/
def Verdict.actions (v : Verdict) : Option (List FieldSet) :=
  if v.hasBody then none else some (v.sets.map ActionUnit.predActions)

/-- A leaf in a table: what it says, the match of what leads to it, and the ends of the interval
that is left for it. -/
structure Place where
  verdict : Verdict
  match' : FieldSet
  prioDown : Nat
  prioUp : Nat

namespace Place

def prio (place : Place) : Nat := place.prioDown / 2 + place.prioUp / 2

/-- The rule of the leaf, a barrier if it has packet functions. -/
def rule (place : Place) : Rule Packet (Option (List FieldSet)) :=
  ⟨place.prio, place.match'.test, place.verdict.actions⟩

end Place

namespace Diagram

/-- The places of the leaves. -/
def places : Diagram T → FieldSet → Priorities → List Place
  | leaf l, match', s => [⟨l.verdict, match', s.prioDown, s.localPrioUp⟩]
  | node f pos neg, match', s =>
      places neg match' (s.enter f) ++ places pos (match'.modify f) (s.enter f).positive

/-- The place of the leaf of a packet. -/
def placeAt (x : Packet) : Diagram T → FieldSet → Priorities → Place
  | leaf l, match', s => ⟨l.verdict, match', s.prioDown, s.localPrioUp⟩
  | node f pos neg, match', s =>
      if x.test f then placeAt x pos (match'.modify f) (s.enter f).positive
      else placeAt x neg match' (s.enter f)

/-- No bit is tested where it is known, and no field where it was not met. -/
def Separate : Diagram T → FieldSet → Prop
  | leaf _, _ => True
  | node f pos neg, match' =>
      Avoids match' f ∧ neg.AllFields (fun g => f ≠ g) ∧
        Separate pos (match'.modify f) ∧ Separate neg match'

/-- Every halving gives a priority above the lower end. -/
def Roomy : Diagram T → Priorities → Prop
  | leaf _, s => s.prioDown < s.prio
  | node f pos neg, s =>
      (s.enter f).prioDown < (s.enter f).prioMiddle ∧ Roomy neg (s.enter f) ∧
        Roomy pos (s.enter f).positive

instance Roomy.decidable : ∀ (d : Diagram T) (s : Priorities), Decidable (d.Roomy s)
  | leaf _, s => inferInstanceAs (Decidable (s.prioDown < s.prio))
  | node f pos neg, s =>
      have := Roomy.decidable neg (s.enter f)
      have := Roomy.decidable pos (s.enter f).positive
      inferInstanceAs (Decidable (_ ∧ _ ∧ _))

end Diagram

/-! ## What the places depend on -/

theorem placeAt_bare (x : Packet) {d d' : Diagram T} (same : d.bare = d'.bare) :
    ∀ match' s, d.placeAt x match' s = d'.placeAt x match' s := by
  induction d generalizing d' with
  | leaf l =>
      cases d' with
      | leaf l' =>
          injection same with same
          injection same with sets settings
          intro match' s
          rw [Diagram.placeAt, Diagram.placeAt, Leaf.verdict, Leaf.verdict, sets, settings]
      | node => cases same
  | node f pos neg ihPos ihNeg =>
      cases d' with
      | leaf => cases same
      | node f' pos' neg' =>
          injection same with field sameP sameN
          subst field
          intro match' s
          rw [Diagram.placeAt, Diagram.placeAt, ihPos sameP, ihNeg sameN]

theorem placeAt_mem (x : Packet) (d : Diagram T) :
    ∀ match' s, d.placeAt x match' s ∈ d.places match' s := by
  induction d with
  | leaf l => exact fun _ _ => List.mem_singleton_self _
  | node f pos neg ihPos ihNeg =>
      intro match' s
      rw [Diagram.placeAt, Diagram.places, List.mem_append]
      split_ifs
      · exact .inr (ihPos _ _)
      · exact .inl (ihNeg _ _)

theorem placeAt_verdict (x : Packet) (d : Diagram T) : ∀ match' s,
    (d.placeAt x match' s).verdict = (d.leafAt x).verdict ∧
      (d.placeAt x match' s).match' = d.matchAt x match' := by
  induction d with
  | leaf l => exact fun _ _ => ⟨rfl, rfl⟩
  | node f pos neg ihPos ihNeg =>
      intro match' s
      rw [Diagram.placeAt, Diagram.leafAt_node, Diagram.matchAt]
      split_ifs
      · exact ihPos _ _
      · exact ihNeg _ _

theorem test_congr_get {s s' : FieldSet} (same : s.get = s'.get) : s.test = s'.test := by
  funext x
  rw [Bool.eq_iff_iff, FieldSet.test_iff, FieldSet.test_iff, same]

/-! ## Matches -/

/-- With bits that it agrees with, a set says no more and no less. -/
theorem test_modify_iff {s : FieldSet} {f : Field} {x : Packet}
    (compatible : (s.get f.type).Compatible f.bits) :
    (s.modify f).test x = true ↔ s.test x = true ∧ x.test f = true := by
  constructor
  · intro known
    rw [FieldSet.test_iff] at known ⊢
    have here := known f.type
    rw [FieldSet.get_modify_self, MaskedBits.overwrite_matches_iff compatible] at here
    refine ⟨fun t => ?_, Packet.test_iff.mpr here.2⟩
    by_cases same : t = f.type
    · subst same
      exact here.1
    · have there := known t
      rwa [FieldSet.get_modify_of_ne s same] at there
  · exact fun ⟨known, has⟩ => FieldSet.test_modify known has

theorem test_modify_of_avoids {s : FieldSet} {f : Field} {x : Packet}
    (avoids : Avoids s f) :
    (s.modify f).test x = true ↔ s.test x = true ∧ x.test f = true :=
  test_modify_iff (MaskedBits.compatible_of_free avoids)

theorem places_covers {d : Diagram T} : ∀ {match' : FieldSet} {s : Priorities} {place : Place}
    {x : Packet}, d.Separate match' → place ∈ d.places match' s → place.match'.test x = true →
      match'.test x = true := by
  induction d with
  | leaf l =>
      rintro match' s place x - mem covers
      obtain rfl := List.mem_singleton.mp mem
      exact covers
  | node f pos neg ihPos ihNeg =>
      rintro match' s place x ⟨avoids, -, separateP, separateN⟩ mem covers
      rcases List.mem_append.mp mem with memN | memP
      · exact ihNeg separateN memN covers
      · exact ((test_modify_of_avoids avoids).mp (ihPos separateP memP covers)).1

theorem placeAt_covers (x : Packet) {d : Diagram T} : ∀ {match' : FieldSet} {s : Priorities},
    match'.test x = true → (d.placeAt x match' s).match'.test x = true := by
  induction d with
  | leaf l => exact fun known => known
  | node f pos neg ihPos ihNeg =>
      intro match' s known
      rw [Diagram.placeAt]
      split_ifs with has
      · exact ihPos (FieldSet.test_modify known has)
      · exact ihNeg known

/-! ## The rules of a translation -/

theorem erase_modify_get {s : FieldSet} {f : Field}
    (avoids : Avoids s f) : ((s.modify f).erase f.mask).get = s.get := by
  funext t
  by_cases same : t = f.type
  · subst same
    refine (FieldSet.get_erase_self (s.modify f) f.mask).trans ?_
    exact (congrArg (·.without f.bits.mask) (FieldSet.get_modify_self s f)).trans
      (MaskedBits.overwrite_without avoids)
  · have erased := FieldSet.get_erase_of_ne (s.modify f) (show t ≠ f.mask.type from same)
    rw [erased, FieldSet.get_modify_of_ne s same]

theorem erase_congr_get {s s' : FieldSet} (same : s.get = s'.get) (m : Mask) :
    (s.erase m).get = (s'.erase m).get := by
  funext t
  by_cases here : t = m.type
  · subst here
    rw [FieldSet.get_erase_self, FieldSet.get_erase_self, same]
  · rw [FieldSet.get_erase_of_ne s here, FieldSet.get_erase_of_ne s' here, same]

/-- **The rules of a translation are those of the places**, and the match is as before when it
returns. -/
theorem table_places {d : Diagram T} : ∀ {match' match'' : FieldSet} {s : Priorities},
    d.Separate match' → match''.get = match'.get →
      table (translate d match'' s).calls = (d.places match' s).map Place.rule ∧
        (translate d match'' s).match'.get = match'.get := by
  induction d with
  | leaf l =>
      intro match' match'' s _ same
      refine ⟨?_, same⟩
      show [(l.call match'' s.prio).rule] = [Place.rule _]
      rw [Leaf.call_rule, test_congr_get same]
      rfl
  | node f pos neg ihPos ihNeg =>
      rintro match' match'' s ⟨avoids, -, separateP, separateN⟩ same
      obtain ⟨rulesN, matchN⟩ := ihNeg (s := s.enter f) separateN same
      have modified : ((translate neg match'' (s.enter f)).match'.modify f).get =
          (match'.modify f).get := by
        rw [Knowledge.get_modify, Knowledge.get_modify, matchN]
      obtain ⟨rulesP, matchP⟩ := ihPos (s := (s.enter f).positive) separateP modified
      refine ⟨?_, (erase_congr_get matchP f.mask).trans (erase_modify_get avoids)⟩
      rw [translate, table_append, rulesN, rulesP, Diagram.places, List.map_append]

/-! ## Where the places are -/

/-- A diagram that fits where it is translated. -/
structure Fits (d : Diagram T) (match' : FieldSet) (s : Priorities) : Prop where
  separate : d.Separate match'
  roomy : d.Roomy s
  isOpen : s.Open

namespace Fits

variable {f : Field} {pos neg : Diagram T} {match' : FieldSet} {s : Priorities}

theorem negative (fits : Fits (.node f pos neg) match' s) : Fits neg match' (s.enter f) where
  separate := fits.separate.2.2.2
  roomy := fits.roomy.2.1
  isOpen := fits.isOpen.enter fits.roomy.1

theorem positive (fits : Fits (.node f pos neg) match' s) :
    Fits pos (match'.modify f) (s.enter f).positive where
  separate := fits.separate.2.2.1
  roomy := fits.roomy.2.2
  isOpen := (fits.isOpen.enter fits.roomy.1).positive (s.enter_previousMask f)

end Fits

/-- Below the split that is going on, or above it with a field of its mask that the subtree
tests. -/
theorem places_region {d : Diagram T} {P : Field → Prop} :
    ∀ {match' : FieldSet} {s : Priorities} {place : Place}, Fits d match' s → d.AllFields P →
      place ∈ d.places match' s →
        s.prioDown ≤ place.prioDown ∧ (place.prioUp ≤ s.localPrioUp ∨
          ∃ g, P g ∧ s.previousMask = some g.mask ∧ place.prioUp ≤ s.prioUp ∧
            ∀ x, place.match'.test x = true → x.test g = true) := by
  induction d with
  | leaf l =>
      intro match' s place _ _ mem
      obtain rfl := List.mem_singleton.mp mem
      exact ⟨Nat.le_refl _, .inl (Nat.le_refl _)⟩
  | node f pos neg ihPos ihNeg =>
      rintro match' s place fits ⟨here, fieldsP, fieldsN⟩ mem
      have room := fits.roomy.1
      have up := s.enter_localPrioUp f
      have down := s.enter_prioDown f
      have splits := (fits.isOpen.enter room).split f.mask (s.enter_previousMask f)
      -- in any case below the upper end of the split of this node
      obtain ⟨low, high⟩ : s.prioDown ≤ place.prioDown ∧ place.prioUp ≤ (s.enter f).prioUp ∧
          (place.prioUp ≤ (s.enter f).prioMiddle ∨
            ∃ g, P g ∧ g.mask = f.mask ∧ ∀ x, place.match'.test x = true → x.test g = true) := by
        rcases List.mem_append.mp mem with memN | memP
        · obtain ⟨low, high⟩ := ihNeg fits.negative fieldsN memN
          rw [s.enter_previousMask f] at high
          rw [down] at low
          rcases high with high | ⟨g, holds, same, high, covers⟩
          · rw [up] at high
            exact ⟨low, by omega, .inl high⟩
          · exact ⟨low, high, .inr ⟨g, holds, (Option.some.inj same).symm, covers⟩⟩
        · obtain ⟨low, high⟩ := ihPos fits.positive fieldsP memP
          have low' : (s.enter f).prioMiddle ≤ place.prioDown := low
          refine ⟨by omega, ?_, .inr ⟨f, here, rfl, fun x covers => ?_⟩⟩
          · rcases high with high | ⟨g, -, none, -⟩
            · exact high
            · cases none
          · exact ((test_modify_of_avoids fits.separate.1).mp
              (places_covers fits.positive.separate memP covers)).2
      refine ⟨low, ?_⟩
      rcases s.enter_cases f with ⟨going, same⟩ | next
      · rw [same] at high up
        obtain ⟨high, below | ⟨g, holds, mask, covers⟩⟩ := high
        · exact .inl (by omega)
        · exact .inr ⟨g, holds, by rw [going, mask], high, covers⟩
      · rw [next] at high
        exact .inl high.1

theorem places_le {d : Diagram T} {match' : FieldSet} {s : Priorities} {place : Place}
    (fits : Fits d match' s) (mem : place ∈ d.places match' s) : place.prioUp ≤ s.prioUp := by
  obtain ⟨-, low | ⟨g, -, -, high, -⟩⟩ :=
    places_region fits (d.allFields_of_forall fun _ => trivial) mem
  · refine Nat.le_trans low ?_
    cases going : s.previousMask with
    | none => simp [Priorities.localPrioUp, going]
    | some m =>
        have split := fits.isOpen.split m going
        simp only [Priorities.localPrioUp, going, Option.isSome_some, if_true]
        omega
  · exact high

/-- Of two fields of one mask a packet has one at most. -/
theorem test_mask_unique {x : Packet} {f g : Field} (same : f.mask = g.mask)
    (left : x.test f = true) (right : x.test g = true) : f = g := by
  obtain ⟨t, b⟩ := f
  obtain ⟨t', b'⟩ := g
  obtain ⟨rfl, mask⟩ := Mask.mk.inj same
  have masks : b.mask = b'.mask := eq_of_heq mask
  have here : b = .read (x t) b.mask := MaskedBits.eq_read (Packet.test_iff.mp left)
  have there : b' = .read (x t) b'.mask := MaskedBits.eq_read (Packet.test_iff.mp right)
  rw [here, there, masks]

/-- **A place that matches the packet is its own, or below the whole of it.** -/
theorem places_apart {d : Diagram T} {x : Packet} :
    ∀ {match' : FieldSet} {s : Priorities} {place : Place}, Fits d match' s →
      place ∈ d.places match' s → place.match'.test x = true →
        place = d.placeAt x match' s ∨ place.prioUp ≤ (d.placeAt x match' s).prioDown := by
  induction d with
  | leaf l =>
      intro match' s place _ mem _
      exact .inl (List.mem_singleton.mp mem)
  | node f pos neg ihPos ihNeg =>
      intro match' s place fits mem covers
      rw [Diagram.placeAt]
      cases has : x.test f with
      | true =>
          rw [if_pos rfl]
          rcases List.mem_append.mp mem with memN | memP
          · -- above the split are places of other values only
            have own := (places_region fits.positive (pos.allFields_of_forall fun _ => trivial)
              (placeAt_mem x pos _ _)).1
            have own : (s.enter f).prioMiddle ≤ _ := own
            refine .inr ?_
            obtain ⟨-, low | ⟨g, ne, mask, -, tests⟩⟩ :=
              places_region fits.negative fits.separate.2.1 memN
            · rw [s.enter_localPrioUp f] at low
              exact Nat.le_trans low own
            · rw [s.enter_previousMask f] at mask
              exact absurd (test_mask_unique (Option.some.inj mask) has (tests x covers)) ne
          · exact ihPos fits.positive memP covers
      | false =>
          rw [if_neg Bool.false_ne_true]
          rcases List.mem_append.mp mem with memN | memP
          · exact ihNeg fits.negative memN covers
          · have here := (test_modify_of_avoids fits.separate.1).mp
              (places_covers fits.positive.separate memP covers)
            rw [here.2] at has
            cases has

/-- The rule of a place is between its ends. -/
theorem places_room {d : Diagram T} : ∀ {match' : FieldSet} {s : Priorities} {place : Place},
    d.Roomy s → place ∈ d.places match' s →
      place.prioDown < place.prio ∧ place.prio < place.prioUp := by
  induction d with
  | leaf l =>
      intro match' s place roomy mem
      obtain rfl := List.mem_singleton.mp mem
      have room : s.prioDown < s.prioDown / 2 + s.localPrioUp / 2 := roomy
      exact ⟨room, by show s.prioDown / 2 + s.localPrioUp / 2 < s.localPrioUp; omega⟩
  | node f pos neg ihPos ihNeg =>
      rintro match' s place ⟨-, roomyN, roomyP⟩ mem
      rcases List.mem_append.mp mem with memN | memP
      · exact ihNeg roomyN memN
      · exact ihPos roomyP memP

/-- The places of a diagram that is translated from its start are in the interval. -/
theorem places_bounds {d : Diagram T} {match' : FieldSet} {s : Priorities} {place : Place}
    (fits : Fits d match' s) (mem : place ∈ d.places match' s) :
    s.prioDown ≤ place.prioDown ∧ place.prioUp ≤ s.prioUp :=
  ⟨(places_region fits (d.allFields_of_forall fun _ => trivial) mem).1, places_le fits mem⟩

end Drunos.Retic

/-
# Drunos.Retic.Rising — which rule wins for a packet

A place with packet functions has a barrier in the middle of its interval. What is installed for
the policies the functions return is on both sides of it: where the first test passes, above it,
else below, and with no test at all on the barrier itself. So a packet that comes to such a place
finds its rule only if it passes the first test below it (`Rises`).

Everything installed for the packets of a run is an `Entry` of one of them. If their traces are
recorded right, the intervals suffice and no bits are tested twice (`Clear`), a rule that matches
a packet is the one of the place it reaches in the end, or below that, or the barrier of a place
it comes by (`entry_below`).
-/
import Drunos.Retic.Forks
import Drunos.Retic.Cached

namespace Drunos.Retic

open Drunos.Oxm Drunos.Theory PriorityTable Exploration Drunos.Maple

set_option autoImplicit false

section

variable [OxmTypes]

/-! ## What a place comes to -/

namespace Place

/-- The merged trace of the packet. -/
def trace (x : Packet) (place : Place) : List TraceCall := place.verdict.merged x place.match'

def start (place : Place) : Augmention := ⟨place.match', place.prioDown, place.prioUp⟩

/-- Where the trace ends. -/
def ends (x : Packet) (place : Place) : Augmention := place.start.after (place.trace x)

/-- The place of the packet in the diagram that its functions return. -/
def next (x : Packet) (place : Place) (d : Fdd) : Place :=
  d.placeAt x (place.ends x).match' (place.ends x).priorities

/-- There is a priority for the rule, between the ends. -/
structure Room (place : Place) : Prop where
  low : place.prioDown < place.prio
  high : place.prio < place.prioUp

end Place

/-- The packet is traced right, and what is returned for it is compiled and fits its place. -/
inductive Clear (x : Packet) : Place → Prop where
  | plain {place : Place} (plain : place.verdict.hasBody = false) : Clear x place
  | returned {place : Place} {d : Fdd} (compiled : compile (place.verdict.returned x) = some d)
      (holds : ∀ call ∈ place.trace x, Holds x call) (wide : Wide (place.trace x) place.start)
      (separate : d.Separate (place.ends x).match') (roomy : d.Roomy (place.ends x).priorities)
      (rest : Clear x (place.next x d)) : Clear x place

/-- The place the packet reaches in the end. -/
inductive Reaches (x : Packet) : Place → Place → Prop where
  | plain {place : Place} (plain : place.verdict.hasBody = false) : Reaches x place place
  | returned {place final : Place} {d : Fdd} (body : place.verdict.hasBody = true)
      (compiled : compile (place.verdict.returned x) = some d)
      (rest : Reaches x (place.next x d) final) : Reaches x place final

/-- The place, and those with packet functions the packet comes by after it. -/
inductive Passes (x : Packet) : Place → Place → Prop where
  | here {place : Place} (body : place.verdict.hasBody = true) : Passes x place place
  | later {place by' : Place} {d : Fdd} (body : place.verdict.hasBody = true)
      (compiled : compile (place.verdict.returned x) = some d)
      (rest : Passes x (place.next x d) by') : Passes x place by'

/-- A rule that is installed for the packet below a place. -/
inductive Entry (y : Packet) : Place → Rule Packet (Option (List FieldSet)) → Prop where
  | barrier {place : Place} {r : Rule Packet (Option (List FieldSet))}
      (body : place.verdict.hasBody = true)
      (mem : r ∈ table (barriers (place.trace y) place.start)) : Entry y place r
  | rule {place there : Place} {d : Fdd} (body : place.verdict.hasBody = true)
      (compiled : compile (place.verdict.returned y) = some d)
      (mem : there ∈ d.places (place.ends y).match' (place.ends y).priorities) :
      Entry y place there.rule
  | later {place : Place} {d : Fdd} {r : Rule Packet (Option (List FieldSet))}
      (body : place.verdict.hasBody = true)
      (compiled : compile (place.verdict.returned y) = some d)
      (rest : Entry y (place.next y d) r) : Entry y place r

/-! ## Bounds -/

theorem Fits.start {d : Fdd} {match' : FieldSet} {s : Priorities} (separate : d.Separate match')
    (roomy : d.Roomy s) (fresh : s.previousMask = none) : Fits d match' s where
  separate := separate
  roomy := roomy
  isOpen := by
    refine ⟨?_, fun m going => absurd (fresh.symm.trans going) nofun⟩
    cases d with
    | leaf l =>
        have room : s.prioDown < s.prioDown / 2 + s.localPrioUp / 2 := roomy
        omega
    | node f pos neg =>
        have room := roomy.1
        rcases s.enter_cases f with ⟨going, -⟩ | next
        · exact absurd (fresh.symm.trans going) nofun
        · rw [next] at room
          have room : s.prioDown < s.localPrioUp / 2 + s.prioDown / 2 := room
          omega

section

variable {x y : Packet} {place final : Place} {d : Fdd}

/-- What a clear packet is at a place with packet functions. -/
theorem Clear.inv (clear : Clear x place) (body : place.verdict.hasBody = true) :
    ∃ d : Fdd, compile (place.verdict.returned x) = some d ∧ (∀ call ∈ place.trace x, Holds x call) ∧
      Wide (place.trace x) place.start ∧ Fits d (place.ends x).match' (place.ends x).priorities ∧
        Clear x (place.next x d) := by
  cases clear with
  | plain plain => simp [plain] at body
  | returned compiled holds wide separate roomy rest =>
      exact ⟨_, compiled, holds, wide, .start separate roomy rfl, rest⟩

theorem Clear.holds (clear : Clear x place) (body : place.verdict.hasBody = true) :
    ∀ call ∈ place.trace x, Holds x call := by
  obtain ⟨-, -, holds, -⟩ := clear.inv body
  exact holds

theorem Clear.wide (clear : Clear x place) (body : place.verdict.hasBody = true) :
    Wide (place.trace x) place.start := by
  obtain ⟨-, -, -, wide, -⟩ := clear.inv body
  exact wide

theorem Clear.fits (clear : Clear x place) (body : place.verdict.hasBody = true)
    (compiled : compile (place.verdict.returned x) = some d) :
    Fits d (place.ends x).match' (place.ends x).priorities := by
  obtain ⟨d', compiled', -, -, fits, -⟩ := clear.inv body
  rw [compiled] at compiled'
  cases compiled'
  exact fits

theorem Clear.next (clear : Clear x place) (body : place.verdict.hasBody = true)
    (compiled : compile (place.verdict.returned x) = some d) : Clear x (place.next x d) := by
  obtain ⟨d', compiled', -, -, -, next⟩ := clear.inv body
  rw [compiled] at compiled'
  cases compiled'
  exact next

/-- A clear packet reaches a place. -/
theorem Clear.reaches (clear : Clear x place) : ∃ final, Reaches x place final := by
  induction clear with
  | plain plain => exact ⟨_, .plain plain⟩
  | @returned place d compiled _ _ _ _ _ ih =>
      cases body : place.verdict.hasBody with
      | false => exact ⟨_, .plain body⟩
      | true =>
          obtain ⟨final, reaches⟩ := ih
          exact ⟨final, .returned body compiled reaches⟩

theorem Place.next_mem : place.next x d ∈ d.places (place.ends x).match' (place.ends x).priorities :=
  placeAt_mem x d _ _

/-- The interval a trace ends in is in that of the place, and the places of the diagram in this. -/
theorem Clear.ends (clear : Clear x place) (body : place.verdict.hasBody = true)
    (word : place.start.Word) : (place.ends x).Word ∧ place.prioDown ≤ (place.ends x).prioDown ∧
      (place.ends x).prioUp ≤ place.prioUp :=
  word.after (clear.wide body)

theorem Clear.places (clear : Clear x place) (body : place.verdict.hasBody = true)
    (compiled : compile (place.verdict.returned x) = some d) {there : Place}
    (mem : there ∈ d.places (place.ends x).match' (place.ends x).priorities) :
    (place.ends x).prioDown ≤ there.prioDown ∧ there.prioUp ≤ (place.ends x).prioUp ∧ there.Room := by
  have bounds := places_bounds (clear.fits body compiled) mem
  have room := places_room (clear.fits body compiled).roomy mem
  exact ⟨bounds.1, bounds.2, room.1, room.2⟩

theorem Clear.word (clear : Clear x place) (body : place.verdict.hasBody = true)
    (word : place.start.Word) (compiled : compile (place.verdict.returned x) = some d) :
    (place.next x d).start.Word := by
  have ends := clear.ends body word
  have bounds := clear.places body compiled Place.next_mem
  exact ⟨Nat.le_trans ends.1.positive bounds.1, Nat.lt_of_le_of_lt bounds.2.1 ends.1.bounded⟩

theorem Augmention.Word.ends {a : Augmention} (word : a.Word) :
    1 ≤ a.priorities.prioDown ∧ a.priorities.prioUp < 65536 := ⟨word.positive, word.bounded⟩

theorem trace_asksAnew : AsksAnew place.start.match' (place.trace x) := mergeCalls_asksAnew _ _

/-- The rule a packet reaches is in the interval of the place. -/
theorem Reaches.bounds (reaches : Reaches x place final) (clear : Clear x place)
    (word : place.start.Word) (room : place.Room) :
    place.prioDown < final.prio ∧ final.prio < place.prioUp := by
  induction reaches with
  | plain plain => exact ⟨room.low, room.high⟩
  | returned body compiled rest ih =>
      have ends := clear.ends body word
      have bounds := clear.places body compiled Place.next_mem
      have below := ih (clear.next body compiled) (clear.word body word compiled) bounds.2.2
      omega

/-- What is installed below a place is in its interval, and matches nothing that the place does
not. -/
theorem Entry.bounds {r : Rule Packet (Option (List FieldSet))} (entry : Entry y place r) :
    Clear y place → place.start.Word → (place.prioDown ≤ r.prio ∧ r.prio < place.prioUp) ∧
      ∀ x, r.covers x = true → place.match'.test x = true := by
  induction entry with
  | @barrier place r body mem =>
      intro clear word
      obtain ⟨call, there, rfl⟩ := List.mem_map.mp mem
      exact ⟨barriers_bounds word (clear.wide body) call there, fun x =>
        barriers_covers (a := place.start) trace_asksAnew call there⟩
  | @rule place there d body compiled mem =>
      intro clear word
      have ends := clear.ends body word
      obtain ⟨low, high, room⟩ := clear.places body compiled mem
      have lower := room.low
      have upper := room.high
      refine ⟨⟨?_, ?_⟩, fun x covers => ?_⟩
      · show place.prioDown ≤ there.prio
        omega
      · show there.prio < place.prioUp
        omega
      · exact test_of_after (a := place.start) trace_asksAnew
          (places_covers (clear.fits body compiled).separate mem covers)
  | @later place d r body compiled rest ih =>
      intro clear word
      have ends := clear.ends body word
      obtain ⟨low, high, -⟩ := clear.places body compiled Place.next_mem
      obtain ⟨below, covers⟩ := ih (clear.next body compiled) (clear.word body word compiled)
      refine ⟨by omega, fun x has => ?_⟩
      exact test_of_after (a := place.start) trace_asksAnew
        (places_covers (clear.fits body compiled).separate Place.next_mem (covers x has))

end

/-! ## Above the barriers -/

/-- Whether the first test of a trace passed. -/
def firstTest : List TraceCall → Option Bool
  | [] => none
  | .load _ :: trace => firstTest trace
  | .test _ result :: _ => some result

/-- The packet passes one of the tests the diagram begins with, as far as they have one mask. -/
def Diagram.PassesFirst {T : Type} (x : Packet) : Option Mask → Diagram T → Prop
  | _, .leaf _ => False
  | previous, .node f _ neg =>
      (previous = none ∨ previous = some f.mask) ∧
        (x.test f = true ∨ PassesFirst x (some f.mask) neg)

/-- The packet passes the first test below the place: one that is recorded in its trace or, if there
is none, of the diagram. A diagram that is one leaf with packet functions leaves it to these. -/
def Rises (x : Packet) (place : Place) (d : Fdd) : Prop :=
  match firstTest (place.trace x) with
  | some result => result = true
  | none => d.PassesFirst x none ∨ ∃ l, d = .leaf l ∧ l.verdict.hasBody = true

/-- At every place with packet functions it comes by. -/
inductive Above (x : Packet) : Place → Prop where
  | plain {place : Place} (plain : place.verdict.hasBody = false) : Above x place
  | returned {place : Place} {d : Fdd} (compiled : compile (place.verdict.returned x) = some d)
      (rises : Rises x place d) (rest : Above x (place.next x d)) : Above x place

/-- The intervals of a trace, by its first test. -/
theorem after_firstTest {trace : List TraceCall} : ∀ {a : Augmention}, a.Word → Wide trace a →
    (firstTest trace = none → (a.after trace).priorities = a.priorities) ∧
      (firstTest trace = some true → a.prioMiddle < (a.after trace).prioDown) ∧
        (firstTest trace = some false → (a.after trace).prioUp < a.prioMiddle) := by
  induction trace with
  | nil => exact fun _ _ => ⟨fun _ => rfl, nofun, nofun⟩
  | cons call trace ih =>
      intro a word wide
      cases call with
      | load f => exact ih (word.load f) wide
      | test f b =>
          obtain ⟨two, wide⟩ := wide
          have after := (word.test two f b).after wide
          refine ⟨nofun, fun passed => ?_, fun failed => ?_⟩
          · obtain rfl : b = true := Option.some.inj passed
            have ends := word.test_true two f
            rw [Augmention.after_test]
            omega
          · obtain rfl : b = false := Option.some.inj failed
            have ends := word.test_false two f
            rw [Augmention.after_test]
            omega

/-- The place of a packet in a diagram is above its first split, or below. -/
theorem placeAt_split {T : Type} {x : Packet} {d : Diagram T} : ∀ {match' : FieldSet} {s : Priorities}
    {f : Field}, s.previousMask = some f.mask → Fits d match' s →
      (d.PassesFirst x (some f.mask) → s.prioMiddle ≤ (d.placeAt x match' s).prioDown) ∧
        (¬d.PassesFirst x (some f.mask) → (d.placeAt x match' s).prioUp ≤ s.prioMiddle) := by
  induction d with
  | leaf l =>
      intro match' s f going _
      refine ⟨fun none => none.elim, fun _ => ?_⟩
      show s.localPrioUp ≤ s.prioMiddle
      rw [Priorities.localPrioUp, going]
      exact Nat.le_refl _
  | node g pos neg ihPos ihNeg =>
      intro match' s f going fits
      by_cases same : f.mask = g.mask
      · have stays : s.enter g = s := if_pos (by rw [going, same])
        have negative := ihNeg (going.trans (congrArg some same)) (stays ▸ fits.negative)
        rw [Diagram.placeAt, Diagram.PassesFirst, stays, same]
        cases has : x.test g with
        | true =>
            have low := (places_region fits.positive (pos.allFields_of_forall fun _ => trivial)
              (placeAt_mem x pos (match'.modify g) _)).1
            rw [stays] at low
            exact ⟨fun _ => low, fun fails => absurd ⟨.inr rfl, .inl rfl⟩ fails⟩
        | false =>
            rw [if_neg Bool.false_ne_true]
            refine ⟨fun passes => negative.1 ?_, fun fails => negative.2 fun below => fails ?_⟩
            · exact passes.2.resolve_left Bool.false_ne_true
            · exact ⟨.inr rfl, .inr below⟩
      · have other : s.previousMask ≠ some g.mask := fun here =>
          same (Option.some.inj (going.symm.trans here))
        refine ⟨fun passes => ?_, fun _ => ?_⟩
        · rcases passes.1 with none | here
          · cases none
          · exact absurd (Option.some.inj here) same
        · -- the next split takes what this one leaves
          have left : (s.enter g).prioUp = s.prioMiddle := by
            rcases s.enter_cases g with ⟨here, -⟩ | next
            · exact absurd here other
            · rw [next, Priorities.localPrioUp, going]
              rfl
          rw [Diagram.placeAt, ← left]
          split_ifs
          · have high := places_le fits.positive (placeAt_mem x pos _ _)
            exact high
          · exact places_le fits.negative (placeAt_mem x neg _ _)

theorem placeAt_firstSplit {T : Type} {x : Packet} {f : Field} {pos neg : Diagram T} {match' : FieldSet}
    {s : Priorities} (start : s.previousMask = none) (fits : Fits (.node f pos neg) match' s) :
    let place := (Diagram.node f pos neg).placeAt x match' s
    ((Diagram.node f pos neg).PassesFirst x none → s.prioUp / 2 + s.prioDown / 2 ≤ place.prioDown) ∧
      (¬(Diagram.node f pos neg).PassesFirst x none → place.prioUp ≤ s.prioUp / 2 + s.prioDown / 2) := by
  have middle : (s.enter f).prioMiddle = s.prioUp / 2 + s.prioDown / 2 := by
    rcases s.enter_cases f with ⟨going, -⟩ | next
    · rw [start] at going
      cases going
    · rw [next, Priorities.localPrioUp, start]
      rfl
  intro place
  rw [← middle, Diagram.PassesFirst]
  simp only [place, Diagram.placeAt, true_or, true_and]
  cases has : x.test f with
  | true =>
      have low := (places_bounds fits.positive (placeAt_mem x pos _ _)).1
      exact ⟨fun _ => low, fun fails => absurd (.inl rfl) fails⟩
  | false =>
      have split := placeAt_split (x := x) (s.enter_previousMask f) fits.negative
      rw [if_neg Bool.false_ne_true]
      refine ⟨fun passes => split.1 ?_, fun fails => split.2 fun below => fails (.inr below)⟩
      exact passes.resolve_left Bool.false_ne_true

section

variable {x y : Packet} {place final : Place} {d : Fdd}

/-- **The rule a packet reaches is above the barrier of a place exactly if the packet rises there.** -/
theorem rises_iff (clear : Clear x place) (word : place.start.Word)
    (body : place.verdict.hasBody = true) (compiled : compile (place.verdict.returned x) = some d)
    (rest : Reaches x (place.next x d) final)
    (later : (place.next x d).verdict.hasBody = true → (place.next x d).prio < final.prio) :
    Rises x place d ↔ place.prio < final.prio := by
  have fits := clear.fits body compiled
  have ends := clear.ends body word
  have bounds := clear.places body compiled Place.next_mem
  have reached := rest.bounds (clear.next body compiled) (clear.word body word compiled) bounds.2.2
  obtain ⟨same, passed, failed⟩ := after_firstTest word (clear.wide body)
  have middle : place.prio ≤ place.start.prioMiddle ∧ place.start.prioMiddle ≤ place.prio + 1 := by
    show place.prioDown / 2 + place.prioUp / 2 ≤ (place.prioUp + place.prioDown) / 2 ∧
      (place.prioUp + place.prioDown) / 2 ≤ place.prioDown / 2 + place.prioUp / 2 + 1
    omega
  unfold Rises
  cases first : firstTest (place.trace x) with
  | some result =>
      cases result with
      | true =>
          have above : place.start.prioMiddle < (place.ends x).prioDown := passed first
          refine iff_of_true rfl ?_
          omega
      | false =>
          have below : (place.ends x).prioUp < place.start.prioMiddle := failed first
          refine iff_of_false Bool.false_ne_true ?_
          omega
  | none =>
      have start : (place.ends x).priorities = { prioDown := place.prioDown, prioUp := place.prioUp } :=
        same first
      dsimp only
      cases d with
      | leaf l =>
          have here : (place.next x (.leaf l)).prio = place.prio := by
            rw [Place.next, start]
            rfl
          by_cases function : l.verdict.hasBody = true
          · exact iff_of_true (.inr ⟨l, rfl, function⟩) (here ▸ later function)
          · refine iff_of_false ?_ ?_
            · rintro (none | ⟨l', same, function'⟩)
              · exact none
              · cases same
                exact function function'
            · cases rest with
              | plain _ => omega
              | returned body' _ _ => exact absurd body' function
      | node f pos neg =>
          have noLeaf : (∃ l, Diagram.node f pos neg = .leaf l ∧ l.verdict.hasBody = true) ↔ False :=
            iff_of_false (fun ⟨l, same, _⟩ => nomatch same) id
          rw [noLeaf, or_false]
          have split := placeAt_firstSplit (x := x) (by rw [start]) fits
          have half : (place.ends x).priorities.prioUp / 2 + (place.ends x).priorities.prioDown / 2 =
              place.prio := by
            rw [start]
            exact Nat.add_comm _ _
          rw [half] at split
          refine ⟨fun passes => Nat.lt_of_le_of_lt (split.1 passes) reached.1, fun above => ?_⟩
          by_contra fails
          exact Nat.lt_asymm above (Nat.lt_of_lt_of_le reached.2 (split.2 fails))

theorem Passes.cases_returned {by' : Place} (body : place.verdict.hasBody = true)
    (compiled : compile (place.verdict.returned x) = some d) :
    Passes x place by' ↔ by' = place ∨ Passes x (place.next x d) by' := by
  constructor
  · intro passes
    cases passes with
    | here _ => exact .inl rfl
    | later _ compiled' rest =>
        rw [compiled] at compiled'
        cases compiled'
        exact .inr rest
  · rintro (rfl | rest)
    · exact .here body
    · exact .later body compiled rest

/-- **A packet rises everywhere exactly if the rule it reaches is above all barriers it comes by.** -/
theorem above_iff (reaches : Reaches x place final) (clear : Clear x place) (word : place.start.Word) :
    Above x place ↔ ∀ by', Passes x place by' → by'.prio < final.prio := by
  induction reaches with
  | plain plain =>
      refine iff_of_true (.plain plain) fun by' passes => ?_
      cases passes with
      | here body => simp [plain] at body
      | later body _ _ => simp [plain] at body
  | @returned place final d body compiled rest ih =>
      have next := ih (clear.next body compiled) (clear.word body word compiled)
      have here := rises_iff clear word body compiled rest
      constructor
      · intro above by' passes
        obtain ⟨rises, aboveNext⟩ : Rises x place d ∧ Above x (place.next x d) := by
          cases above with
          | plain plain => simp [plain] at body
          | returned compiled' rises rest =>
              rw [compiled] at compiled'
              cases compiled'
              exact ⟨rises, rest⟩
        rcases (Passes.cases_returned body compiled).mp passes with rfl | passes
        · exact (here fun body => next.mp aboveNext _ (.here body)).mp rises
        · exact next.mp aboveNext by' passes
      · intro all
        have aboveNext := next.mpr fun by' passes =>
          all by' ((Passes.cases_returned body compiled).mpr (.inr passes))
        have rises := (here fun body => all _ ((Passes.cases_returned ‹_› compiled).mpr
          (.inr (.here body)))).mpr (all place (.here ‹_›))
        exact .returned compiled rises aboveNext

end

/-! ## The rules of other packets -/

/-- A rule of a diagram, or installed for the packet below its place there. -/
def Filed (y : Packet) (d : Fdd) (match' : FieldSet) (s : Priorities)
    (r : Rule Packet (Option (List FieldSet))) : Prop :=
  (∃ there ∈ d.places match' s, r = there.rule) ∨ Entry y (d.placeAt y match' s) r

theorem wordAt {d : Fdd} {match' : FieldSet} {s : Priorities} (fits : Fits d match' s)
    (word : 1 ≤ s.prioDown ∧ s.prioUp < 65536) (x : Packet) : (d.placeAt x match' s).start.Word := by
  have bounds := places_bounds fits (placeAt_mem x d match' s)
  exact ⟨Nat.le_trans word.1 bounds.1, Nat.lt_of_le_of_lt bounds.2 word.2⟩

theorem Filed.bounds {y : Packet} {d : Fdd} {match' : FieldSet} {s : Priorities}
    {r : Rule Packet (Option (List FieldSet))} (filed : Filed y d match' s r) (fits : Fits d match' s)
    (word : (d.placeAt y match' s).start.Word) (clear : Clear y (d.placeAt y match' s)) :
    r.prio < s.prioUp ∧ ∀ x, r.covers x = true → match'.test x = true := by
  rcases filed with ⟨there, mem, rfl⟩ | entry
  · exact ⟨Nat.lt_of_lt_of_le (places_room fits.roomy mem).2 (places_bounds fits mem).2,
      fun x => places_covers fits.separate mem⟩
  · obtain ⟨bounds, matches'⟩ := entry.bounds clear word
    have mem := placeAt_mem y d match' s
    exact ⟨Nat.lt_of_lt_of_le bounds.2 (places_bounds fits mem).2,
      fun x covers => places_covers fits.separate mem (matches' x covers)⟩

/-- The rule is the one that the packet reaches, or below it, or the barrier of a place with packet
functions that it comes by. -/
def Known (x : Packet) (place final : Place) (r : Rule Packet (Option (List FieldSet))) : Prop :=
  (r = final.rule ∨ r.prio < final.prio) ∨ ∃ by', Passes x place by' ∧ r = by'.rule

section

variable {x y : Packet} {place final : Place} {d : Fdd} {r : Rule Packet (Option (List FieldSet))}

/-- What is filed in a diagram that matches a packet is known to it, if this holds of what is installed
at the packet's own place. -/
theorem filed_known {match' : FieldSet} {s : Priorities} (fits : Fits d match' s)
    (word : 1 ≤ s.prioDown ∧ s.prioUp < 65536)
    (reaches : Reaches x (d.placeAt x match' s) final) (clear : Clear x (d.placeAt x match' s))
    (clearY : Clear y (d.placeAt y match' s))
    (own : d.placeAt y match' s = d.placeAt x match' s → Entry y (d.placeAt x match' s) r →
      Known x (d.placeAt x match' s) final r)
    (filed : Filed y d match' s r) (covers : r.covers x = true) :
    Known x (d.placeAt x match' s) final r := by
  have roomX := places_room fits.roomy (placeAt_mem x d match' s)
  have bounds := reaches.bounds clear (wordAt fits word x) ⟨roomX.1, roomX.2⟩
  have lower {up : Nat} (low : up ≤ (d.placeAt x match' s).prioDown) (prio : r.prio < up) :
      Known x (d.placeAt x match' s) final r :=
    .inl (.inr (Nat.lt_trans (Nat.lt_of_lt_of_le prio low) bounds.1))
  rcases filed with ⟨there, mem, rfl⟩ | entry
  · rcases places_apart fits mem covers with rfl | low
    · cases reaches with
      | plain _ => exact .inl (.inl rfl)
      | returned body _ _ => exact .inr ⟨_, .here body, rfl⟩
    · exact lower low (places_room fits.roomy mem).2
  · obtain ⟨⟨-, high⟩, matches'⟩ := entry.bounds clearY (wordAt fits word y)
    rcases places_apart fits (placeAt_mem y d match' s) (matches' x covers) with same | low
    · exact own same (same ▸ entry)
    · exact lower low high

/-- Two packets at one place ask what one program asks. -/
theorem traces_fork (knownX : place.match'.test x = true) (knownY : place.match'.test y = true) :
    Forks (place.trace x) (place.trace y) ∧
      (place.trace x = place.trace y → place.verdict.returned x = place.verdict.returned y) := by
  have follows (z : Packet) (known : place.match'.test z = true) :=
    merged_follows (unitsProg place.verdict.sets) (FieldSet.test_iff.mp known)
      (unitsProg_answers z place.verdict).1
  obtain ⟨forks, ends⟩ := forks_of_paths (follows x knownX).path (follows y knownY).path
  refine ⟨forks, fun same => ?_⟩
  rw [(unitsProg_answers x place.verdict).2, (unitsProg_answers y place.verdict).2]
  exact congrArg Policy.sum (congrArg Prod.fst (Option.some.inj (ends same)))

/-- **What is installed for a packet below a place is known to another packet there, if it matches
this.** -/
theorem entry_known (reaches : Reaches x place final) :
    Clear x place → Clear y place → place.start.Word → place.match'.test x = true →
      place.match'.test y = true → Entry y place r → r.covers x = true → Known x place final r := by
  induction reaches with
  | plain plain =>
      intro _ _ _ _ _ entry
      cases entry with
      | barrier body _ => simp [plain] at body
      | rule body _ _ => simp [plain] at body
      | later body _ _ => simp [plain] at body
  | @returned place final d body compiled rest ih =>
      intro clear clearY word knownX knownY entry covers
      obtain ⟨forks, returned⟩ := traces_fork knownX knownY
      have ends := clear.ends body word
      have next := clear.places body compiled Place.next_mem
      have bounds := rest.bounds (clear.next body compiled) (clear.word body word compiled) next.2.2
      have down : (place.ends x).prioDown ≤ (place.next x d).prioDown := next.1
      have lower (low : r.prio < (place.ends x).prioDown) : Known x place final r :=
        .inl (.inr (Nat.lt_trans (Nat.lt_of_lt_of_le low down) bounds.1))
      -- what is filed in the diagram of the other packet
      have filed {d' : Fdd} (compiled' : compile (place.verdict.returned y) = some d')
          (filed : Filed y d' (place.ends y).match' (place.ends y).priorities r) :
          Known x place final r := by
        obtain ⟨high, matches'⟩ := filed.bounds (clearY.fits body compiled')
          (wordAt (clearY.fits body compiled') (clearY.ends body word).1.ends y)
          (clearY.next body compiled')
        rcases forks.after_below word (clear.wide body) (clearY.wide body) trace_asksAnew
          (clear.holds body) (matches' x covers) with same | low
        · -- the same diagram at the same place
          have sameEnds : place.ends y = place.ends x := congrArg place.start.after same
          rw [← returned same.symm, compiled] at compiled'
          cases compiled'
          have clearNextY := clearY.next body (returned same.symm ▸ compiled)
          have knownNextY : (place.ends y).match'.test y = true :=
            test_after (a := place.start) knownY (clearY.holds body)
          rw [Place.next, sameEnds] at clearNextY
          rw [sameEnds] at filed knownNextY
          have known := filed_known (clear.fits body compiled) ends.1.ends rest
            (clear.next body compiled) clearNextY (fun here entry => ?_) filed covers
          · exact known.imp_right fun ⟨by', passes, same⟩ => ⟨by', .later body compiled passes, same⟩
          · rw [here] at clearNextY
            have own := placeAt_covers y (d := d) (s := (place.ends x).priorities) knownNextY
            rw [here] at own
            exact ih (clear.next body compiled) clearNextY (clear.word body word compiled)
              (placeAt_covers x (test_after (a := place.start) knownX (clear.holds body))) own entry
              covers
        · exact lower (Nat.lt_of_lt_of_le high low)
      cases entry with
      | barrier _ mem =>
          obtain ⟨call, there, rfl⟩ := List.mem_map.mp mem
          exact lower (forks.barriers_below word (clear.wide body) (clearY.wide body) trace_asksAnew
            (clear.holds body) call there covers)
      | rule _ compiled' mem => exact filed compiled' (.inl ⟨_, mem, rfl⟩)
      | later _ compiled' rest' => exact filed compiled' (.inr rest')

/-- A packet has what the places it comes by match. -/
theorem Passes.covers {by' : Place} (passes : Passes x place by') :
    Clear x place → place.match'.test x = true → by'.match'.test x = true := by
  induction passes with
  | here _ => exact fun _ known => known
  | later body compiled _ ih =>
      intro clear known
      exact ih (clear.next body compiled)
        (placeAt_covers x (test_after (a := Place.start _) known (clear.holds body)))

theorem Reaches.covers (reaches : Reaches x place final) :
    Clear x place → place.match'.test x = true → final.match'.test x = true := by
  induction reaches with
  | plain _ => exact fun _ known => known
  | returned body compiled _ ih =>
      intro clear known
      exact ih (clear.next body compiled)
        (placeAt_covers x (test_after (a := Place.start _) known (clear.holds body)))

theorem Reaches.final_plain (reaches : Reaches x place final) : final.verdict.hasBody = false := by
  induction reaches with
  | plain plain => exact plain
  | returned _ _ _ ih => exact ih

end

end

end Drunos.Retic

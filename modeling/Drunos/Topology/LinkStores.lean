/-
# Drunos.Topology.LinkStores — whether the two stores of link discovery agree

The entries of `m_out_edges` should be of links that are still in `m_links`, each
link with exactly the entries of its two ends. A beacon clears the entries of its own
two ports only, and looks for an older link at the first port only; so the stores
come apart when a port is cabled anew. `storesAgree_iff` says exactly which events
they survive.
-/
import Drunos.Topology.LinkDiscovery
import Drunos.Theory.Run

namespace Drunos.Topology

open Drunos.Theory.Run

set_option autoImplicit false

namespace LinkDiscovery

/-- The two stores agree. -/
structure Consistent (s : LinkDiscovery) : Prop where
  /-- Entries are of links with the port as one of the ends. -/
  entries : ∀ p id, s.outEdges p = some id → ∃ n ∈ s.links, n.id = id ∧ n.link.hasEnd p
  /-- Links are referred to by the entries of their ends, and by no others. -/
  referred : ∀ n ∈ s.links, ∀ p, s.outEdges p = some n.id ↔ n.link.hasEnd p
  /-- No port belongs to two links. -/
  exclusive : ∀ n ∈ s.links, ∀ m ∈ s.links, ∀ p, n.link.hasEnd p → m.link.hasEnd p → n = m

variable {s : LinkDiscovery} {asserts : Bool} {ttl : Nat}

/-- Of different nodes it is enough to say which entries there are. -/
theorem consistent_iff (wf : s.WellFormed) :
    s.Consistent ↔
      ∀ p id, s.outEdges p = some id ↔ ∃ n ∈ s.links, n.id = id ∧ n.link.hasEnd p := by
  constructor
  · intro agree p id
    refine ⟨agree.entries p id, ?_⟩
    rintro ⟨n, mem, rfl, isEnd⟩
    exact (agree.referred n mem p).mpr isEnd
  · intro entry
    have referred : ∀ n ∈ s.links, ∀ p, s.outEdges p = some n.id ↔ n.link.hasEnd p := by
      intro n mem p
      rw [entry]
      constructor
      · rintro ⟨m, other, same, isEnd⟩
        exact wf.eq_of_id other mem same ▸ isEnd
      · exact fun isEnd => ⟨n, mem, rfl, isEnd⟩
    refine ⟨fun p id => (entry p id).mp, referred, fun n mem m other p here there => ?_⟩
    have same := (referred n mem p).mpr here
    rw [(referred m other p).mpr there] at same
    exact wf.eq_of_id mem other (Option.some.inj same).symm

theorem Consistent.initial : Consistent {} :=
  ⟨fun _ _ found => (nomatch found), fun _ mem => absurd mem List.not_mem_nil,
    fun _ mem => absurd mem List.not_mem_nil⟩

/-- Without an entry there is no link at the port. -/
theorem Consistent.no_link (agree : s.Consistent) {p : SwitchAndPort}
    (entry : s.outEdges p = none) {n : Node} (mem : n ∈ s.links) : ¬n.link.hasEnd p := by
  intro isEnd
  rw [(agree.referred n mem p).mpr isEnd] at entry
  cases entry

/-! ## The condition of each event -/

/-- A beacon is of two ports whose links it clears, or that have none; and no other
link expires at the same time as its link will. -/
def BeaconFits (source target : SwitchAndPort) (expiry : Nat) (s : LinkDiscovery) : Prop :=
  ∀ n ∈ s.links,
    (n.link.hasEnd source → ∀ p, n.link.hasEnd p → p = source ∨ p = target) ∧
    (n.link.hasEnd target → n.link.hasEnd source) ∧
    (n.link.validThrough = expiry → n.link.hasEnd source)

/-- Links that go down or expire have two different ends, and the timer has its
assertions. -/
def Undisturbed (asserts : Bool) (ttl : Nat) (s : LinkDiscovery) : LinkEvent → Prop
  | .beacon source target now =>
      s.BeaconFits (ordered source target).1 (ordered source target).2 (now + ttl)
  | .portDown port => ∀ n ∈ s.links, n.link.hasEnd port → n.link.source ≠ n.link.target
  | .timer now => ∀ n ∈ s.links, n.link.validThrough < now →
      asserts = true ∧ n.link.source ≠ n.link.target

/-! ## Beacons -/

/-- What a beacon does to stores that agree. -/
theorem handleBeacon_consistent (ttl : Nat) (wf : s.WellFormed) (agree : s.Consistent)
    (source target : SwitchAndPort) (now : Nat) :
    ∃ s' signals, s.handleBeacon ttl source target now = some (s', signals) ∧ s'.WellFormed ∧
      (∀ p, p ≠ source → p ≠ target → s'.outEdges p = s.outEdges p) ∧
      ∃ n ∈ s'.links, s'.outEdges source = some n.id ∧ s'.outEdges target = some n.id ∧
        ((n ∈ s.links ∧ ¬n.link.hasEnd source ∧ n.link.validThrough = now + ttl ∧
            ∀ m, m ∈ s'.links ↔ m ∈ s.links ∧ ¬m.link.hasEnd source) ∨
          (n = ⟨s.nextId, ⟨source, target, now + ttl⟩⟩ ∧
            (∀ m ∈ s.links, ¬m.link.hasEnd source → m.link.validThrough ≠ now + ttl) ∧
            ∀ m, m ∈ s'.links ↔ m = n ∨ m ∈ s.links ∧ ¬m.link.hasEnd source)) := by
  -- the older link goes, if there is one
  obtain ⟨older, isNew, removed, wfOlder, made, mem_older, edges⟩ :
      ∃ older isNew, s.removeOlder source target = some (older, isNew) ∧ older.WellFormed ∧
        older.nextId = s.nextId ∧
        (∀ m, m ∈ older.links ↔ m ∈ s.links ∧ ¬m.link.hasEnd source) ∧
        ∀ p, p ≠ source → p ≠ target → older.outEdges p = s.outEdges p := by
    rcases removeOlder_cases source target s with
      ⟨entry, result⟩ | ⟨n, mem, entry, result⟩ | ⟨id, entry, dead, -⟩
    · exact ⟨s, true, result, wf, rfl,
        fun m => ⟨fun mem => ⟨mem, agree.no_link entry mem⟩, And.left⟩, fun _ _ _ => rfl⟩
    · refine ⟨_, false, result, ((wf.erase _).eraseEdge _).eraseEdge _, rfl, fun m => ?_,
        fun p ne ne' => ?_⟩
      · show m ∈ (s.erase n.id).links ↔ _
        rw [mem_erase]
        refine and_congr_right fun other => not_congr ?_
        have isEnd := (agree.referred n mem source).mp entry
        constructor
        · exact fun same => wf.eq_of_id mem other same.symm ▸ isEnd
        · exact fun here => congrArg Node.id (agree.exclusive m other n mem source here isEnd)
      · rw [eraseEdge_outEdges, if_neg ne', eraseEdge_outEdges, if_neg ne]
        rfl
    · obtain ⟨n, mem, rfl, -⟩ := agree.entries source id entry
      rw [wf.node_of_mem mem] at dead
      cases dead
  refine ⟨older.insertNew ⟨source, target, now + ttl⟩, _, by rw [handleBeacon, removed]; rfl,
    wfOlder.insertNew _, ?_⟩
  obtain ⟨n, mem, entry, taken⟩ := insertNew_cases ⟨source, target, now + ttl⟩ older
  refine ⟨fun p ne ne' => ?_, n, mem, ?_, ?_, ?_⟩
  · rw [entry, if_neg (not_or.mpr ⟨ne, ne'⟩), edges p ne ne']
  · rw [entry, if_pos (.inl rfl)]
  · rw [entry, if_pos (.inr rfl)]
  · rcases taken with ⟨old, expiry, links⟩ | ⟨rfl, ne, perm⟩
    · exact .inl ⟨((mem_older n).mp old).1, ((mem_older n).mp old).2, expiry,
        fun m => by rw [links, mem_older]⟩
    · refine .inr ⟨by rw [made], fun m other away => ne m ((mem_older m).mpr ⟨other, away⟩),
        fun m => ?_⟩
      rw [perm.mem_iff, List.mem_cons, mem_older]

theorem handleBeacon_consistent_iff (ttl : Nat) (wf : s.WellFormed) (agree : s.Consistent)
    (source target : SwitchAndPort) (now : Nat) :
    (∃ s' signals, s.handleBeacon ttl source target now = some (s', signals) ∧ s'.WellFormed ∧
        (s'.Consistent ↔ s.BeaconFits source target (now + ttl))) := by
  obtain ⟨s', signals, result, wf', edges, n, mem, first, second, taken⟩ :=
    handleBeacon_consistent ttl wf agree source target now
  refine ⟨s', signals, result, wf', fun agree' m other => ⟨fun here p there => ?_,
    fun there => ?_, fun expiry => ?_⟩, fun fits => ?_⟩
  · -- the entry of a far end of the older link would dangle
    by_contra far
    obtain ⟨ne, ne'⟩ := not_or.mp far
    have dangling : s'.outEdges p = some m.id := by
      rw [edges p ne ne', (agree.referred m other p).mpr there]
    obtain ⟨k, live, same, -⟩ := agree'.entries p m.id dangling
    have kept : k ∈ s.links → ¬k.link.hasEnd source → False := by
      intro old away
      rw [wf.eq_of_id old other same] at away
      exact away here
    rcases taken with ⟨-, -, -, links⟩ | ⟨rfl, -, links⟩
    · exact kept ((links k).mp live).1 ((links k).mp live).2
    · rcases (links k).mp live with rfl | ⟨old, away⟩
      · exact absurd (wf.fresh m other) (by rw [← same]; exact lt_irrefl _)
      · exact kept old away
  · -- the link at the second port would lose its entry
    by_contra away
    have live : m ∈ s'.links := by
      rcases taken with ⟨-, -, -, links⟩ | ⟨-, -, links⟩
      · exact (links m).mpr ⟨other, away⟩
      · exact (links m).mpr (.inr ⟨other, away⟩)
    obtain rfl : n = m := agree'.exclusive n mem m live target
      ((agree'.referred n mem target).mp second) there
    exact away ((agree'.referred n live source).mp first)
  · -- a link of the same expiry time would get the entries
    by_contra away
    rcases taken with ⟨-, other', -, -⟩ | ⟨-, ne, -⟩
    · exact other' ((agree'.referred n mem source).mp first)
    · exact ne m other away expiry
  · rcases taken with ⟨old, away, expiry, -⟩ | ⟨isNew, -, links⟩
    · exact absurd ((fits n old).2.2 expiry) away
    · refine (consistent_iff wf').mpr fun p id => ?_
      by_cases own : p = source ∨ p = target
      · have entry : s'.outEdges p = some n.id := by rcases own with rfl | rfl <;> assumption
        rw [entry, Option.some.injEq]
        constructor
        · intro same
          refine ⟨n, mem, same, ?_⟩
          rw [isNew]
          exact own.imp Eq.symm Eq.symm
        · rintro ⟨m, live, rfl, isEnd⟩
          rcases (links m).mp live with rfl | ⟨other, away⟩
          · rfl
          · rcases own with rfl | rfl
            · exact absurd isEnd away
            · exact absurd ((fits m other).2.1 isEnd) away
      · obtain ⟨ne, ne'⟩ := not_or.mp own
        rw [edges p ne ne', (consistent_iff wf).mp agree]
        constructor
        · rintro ⟨m, other, same, isEnd⟩
          exact ⟨m, (links m).mpr (.inr ⟨other, fun here => own ((fits m other).1 here p isEnd)⟩),
            same, isEnd⟩
        · rintro ⟨m, live, same, isEnd⟩
          rcases (links m).mp live with rfl | ⟨other, -⟩
          · rw [isNew] at isEnd
            exact absurd (isEnd.imp Eq.symm Eq.symm) own
          · exact ⟨m, other, same, isEnd⟩

/-! ## Port downs -/

theorem clearLinkAt_consistent_iff (wf : s.WellFormed) (agree : s.Consistent)
    (port : SwitchAndPort) :
    (∃ s' signals, s.clearLinkAt asserts port = some (s', signals) ∧ s'.Consistent) ↔
      ∀ n ∈ s.links, n.link.hasEnd port → n.link.source ≠ n.link.target := by
  cases entry : s.outEdges port with
  | none =>
      refine ⟨fun _ n mem isEnd => absurd isEnd (agree.no_link entry mem), fun _ => ?_⟩
      exact ⟨s, [], by simp [clearLinkAt, entry], agree⟩
  | some id =>
      obtain ⟨n, mem, rfl, isEnd⟩ := agree.entries port id entry
      have other : (s.outEdges (otherEnd n.link port)).isSome = true := by
        rw [(agree.referred n mem _).mpr ((ends_of_end isEnd).mpr (.inr rfl))]
        rfl
      rw [clearLinkAt_cases asserts entry (wf.node_of_mem mem) isEnd]
      simp only [other, and_true, otherEnd_ne isEnd]
      constructor
      · rintro ⟨s', signals, result, -⟩ m live there
        rw [agree.exclusive m live n mem port there isEnd]
        intro same
        rw [if_neg (not_not.mpr same)] at result
        cases result
      · intro different
        rw [if_pos (different n mem isEnd)]
        refine ⟨_, _, rfl, (consistent_iff (((wf.erase _).eraseEdge _).eraseEdge _)).mpr ?_⟩
        intro p id
        rw [eraseEdge_outEdges, eraseEdge_outEdges]
        simp only [eraseEdge, mem_erase]
        by_cases own : n.link.hasEnd p
        · have gone : (if p = otherEnd n.link port then none
              else if p = port then none else (s.erase n.id).outEdges p) = none := by
            rcases (ends_of_end isEnd).mp own with rfl | rfl <;> simp
          rw [gone]
          constructor
          · rintro ⟨⟩
          · rintro ⟨m, ⟨live, ne⟩, -, there⟩
            exact absurd (congrArg Node.id (agree.exclusive m live n mem p there own)) ne
        · obtain ⟨ne, ne'⟩ := not_or.mp (mt (ends_of_end isEnd).mpr own)
          rw [if_neg ne', if_neg ne]
          refine ((consistent_iff wf).mp agree p id).trans (exists_congr fun m => ?_)
          constructor
          · rintro ⟨live, same, there⟩
            refine ⟨⟨live, fun isSame => own ?_⟩, same, there⟩
            rw [← wf.eq_of_id live mem isSame]
            exact there
          · rintro ⟨⟨live, -⟩, same, there⟩
            exact ⟨live, same, there⟩

/-! ## Timer ticks -/

/-- The timer's checks hold where the stores agree, unless a link has one end only. -/
theorem Consistent.timerEnds_iff (wf : s.WellFormed) (agree : s.Consistent) (asserts : Bool)
    (now : Nat) :
    TimerEnds asserts now s.links s ↔
      (asserts = true → ∀ n ∈ s.links, n.link.validThrough < now →
        n.link.source ≠ n.link.target) := by
  refine imp_congr_right fun _ => ?_
  have nodup : (s.links.filter fun n => n.link.validThrough < now).Nodup :=
    (List.Nodup.of_map _ wf.ids).filter _
  rw [expiredEnds, List.nodup_flatMap]
  constructor
  · rintro ⟨⟨ends, -⟩, -⟩ n mem expired same
    have both := ends n (List.mem_filter.mpr ⟨mem, by simpa using expired⟩)
    simp [same] at both
  · intro different
    refine ⟨⟨fun n mem => ?_, ?_⟩, fun p mem => ?_⟩
    · obtain ⟨mem, expired⟩ := List.mem_filter.mp mem
      simpa using different n mem (by simpa using expired)
    · refine nodup.pairwise_of_forall_ne fun n mem m live ne p here there => ?_
      simp only [List.mem_cons, List.not_mem_nil, or_false, ← DiscoveredLink.hasEnd_iff]
        at here there
      exact ne (agree.exclusive n (List.mem_filter.mp mem).1 m (List.mem_filter.mp live).1 p
        here there)
    · obtain ⟨n, mem, -, isEnd⟩ := mem_expiredEnds.mp mem
      rw [(agree.referred n mem p).mpr isEnd]
      rfl

theorem timerEvent_consistent_iff (wf : s.WellFormed) (agree : s.Consistent) (now : Nat) :
    (∃ s' signals, s.timerEvent asserts now = some (s', signals) ∧ s'.Consistent) ↔
      ∀ n ∈ s.links, n.link.validThrough < now →
        asserts = true ∧ n.link.source ≠ n.link.target := by
  obtain ⟨done, stuck⟩ := removeExpired_eq asserts now (s := s) wf.sorted
  constructor
  · rintro ⟨s', signals, result, agree'⟩ n mem expired
    have ends : TimerEnds asserts now s.links s := by
      by_contra no
      rw [timerEvent, stuck no] at result
      cases result
    obtain rfl : afterTimer asserts now s.links s = s' := by
      rw [timerEvent, done ends] at result
      exact (Prod.mk.inj (Option.some.inj result)).1
    have compiled : asserts = true := by
      by_contra off
      -- without assertions the entries of the link would stay
      have entry := (agree.referred n mem n.link.source).mpr (.inl rfl)
      obtain ⟨m, live, same, -⟩ := agree'.entries n.link.source n.id (by simpa [afterTimer, off])
      obtain ⟨live, valid⟩ := List.mem_filter.mp live
      rw [wf.eq_of_id live mem same] at valid
      simp [expired] at valid
    exact ⟨compiled, (agree.timerEnds_iff wf asserts now).mp ends compiled n mem expired⟩
  · intro all
    have ends := (agree.timerEnds_iff wf asserts now).mpr fun _ n mem expired =>
      (all n mem expired).2
    refine ⟨_, _, done ends, (consistent_iff (wf.afterTimer asserts now)).mpr fun p id => ?_⟩
    simp only [afterTimer, List.mem_filter, decide_not, Bool.not_eq_true', decide_eq_false_iff_not]
    by_cases here : p ∈ expiredEnds now s.links
    · obtain ⟨n, mem, expired, isEnd⟩ := mem_expiredEnds.mp here
      rw [if_pos ⟨(all n mem expired).1, here⟩]
      constructor
      · rintro ⟨⟩
      · rintro ⟨m, ⟨live, valid⟩, -, there⟩
        rw [agree.exclusive m live n mem p there isEnd] at valid
        exact absurd expired valid
    · rw [if_neg fun both => here both.2]
      refine ((consistent_iff wf).mp agree p id).trans (exists_congr fun m => ?_)
      constructor
      · rintro ⟨live, same, isEnd⟩
        exact ⟨⟨live, fun expired => here (mem_expiredEnds.mpr ⟨m, live, expired, isEnd⟩)⟩,
          same, isEnd⟩
      · rintro ⟨⟨live, -⟩, same, isEnd⟩
        exact ⟨live, same, isEnd⟩

/-! ## Whole runs -/

/-- Link discovery as it runs: after a step without a result there is no state. -/
def advance (asserts : Bool) (ttl : Nat) (s : Option LinkDiscovery) (e : LinkEvent) :
    Option LinkDiscovery :=
  s.bind fun s => (s.handle asserts ttl e).map Prod.fst

/-- The event is handled, no check fails, and the stores agree afterwards. -/
def StoresAgree (asserts : Bool) (ttl : Nat) (s : Option LinkDiscovery) (e : LinkEvent) : Prop :=
  ∃ s', advance asserts ttl s e = some s' ∧ s'.Consistent

theorem handle_consistent_iff (wf : s.WellFormed) (agree : s.Consistent) (e : LinkEvent) :
    (∃ s' signals, s.handle asserts ttl e = some (s', signals) ∧ s'.Consistent) ↔
      Undisturbed asserts ttl s e := by
  cases e with
  | beacon source target now =>
      obtain ⟨s', signals, result, -, iff⟩ := handleBeacon_consistent_iff ttl wf agree
        (ordered source target).1 (ordered source target).2 now
      simp only [handle, result, Option.some.injEq, Prod.mk.injEq]
      constructor
      · rintro ⟨_, _, ⟨rfl, rfl⟩, agree'⟩
        exact iff.mp agree'
      · exact fun fits => ⟨s', signals, ⟨rfl, rfl⟩, iff.mpr fits⟩
  | portDown port => exact clearLinkAt_consistent_iff wf agree port
  | timer now => exact timerEvent_consistent_iff wf agree now

theorem handle_wellFormed (wf : s.WellFormed) {e : LinkEvent} {s' : LinkDiscovery}
    {signals : List Signal} (result : s.handle asserts ttl e = some (s', signals)) :
    s'.WellFormed := by
  cases e with
  | beacon source target now =>
      rw [handle, handleBeacon] at result
      rcases removeOlder_cases (ordered source target).1 (ordered source target).2 s with
        ⟨-, older⟩ | ⟨n, -, -, older⟩ | ⟨-, -, -, older⟩
      · rw [older] at result
        cases result
        exact wf.insertNew _
      · rw [older] at result
        cases result
        exact (((wf.erase _).eraseEdge _).eraseEdge _).insertNew _
      · rw [older] at result
        cases result
  | portDown port =>
      rw [handle, clearLinkAt] at result
      split at result
      · cases result
        exact wf
      · split at result
        · cases result
        · split at result
          · cases result
          · simp only [Option.bind_eq_some_iff, Option.map_eq_some_iff] at result
            obtain ⟨first, one, second, two, same⟩ := result
            cases same
            exact ((wf.erase _).checkEraseEdge one).checkEraseEdge two
  | timer now =>
      obtain ⟨done, stuck⟩ := removeExpired_eq asserts now (s := s) wf.sorted
      rw [handle, timerEvent] at result
      by_cases ends : TimerEnds asserts now s.links s
      · rw [done ends] at result
        cases result
        exact wf.afterTimer asserts now
      · rw [stuck ends] at result
        cases result

/-- **The stores of link discovery agree along a run, and no check fails, exactly
when every event leaves no end of an older link behind.** -/
theorem storesAgree_iff (asserts : Bool) (ttl : Nat) (es : List LinkEvent) :
    Each (advance asserts ttl) (StoresAgree asserts ttl) (some {}) es ↔
      Each (advance asserts ttl) (fun s e => ∀ known, s = some known →
        Undisturbed asserts ttl known e) (some {}) es := by
  refine each_iff_of_invariant
    (I := fun s => ∃ known, s = some known ∧ known.WellFormed ∧ known.Consistent)
    ?_ ?_ ⟨{}, rfl, .initial, .initial⟩
  · rintro _ e ⟨s, rfl, wf, agree⟩
    simp only [StoresAgree, advance, Option.bind_some, Option.map_eq_some_iff, Option.some.injEq,
      forall_eq', ← handle_consistent_iff wf agree e]
    constructor
    · rintro ⟨_, ⟨⟨s', signals⟩, result, rfl⟩, agree'⟩
      exact ⟨s', signals, result, agree'⟩
    · rintro ⟨s', signals, result, agree'⟩
      exact ⟨s', ⟨(s', signals), result, rfl⟩, agree'⟩
  · rintro _ e ⟨s, rfl, wf, agree⟩ fits
    obtain ⟨s', signals, result, agree'⟩ := (handle_consistent_iff wf agree e).mpr (fits s rfl)
    exact ⟨s', by simp [advance, result], handle_wellFormed wf result, agree'⟩

/-- Port 1 of switch 1 is cabled to switch 2, then to switch 3. -/
def recabled : List LinkEvent :=
  [.beacon ⟨1, 1⟩ ⟨2, 1⟩ 0, .beacon ⟨1, 1⟩ ⟨3, 1⟩ 1]

/-- The entry of the old far end refers to the erased link. -/
theorem recabled_dangles :
    ¬Each (advance true 10) (StoresAgree true 10) (some {}) recabled := by
  rintro ⟨-, ⟨s', result, agree⟩, -⟩
  have state : s' = (advance true 10 (advance true 10 (some {}) (.beacon ⟨1, 1⟩ ⟨2, 1⟩ 0))
      (.beacon ⟨1, 1⟩ ⟨3, 1⟩ 1)).getD {} := by rw [result, Option.getD_some]
  obtain ⟨n, mem, same, -⟩ := agree.entries ⟨2, 1⟩ 0 (by rw [state]; decide)
  have only : ∀ n ∈ s'.links, n.id ≠ 0 := by rw [state]; decide
  exact only n mem same

end LinkDiscovery

end Drunos.Topology

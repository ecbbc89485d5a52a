/-
# Drunos.Topology.LinkSignals — whether the announcements mirror the known links

A listener that only replays `linkDiscovered` and `linkBroken` should always know
the links of `m_links`. A beacon announces its link when there was no entry at its
first port, and nothing otherwise; so a link that takes the place of a different one
comes without an announcement, and the old one goes without one. `mirrors_iff` says
exactly which events the mirror survives.
-/
import Drunos.Topology.LinkStores
import Mathlib.Data.Multiset.AddSub

namespace Drunos.Topology

open Drunos.Theory.Run

set_option autoImplicit false

/-- The links a listener knows, as pairs of ports. -/
abbrev KnownLinks := Multiset (SwitchAndPort × SwitchAndPort)

/-- A link is added when it is discovered and removed when it is broken; a link that
is not known cannot be removed. -/
def hear (known : Option KnownLinks) : Signal → Option KnownLinks
  | .linkDiscovered source target => known.map fun known => (source, target) ::ₘ known
  | .linkBroken source target =>
      known.bind fun known =>
        if (source, target) ∈ known then some (known.erase (source, target)) else none

def Node.ports (n : Node) : SwitchAndPort × SwitchAndPort := (n.link.source, n.link.target)

namespace LinkDiscovery

def portsOf (links : List Node) : KnownLinks := Multiset.ofList (links.map Node.ports)

/-- The links of `m_links`, as pairs of ports. -/
def ports (s : LinkDiscovery) : KnownLinks := portsOf s.links

/-- Link discovery and a listener to its signals. -/
structure Listened where
  discovery : Option LinkDiscovery
  known : Option KnownLinks

def Listened.initial : Listened := ⟨some {}, some 0⟩

def listen (asserts : Bool) (ttl : Nat) (w : Listened) (e : LinkEvent) : Listened :=
  match w.discovery.bind fun s => s.handle asserts ttl e with
  | some (s, signals) => ⟨some s, signals.foldl hear w.known⟩
  | none => ⟨none, w.known⟩

/-- After the event the listener knows the links of `m_links`, each once for each
time it is there and with the smaller port first. -/
def Mirrors (asserts : Bool) (ttl : Nat) (w : Listened) (e : LinkEvent) : Prop :=
  ∃ s, (listen asserts ttl w e).discovery = some s ∧
    (listen asserts ttl w e).known = some s.ports ∧
    ∀ n ∈ s.links, n.link.target.lt n.link.source = false

/-! ## The condition of each event -/

/-- The first port of a beacon has no entry, or the entry of the link it is of; and no
other link expires at the time its link will. -/
def Renews (source target : SwitchAndPort) (expiry : Nat) (s : LinkDiscovery) : Prop :=
  (∀ id, s.outEdges source = some id → ∃ n ∈ s.links, n.id = id ∧ n.ports = (source, target)) ∧
    ∀ m ∈ s.links, m.link.validThrough = expiry → s.outEdges source = some m.id

/-- A port has no entry, or the entry of a link between two different ports that both
have entries. -/
def Clears (port : SwitchAndPort) (s : LinkDiscovery) : Prop :=
  ∀ id, s.outEdges port = some id → ∃ n ∈ s.links, n.id = id ∧
    n.link.source ≠ n.link.target ∧ (s.outEdges (otherEnd n.link port)).isSome = true

def Replayable (asserts : Bool) (ttl : Nat) (s : LinkDiscovery) : LinkEvent → Prop
  | .beacon a b now => s.Renews (ordered a b).1 (ordered a b).2 (now + ttl)
  | .portDown port => s.Clears port
  | .timer now => TimerEnds asserts now s.links s

/-- What is kept of the stores as long as the mirror is: entries of erased links may
be left, but not of links elsewhere. -/
structure Loose (s : LinkDiscovery) : Prop where
  ends : ∀ p, ∀ n ∈ s.links, s.outEdges p = some n.id → n.link.hasEnd p
  ordered : ∀ n ∈ s.links, n.link.target.lt n.link.source = false

theorem Loose.initial : Loose {} :=
  ⟨fun _ _ mem => absurd mem List.not_mem_nil, fun _ mem => absurd mem List.not_mem_nil⟩

variable {s s' : LinkDiscovery} {asserts : Bool} {ttl : Nat}

/-- A step of which the listener keeps track exactly under the condition; then the
stores stay as they have to be. -/
def Follows (s : LinkDiscovery) (result : Option (LinkDiscovery × List Signal))
    (condition : Prop) : Prop :=
  ((∃ s' signals, result = some (s', signals) ∧
      signals.foldl hear (some s.ports) = some s'.ports) → condition) ∧
    (condition → ∃ s' signals, result = some (s', signals) ∧
      signals.foldl hear (some s.ports) = some s'.ports ∧ s'.Loose)

/-- Fewer links with fewer entries. -/
theorem Loose.of_subset (loose : s.Loose) (links : ∀ n ∈ s'.links, n ∈ s.links)
    (edges : ∀ p id, s'.outEdges p = some id → s.outEdges p = some id) : s'.Loose :=
  ⟨fun p n mem entry => loose.ends p n (links n mem) (edges p n.id entry),
    fun n mem => loose.ordered n (links n mem)⟩

/-- The links of `m_links` are the one erased and the rest. -/
theorem ports_erase (wf : s.WellFormed) {n : Node} (mem : n ∈ s.links) :
    s.ports = n.ports ::ₘ (s.erase n.id).ports := by
  have rest : s.links.erase n = (s.erase n.id).links := by
    rw [(List.Nodup.of_map _ wf.ids).erase_eq_filter n]
    refine List.filter_congr fun m other => ?_
    have same : m = n ↔ m.id = n.id := ⟨congrArg Node.id, wf.eq_of_id other mem⟩
    rw [Bool.eq_iff_iff]
    simp [same]
  rw [ports, ports, portsOf, portsOf, ← rest, Multiset.cons_coe, Multiset.coe_eq_coe]
  exact (List.perm_cons_erase mem).map Node.ports

@[simp] theorem ports_eraseEdge (s : LinkDiscovery) (p : SwitchAndPort) :
    (s.eraseEdge p).ports = s.ports := rfl

/-! ## Beacons -/

theorem ordered_lt (a b : SwitchAndPort) : (ordered a b).2.lt (ordered a b).1 = false := by
  unfold ordered
  by_cases swapped : b.lt a = true
  · rw [if_pos swapped]
    exact SwitchAndPort.lt_asymm swapped
  · rw [if_neg swapped]
    simpa using swapped

/-- The new link of a beacon is there afterwards, beside the links there were,
unless one of them expires at the same time. -/
theorem insertNew_ports (wf : s.WellFormed) (loose : s.Loose) (link : DiscoveredLink)
    (inOrder : link.target.lt link.source = false) :
    ((∀ m ∈ s.links, m.link.validThrough ≠ link.validThrough) →
        (s.insertNew link).ports = (link.source, link.target) ::ₘ s.ports ∧
          (s.insertNew link).Loose) ∧
      ((∃ m ∈ s.links, m.link.validThrough = link.validThrough) →
        (s.insertNew link).ports = s.ports) := by
  obtain ⟨n, mem, entry, taken⟩ := insertNew_cases link s
  rcases taken with ⟨old, expiry, links⟩ | ⟨rfl, ne, perm⟩
  · exact ⟨fun ne => absurd expiry (ne n old), fun _ => by rw [ports, links, ports]⟩
  · refine ⟨fun _ => ⟨?_, fun p m live found => ?_, fun m live => ?_⟩, ?_⟩
    · rw [ports, ports, portsOf, portsOf, Multiset.cons_coe, Multiset.coe_eq_coe]
      exact perm.map Node.ports
    · rw [entry] at found
      rcases List.mem_cons.mp (perm.mem_iff.mp live) with rfl | old
      · by_contra other
        rw [if_neg (mt DiscoveredLink.hasEnd_iff.mpr other)] at found
        exact absurd (wf.edges p _ found) (lt_irrefl _)
      · by_cases own : p = link.source ∨ p = link.target
        · rw [if_pos own] at found
          exact absurd (wf.fresh m old) (by rw [← Option.some.inj found]; exact lt_irrefl _)
        · rw [if_neg own] at found
          exact loose.ends p m old found
    · rcases List.mem_cons.mp (perm.mem_iff.mp live) with rfl | old
      · exact inOrder
      · exact loose.ordered m old
    · rintro ⟨m, old, expiry⟩
      exact absurd expiry (ne m old)

theorem handleBeacon_mirrors (wf : s.WellFormed) (loose : s.Loose) {source target : SwitchAndPort}
    (inOrder : target.lt source = false) (now : Nat) :
    Follows s (s.handleBeacon ttl source target now) (s.Renews source target (now + ttl)) := by
  unfold Follows Renews
  rcases removeOlder_cases source target s with
    ⟨entry, older⟩ | ⟨n, mem, entry, older⟩ | ⟨id, entry, dead, older⟩
  · -- a new link, announced
    obtain ⟨added, taken⟩ := insertNew_ports wf loose ⟨source, target, now + ttl⟩ inOrder
    simp only [handleBeacon, older, Option.map_some, entry, Option.some.injEq, Prod.mk.injEq]
    constructor
    · rintro ⟨_, _, ⟨rfl, rfl⟩, mirror⟩
      refine ⟨by rintro _ ⟨⟩, fun m live expiry => ?_⟩
      rw [taken ⟨m, live, expiry⟩] at mirror
      exact absurd (congrArg Multiset.card (Option.some.inj mirror)) (by simp)
    · rintro ⟨-, free⟩
      obtain ⟨same, loose'⟩ := added fun m live expiry =>
        absurd (free m live expiry) (by simp)
      exact ⟨_, _, ⟨rfl, rfl⟩, by simp [hear, same], loose'⟩
  · -- the link of the first port is replaced without a signal
    have wf' := ((wf.erase n.id).eraseEdge source).eraseEdge target
    have loose' : (((s.erase n.id).eraseEdge source).eraseEdge target).Loose :=
      loose.of_subset (fun m live => (mem_erase.mp live).1) fun p id found => by
        rw [eraseEdge_outEdges, eraseEdge_outEdges] at found
        split at found
        · cases found
        · split at found
          · cases found
          · exact found
    obtain ⟨added, taken⟩ := insertNew_ports wf' loose' ⟨source, target, now + ttl⟩ inOrder
    have before := ports_erase wf mem
    simp only [ports_eraseEdge] at added taken
    simp only [handleBeacon, older, Option.map_some, entry, Option.some.injEq, Prod.mk.injEq,
      Bool.false_eq_true, if_false, forall_eq']
    constructor
    · rintro ⟨_, _, ⟨rfl, rfl⟩, mirror⟩
      have mirror := Option.some.inj mirror
      have free : ∀ m ∈ (s.erase n.id).links, m.link.validThrough ≠ now + ttl := by
        intro m live expiry
        rw [taken ⟨m, live, expiry⟩, before] at mirror
        exact absurd (congrArg Multiset.card mirror) (by simp)
      refine ⟨⟨n, mem, rfl, ?_⟩, fun m live expiry => ?_⟩
      · rw [(added free).1, before] at mirror
        exact (Multiset.cons_inj_left _).mp mirror
      · by_contra other
        exact free m (mem_erase.mpr ⟨live, fun same => other same.symm⟩) expiry
    · rintro ⟨⟨m, live, same, renews⟩, free⟩
      obtain rfl := wf.eq_of_id live mem same
      obtain ⟨after, loose''⟩ := added fun k other expiry =>
        (mem_erase.mp other).2 (free k (mem_erase.mp other).1 expiry).symm
      exact ⟨_, _, ⟨rfl, rfl⟩, by rw [List.foldl_nil, after, before, renews], loose''⟩
  · -- the entry of the first port dangles
    simp only [handleBeacon, older, Option.map_none]
    constructor
    · rintro ⟨_, _, ⟨⟩, -⟩
    · rintro ⟨renews, -⟩
      obtain ⟨n, mem, rfl, -⟩ := renews id entry
      rw [wf.node_of_mem mem] at dead
      cases dead

/-! ## Port downs -/

/-- Removing the link of a port is announced with the smaller port first. -/
theorem broken_ports {n : Node} (inOrder : n.link.target.lt n.link.source = false)
    (different : n.link.source ≠ n.link.target) {port : SwitchAndPort} (isEnd : n.link.hasEnd port) :
    (if port.lt (otherEnd n.link port) then Signal.linkBroken port (otherEnd n.link port)
      else .linkBroken (otherEnd n.link port) port) =
      .linkBroken n.link.source n.link.target := by
  have less : n.link.source.lt n.link.target = true :=
    (SwitchAndPort.lt_total different).resolve_right (by simp [inOrder])
  rcases isEnd with rfl | rfl
  · simp [otherEnd, less]
  · simp [otherEnd, different, inOrder]

theorem clearLinkAt_mirrors (wf : s.WellFormed) (loose : s.Loose) (port : SwitchAndPort) :
    Follows s (s.clearLinkAt asserts port) (s.Clears port) := by
  unfold Follows Clears
  cases entry : s.outEdges port with
  | none =>
      constructor
      · rintro - _ ⟨⟩
      · exact fun _ => ⟨s, [], by simp [clearLinkAt, entry], rfl, loose⟩
  | some id =>
      cases found : s.node id with
      | none =>
          simp only [clearLinkAt, entry, found, Option.some.injEq, forall_eq']
          constructor
          · rintro ⟨_, _, ⟨⟩, -⟩
          · rintro ⟨n, mem, rfl, -⟩
            rw [wf.node_of_mem mem] at found
            cases found
      | some n =>
          obtain ⟨mem, rfl⟩ := node_some found
          have isEnd := loose.ends port n mem entry
          rw [clearLinkAt_cases asserts entry found isEnd]
          simp only [otherEnd_ne isEnd, Option.some.injEq, forall_eq']
          constructor
          · rintro ⟨s', signals, result, -⟩
            by_cases clears : n.link.source ≠ n.link.target ∧
                (s.outEdges (otherEnd n.link port)).isSome = true
            · exact ⟨n, mem, rfl, clears⟩
            · rw [if_neg clears] at result
              cases result
          · rintro ⟨m, live, same, clears⟩
            obtain rfl := wf.eq_of_id live mem same
            rw [if_pos clears, broken_ports (loose.ordered m mem) clears.1 isEnd]
            refine ⟨_, _, rfl, ?_, loose.of_subset (fun k other => (mem_erase.mp other).1) ?_⟩
            · simp only [List.foldl_cons, List.foldl_nil, hear, Option.bind_some, ports_eraseEdge,
                ports_erase wf mem]
              simp [Node.ports]
            · intro p id found
              rw [eraseEdge_outEdges, eraseEdge_outEdges] at found
              split at found
              · cases found
              · split at found
                · cases found
                · exact found

/-! ## Timer ticks -/

/-- Links that are announced broken are removed from what is known. -/
theorem hear_broken (rest : KnownLinks) : ∀ links : List Node,
    (links.map fun n => Signal.linkBroken n.link.source n.link.target).foldl hear
      (some (portsOf links + rest)) = some rest
  | [] => by simp [portsOf]
  | n :: links => by
      have first : hear (some (portsOf (n :: links) + rest))
          (.linkBroken n.link.source n.link.target) = some (portsOf links + rest) := by
        simp [hear, portsOf, Node.ports, ← Multiset.cons_coe]
      rw [List.map_cons, List.foldl_cons, first, hear_broken rest links]

theorem timerEvent_mirrors (wf : s.WellFormed) (loose : s.Loose) (now : Nat) :
    Follows s (s.timerEvent asserts now) (TimerEnds asserts now s.links s) := by
  obtain ⟨done, stuck⟩ := removeExpired_eq asserts now (s := s) wf.sorted
  constructor
  · rintro ⟨s', signals, result, -⟩
    by_contra no
    rw [timerEvent, stuck no] at result
    cases result
  · intro ends
    have both : s.ports = portsOf (s.links.filter fun n => n.link.validThrough < now) +
        portsOf (s.links.filter fun n => ¬n.link.validThrough < now) := by
      rw [ports, portsOf, portsOf, portsOf, Multiset.coe_add, Multiset.coe_eq_coe,
        ← List.map_append]
      have both := List.filter_append_perm (fun n : Node => n.link.validThrough < now) s.links
      simp only [decide_not]
      simpa only [List.map_append] using (both.map Node.ports).symm
    refine ⟨_, _, done ends, ?_, loose.of_subset (fun n mem => (List.mem_filter.mp mem).1) ?_⟩
    · rw [both, timerSignals, hear_broken]
      rfl
    · intro p id found
      simp only [afterTimer] at found
      split at found
      · cases found
      · exact found

/-! ## Whole runs -/

theorem handle_mirrors (wf : s.WellFormed) (loose : s.Loose) (e : LinkEvent) :
    Follows s (s.handle asserts ttl e) (Replayable asserts ttl s e) := by
  cases e with
  | beacon a b now => exact handleBeacon_mirrors wf loose (ordered_lt a b) now
  | portDown port => exact clearLinkAt_mirrors wf loose port
  | timer now => exact timerEvent_mirrors wf loose now

/-- What is known of both along a run that has been mirrored so far. -/
def Listened.Good (w : Listened) : Prop :=
  ∃ s, w.discovery = some s ∧ w.known = some s.ports ∧ s.WellFormed ∧ s.Loose

theorem Listened.Good.initial : Listened.initial.Good :=
  ⟨{}, rfl, rfl, .initial, .initial⟩

/-- **A listener that replays the announcements knows the links along a run, exactly
when every beacon renews the link at its first port and every link that goes has the
entries of its two ends.** -/
theorem mirrors_iff (asserts : Bool) (ttl : Nat) (es : List LinkEvent) :
    Each (listen asserts ttl) (Mirrors asserts ttl) .initial es ↔
      Each (listen asserts ttl) (fun w e => ∀ s, w.discovery = some s →
        Replayable asserts ttl s e) .initial es := by
  have kept : ∀ (w : Listened) (e : LinkEvent), w.Good →
      (∀ s, w.discovery = some s → Replayable asserts ttl s e) → (listen asserts ttl w e).Good := by
    rintro ⟨_, _⟩ e ⟨s, rfl, rfl, wf, loose⟩ fits
    obtain ⟨s', signals, result, mirror, loose'⟩ := (handle_mirrors wf loose e).2 (fits s rfl)
    exact ⟨s', by simp [listen, result], by simp [listen, result, mirror],
      handle_wellFormed wf result, loose'⟩
  refine each_iff_of_invariant (fun w e good => ⟨fun mirrors => ?_, fun fits => ?_⟩) kept .initial
  · obtain ⟨s, discovery, known, wf, loose⟩ := good
    obtain ⟨s', state, mirror, -⟩ := mirrors
    rw [discovery]
    rintro _ ⟨⟩
    refine (handle_mirrors wf loose e).1 ?_
    cases result : s.handle asserts ttl e with
    | none => simp [listen, discovery, result] at state
    | some r =>
        simp only [listen, discovery, Option.bind_some, result, Option.some.injEq, known]
          at state mirror
        exact ⟨r.1, r.2, rfl, by rw [mirror, state]⟩
  · obtain ⟨s', discovery, known, -, loose'⟩ := kept w e good fits
    exact ⟨s', discovery, known, loose'.ordered⟩

/-- The link that takes the place of the first one is never announced. -/
theorem recabled_silent :
    ¬Each (listen true 10) (Mirrors true 10) .initial recabled := by
  rintro ⟨-, ⟨s, state, known, -⟩, -⟩
  have same : s.ports = {(⟨1, 1⟩, ⟨3, 1⟩)} := by
    rw [← Option.some.inj state]
    decide
  rw [same] at known
  revert known
  decide

end LinkDiscovery

end Drunos.Topology

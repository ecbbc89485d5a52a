/-
# Drunos.Theory.SortedMap — maps that are kept as lists in the order of their keys

The iterators of an ordered map give its entries with rising keys, and assigning to a key
puts the entry where it belongs (`assign`). So a map is the list of its entries
(`Rising`), which `assign` keeps rising (`assign_rising`). Entries that are assigned in
their order are appended (`assign_append`), and so give the map back they are of
(`ofList_rising`).
-/
import Mathlib.Data.List.Basic

namespace Drunos.Theory.SortedMap

set_option autoImplicit false

variable {K V : Type*} [LT K] [DecidableLT K]

/-- The entries of the map with a value at the key. -/
def assign (key : K) (value : V) : List (K × V) → List (K × V)
  | [] => [(key, value)]
  | entry :: entries =>
      if key < entry.1 then (key, value) :: entry :: entries
      else if entry.1 < key then entry :: assign key value entries
      else (key, value) :: entries

/-- The map that the entries make, one assigned after the other. -/
def ofList (entries : List (K × V)) : List (K × V) :=
  entries.foldl (fun map entry => assign entry.1 entry.2 map) []

/-- The keys rise. -/
def Rising (map : List (K × V)) : Prop := map.Pairwise fun a b => a.1 < b.1

theorem assign_mem {key : K} {value : V} {map : List (K × V)} {entry : K × V}
    (mem : entry ∈ assign key value map) : entry = (key, value) ∨ entry ∈ map := by
  induction map with
  | nil => exact .inl (List.mem_singleton.mp mem)
  | cons first map ih =>
      rw [assign] at mem
      split at mem
      · exact (List.mem_cons.mp mem)
      · split at mem
        · rcases List.mem_cons.mp mem with rfl | later
          · exact .inr List.mem_cons_self
          · exact (ih later).imp_right (List.mem_cons_of_mem _)
        · exact (List.mem_cons.mp mem).imp_right (List.mem_cons_of_mem _)

/-- No entry of the map is new. -/
theorem ofList_mem {entries : List (K × V)} {entry : K × V} (mem : entry ∈ ofList entries) :
    entry ∈ entries := by
  have inside : ∀ entries map : List (K × V),
      entry ∈ entries.foldl (fun map entry => assign entry.1 entry.2 map) map → entry ∈ map ++ entries := by
    intro entries
    induction entries with
    | nil => simp
    | cons first entries ih =>
        intro map mem
        rcases List.mem_append.mp (ih _ mem) with assigned | later
        · rcases assign_mem assigned with rfl | old
          · simp
          · exact List.mem_append_left _ old
        · exact List.mem_append_right _ (List.mem_cons_of_mem _ later)
  exact inside entries [] mem

section

variable [LE K] [Std.IsLinearOrder K] [Std.LawfulOrderLT K]

omit [Std.IsLinearOrder K] in
/-- An entry above all others is appended. -/
theorem assign_append {key : K} (value : V) {map : List (K × V)}
    (last : ∀ entry ∈ map, entry.1 < key) : assign key value map = map ++ [(key, value)] := by
  induction map with
  | nil => rfl
  | cons first map ih =>
      obtain ⟨here, later⟩ := List.forall_mem_cons.mp last
      rw [assign, if_neg (Std.Asymm.asymm _ _ here), if_pos here, ih later, List.cons_append]

/-- Assigning keeps the keys rising. -/
theorem assign_rising {map : List (K × V)} (rising : Rising map) (key : K) (value : V) :
    Rising (assign key value map) := by
  induction map with
  | nil => exact List.pairwise_singleton _ _
  | cons first map ih =>
      obtain ⟨above, rest⟩ := List.pairwise_cons.mp rising
      rw [assign]
      split
      · rename_i before
        refine List.pairwise_cons.mpr ⟨List.forall_mem_cons.mpr ⟨before, fun entry mem => ?_⟩, rising⟩
        exact Std.lt_trans before (above entry mem)
      · split
        · rename_i after
          refine List.pairwise_cons.mpr ⟨fun entry mem => ?_, ih rest⟩
          rcases assign_mem mem with rfl | old
          · exact after
          · exact above entry old
        · rename_i notBefore notAfter
          have same : key = first.1 := Std.le_antisymm (Std.not_lt.mp notAfter) (Std.not_lt.mp notBefore)
          refine List.pairwise_cons.mpr ⟨fun entry mem => ?_, rest⟩
          exact same ▸ above entry mem

theorem foldl_assign_rising {entries map : List (K × V)} (rising : Rising map) :
    Rising (entries.foldl (fun map entry => assign entry.1 entry.2 map) map) := by
  induction entries generalizing map with
  | nil => exact rising
  | cons entry entries ih => exact ih (assign_rising rising entry.1 entry.2)

/-- The keys of every map rise. -/
theorem ofList_rising (entries : List (K × V)) : Rising (ofList entries) :=
  foldl_assign_rising .nil

omit [Std.IsLinearOrder K] in
theorem foldl_assign_append {map entries : List (K × V)} (rising : Rising (map ++ entries)) :
    entries.foldl (fun map entry => assign entry.1 entry.2 map) map = map ++ entries := by
  induction entries generalizing map with
  | nil => simp
  | cons entry entries ih =>
      have last : ∀ e ∈ map, e.1 < entry.1 := fun e mem =>
        (List.pairwise_append.mp rising).2.2 e mem entry List.mem_cons_self
      rw [List.foldl_cons, assign_append entry.2 last, ih (by simpa using rising)]
      simp

omit [Std.IsLinearOrder K] in
/-- **The entries of a map give the map.** -/
theorem ofList_of_rising {entries : List (K × V)} (rising : Rising entries) : ofList entries = entries :=
  foldl_assign_append (rising : Rising ([] ++ entries))

end

end Drunos.Theory.SortedMap

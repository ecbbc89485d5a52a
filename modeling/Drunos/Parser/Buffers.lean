/-
# Drunos.Parser.Buffers — a bit string in a buffer

`bits(n, buffer)` and `to_buffer` of `bits.hh`, bit by bit. Bit `i` of the number stands in byte
`i / 8` from the last of the `numBlocks n` bytes (`placeOf`). What is read is bit for bit what stands
there (`ofBuffer_bit`). What is written is the number with zeros above it, to whole bytes
(`toBuffer_bit`), so a number that is read back is the one that was written (`ofBuffer_toBuffer`), a
number that is read and written back is cut to its bits (`number_toBuffer_ofBuffer`), and bytes
outside are as they were (`toBuffer_of_not_mem`).
-/
import Drunos.Parser.PacketParser

namespace Drunos.Parser

set_option autoImplicit false

namespace Address

theorem shift_injective (a : Address) {i j : Int} (same : a.shift i = a.shift j) : i = j := by
  cases a <;> simpa [shift] using same

theorem shift_shift (a : Address) (i j : Int) : (a.shift i).shift j = a.shift (i + j) := by
  cases a <;> simp [shift, Int.add_assoc]

end Address

namespace Bits

/-- The byte with bit `i` of a number of `n` bits. -/
def placeOf (n : Nat) (buffer : Address) (i : Nat) : Address :=
  buffer.shift (numBlocks n - 1 - (i / 8 : Nat))

theorem numBlocks_bits (n : Nat) : n ≤ 8 * numBlocks n ∧ 8 * numBlocks n < n + 8 := by
  rw [numBlocks]
  split <;> omega

theorem div_lt_numBlocks {n i : Nat} (bound : i < n) : i / 8 < numBlocks n := by
  have size := numBlocks_bits n
  omega

/-! ## Reading -/

theorem ofBlocks_testBit (blocks : List Byte) : ∀ i,
    (ofBlocks blocks).testBit i = (blocks.getD (i / 8) 0).getLsbD (i % 8) := by
  induction blocks with
  | nil => simp [ofBlocks]
  | cons b rest ih =>
      intro i
      have split := Nat.testBit_two_pow_mul_add (ofBlocks rest) (b := b.toNat) (i := 8) b.isLt i
      rw [ofBlocks, Nat.add_comm]
      refine split.trans ?_
      split_ifs with low
      · rw [Nat.div_eq_of_lt low, Nat.mod_eq_of_lt low]
        rfl
      · have next : i / 8 = (i - 8) / 8 + 1 := by omega
        have same : i % 8 = (i - 8) % 8 := by omega
        rw [ih, next, same, List.getD_cons_succ]

theorem ofBuffer_bit {n : Nat} (m : Memory) (buffer : Address) {i : Nat} (bound : i < n) :
    (ofBuffer n m buffer).getLsbD i = (m (placeOf n buffer i)).getLsbD (i % 8) := by
  have inside : i / 8 < numBlocks n + 1 := Nat.lt_succ_of_lt (div_lt_numBlocks bound)
  have byte : ((readRange n buffer).map m).getD (i / 8) 0 = m (placeOf n buffer i) := by
    simp [readRange, placeOf, List.getD_eq_getElem?_getD, inside]
  rw [ofBuffer, BitVec.getLsbD_ofNat, ofBlocks_testBit, byte]
  simp [bound]

theorem placeOf_mem {n : Nat} (buffer : Address) {i : Nat} (bound : i < n) :
    placeOf n buffer i ∈ writeRange n buffer :=
  List.mem_map.mpr ⟨i / 8, List.mem_range.mpr (div_lt_numBlocks bound), rfl⟩

theorem ofBuffer_congr {n : Nat} {m m' : Memory} {buffer : Address}
    (agree : ∀ a ∈ writeRange n buffer, m a = m' a) : ofBuffer n m buffer = ofBuffer n m' buffer := by
  refine BitVec.eq_of_getLsbD_eq fun i bound => ?_
  rw [ofBuffer_bit _ _ bound, ofBuffer_bit _ _ bound, agree _ (placeOf_mem buffer bound)]

/-! ## Writing -/

theorem mem_writeRange {n : Nat} {buffer a : Address} :
    a ∈ writeRange n buffer ↔ ∃ k < numBlocks n, a = buffer.shift k := by
  simp only [writeRange, List.mem_map, List.mem_range]
  constructor
  · rintro ⟨k, bound, rfl⟩
    exact ⟨numBlocks n - 1 - k, by omega, by congr 1; omega⟩
  · rintro ⟨k, bound, rfl⟩
    exact ⟨numBlocks n - 1 - k, by omega, by congr 1; omega⟩

/-- Updates at different places. -/
theorem foldl_update {α β : Type} [DecidableEq α] (at_ : Nat → α) (value : Nat → β) {ks : List Nat}
    (distinct : ∀ j k, at_ j = at_ k → j = k) : ∀ m : α → β, ks.Nodup →
      (∀ k ∈ ks, (ks.foldl (fun m k => Function.update m (at_ k) (value k)) m) (at_ k) = value k) ∧
        ∀ a, (∀ k ∈ ks, a ≠ at_ k) →
          (ks.foldl (fun m k => Function.update m (at_ k) (value k)) m) a = m a := by
  induction ks with
  | nil => simp
  | cons k ks ih =>
      intro m nodup
      obtain ⟨new, nodup⟩ := List.nodup_cons.mp nodup
      obtain ⟨own, others⟩ := ih (Function.update m (at_ k) (value k)) nodup
      constructor
      · refine List.forall_mem_cons.mpr ⟨?_, own⟩
        rw [List.foldl_cons, others (at_ k) fun j mem same => new (distinct k j same ▸ mem)]
        simp
      · intro a other
        obtain ⟨ne, other⟩ := List.forall_mem_cons.mp other
        rw [List.foldl_cons, others a other]
        simp [ne]

section

variable {n : Nat} (v : BitVec n) (buffer : Address) (m : Memory)

theorem distinct_places (j k : Nat)
    (same : buffer.shift ((numBlocks n : Int) - 1 - j) = buffer.shift (numBlocks n - 1 - k)) : j = k := by
  have here := buffer.shift_injective same
  omega

theorem toBuffer_block {k : Nat} (bound : k < numBlocks n) :
    toBuffer v buffer m (buffer.shift (numBlocks n - 1 - k)) = v.extractLsb' (8 * k) 8 :=
  (foldl_update (fun k : Nat => buffer.shift (numBlocks n - 1 - k)) (fun k => v.extractLsb' (8 * k) 8)
    (distinct_places buffer) m List.nodup_range).1 k (List.mem_range.mpr bound)

/-- Bytes outside are as they were. -/
theorem toBuffer_of_not_mem {a : Address} (outside : a ∉ writeRange n buffer) :
    toBuffer v buffer m a = m a := by
  refine (foldl_update (fun k : Nat => buffer.shift (numBlocks n - 1 - k))
    (fun k => v.extractLsb' (8 * k) 8) (distinct_places buffer) m List.nodup_range).2 a fun k mem same => ?_
  exact outside (List.mem_map.mpr ⟨k, mem, same.symm⟩)

/-- Above the number there are zeros. -/
theorem toBuffer_bit {i : Nat} (bound : i / 8 < numBlocks n) :
    (toBuffer v buffer m (placeOf n buffer i)).getLsbD (i % 8) = v.getLsbD i := by
  have sum : 8 * (i / 8) + i % 8 = i := Nat.div_add_mod i 8
  rw [placeOf, toBuffer_block v buffer m bound, BitVec.getLsbD_extractLsb', sum]
  simp [Nat.mod_lt]

/-- What was written is read. -/
theorem ofBuffer_toBuffer : ofBuffer n (toBuffer v buffer m) buffer = v := by
  refine BitVec.eq_of_getLsbD_eq fun i bound => ?_
  rw [ofBuffer_bit _ _ bound, toBuffer_bit _ _ _ (div_lt_numBlocks bound)]

end

/-! ## Big-endian numbers -/

/-- The number in `k` bytes, the most significant one first. -/
def number (m : Memory) (buffer : Address) : Nat → Nat
  | 0 => 0
  | k + 1 => (m (buffer.shift k)).toNat + 256 * number m buffer k

theorem number_testBit (m : Memory) (buffer : Address) {i : Nat} : ∀ k : Nat, i / 8 < k →
    (number m buffer k).testBit i = (m (buffer.shift (k - 1 - (i / 8 : Nat)))).getLsbD (i % 8) := by
  intro k
  induction k generalizing i with
  | zero => simp
  | succ k ih =>
      intro bound
      rw [number, Nat.add_comm]
      refine (Nat.testBit_two_pow_mul_add (number m buffer k) (i := 8) (BitVec.isLt _) i).trans ?_
      split_ifs with low
      · rw [Nat.div_eq_of_lt low, Nat.mod_eq_of_lt low]
        simp [BitVec.getLsbD]
      · have place : (k : Int) - 1 - ((i - 8) / 8 : Nat) = (k + 1 : Nat) - 1 - (i / 8 : Nat) := by omega
        have same : (i - 8) % 8 = i % 8 := by omega
        rw [ih (by omega), place, same]

theorem number_lt (m : Memory) (buffer : Address) (k : Nat) : number m buffer k < 2 ^ (8 * k) := by
  induction k with
  | zero => simp [number]
  | succ k ih =>
      have byte := (m (buffer.shift k)).isLt
      have size : 2 ^ (8 * (k + 1)) = 256 * 2 ^ (8 * k) := by rw [Nat.mul_succ, Nat.pow_add]; omega
      rw [number]
      omega

/-- A number that is read and written, to here or elsewhere, is cut to its bits. -/
theorem number_toBuffer_ofBuffer (n : Nat) (m m' : Memory) (buffer to_ : Address) :
    number (toBuffer (ofBuffer n m buffer) to_ m') to_ (numBlocks n) =
      number m buffer (numBlocks n) % 2 ^ n := by
  have size := numBlocks_bits n
  refine Nat.eq_of_testBit_eq fun i => ?_
  rw [Nat.testBit_mod_two_pow]
  by_cases inside : i / 8 < numBlocks n
  · rw [number_testBit _ _ _ inside, ← placeOf, toBuffer_bit _ _ _ inside]
    by_cases bound : i < n
    · rw [ofBuffer_bit _ _ bound, number_testBit _ _ _ inside]
      simp [bound, placeOf]
    · simp [bound, BitVec.getLsbD_of_ge _ _ (Nat.le_of_not_lt bound)]
  · have above : 8 * numBlocks n ≤ i := by omega
    have far : 2 ^ (8 * numBlocks n) ≤ 2 ^ i := Nat.pow_le_pow_right (by decide) above
    rw [Nat.testBit_lt_two_pow ((number_lt _ _ _).trans_le far)]
    have wide : ¬ i < n := by omega
    simp [wide]

end Bits

end Drunos.Parser

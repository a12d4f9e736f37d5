import Mathlib.Data.Finset.Basic
import Mathlib.Data.List.Basic

/-!
# Bitset — sets of operation numbers in words of 64 bits

Bits 0–63 are in the first word, the next ones in the second, and so on.  An access outside the words
is a panic, here `none`.  `Holds b n L` says that `b` is the set `L` in a bitset made for `n` bits.
-/

namespace Lab6824.Porcupine

abbrev Bitset := List (BitVec 64)

def newBitset (bits : Nat) : Bitset :=
  let extra := if bits % 64 ≠ 0 then 1 else 0
  let chunks := bits / 64 + extra
  List.replicate chunks 0

def bitsetIndex (pos : Nat) : Nat × Nat :=
  (pos / 64, pos % 64)

namespace Bitset

def set (b : Bitset) (pos : Nat) : Option Bitset :=
  let (major, minor) := bitsetIndex pos
  b[major]?.map fun v ↦ List.set b major (v ||| (1#64 <<< minor))

def clear (b : Bitset) (pos : Nat) : Option Bitset :=
  let (major, minor) := bitsetIndex pos
  b[major]?.map fun v ↦ List.set b major (v &&& ~~~(1#64 <<< minor))

def popcnt (b : Bitset) : Nat :=
  b.foldl (fun total v ↦ total + v.cpop.toNat) 0

def hash (b : Bitset) : BitVec 64 :=
  b.foldl (fun hash v ↦ hash ^^^ v) (BitVec.ofNat 64 b.popcnt)

def equals (b b2 : Bitset) : Bool :=
  if b.length ≠ b2.length then false
  else (List.zip b b2).all fun (v, w) ↦ v == w

theorem equals_iff {b b2 : Bitset} : b.equals b2 = true ↔ b = b2 := by
  unfold equals
  induction b generalizing b2 with
  | nil => cases b2 <;> simp
  | cons v b ih =>
      cases b2 with
      | nil => simp
      | cons w b2 =>
          simp only [List.length_cons, ne_eq, Nat.add_right_cancel_iff, List.zip_cons_cons,
            List.all_cons, List.cons.injEq, ← ih]
          split <;> simp

/-! ## The set of a bitset -/

def bit (b : Bitset) (pos : Nat) : Bool :=
  (b.getD (bitsetIndex pos).1 0).getLsbD (bitsetIndex pos).2

theorem ext_bit {b b2 : Bitset} (hlength : b.length = b2.length)
    (hbit : ∀ pos, b.bit pos = b2.bit pos) : b = b2 := by
  apply List.ext_getElem hlength
  intro k hk hk2
  apply BitVec.eq_of_getLsbD_eq
  intro j hj
  have hpos := hbit (64 * k + j)
  have hmajor : (64 * k + j) / 64 = k := by omega
  have hminor : (64 * k + j) % 64 = j := by omega
  simpa [bit, bitsetIndex, hmajor, hminor, Nat.mod_eq_of_lt hj, hk, hk2] using hpos

/-- What the bits are after a write to the bit `i` of its word. -/
theorem bit_write {b : Bitset} {i : Nat} {v w : BitVec 64} {x : Bool} (hv : b[i / 64]? = some v)
    (hw : ∀ j < 64, w.getLsbD j = if j = i % 64 then x else v.getLsbD j) (pos : Nat) :
    bit (List.set b (i / 64) w) pos = if pos = i then x else b.bit pos := by
  obtain ⟨hlt, hget⟩ := List.getElem?_eq_some_iff.mp hv
  simp only [bit, bitsetIndex, List.getD_eq_getElem?_getD, List.getElem?_set]
  by_cases hmajor : i / 64 = pos / 64
  · rw [if_pos hmajor, ← hmajor, if_pos hlt, hv, Option.getD_some, Option.getD_some,
      hw _ (Nat.mod_lt pos (by decide))]
    have hsame : pos % 64 = i % 64 ↔ pos = i := by omega
    simp only [hsame]
  · have hne : pos ≠ i := fun heq ↦ hmajor (by rw [heq])
    rw [if_neg hmajor, if_neg hne]

theorem getLsbD_or_bit (v : BitVec 64) {j m : Nat} (hj : j < 64) :
    (v ||| (1#64 <<< m)).getLsbD j = if j = m then true else v.getLsbD j := by
  rw [BitVec.getLsbD_or, BitVec.getLsbD_shiftLeft, BitVec.getLsbD_one]
  by_cases hjm : j = m
  · simp [hjm, hjm ▸ hj]
  · have hor : j < m ∨ j - m ≠ 0 := by omega
    rcases hor with hlt | hne
    · simp [hjm, hlt]
    · simp [hjm, hne]

theorem getLsbD_andNot_bit (v : BitVec 64) {j m : Nat} (hj : j < 64) :
    (v &&& ~~~(1#64 <<< m)).getLsbD j = if j = m then false else v.getLsbD j := by
  rw [BitVec.getLsbD_and, BitVec.getLsbD_not, BitVec.getLsbD_shiftLeft, BitVec.getLsbD_one]
  by_cases hjm : j = m
  · simp [hjm, hjm ▸ hj]
  · have hor : j < m ∨ j - m ≠ 0 := by omega
    rcases hor with hlt | hne
    · simp [hjm, hlt, hj]
    · simp [hjm, hne, hj]

/-- The bitset `b` was made for `n` bits and has the members of `L`. -/
structure Holds (b : Bitset) (n : Nat) (L : Finset Nat) : Prop where
  length : b.length = (newBitset n).length
  bit : ∀ pos, b.bit pos = decide (pos ∈ L)

namespace Holds

variable {b b2 : Bitset} {n i : Nat} {L L2 : Finset Nat}

theorem newBitset (n : Nat) : Holds (newBitset n) n ∅ where
  length := rfl
  bit pos := by
    simp only [Bitset.bit, Porcupine.newBitset, List.getD_eq_getElem?_getD, List.getElem?_replicate,
      Finset.notMem_empty, decide_false]
    generalize n / 64 + _ = chunks
    split <;> exact BitVec.getLsbD_zero

/-- A number below `n` has its word. -/
theorem exists_word (h : Holds b n L) (hi : i < n) : ∃ v, b[i / 64]? = some v := by
  have hlt : i / 64 < b.length := by
    rw [h.length, Porcupine.newBitset, List.length_replicate]
    split <;> omega
  exact ⟨_, List.getElem?_eq_getElem hlt⟩

theorem eq_iff (h : Holds b n L) (h2 : Holds b2 n L2) : b = b2 ↔ L = L2 := by
  constructor
  · rintro rfl
    ext pos
    have hpos := (h.bit pos).symm.trans (h2.bit pos)
    simpa using hpos
  · rintro rfl
    apply ext_bit (h.length.trans h2.length.symm)
    intro pos
    rw [h.bit, h2.bit]

theorem set (h : Holds b n L) (hi : i < n) :
    ∃ b', b.set i = some b' ∧ Holds b' n (insert i L) := by
  obtain ⟨v, hv⟩ := h.exists_word hi
  refine ⟨List.set b (i / 64) (v ||| (1#64 <<< (i % 64))), ?_, ?_, fun pos ↦ ?_⟩
  · simp [Bitset.set, bitsetIndex, hv]
  · rw [List.length_set]
    exact h.length
  · rw [bit_write hv fun j hj ↦ getLsbD_or_bit _ hj, h.bit]
    by_cases hpos : pos = i <;> simp [hpos]

theorem clear (h : Holds b n L) (hi : i < n) :
    ∃ b', b.clear i = some b' ∧ Holds b' n (L.erase i) := by
  obtain ⟨v, hv⟩ := h.exists_word hi
  refine ⟨List.set b (i / 64) (v &&& ~~~(1#64 <<< (i % 64))), ?_, ?_, fun pos ↦ ?_⟩
  · simp [Bitset.clear, bitsetIndex, hv]
  · rw [List.length_set]
    exact h.length
  · rw [bit_write hv fun j hj ↦ getLsbD_andNot_bit _ hj, h.bit]
    by_cases hpos : pos = i <;> simp [hpos]

end Holds

end Bitset

end Lab6824.Porcupine

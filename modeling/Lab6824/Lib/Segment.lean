import Lab6824.Lib.Replication

/-!
# Segment — parts of logs

A log whose beginning has been compacted, or the entries that a message carries, are consecutive
entries together with the term of the entry before them.  Two segments agree if an index and a term
determine an entry and everything below it as far as both have it.  `Derived` lists what can be made
of given segments by cutting and merging; what is made agrees with whatever they agree with.
-/

namespace Lab6824.Lib

open Termed (term)

/-- Entries from the one after index `base` on; of the entry at `base` only the term is known. -/
structure Segment (E : Type*) where
  base : Int
  baseTerm : Int
  entries : List E

namespace Segment

variable {E : Type*} [Termed E] {A B K R : Segment E} {i j k x : Int} {e : E}

/-- The index of the last entry, `base` if there is none. -/
def last (A : Segment E) : Int :=
  A.base + A.entries.length

def entryAt (A : Segment E) (i : Int) : Option E :=
  if A.base < i then A.entries[(i - A.base - 1).toNat]? else none

/-- The term at an index, which is also known at `base`. -/
def termAt (A : Segment E) (i : Int) : Option Int :=
  if i = A.base then some A.baseTerm else (A.entryAt i).map term

/-! ## Where a segment has entries -/

omit [Termed E] in
theorem entryAt_of_lt (h : A.base < i) : A.entryAt i = A.entries[(i - A.base - 1).toNat]? :=
  if_pos h

omit [Termed E] in
theorem entryAt_add (A : Segment E) (j : Nat) : A.entryAt (A.base + 1 + j) = A.entries[j]? := by
  rw [entryAt_of_lt (by omega), show (A.base + 1 + j - A.base - 1).toNat = j by omega]

omit [Termed E] in
theorem range_of_entryAt (h : A.entryAt i = some e) : A.base < i ∧ i ≤ A.last := by
  unfold entryAt at h
  split at h
  · have hlt := (List.getElem?_eq_some_iff.mp h).1
    unfold last
    omega
  · cases h

omit [Termed E] in
theorem exists_entryAt (hlo : A.base < i) (hhi : i ≤ A.last) : ∃ e, A.entryAt i = some e := by
  have hlt : (i - A.base - 1).toNat < A.entries.length := by
    unfold last at hhi
    omega
  exact ⟨A.entries[(i - A.base - 1).toNat], by rw [entryAt_of_lt hlo, List.getElem?_eq_getElem hlt]⟩

theorem termAt_base (A : Segment E) : A.termAt A.base = some A.baseTerm :=
  if_pos rfl

theorem termAt_of_ne (h : i ≠ A.base) : A.termAt i = (A.entryAt i).map term :=
  if_neg h

theorem termAt_of_entryAt (h : A.entryAt i = some e) : A.termAt i = some (term e) := by
  have hlt := (range_of_entryAt h).1
  rw [termAt_of_ne (by omega), h]
  rfl

theorem entryAt_of_termAt (h : A.termAt i = some x) (hlt : A.base < i) :
    ∃ e, A.entryAt i = some e ∧ term e = x := by
  rw [termAt_of_ne (by omega)] at h
  exact Option.map_eq_some_iff.mp h

theorem range_of_termAt (h : A.termAt i = some x) : A.base ≤ i ∧ i ≤ A.last := by
  by_cases hbase : i = A.base
  · unfold last
    omega
  · rw [termAt_of_ne hbase] at h
    obtain ⟨e, he, _⟩ := Option.map_eq_some_iff.mp h
    have hrange := range_of_entryAt he
    omega

theorem exists_termAt (hlo : A.base ≤ i) (hhi : i ≤ A.last) : ∃ x, A.termAt i = some x := by
  by_cases hbase : i = A.base
  · exact ⟨A.baseTerm, hbase ▸ A.termAt_base⟩
  · obtain ⟨e, he⟩ := exists_entryAt (A := A) (i := i) (by omega) hhi
    exact ⟨term e, termAt_of_entryAt he⟩

/-! ## Parts -/

/-- All that `A` knows stands in `B`. -/
structure Part (A B : Segment E) : Prop where
  base : B.termAt A.base = some A.baseTerm
  entry : ∀ i e, A.entryAt i = some e → B.entryAt i = some e

theorem Part.refl (A : Segment E) : Part A A :=
  ⟨A.termAt_base, fun _ _ h ↦ h⟩

theorem Part.termAt (h : Part A B) (hx : A.termAt i = some x) : B.termAt i = some x := by
  by_cases hbase : i = A.base
  · subst hbase
    rw [A.termAt_base] at hx
    rw [← hx]
    exact h.base
  · rw [termAt_of_ne hbase] at hx
    obtain ⟨e, he, rfl⟩ := Option.map_eq_some_iff.mp hx
    exact termAt_of_entryAt (h.entry i e he)

theorem Part.trans (h : Part A B) (h' : Part B K) : Part A K :=
  ⟨h'.termAt h.base, fun i e he ↦ h'.entry i e (h.entry i e he)⟩

theorem Part.last_le (h : Part A B) : A.last ≤ B.last := by
  obtain ⟨x, hx⟩ := exists_termAt (A := A) (i := A.last) (by unfold last; omega) (le_refl _)
  exact (range_of_termAt (h.termAt hx)).2

/-! ## Agreement -/

/-- An index and a term determine the entry, and the terms below it as far as both have them. -/
structure Agree (A B : Segment E) : Prop where
  entry : ∀ i e e', A.entryAt i = some e → B.entryAt i = some e' → term e = term e' → e = e'
  below : ∀ i e e', A.entryAt i = some e → B.entryAt i = some e' → term e = term e' →
    ∀ j ≤ i, ∀ x y, A.termAt j = some x → B.termAt j = some y → x = y

theorem Agree.refl (A : Segment E) : Agree A A where
  entry := fun _ _ _ he he' _ ↦ Option.some.inj (he.symm.trans he')
  below := fun _ _ _ _ _ _ _ _ _ _ hx hy ↦ Option.some.inj (hx.symm.trans hy)

theorem Agree.symm (h : Agree A B) : Agree B A where
  entry := fun i e e' he he' ht ↦ (h.entry i e' e he' he ht.symm).symm
  below := fun i e e' he he' ht j hj x y hx hy ↦ (h.below i e' e he' he ht.symm j hj y x hy hx).symm

theorem Agree.part (h : Agree B K) (hpart : Part A B) : Agree A K where
  entry := fun i e e' he he' ht ↦ h.entry i e e' (hpart.entry i e he) he' ht
  below := fun i e e' he he' ht j hj x y hx hy ↦
    h.below i e e' (hpart.entry i e he) he' ht j hj x y (hpart.termAt hx) hy

/-- A segment without entries agrees with every other. -/
theorem Agree.of_nil (h : A.entries = []) : Agree A B := by
  have hno : ∀ i e, A.entryAt i ≠ some e := by
    intro i e he
    have hrange := range_of_entryAt he
    unfold last at hrange
    rw [h, List.length_nil] at hrange
    omega
  exact ⟨fun i e _ he ↦ absurd he (hno i e), fun i e _ he ↦ absurd he (hno i e)⟩

/-- Where two segments that agree have the same term, they have the same entries below. -/
theorem Agree.entry_eq (h : Agree A B) (hx : A.termAt k = some x) (hx' : B.termAt k = some x)
    (hj : j ≤ k) {a b : E} (ha : A.entryAt j = some a) (hb : B.entryAt j = some b) : a = b := by
  have hja := (range_of_entryAt ha).1
  have hjb := (range_of_entryAt hb).1
  obtain ⟨e, he, rfl⟩ := entryAt_of_termAt hx (by omega)
  obtain ⟨e', he', hterm⟩ := entryAt_of_termAt hx' (by omega)
  have hbelow := h.below k e e' he he' hterm.symm j hj
  exact h.entry j a b ha hb (hbelow _ _ (termAt_of_entryAt ha) (termAt_of_entryAt hb))

/-! ## One more entry -/

def push (A : Segment E) (e : E) : Segment E :=
  { A with entries := A.entries ++ [e] }

omit [Termed E] in
@[simp] theorem last_push (A : Segment E) (e : E) : (A.push e).last = A.last + 1 := by
  unfold last push
  dsimp only
  rw [List.length_append, List.length_singleton]
  omega

omit [Termed E] in
theorem entryAt_push (A : Segment E) (e : E) (i : Int) :
    (A.push e).entryAt i = if i = A.last + 1 then some e else A.entryAt i := by
  unfold entryAt push last
  dsimp only
  by_cases hlt : A.base < i
  · rw [if_pos hlt, if_pos hlt]
    by_cases hi : i = A.base + A.entries.length + 1
    · rw [if_pos hi, show (i - A.base - 1).toNat = A.entries.length by omega,
        List.getElem?_concat_length]
    · rw [if_neg hi, List.getElem?_append]
      split
      · rfl
      · rw [List.getElem?_eq_none (by rw [List.length_singleton]; omega),
          List.getElem?_eq_none (by omega)]
  · rw [if_neg hlt, if_neg hlt, if_neg (by omega)]

theorem termAt_push (A : Segment E) (e : E) (i : Int) :
    (A.push e).termAt i = if i = A.last + 1 then some (term e) else A.termAt i := by
  unfold termAt
  rw [entryAt_push]
  show (if i = A.base then _ else _) = _
  by_cases hbase : i = A.base
  · have hne : i ≠ A.last + 1 := by
      unfold last
      omega
    rw [if_pos hbase, if_neg hne, if_pos hbase]
    rfl
  · rw [if_neg hbase, if_neg hbase]
    split <;> rfl

theorem Part.push (h : Part A B) : Part A (B.push e) := by
  have hle := h.last_le
  refine ⟨?_, fun i a ha ↦ ?_⟩
  · have hrange := range_of_termAt h.base
    rw [termAt_push, if_neg (by omega)]
    exact h.base
  · have hrange := range_of_entryAt ha
    rw [entryAt_push, if_neg (by omega)]
    exact h.entry i a ha

theorem Part.push_push (h : Part A B) (hlast : A.last = B.last) : Part (A.push e) (B.push e) := by
  refine ⟨h.push.base, fun i a ha ↦ ?_⟩
  rw [entryAt_push, hlast] at ha
  rw [entryAt_push]
  split at ha
  · rename_i hi
    rw [if_pos hi]
    exact ha
  · rename_i hi
    rw [if_neg hi]
    exact h.entry i a ha

/-- A new entry must not meet one of its term elsewhere. -/
theorem Agree.push (h : Agree A B) (hnew : ∀ e', B.entryAt (A.last + 1) = some e' → term e' ≠ term e) :
    Agree (A.push e) B := by
  have hold : ∀ i a b, (A.push e).entryAt i = some a → B.entryAt i = some b → term a = term b →
      A.entryAt i = some a := by
    intro i a b ha hb ht
    rw [entryAt_push] at ha
    split at ha
    · rename_i hi
      rw [hi] at hb
      rw [← Option.some.inj ha] at ht
      exact absurd ht.symm (hnew b hb)
    · exact ha
  refine ⟨fun i a b ha hb ht ↦ h.entry i a b (hold i a b ha hb ht) hb ht,
    fun i a b ha hb ht j hj x y hx hy ↦ ?_⟩
  have ha' := hold i a b ha hb ht
  have hrange := range_of_entryAt ha'
  rw [termAt_push, if_neg (by omega)] at hx
  exact h.below i a b ha' hb ht j hj x y hx hy

/-! ## Merging -/

/-- The entries of `R` replace what comes after the index that `R` starts from. -/
def splice (A R : Segment E) : Segment E :=
  { A with entries := A.entries.take (R.base - A.base).toNat ++ R.entries }

section Splice

variable (hlo : A.base ≤ R.base) (hhi : R.base ≤ A.last)
include hlo hhi

omit [Termed E] hlo in
theorem length_take_splice :
    (A.entries.take (R.base - A.base).toNat).length = (R.base - A.base).toNat := by
  unfold last at hhi
  rw [List.length_take]
  omega

omit [Termed E] in
theorem last_splice : (A.splice R).last = R.last := by
  have hlen := length_take_splice hhi
  unfold last splice
  dsimp only
  rw [List.length_append, hlen]
  omega

omit [Termed E] in
theorem entryAt_splice (i : Int) :
    (A.splice R).entryAt i = if i ≤ R.base then A.entryAt i else R.entryAt i := by
  have hlen := length_take_splice hhi
  unfold entryAt splice
  dsimp only
  by_cases hlt : A.base < i
  · rw [if_pos hlt, if_pos hlt, List.getElem?_append, hlen]
    by_cases hi : i ≤ R.base
    · rw [if_pos (by omega), if_pos hi, List.getElem?_take_of_lt (by omega)]
    · rw [if_neg (by omega), if_neg hi, if_pos (by omega)]
      congr 1
      omega
  · rw [if_neg hlt, if_neg hlt, if_pos (by omega)]

theorem termAt_splice (i : Int) :
    (A.splice R).termAt i = if i ≤ R.base then A.termAt i else R.termAt i := by
  unfold termAt
  rw [entryAt_splice hlo hhi]
  show (if i = A.base then _ else _) = _
  by_cases hi : i ≤ R.base
  · rw [if_pos hi, if_pos hi]
    rfl
  · rw [if_neg hi, if_neg hi, if_neg (by omega), if_neg (by omega)]

end Splice

/-- The merge ends as `R` does. -/
theorem termAt_last_splice (hterm : A.termAt R.base = some R.baseTerm) :
    (A.splice R).termAt R.last = R.termAt R.last := by
  obtain ⟨hlo, hhi⟩ := range_of_termAt hterm
  rw [termAt_splice hlo hhi]
  split
  · have hlast : R.last = R.base := by
      unfold last at *
      omega
    rw [hlast, hterm, R.termAt_base]
  · rfl

/-- A merge that starts from a term both have agrees with what both agree with. -/
theorem Agree.splice (hA : Agree A B) (hR : Agree R B) (hterm : A.termAt R.base = some R.baseTerm) :
    Agree (A.splice R) B := by
  obtain ⟨hlo, hhi⟩ := range_of_termAt hterm
  refine ⟨fun i a b ha hb ht ↦ ?_, fun i a b ha hb ht j hj x y hx hy ↦ ?_⟩
  · rw [entryAt_splice hlo hhi] at ha
    split at ha
    · exact hA.entry i a b ha hb ht
    · exact hR.entry i a b ha hb ht
  · rw [entryAt_splice hlo hhi] at ha
    rw [termAt_splice hlo hhi] at hx
    split at ha
    · rw [if_pos (by omega)] at hx
      exact hA.below i a b ha hb ht j hj x y hx hy
    · split at hx
      · -- `B` reaches across the seam, where `R` vouches for its term
        have hjB := (range_of_termAt hy).1
        have hiB := (range_of_entryAt hb).2
        obtain ⟨z, hz⟩ := exists_termAt (A := B) (i := R.base) (by omega) (by omega)
        have hseam : R.baseTerm = z := hR.below i a b ha hb ht R.base (by omega) _ _ R.termAt_base hz
        by_cases hjR : j = R.base
        · rw [hjR] at hx hy
          rw [hterm, hseam] at hx
          exact Option.some.inj (hx.symm.trans (hz.symm.trans hy))
        · have hjA := (range_of_termAt hx).1
          obtain ⟨a', ha', hta⟩ := entryAt_of_termAt hterm (by omega)
          obtain ⟨b', hb', htb⟩ := entryAt_of_termAt hz (by omega)
          exact hA.below R.base a' b' ha' hb' (hta.trans (hseam.trans htb.symm)) j (by omega)
            x y hx hy
      · exact hR.below i a b ha hb ht j hj x y hx hy

/-! ## What can be made of given segments -/

/-- `A` is made of segments that satisfy `P`. -/
inductive Derived (P : Segment E → Prop) : Segment E → Prop where
  | given {A : Segment E} (h : P A) : Derived P A
  | part {A B : Segment E} (h : Derived P B) (hpart : Part A B) : Derived P A
  | nil {A : Segment E} (h : A.entries = []) : Derived P A
  | splice {A R : Segment E} (hA : Derived P A) (hR : Derived P R)
      (hterm : A.termAt R.base = some R.baseTerm) : Derived P (A.splice R)

theorem Derived.agree {P : Segment E → Prop} (h : Derived P A) (hB : ∀ A, P A → Agree A B) :
    Agree A B := by
  induction h with
  | given hA => exact hB _ hA
  | part _ hpart ih => exact ih.part hpart
  | nil hnil => exact Agree.of_nil hnil
  | splice _ _ hterm ihA ihR => exact ihA.splice ihR hterm

/-- No entry is invented. -/
theorem Derived.exists_given {P : Segment E → Prop} (h : Derived P A) (he : A.entryAt i = some e) :
    ∃ B, P B ∧ B.entryAt i = some e := by
  induction h with
  | given hA => exact ⟨_, hA, he⟩
  | part _ hpart ih => exact ih (hpart.entry i e he)
  | nil hnil =>
      have hrange := range_of_entryAt he
      unfold last at hrange
      rw [hnil, List.length_nil] at hrange
      omega
  | splice _ _ hterm ihA ihR =>
      obtain ⟨hlo, hhi⟩ := range_of_termAt hterm
      rw [entryAt_splice hlo hhi] at he
      split at he
      · exact ihA he
      · exact ihR he

/-- What is made of segments that agree with one another agrees. -/
theorem Derived.agree_of_derived {P : Segment E → Prop} (hP : ∀ A B, P A → P B → Agree A B)
    (hA : Derived P A) (hB : Derived P B) : Agree A B :=
  hA.agree fun _ hA' ↦ (hB.agree fun _ hB' ↦ hP _ _ hB' hA').symm

/-! ## Equality up to an index -/

/-- Both reach index `k`, and up to there they have the same entries where both have one. -/
structure SameUpTo (A K : Segment E) (k : Int) : Prop where
  left : k ≤ A.last
  right : k ≤ K.last
  entry : ∀ j ≤ k, ∀ a b, A.entryAt j = some a → K.entryAt j = some b → a = b

namespace SameUpTo

theorem of_termAt (h : Agree A K) (hA : A.termAt k = some x) (hK : K.termAt k = some x) :
    SameUpTo A K k :=
  ⟨(range_of_termAt hA).2, (range_of_termAt hK).2, fun _ hj _ _ ha hb ↦ h.entry_eq hA hK hj ha hb⟩

theorem part (h : SameUpTo A K k) (hpart : Part B A) (hlast : B.last = A.last) : SameUpTo B K k :=
  ⟨hlast ▸ h.left, h.right, fun j hj a b ha hb ↦ h.entry j hj a b (hpart.entry j a ha) hb⟩

omit [Termed E] in
theorem push_left (h : SameUpTo A K k) : SameUpTo (A.push e) K k := by
  have hle := h.left
  refine ⟨by rw [last_push]; omega, h.right, fun j hj a b ha hb ↦ ?_⟩
  rw [entryAt_push, if_neg (by omega)] at ha
  exact h.entry j hj a b ha hb

omit [Termed E] in
theorem push_right (h : SameUpTo A K k) : SameUpTo A (K.push e) k := by
  have hle := h.right
  refine ⟨h.left, by rw [last_push]; omega, fun j hj a b ha hb ↦ ?_⟩
  rw [entryAt_push, if_neg (by omega)] at hb
  exact h.entry j hj a b ha hb

/-- A merge of a part of `K` that reaches `k`. -/
theorem splice (h : SameUpTo A K k) (hR : Part R K) (hterm : A.termAt R.base = some R.baseTerm)
    (hk : k ≤ R.last) : SameUpTo (A.splice R) K k := by
  obtain ⟨hlo, hhi⟩ := range_of_termAt hterm
  refine ⟨by rw [last_splice hlo hhi]; exact hk, h.right, fun j hj a b ha hb ↦ ?_⟩
  rw [entryAt_splice hlo hhi] at ha
  split at ha
  · exact h.entry j hj a b ha hb
  · exact Option.some.inj ((hR.entry j a ha).symm.trans hb)

end SameUpTo

end Segment

end Lab6824.Lib

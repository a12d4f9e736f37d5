import Lab6824.Lib.Loop
import Lab6824.Porcupine.Bitset
import Lab6824.Porcupine.Nodes

/-!
# Single — the check of one history

`checkSingle` searches for a linearization.  `entry` walks along the list of the calls and returns
that are not linearized yet; a call that the model allows is taken out of the list and the walk
starts anew, unless the same operations have led to the same state before.  At a return, the last
call is put back.  `Single` holds the local variables of the function; `kill` is read at the start of
each round of the loop.
-/

namespace Lab6824.Porcupine

open Lib (Progress)

structure CacheEntry (S : Type) where
  linearized : Bitset
  state : S

structure CallsEntry (S : Type) where
  entry : Ptr
  state : S

/-- A pointer to a list of operations: the address and what is there. -/
structure Seq where
  ref : Nat
  order : List Nat
  deriving DecidableEq

variable {V S : Type}

def cacheContains (model : FullModel V S) (cache : BitVec 64 → List (CacheEntry S))
    (entry : CacheEntry S) : Bool :=
  (cache entry.linearized.hash).any fun elem ↦
    entry.linearized.equals elem.linearized && model.equal entry.state elem.state

structure Single (V S : Type) where
  heap : Heap V
  entry : Option Ptr
  n : Nat
  linearized : Bitset
  /-- Map from hash to cache entries. -/
  cache : BitVec 64 → List (CacheEntry S)
  calls : List (CallsEntry S)
  /-- Longest linearizable sequence that includes the given operation. -/
  longest : List (Option Seq)
  state : S
  headEntry : Ptr
  /-- No variable `seq` has this address yet. -/
  seqs : Nat

inductive Outcome where
  | returned (ok : Bool) (longest : List (Option Seq))
  | panicked

namespace Single

def start (model : FullModel V S) (history : List (Entry V)) : Option (Single V S) := do
  let linked := makeLinkedEntries history
  let entry := linked.root
  let n := (← length linked.heap.links linked.heap.nodes.length entry) / 2
  let (heap, headEntry) := linked.heap.alloc { value := none, matching := none, id := -1 }
  some
    { heap := { heap with links := insertBefore heap.links headEntry entry }
      entry := entry
      n := n
      linearized := newBitset n
      cache := fun _ ↦ []
      calls := []
      longest := List.replicate n none
      state := model.init
      headEntry := headEntry
      seqs := 0 }

/-- The operations of the calls. -/
def seq (st : Single V S) : Option (List Nat) :=
  st.calls.mapM fun v ↦ st.heap.nodes[v.entry]?.map fun node ↦ node.id.toNat

/-- The update of one element of `longest` by a sequence. -/
def longer (seq : Seq) (old : Option Seq) : Option Seq :=
  match old with
  | none => some seq
  | some old => if seq.order.length > old.order.length then some seq else some old

def recordLongest (seq : Seq) (longest : List (Option Seq)) : Option (List (Option Seq)) :=
  seq.order.foldlM (fun longest id ↦ longest[id]?.map fun old ↦ longest.set id (longer seq old))
    longest

/-- The lists in `longest` when the calls lead no further. -/
def recorded (computePartial : Bool) (st : Single V S) : Option (List (Option Seq)) :=
  if computePartial then
    st.seq.bind fun seq ↦ recordLongest { ref := st.seqs, order := seq } st.longest
  else some st.longest

/-- A call that the model allows. -/
def take (model : FullModel V S) (st : Single V S) (entry : Ptr) (node : Node V) (newState : S) :
    Option (Single V S) := do
  let newLinearized ← st.linearized.set node.id.toNat
  let newCacheEntry : CacheEntry S := { linearized := newLinearized, state := newState }
  if !cacheContains model st.cache newCacheEntry then
    let hash := newLinearized.hash
    let linearized ← st.linearized.set node.id.toNat
    let heap ← lift st.heap entry
    some
      { st with
        cache := Function.update st.cache hash (st.cache hash ++ [newCacheEntry])
        calls := st.calls ++ [{ entry := entry, state := st.state }]
        state := newState
        linearized := linearized
        heap := heap
        entry := heap.links.next st.headEntry }
  else some { st with entry := st.heap.links.next entry }

/-- The last call is put back. -/
def back (computePartial : Bool) (st : Single V S) (callsTop : CallsEntry S) :
    Option (Single V S) := do
  let longest ← st.recorded computePartial
  let node ← st.heap.nodes[callsTop.entry]?
  let linearized ← st.linearized.clear node.id.toNat
  let heap ← unlift st.heap callsTop.entry
  some
    { st with
      longest := longest
      seqs := st.seqs + 1
      state := callsTop.state
      linearized := linearized
      calls := st.calls.dropLast
      heap := heap
      entry := heap.links.next callsTop.entry }

/-- What a round does when the checker is not killed. -/
def round (model : FullModel V S) (computePartial : Bool) (st : Single V S) :
    Option (Progress (Single V S) Outcome) := do
  let entry ← st.entry
  let node ← st.heap.nodes[entry]?
  match node.matching with
  | some m =>
    let matching ← st.heap.nodes[m]?
    let (ok, newState) ← model.step st.state (← node.value) (← matching.value)
    if ok then (st.take model entry node newState).map .going
    else some (.going { st with entry := st.heap.links.next entry })
  | none =>
    match st.calls.getLast? with
    | none => some (.done (.returned false st.longest))
    | some callsTop => (st.back computePartial callsTop).map .going

/-- One round of the loop, or its end. -/
def body (model : FullModel V S) (computePartial killed : Bool) (st : Single V S) :
    Progress (Single V S) Outcome :=
  match st.heap.links.next st.headEntry with
  | some _ =>
    if killed then .done (.returned false st.longest)
    else (st.round model computePartial).getD (.done .panicked)
  | none =>
    -- the longest linearization is the complete one
    match st.seq with
    | none => .done .panicked
    | some seq => .done (.returned true (List.replicate st.n (some { ref := st.seqs, order := seq })))

end Single

/-- `kill k` is what the round `k` of the loop reads. -/
def checkSingle (model : FullModel V S) (history : List (Entry V)) (computePartial : Bool)
    (kill : Nat → Bool) (fuel : Nat) : Progress (Single V S) Outcome :=
  match Single.start model history with
  | none => .done .panicked
  | some st => Lib.loop (fun k st ↦ st.body model computePartial (kill k)) fuel 0 st

/-! ## The longest sequences -/

/-- For each operation, `longest` has a sequence of maximal length among those of `ends` in which it
occurs. -/
structure LongestOf (n : Nat) (longest : List (Option Seq)) (ends : List (List Nat)) : Prop where
  length : longest.length = n
  none : ∀ i, longest[i]? = some none → ∀ order ∈ ends, i ∉ order
  some : ∀ i seq, longest[i]? = some (some seq) → seq.order ∈ ends ∧ i ∈ seq.order ∧
    ∀ order ∈ ends, i ∈ order → order.length ≤ seq.order.length

namespace Single

/-- The longer sequence stays; in case of doubt the old one. -/
theorem longer_cases (seq : Seq) (old : Option Seq) :
    longer seq old = some seq ∧ (∀ s, old = some s → s.order.length < seq.order.length) ∨
      ∃ s, old = some s ∧ longer seq old = some s ∧ seq.order.length ≤ s.order.length := by
  unfold longer
  cases old with
  | none => simp
  | some old =>
      by_cases h : seq.order.length > old.order.length
      · simp [h]
      · simp [h, Nat.not_lt.mp h]

theorem longer_longer (seq : Seq) (old : Option Seq) :
    longer seq (longer seq old) = longer seq old := by
  rcases longer_cases seq old with ⟨hnew, _⟩ | ⟨s, hs, hold, _⟩
  · rw [hnew]
    simp [longer]
  · rw [hold, ← hs, hold, hs]

theorem foldlM_longer (seq : Seq) (ids : List Nat) (longest : List (Option Seq))
    (hids : ∀ id ∈ ids, id < longest.length) :
    ∃ longest', ids.foldlM (fun longest id ↦
        longest[id]?.map fun old ↦ longest.set id (longer seq old)) longest = some longest' ∧
      longest'.length = longest.length ∧
      ∀ i, longest'[i]? = if i ∈ ids then longest[i]?.map (longer seq) else longest[i]? := by
  induction ids generalizing longest with
  | nil => exact ⟨longest, rfl, rfl, by simp⟩
  | cons id ids ih =>
      rw [List.forall_mem_cons] at hids
      have hget : longest[id]? = some longest[id] := List.getElem?_eq_getElem hids.1
      obtain ⟨longest', hfold, hlength, hall⟩ :=
        ih (longest.set id (longer seq longest[id])) (by simpa using hids.2)
      refine ⟨longest', ?_, by rw [hlength, List.length_set], fun i ↦ ?_⟩
      · rw [List.foldlM_cons, hget]
        exact hfold
      · rw [hall, List.getElem?_set]
        by_cases hi : id = i
        · subst hi
          simp [hids.1, longer_longer]
        · simp [hi, Ne.symm hi]

theorem LongestOf.record {n : Nat} {longest : List (Option Seq)} {ends : List (List Nat)}
    (h : LongestOf n longest ends) (seq : Seq) (hseq : ∀ i ∈ seq.order, i < n) :
    ∃ longest', recordLongest seq longest = some longest' ∧
      LongestOf n longest' (seq.order :: ends) := by
  obtain ⟨longest', hfold, hlength, hall⟩ :=
    foldlM_longer seq seq.order longest (by rw [h.length]; exact hseq)
  refine ⟨longest', hfold, hlength.trans h.length, ?_, ?_⟩
  · intro i hi order horder
    rw [hall] at hi
    split at hi
    · -- a recorded sequence is not nil
      obtain ⟨old, _, hlonger⟩ := Option.map_eq_some_iff.mp hi
      rcases longer_cases seq old with ⟨hnew, _⟩ | ⟨s, _, hold, _⟩
      · rw [hnew] at hlonger
        cases hlonger
      · rw [hold] at hlonger
        cases hlonger
    · rename_i hnot
      rcases List.mem_cons.mp horder with rfl | horder
      · exact hnot
      · exact h.none i hi order horder
  · intro i new hi
    rw [hall] at hi
    split at hi
    · rename_i hin
      obtain ⟨old, hget, hlonger⟩ := Option.map_eq_some_iff.mp hi
      rcases longer_cases seq old with ⟨hnew, hshort⟩ | ⟨s, rfl, hold, hle⟩
      · rw [hnew, Option.some.injEq] at hlonger
        subst hlonger
        refine ⟨List.mem_cons_self, hin, fun order horder hio ↦ ?_⟩
        rcases List.mem_cons.mp horder with rfl | horder
        · exact le_refl _
        · cases old with
          | none => exact absurd hio (h.none i hget order horder)
          | some s => exact ((h.some i s hget).2.2 order horder hio).trans (hshort s rfl).le
      · rw [hold, Option.some.injEq] at hlonger
        subst hlonger
        obtain ⟨hmem, hin', hmax⟩ := h.some i s hget
        refine ⟨List.mem_cons_of_mem _ hmem, hin', fun order horder hio ↦ ?_⟩
        rcases List.mem_cons.mp horder with rfl | horder
        · exact hle
        · exact hmax order horder hio
    · rename_i hnot
      obtain ⟨hmem, hin, hmax⟩ := h.some i new hi
      refine ⟨List.mem_cons_of_mem _ hmem, hin, fun order horder hio ↦ ?_⟩
      rcases List.mem_cons.mp horder with rfl | horder
      · exact absurd hio hnot
      · exact hmax order horder hio

end Single

end Lab6824.Porcupine

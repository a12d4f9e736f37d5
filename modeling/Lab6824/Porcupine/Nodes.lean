import Lab6824.Lib.Links
import Lab6824.Lib.Lists
import Lab6824.Porcupine.Entries

/-!
# Nodes — the entries as a doubly linked list

A node keeps its value, the number of its operation and, for a call, the node of its return for as
long as it lives; what changes is the links.  `lift` takes a call and its return out of the list and
`unlift` puts them back.  Following a nil pointer is a panic, here `none`.
-/

namespace Lab6824.Porcupine

open Lib (Links Mark)

abbrev Ptr := Nat

structure Node (V : Type) where
  value : Option V
  /-- A call if this is not nil, otherwise a return. -/
  matching : Option Ptr
  id : Int

structure Heap (V : Type) where
  nodes : List (Node V)
  links : Links Ptr

variable {V : Type}

namespace Heap

def empty : Heap V :=
  { nodes := [], links := { next := fun _ ↦ none, prev := fun _ ↦ none } }

/-- A new node, with nil links. -/
def alloc (h : Heap V) (n : Node V) : Heap V × Ptr :=
  let p := h.nodes.length
  ({ nodes := h.nodes ++ [n], links := (h.links.setNext p none).setPrev p none }, p)

end Heap

def insertBefore (l : Links Ptr) (n : Ptr) (mark : Option Ptr) : Links Ptr :=
  match mark with
  | none => l
  | some mark =>
    let beforeMark := l.prev mark
    let l := l.setPrev mark (some n)
    let l := l.setNext n (some mark)
    match beforeMark with
    | none => l
    | some beforeMark =>
      let l := l.setPrev n (some beforeMark)
      l.setNext beforeMark (some n)

/-- A list of more than `fuel` nodes is not counted to its end. -/
def length (l : Links Ptr) : Nat → Option Ptr → Option Nat
  | _, none => some 0
  | 0, some _ => none
  | fuel + 1, some n => (length l fuel (l.next n)).map (· + 1)

structure Linking (V : Type) where
  heap : Heap V
  root : Option Ptr
  /-- The map from operations to the nodes of their returns. -/
  returns : Nat → Option Ptr

/-- One round of the loop of `makeLinkedEntries`. -/
def linkEntry (elem : Entry V) (acc : Linking V) : Linking V :=
  match elem.kind with
  | .returnEntry =>
    let (heap, entry) := acc.heap.alloc { value := some elem.value, matching := none, id := elem.id }
    { heap := { heap with links := insertBefore heap.links entry acc.root }
      root := some entry
      returns := Function.update acc.returns elem.id (some entry) }
  | .callEntry =>
    let (heap, entry) := acc.heap.alloc
      { value := some elem.value, matching := acc.returns elem.id, id := elem.id }
    { acc with
      heap := { heap with links := insertBefore heap.links entry acc.root }
      root := some entry }

/-- The loop goes from the last entry to the first. -/
def makeLinkedEntries (entries : List (Entry V)) : Linking V :=
  entries.foldr linkEntry { heap := Heap.empty, root := none, returns := fun _ ↦ none }

def lift (h : Heap V) (entry : Ptr) : Option (Heap V) := do
  let l := h.links
  let l := l.setNext (← l.prev entry) (l.next entry)
  let l := l.setPrev (← l.next entry) (l.prev entry)
  let node ← h.nodes[entry]?
  let mtch ← node.matching
  let l := l.setNext (← l.prev mtch) (l.next mtch)
  let l := match l.next mtch with
    | none => l
    | some after => l.setPrev after (l.prev mtch)
  some { h with links := l }

def unlift (h : Heap V) (entry : Ptr) : Option (Heap V) := do
  let node ← h.nodes[entry]?
  let mtch ← node.matching
  let l := h.links
  let l := l.setNext (← l.prev mtch) (some mtch)
  let l := match l.next mtch with
    | none => l
    | some after => l.setPrev after (some mtch)
  let l := l.setNext (← l.prev entry) (some entry)
  let l := l.setPrev (← l.next entry) (some entry)
  some { h with links := l }

theorem length_of_chain {l : Links Ptr} {p : Ptr} {ps : List Ptr} (h : l.Chain p ps) {fuel : Nat}
    (hfuel : ps.length < fuel) : length l fuel (some p) = some (ps.length + 1) := by
  induction ps generalizing p fuel with
  | nil =>
      obtain ⟨fuel, rfl⟩ := Nat.exists_eq_add_one_of_ne_zero (Nat.ne_of_gt hfuel)
      rw [length, show l.next p = none from h]
      cases fuel <;> rfl
  | cons q ps ih =>
      obtain ⟨fuel, rfl⟩ := Nat.exists_eq_add_one_of_ne_zero (Nat.ne_zero_of_lt hfuel)
      rw [length, h.1, ih h.2.2 (by rw [List.length_cons] at hfuel; omega)]
      rfl

/-! ## Taking out and putting back -/

/-- For a node that another one follows, `lift` does what `unlink` does, first to the call and then
to the return. -/
theorem lift_eq {h : Heap V} {entry mtch : Ptr} {node : Node V} {l₁ l₂ : Links Ptr}
    (hnode : h.nodes[entry]? = some node) (hmatch : node.matching = some mtch)
    (hnext : h.links.next entry ≠ none) (h₁ : h.links.unlink entry = some l₁)
    (h₂ : l₁.unlink mtch = some l₂) : lift h entry = some { h with links := l₂ } := by
  obtain ⟨before, hbefore, h₁⟩ := Option.map_eq_some_iff.mp h₁
  obtain ⟨before', hbefore', h₂⟩ := Option.map_eq_some_iff.mp h₂
  obtain ⟨after, hafter⟩ := Option.ne_none_iff_exists'.mp hnext
  have hstay : (h.links.setNext before (some after)).next entry = some after := by
    by_cases heq : entry = before
    · rw [heq, Links.setNext_next_self]
    · rw [Links.setNext_next_of_ne _ _ heq, hafter]
  simp only [hafter, hstay] at h₁
  unfold lift
  simp only [hbefore, hafter, hstay, hnode, hmatch, h₁, hbefore', Option.bind_eq_bind,
    Option.bind_some]
  cases hlast : (l₁.setNext before' (l₁.next mtch)).next mtch <;>
    · simp only [hlast] at h₂
      simp only [h₂]

/-- And `unlift` relinks them in the other order. -/
theorem unlift_eq {h : Heap V} {entry mtch : Ptr} {node : Node V} {l₁ l₂ : Links Ptr}
    (hnode : h.nodes[entry]? = some node) (hmatch : node.matching = some mtch)
    (h₁ : h.links.relink mtch = some l₁) (hnext : l₁.next entry ≠ none)
    (h₂ : l₁.relink entry = some l₂) : unlift h entry = some { h with links := l₂ } := by
  obtain ⟨before, hbefore, h₁⟩ := Option.map_eq_some_iff.mp h₁
  obtain ⟨before', hbefore', h₂⟩ := Option.map_eq_some_iff.mp h₂
  have hnext' : (l₁.setNext before' (some entry)).next entry ≠ none := by
    by_cases heq : entry = before'
    · rw [heq, Links.setNext_next_self]
      exact Option.some_ne_none _
    · rwa [Links.setNext_next_of_ne _ _ heq]
  obtain ⟨after, hafter⟩ := Option.ne_none_iff_exists'.mp hnext'
  simp only [hafter] at h₂
  unfold unlift
  simp only [hnode, hmatch, hbefore, Option.bind_eq_bind, Option.bind_some]
  cases hlast : (h.links.setNext before (some mtch)).next mtch <;>
    · simp only [hlast] at h₁
      simp only [h₁, hbefore', hafter, h₂, Option.bind_some]

/-- The call `entry` and its return `mtch` leave the list, and come back to where they were. -/
theorem lift_spec {h : Heap V} {head entry mtch : Ptr} {node : Node V} {ps qs rs : List Ptr}
    (hnode : h.nodes[entry]? = some node) (hmatch : node.matching = some mtch)
    (hchain : h.links.Chain head (ps ++ entry :: (qs ++ mtch :: rs)))
    (hnodup : (head :: (ps ++ entry :: (qs ++ mtch :: rs))).Nodup) :
    ∃ h', lift h entry = some h' ∧ h'.nodes = h.nodes ∧
      h'.links.Chain head (ps ++ (qs ++ rs)) ∧ unlift h' entry = some h := by
  obtain ⟨l₁, hl₁, hchain₁, hstay, hback₁⟩ := hchain.unlink hnodup
  have hsub : (ps ++ (qs ++ mtch :: rs)).Sublist (ps ++ entry :: (qs ++ mtch :: rs)) :=
    (List.sublist_cons_self _ _).append_left ps
  rw [← List.append_assoc] at hchain₁
  obtain ⟨l₂, hl₂, hchain₂, _, hback₂⟩ := hchain₁.unlink (by
    rw [List.append_assoc]
    exact hnodup.sublist (hsub.cons_cons head))
  have hnext : h.links.next entry ≠ none := by
    rw [hchain.append_right.next_eq_head?]
    cases qs <;> simp
  refine ⟨{ h with links := l₂ }, lift_eq hnode hmatch hnext hl₁ hl₂, rfl, ?_, ?_⟩
  · rw [← List.append_assoc]
    exact hchain₂
  · have hnext₁ : l₁.next entry ≠ none := by
      rw [hstay]
      exact hnext
    show unlift { h with links := l₂ } entry = some { h with links := h.links }
    exact unlift_eq hnode hmatch hback₂ hnext₁ hback₁

/-! ## Building the list -/

/-- The nodes `ps` are a whole list. -/
def Listed (l : Links Ptr) : List Ptr → Prop
  | [] => True
  | p :: ps => l.Chain p ps ∧ l.prev p = none

/-- A new node before the first one. -/
theorem Listed.insertBefore {h : Heap V} {ps : List Ptr} (hlist : Listed h.links ps)
    (hnew : h.nodes.length ∉ ps) (hnodup : ps.Nodup) (n : Node V) :
    Listed (insertBefore (h.alloc n).1.links h.nodes.length ps.head?) (h.nodes.length :: ps) := by
  have hother : ∀ x ∈ ps, (h.alloc n).1.links.next x = h.links.next x ∧
      (h.alloc n).1.links.prev x = h.links.prev x := by
    intro x hx
    have hne : x ≠ h.nodes.length := fun heq ↦ hnew (heq ▸ hx)
    constructor
    · exact Links.setNext_next_of_ne _ _ hne
    · exact Links.setPrev_prev_of_ne _ _ hne
  cases ps with
  | nil =>
      constructor
      · exact Links.setNext_next_self _ _ _
      · exact Links.setPrev_prev_self _ _ _
  | cons r ps =>
      obtain ⟨hchain, hprev⟩ := hlist
      rw [← (hother r List.mem_cons_self).2] at hprev
      have hchain' : (h.alloc n).1.links.Chain r ps := hchain.congr (fun x hx ↦ (hother x hx).1)
        fun x hx ↦ (hother x (List.mem_cons_of_mem r hx)).2
      simp only [Porcupine.insertBefore, List.head?_cons, hprev]
      refine ⟨hchain'.cons hnew (List.nodup_cons.mp hnodup).1, ?_⟩
      rw [Links.setNext_prev, Links.setPrev_prev_of_ne]
      · exact Links.setPrev_prev_self _ _ _
      · exact fun heq ↦ hnew (heq ▸ List.mem_cons_self)

/-- The nodes that `makeLinkedEntries` makes for `n` entries, in the order of the entries. -/
def ptrs (n : Nat) : List Ptr :=
  (List.range n).reverse

@[simp] theorem ptrs_succ (n : Nat) : ptrs (n + 1) = n :: ptrs n := by
  simp [ptrs, List.range_succ]

@[simp] theorem mem_ptrs {n : Nat} {p : Ptr} : p ∈ ptrs n ↔ p < n := by
  simp [ptrs]

theorem nodup_ptrs (n : Nat) : (ptrs n).Nodup :=
  List.nodup_reverse.mpr List.nodup_range

/-- The entry for which the node `p` is made. -/
def entryAt (entries : List (Entry V)) (p : Ptr) : Option (Entry V) :=
  entries.reverse[p]?

theorem entryAt_cons (e : Entry V) (entries : List (Entry V)) (p : Nat) :
    entryAt (e :: entries) p = if p = entries.length then some e else entryAt entries p := by
  rw [entryAt, List.reverse_cons]
  by_cases hp : p = entries.length
  · simp [hp]
  · rw [if_neg hp, entryAt, List.getElem?_append]
    split
    · rfl
    · rename_i hge
      rw [List.length_reverse] at hge
      rw [List.getElem?_eq_none (by rw [List.length_singleton, List.length_reverse]; omega),
        List.getElem?_eq_none (by rw [List.length_reverse]; omega)]

theorem entryAt_length (e : Entry V) (entries : List (Entry V)) :
    entryAt (e :: entries) entries.length = some e := by
  rw [entryAt_cons, if_pos rfl]

theorem entryAt_lt {entries : List (Entry V)} {p : Ptr} {e : Entry V}
    (h : entryAt entries p = some e) : p < entries.length := by
  have hlt := (List.getElem?_eq_some_iff.mp h).1
  rwa [List.length_reverse] at hlt

theorem entryAt_mono {entries : List (Entry V)} {p : Ptr} {e : Entry V} (e' : Entry V)
    (h : entryAt entries p = some e) : entryAt (e' :: entries) p = some e := by
  rw [entryAt_cons, if_neg (entryAt_lt h).ne]
  exact h

/-- Every call has its return later in the list. -/
def Answered : List (Entry V) → Prop
  | [] => True
  | e :: entries =>
    (e.kind = .callEntry → ∃ r ∈ entries, r.mark = .ret e.id) ∧ Answered entries

/-- The node was made for the entry. -/
structure NodeFor (entries : List (Entry V)) (e : Entry V) (node : Node V) : Prop where
  value : node.value = some e.value
  id : node.id = e.id
  ret : e.kind = .returnEntry → node.matching = none
  call : e.kind = .callEntry →
    ∃ q r, node.matching = some q ∧ entryAt entries q = some r ∧ r.mark = .ret e.id

/-- What `makeLinkedEntries` has done for the entries. -/
structure Made (entries : List (Entry V)) (acc : Linking V) : Prop where
  length : acc.heap.nodes.length = entries.length
  node : ∀ p e, entryAt entries p = some e →
    ∃ node, acc.heap.nodes[p]? = some node ∧ NodeFor entries e node
  returns : ∀ i q, acc.returns i = some q → ∃ r, entryAt entries q = some r ∧ r.mark = .ret i
  found : ∀ r ∈ entries, ∀ i, r.mark = .ret i → acc.returns i ≠ none
  root : acc.root = (ptrs entries.length).head?
  listed : Listed acc.heap.links (ptrs entries.length)

theorem NodeFor.mono {entries : List (Entry V)} {e : Entry V} {node : Node V} (e' : Entry V)
    (h : NodeFor entries e node) : NodeFor (e' :: entries) e node where
  value := h.value
  id := h.id
  ret := h.ret
  call hkind := by
    obtain ⟨q, r, hmatch, hr, hmark⟩ := h.call hkind
    exact ⟨q, r, hmatch, entryAt_mono e' hr, hmark⟩

theorem Entry.mark_eq_ret {e : Entry V} {i : Nat} :
    e.mark = .ret i ↔ e.kind = .returnEntry ∧ e.id = i := by
  unfold Entry.mark
  split <;> simp [*]

theorem Entry.mark_eq_call {e : Entry V} {i : Nat} :
    e.mark = .call i ↔ e.kind = .callEntry ∧ e.id = i := by
  unfold Entry.mark
  split <;> simp [*]

section Link

variable {entries : List (Entry V)} {acc : Linking V} {e : Entry V}

/-- The nodes after one more entry. -/
theorem Made.node_cons (h : Made entries acc) {new : Node V} (hnew : NodeFor (e :: entries) e new)
    {p : Ptr} {e' : Entry V} (he' : entryAt (e :: entries) p = some e') :
    ∃ node, (acc.heap.nodes ++ [new])[p]? = some node ∧ NodeFor (e :: entries) e' node := by
  rw [entryAt_cons] at he'
  split at he'
  · rename_i hp
    cases he'
    refine ⟨new, ?_, hnew⟩
    rw [hp, ← h.length]
    simp
  · obtain ⟨node, hnode, hfor⟩ := h.node p e' he'
    exact ⟨node, Lib.getElem?_of_isPrefix (List.prefix_append _ _) hnode, hfor.mono e⟩

theorem Made.listed_succ (h : Made entries acc) (new : Node V) :
    Listed (insertBefore (acc.heap.alloc new).1.links acc.heap.nodes.length acc.root)
      (ptrs (entries.length + 1)) := by
  rw [ptrs_succ, h.root, ← h.length]
  apply Listed.insertBefore
  · rw [h.length]
    exact h.listed
  · simp
  · exact nodup_ptrs _

theorem Made.link (h : Made entries acc)
    (hans : e.kind = .callEntry → ∃ r ∈ entries, r.mark = .ret e.id) :
    Made (e :: entries) (linkEntry e acc) := by
  cases hkind : e.kind with
  | returnEntry =>
      unfold linkEntry
      rw [hkind]
      refine ⟨by simp [Heap.alloc, h.length], ?_, ?_, ?_, ?_, h.listed_succ _⟩
      · intro p e' he'
        apply h.node_cons _ he'
        exact ⟨rfl, rfl, fun _ ↦ rfl, fun hcall ↦ absurd (hkind.symm.trans hcall) (by simp)⟩
      · intro i q hq
        rcases Lib.update_eq_some hq with ⟨rfl, rfl⟩ | ⟨_, hq⟩
        · refine ⟨e, ?_, Entry.mark_eq_ret.mpr ⟨hkind, rfl⟩⟩
          show entryAt (e :: entries) acc.heap.nodes.length = some e
          rw [h.length, entryAt_length]
        · obtain ⟨r, hr, hmark⟩ := h.returns i q hq
          exact ⟨r, entryAt_mono e hr, hmark⟩
      · intro r hr i hmark
        show Function.update acc.returns e.id _ i ≠ none
        by_cases hi : i = e.id
        · rw [hi, Function.update_self]
          exact Option.some_ne_none _
        · rw [Function.update_of_ne hi]
          rcases List.mem_cons.mp hr with rfl | hr
          · exact absurd (Entry.mark_eq_ret.mp hmark).2.symm hi
          · exact h.found r hr i hmark
      · rw [List.length_cons, ptrs_succ, ← h.length]
        rfl
  | callEntry =>
      obtain ⟨r, hr, hmark⟩ := hans hkind
      obtain ⟨q, hq⟩ := Option.ne_none_iff_exists'.mp (h.found r hr e.id hmark)
      unfold linkEntry
      rw [hkind]
      refine ⟨by simp [Heap.alloc, h.length], ?_, ?_, ?_, ?_, h.listed_succ _⟩
      · intro p e' he'
        apply h.node_cons _ he'
        refine ⟨rfl, rfl, fun hret ↦ absurd (hkind.symm.trans hret) (by simp), fun _ ↦ ?_⟩
        obtain ⟨r', hr', hmark'⟩ := h.returns e.id q hq
        exact ⟨q, r', hq, entryAt_mono e hr', hmark'⟩
      · intro i q' hq'
        obtain ⟨r', hr', hmark'⟩ := h.returns i q' hq'
        exact ⟨r', entryAt_mono e hr', hmark'⟩
      · intro r' hr' i hmark'
        rcases List.mem_cons.mp hr' with rfl | hr'
        · rw [(Entry.mark_eq_ret.mp hmark').1] at hkind
          cases hkind
        · exact h.found r' hr' i hmark'
      · rw [List.length_cons, ptrs_succ, ← h.length]
        rfl

theorem makeLinkedEntries_made (hans : Answered entries) :
    Made entries (makeLinkedEntries entries) := by
  induction entries with
  | nil =>
      refine ⟨rfl, ?_, ?_, ?_, rfl, trivial⟩
      · intro p e he
        cases he
      · intro i q hq
        cases hq
      · intro r hr
        cases hr
  | cons e entries ih => exact (ih hans.2).link hans.1

end Link

/-! ## Marks of nodes -/

section Marks

variable {entries : List (Entry V)}

/-- The mark of the entry for which the node was made. -/
def markAt (entries : List (Entry V)) (p : Ptr) : Mark Nat :=
  (entryAt entries p).elim (.ret 0) Entry.mark

theorem markAt_of_entryAt {p : Ptr} {e : Entry V} (h : entryAt entries p = some e) :
    markAt entries p = e.mark := by
  rw [markAt, h]
  rfl

theorem exists_entryAt {p : Ptr} (h : p < entries.length) : ∃ e, entryAt entries p = some e :=
  ⟨_, List.getElem?_eq_getElem (by rwa [List.length_reverse])⟩

theorem mem_of_entryAt {p : Ptr} {e : Entry V} (h : entryAt entries p = some e) : e ∈ entries :=
  List.mem_reverse.mp (List.mem_of_getElem? h)

theorem map_markAt (entries : List (Entry V)) :
    (ptrs entries.length).map (markAt entries) = entries.map Entry.mark := by
  induction entries with
  | nil => rfl
  | cons e entries ih =>
      rw [List.length_cons, ptrs_succ, List.map_cons, List.map_cons, ← ih]
      rw [markAt_of_entryAt (entryAt_length e entries)]
      congr 1
      apply List.map_congr_left
      intro p hp
      rw [markAt, markAt, entryAt_cons, if_neg (mem_ptrs.mp hp).ne]

theorem markAt_injective (hnodup : (entries.map Entry.mark).Nodup) {p q : Ptr}
    (hp : p < entries.length) (hq : q < entries.length)
    (h : markAt entries p = markAt entries q) : p = q := by
  rw [← map_markAt] at hnodup
  exact List.inj_on_of_nodup_map hnodup (mem_ptrs.mpr hp) (mem_ptrs.mpr hq) h

/-- The nodes of the operations that are not in `L`. -/
def leftPtrs (entries : List (Entry V)) (L : Finset Nat) : List Ptr :=
  (ptrs entries.length).filter fun p ↦ (markAt entries p).id ∉ L

theorem map_leftPtrs (entries : List (Entry V)) (L : Finset Nat) :
    (leftPtrs entries L).map (markAt entries) = Lib.without (entries.map Entry.mark) L := by
  rw [leftPtrs, Lib.without, ← map_markAt, List.filter_map]
  rfl

theorem mem_leftPtrs {L : Finset Nat} {p : Ptr} :
    p ∈ leftPtrs entries L ↔ p < entries.length ∧ (markAt entries p).id ∉ L := by
  simp [leftPtrs]

end Marks

end Lab6824.Porcupine

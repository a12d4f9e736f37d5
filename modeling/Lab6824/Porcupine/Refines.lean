import Lab6824.Lib.Search
import Lab6824.Porcupine.Single

/-!
# Refines — the check of one history is the search of `Lib.Search`

The links of the list are those of the nodes that are not linearized, the bitset is the set of the
others, and the cache has an entry for each node of the search.  Each round of the loop is one round
of the search, so that what the search finds and that it ends carries over.
-/

namespace Lab6824.Porcupine

open Lib (Frame Mark Progress Search held taken)

variable {V S : Type}

/-- The state after an operation with this input and this output, if the model allows it. -/
def FullModel.next (model : FullModel V S) (s : S) (input output : V) : Option S :=
  match model.step s input output with
  | some (true, t) => some t
  | _ => none

/-- The effect of operation `i` of a list that has its call and its return somewhere. -/
def effectIn {α ι : Type} [DecidableEq ι] (model : FullModel V S) (mark : α → Mark ι) (value : α → V)
    (xs : List α) (s : S) (i : ι) : Option S :=
  match xs.find? fun x ↦ mark x = .call i, xs.find? fun x ↦ mark x = .ret i with
  | some c, some r => model.next s (value c) (value r)
  | _, _ => none

def next (model : FullModel V S) (entries : List (Entry V)) (s : S) (i : Nat) : Option S :=
  effectIn model Entry.mark Entry.value entries s i

/-- The step function of the model can be applied to the operations of the history. -/
def Applies (model : FullModel V S) (entries : List (Entry V)) : Prop :=
  ∀ c ∈ entries, ∀ r ∈ entries, ∀ i, c.mark = .call i → r.mark = .ret i →
    ∀ s, model.step s c.value r.value ≠ none

/-- States that the model regards as equal allow the same operations. -/
def EqualSound (model : FullModel V S) (entries : List (Entry V)) : Prop :=
  ∀ s t, model.equal s t = true → Lib.SameFuture (next model entries) s t

/-- States that the model regards as equal allow the same inputs and outputs. -/
def EqualStates (model : FullModel V S) : Prop :=
  ∀ s t, model.equal s t = true →
    Lib.SameFuture (fun s (op : V × V) ↦ model.next s op.1 op.2) s t

section Operations

variable {model : FullModel V S} {α ι : Type} [DecidableEq ι] {mark : α → Mark ι} {value : α → V}
  {xs : List α}

theorem find?_mark (hnodup : (xs.map mark).Nodup) {x : α} (hx : x ∈ xs) :
    xs.find? (fun y ↦ mark y = mark x) = some x := by
  induction xs with
  | nil => cases hx
  | cons y xs ih =>
      rw [List.map_cons, List.nodup_cons] at hnodup
      rcases List.mem_cons.mp hx with rfl | hx
      · simp
      · have hne : mark y ≠ mark x := fun heq ↦ hnodup.1 (heq ▸ List.mem_map_of_mem hx)
        rw [List.find?_cons_of_neg (by simpa using hne)]
        exact ih hnodup.2 hx

theorem effectIn_eq (hnodup : (xs.map mark).Nodup) {c r : α} (hc : c ∈ xs) (hr : r ∈ xs) {i : ι}
    (hci : mark c = .call i) (hri : mark r = .ret i) (s : S) :
    effectIn model mark value xs s i = model.next s (value c) (value r) := by
  have hfc := find?_mark hnodup hc
  have hfr := find?_mark hnodup hr
  rw [hci] at hfc
  rw [hri] at hfr
  rw [effectIn, hfc, hfr]

theorem EqualStates.sameFuture (hequal : EqualStates model) {s t : S} (h : model.equal s t = true) :
    Lib.SameFuture (effectIn model mark value xs) s t := by
  refine (hequal s t h).of_steps fun i ↦ ?_
  -- the input and the output of an operation do not depend on the state
  unfold effectIn
  split
  · rename_i c r _ _
    exact Or.inr ⟨(value c, value r), fun _ ↦ rfl⟩
  · exact Or.inl fun _ ↦ rfl

theorem EqualStates.equalSound (hequal : EqualStates model) (entries : List (Entry V)) :
    EqualSound model entries :=
  fun _ _ h ↦ hequal.sameFuture h

/-- States that are the same allow the same. -/
theorem equalStates_of_shallowEqual [DecidableEq S] (h : model.equal = shallowEqual) :
    EqualStates model := by
  intro s t hequal
  rw [h, shallowEqual, decide_eq_true_iff] at hequal
  rw [hequal]
  exact Lib.SameFuture.refl t

end Operations

/-! ## The list of what is left -/

/-- The list as it is before the first round; the node after those of the entries is the head. -/
structure Setting (entries : List (Entry V)) (n : Nat) (heap : Heap V) : Prop where
  proper : Proper entries n
  node : ∀ p e, entryAt entries p = some e →
    ∃ node, heap.nodes[p]? = some node ∧ NodeFor entries e node
  chain : heap.links.Chain entries.length (ptrs entries.length)

namespace Setting

variable {entries : List (Entry V)} {n : Nat} {heap : Heap V}

/-- What the nodes of a call and its return hold. -/
theorem call_node (h : Setting entries n heap) {p : Ptr} (hp : p < entries.length) {i : Nat}
    (hmark : markAt entries p = .call i) :
    ∃ node q matching c r, heap.nodes[p]? = some node ∧ node.id = i ∧ node.value = some c.value ∧
      node.matching = some q ∧ heap.nodes[q]? = some matching ∧ matching.value = some r.value ∧
      c ∈ entries ∧ c.mark = .call i ∧ r ∈ entries ∧ r.mark = .ret i ∧ q < entries.length ∧
      markAt entries q = .ret i := by
  obtain ⟨c, hc⟩ := exists_entryAt hp
  rw [markAt_of_entryAt hc] at hmark
  obtain ⟨hkind, hid⟩ := Entry.mark_eq_call.mp hmark
  obtain ⟨node, hnode, hfor⟩ := h.node p c hc
  obtain ⟨q, r, hmatch, hr, hrmark⟩ := hfor.call hkind
  obtain ⟨matching, hmatching, hfor'⟩ := h.node q r hr
  rw [hid] at hrmark
  refine ⟨node, q, matching, c, r, hnode, ?_, hfor.value, hmatch, hmatching, hfor'.value,
    mem_of_entryAt hc, hmark, mem_of_entryAt hr, hrmark, entryAt_lt hr, ?_⟩
  · rw [hfor.id, hid]
  · rw [markAt_of_entryAt hr]
    exact hrmark

theorem ret_node (h : Setting entries n heap) {p : Ptr} (hp : p < entries.length) {i : Nat}
    (hmark : markAt entries p = .ret i) :
    ∃ node, heap.nodes[p]? = some node ∧ node.matching = none := by
  obtain ⟨r, hr⟩ := exists_entryAt hp
  rw [markAt_of_entryAt hr] at hmark
  obtain ⟨node, hnode, hfor⟩ := h.node p r hr
  exact ⟨node, hnode, hfor.ret (Entry.mark_eq_ret.mp hmark).1⟩

theorem id_lt (h : Setting entries n heap) {p : Ptr} (hp : p < entries.length) {i : Nat}
    (hmark : markAt entries p = .call i) : i < n := by
  apply (h.proper.ids i).mp
  rw [← hmark, ← map_markAt]
  exact List.mem_map_of_mem (mem_ptrs.mpr hp)

/-- A call stands before its return among the nodes that are left. -/
theorem leftPtrs_eq_of_call (h : Setting entries n heap) {L : Finset Nat} {p q : Ptr} {i : Nat}
    (hp : p ∈ leftPtrs entries L) (hpmark : markAt entries p = .call i) (hq : q < entries.length)
    (hqmark : markAt entries q = .ret i) :
    ∃ ps qs rs, leftPtrs entries L = ps ++ p :: (qs ++ q :: rs) := by
  have hnodup := h.proper.complete.nodup
  obtain ⟨hplt, hpL⟩ := mem_leftPtrs.mp hp
  have hpair := (h.proper.complete.without L).paired (.call i) (by
    rw [← map_leftPtrs, ← hpmark]
    exact List.mem_map_of_mem hp)
  rw [Lib.Before, ← map_leftPtrs] at hpair
  obtain ⟨xs, hsub, hxs⟩ := List.sublist_map_iff.mp hpair
  obtain ⟨p', q', rfl⟩ := List.length_eq_two.mp (by simpa using (congrArg List.length hxs).symm)
  rw [List.map_cons, List.map_cons, List.map_nil, List.cons.injEq, List.cons.injEq] at hxs
  have hp' : p' = p := by
    apply markAt_injective hnodup (mem_leftPtrs.mp (hsub.subset (by simp))).1 hplt
    rw [← hxs.1, hpmark]
    rfl
  have hq' : q' = q := by
    apply markAt_injective hnodup (mem_leftPtrs.mp (hsub.subset (by simp))).1 hq
    rw [← hxs.2.1, hqmark]
    rfl
  subst hp' hq'
  obtain ⟨l₁, l₂, heq, hmem, hrest⟩ := List.cons_sublist_iff.mp hsub
  obtain ⟨ps, qs, rfl⟩ := List.append_of_mem hmem
  obtain ⟨qs', rs, rfl⟩ := List.append_of_mem (List.singleton_sublist.mp hrest)
  refine ⟨ps, qs ++ qs', rs, ?_⟩
  rw [heq]
  simp

/-- Without the operation `i`, its call and its return are gone. -/
theorem leftPtrs_insert (h : Setting entries n heap) {L : Finset Nat} {p q : Ptr} {i : Nat}
    {ps qs rs : List Ptr} (heq : leftPtrs entries L = ps ++ p :: (qs ++ q :: rs))
    (hpmark : markAt entries p = .call i) (hqmark : markAt entries q = .ret i) :
    leftPtrs entries (insert i L) = ps ++ (qs ++ rs) := by
  have hnodup : (leftPtrs entries L).Nodup := (nodup_ptrs _).filter _
  have hlt : ∀ x ∈ leftPtrs entries L, x < entries.length := fun x hx ↦ (mem_leftPtrs.mp hx).1
  -- no other node belongs to the operation
  have hother : ∀ x ∈ leftPtrs entries L, x ≠ p → x ≠ q → (markAt entries x).id ≠ i := by
    intro x hx hxp hxq hid
    have hinj := fun y hy ↦ markAt_injective h.proper.complete.nodup (hlt x hx) (hlt y hy)
    cases hm : markAt entries x with
    | call j =>
        rw [hm, Mark.id_call] at hid
        exact hxp (hinj p (by rw [heq]; simp) (by rw [hm, hid, hpmark]))
    | ret j =>
        rw [hm, Mark.id_ret] at hid
        exact hxq (hinj q (by rw [heq]; simp) (by rw [hm, hid, hqmark]))
  have hfilter : leftPtrs entries (insert i L) =
      (leftPtrs entries L).filter fun x ↦ (markAt entries x).id ≠ i := by
    rw [leftPtrs, leftPtrs, List.filter_filter]
    apply List.filter_congr
    intro x _
    simp [not_or]
  rw [heq] at hother hnodup hfilter
  obtain ⟨_, htail, hps⟩ := List.nodup_append.mp hnodup
  obtain ⟨hp, htail⟩ := List.nodup_cons.mp htail
  obtain ⟨_, hrest, hqs⟩ := List.nodup_append.mp htail
  have hrs := (List.nodup_cons.mp hrest).1
  rw [hfilter, List.filter_append, List.filter_cons_of_neg (by simp [hpmark]), List.filter_append,
    List.filter_cons_of_neg (by simp [hqmark])]
  rw [List.filter_eq_self.mpr, List.filter_eq_self.mpr, List.filter_eq_self.mpr]
  · intro x hx
    have hne := hother x (by simp [hx]) (fun heq ↦ hp (by simp [← heq, hx]))
      (fun heq ↦ hrs (heq ▸ hx))
    simpa using hne
  · intro x hx
    have hne := hother x (by simp [hx]) (fun heq ↦ hp (by simp [← heq, hx]))
      (hqs x hx q List.mem_cons_self)
    simpa using hne
  · intro x hx
    have hne := hother x (by simp [hx]) (hps x hx p List.mem_cons_self)
      (hps x hx q (by simp))
    simpa using hne

/-- Lifting an operation out of the list of those not in `L`, and back. -/
theorem lift_leftPtrs (h : Setting entries n heap) {L : Finset Nat} {hp : Heap V} {p : Ptr} {i : Nat}
    (hnodes : hp.nodes = heap.nodes)
    (hchain : hp.links.Chain entries.length (leftPtrs entries L))
    (hmem : p ∈ leftPtrs entries L) (hmark : markAt entries p = .call i) :
    ∃ hp', lift hp p = some hp' ∧ hp'.nodes = heap.nodes ∧
      hp'.links.Chain entries.length (leftPtrs entries (insert i L)) ∧ unlift hp' p = some hp := by
  obtain ⟨node, q, _, _, _, hnode, _, _, hmatch, _, _, _, _, _, _, hq, hqmark⟩ :=
    h.call_node (mem_leftPtrs.mp hmem).1 hmark
  obtain ⟨ps, qs, rs, heq⟩ := h.leftPtrs_eq_of_call hmem hmark hq hqmark
  have hnodup : (entries.length :: leftPtrs entries L).Nodup := by
    refine List.nodup_cons.mpr ⟨fun hin ↦ ?_, (nodup_ptrs _).filter _⟩
    exact absurd (mem_leftPtrs.mp hin).1 (lt_irrefl _)
  rw [heq] at hchain hnodup
  rw [← hnodes] at hnode
  obtain ⟨hp', hlift, hnodes', hchain', hback⟩ := lift_spec hnode hmatch hchain hnodup
  refine ⟨hp', hlift, hnodes'.trans hnodes, ?_, hback⟩
  rw [h.leftPtrs_insert heq hmark hqmark]
  exact hchain'

end Setting

/-! ## The relation -/

/-- The calls are the frames of the search, and lifting them has made the list what it is. -/
def Stacked (entries : List (Entry V)) (heap : Heap V) :
    List (CallsEntry S) → List (Frame Nat S) → Heap V → Prop
  | [], [], h => h = heap
  | c :: cs, f :: fs, h =>
    c.state = f.state ∧ markAt entries c.entry = .call f.id ∧
      (∃ before rest, leftPtrs entries (held fs) = before ++ c.entry :: rest ∧
        rest.map (markAt entries) = f.rest) ∧
      ∃ h', Stacked entries heap cs fs h' ∧ lift h' c.entry = some h
  | _, _, _ => False

/-- The variables of the loop and the state of the search. -/
structure Rel (entries : List (Entry V)) (n : Nat) (heap : Heap V) (computePartial : Bool)
    (st : Single V S) (m : Search Nat S) : Prop where
  headEntry : st.headEntry = entries.length
  count : st.n = n
  stacked : Stacked entries heap st.calls.reverse m.calls st.heap
  entry : ∃ before rest, leftPtrs entries (held m.calls) = before ++ rest ∧
    rest.map (markAt entries) = m.todo ∧ st.entry = rest.head?
  state : st.state = m.state
  linearized : st.linearized.Holds n (held m.calls)
  cache : ∀ ce : CacheEntry S, ce ∈ st.cache ce.linearized.hash ↔
    ∃ L, ce.linearized.Holds n L ∧ (L, ce.state) ∈ m.cache
  longest : computePartial = true → LongestOf n st.longest m.ends

section Stack

variable {entries : List (Entry V)} {n : Nat} {heap h : Heap V} {cs : List (CallsEntry S)}
  {fs : List (Frame Nat S)}

theorem Stacked.chain (hset : Setting entries n heap) (hst : Stacked entries heap cs fs h) :
    h.nodes = heap.nodes ∧ h.links.Chain entries.length (leftPtrs entries (held fs)) := by
  induction cs generalizing fs h with
  | nil =>
      cases fs with
      | cons f fs => exact hst.elim
      | nil =>
          rw [show h = heap from hst]
          refine ⟨rfl, ?_⟩
          have hall : leftPtrs entries (held ([] : List (Frame Nat S))) = ptrs entries.length := by
            simp [leftPtrs]
          rw [hall]
          exact hset.chain
  | cons c cs ih =>
      cases fs with
      | nil => exact hst.elim
      | cons f fs =>
          obtain ⟨_, hmark, ⟨before, rest, heq, _⟩, h', hst', hlift⟩ := hst
          obtain ⟨hnodes, hchain⟩ := ih hst'
          obtain ⟨h'', hlift', hnodes', hchain', _⟩ :=
            hset.lift_leftPtrs hnodes hchain (by rw [heq]; simp) hmark
          rw [hlift, Option.some.injEq] at hlift'
          rw [hlift', Lib.held_cons]
          exact ⟨hnodes', hchain'⟩

/-- Putting the last call back. -/
theorem Stacked.unlift (hset : Setting entries n heap) {c : CallsEntry S} {f : Frame Nat S}
    (hst : Stacked entries heap (c :: cs) (f :: fs) h) :
    ∃ h', Porcupine.unlift h c.entry = some h' ∧ Stacked entries heap cs fs h' := by
  obtain ⟨_, hmark, ⟨before, rest, heq, _⟩, h', hst', hlift⟩ := hst
  obtain ⟨hnodes, hchain⟩ := hst'.chain hset
  obtain ⟨h'', hlift', _, _, hback⟩ :=
    hset.lift_leftPtrs hnodes hchain (by rw [heq]; simp) hmark
  rw [hlift, Option.some.injEq] at hlift'
  rw [hlift']
  exact ⟨h', hback, hst'⟩

theorem Stacked.ids (hset : Setting entries n heap) (hst : Stacked entries heap cs fs h) :
    cs.reverse.mapM (fun v ↦ heap.nodes[v.entry]?.map fun node ↦ node.id.toNat) =
      some (taken fs) := by
  induction cs generalizing fs h with
  | nil =>
      cases fs with
      | nil => rfl
      | cons f fs => exact hst.elim
  | cons c cs ih =>
      cases fs with
      | nil => exact hst.elim
      | cons f fs =>
          obtain ⟨_, hmark, ⟨before, rest, heq, _⟩, h', hst', _⟩ := hst
          have hlt : c.entry < entries.length :=
            (mem_leftPtrs.mp (heq ▸ List.mem_append_right before List.mem_cons_self)).1
          obtain ⟨node, _, _, _, _, hnode, hid, _⟩ := hset.call_node hlt hmark
          rw [List.reverse_cons, List.mapM_append, ih hst', Lib.taken_cons]
          simp [hnode, hid]

/-- Every operation on the stack has a number below `n`. -/
theorem Stacked.lt (hset : Setting entries n heap) (hst : Stacked entries heap cs fs h) :
    ∀ i ∈ taken fs, i < n := by
  induction cs generalizing fs h with
  | nil =>
      cases fs with
      | nil => simp [taken]
      | cons f fs => exact hst.elim
  | cons c cs ih =>
      cases fs with
      | nil => exact hst.elim
      | cons f fs =>
          obtain ⟨_, hmark, ⟨before, rest, heq, _⟩, h', hst', _⟩ := hst
          have hlt : c.entry < entries.length :=
            (mem_leftPtrs.mp (heq ▸ List.mem_append_right before List.mem_cons_self)).1
          intro i hi
          rw [Lib.taken_cons, List.mem_append, List.mem_singleton] at hi
          rcases hi with hi | rfl
          · exact ih hst' i hi
          · exact hset.id_lt hlt hmark

end Stack

/-! ## Rounds -/

namespace Rel

variable {model : FullModel V S} {entries : List (Entry V)} {n : Nat} {heap : Heap V}
  {computePartial : Bool} {st : Single V S} {m : Search Nat S}

theorem nodes (hset : Setting entries n heap) (h : Rel entries n heap computePartial st m) :
    st.heap.nodes = heap.nodes :=
  (h.stacked.chain hset).1

theorem chain (hset : Setting entries n heap) (h : Rel entries n heap computePartial st m) :
    st.heap.links.Chain entries.length (leftPtrs entries (held m.calls)) :=
  (h.stacked.chain hset).2

theorem seq (hset : Setting entries n heap) (h : Rel entries n heap computePartial st m) :
    st.seq = some (taken m.calls) := by
  have hids := h.stacked.ids hset
  rw [List.reverse_reverse] at hids
  unfold Single.seq
  rw [h.nodes hset]
  exact hids

/-- The list is empty when the search has taken everything. -/
theorem next_headEntry (hset : Setting entries n heap) (h : Rel entries n heap computePartial st m) :
    st.heap.links.next st.headEntry = none ↔ m.left (entries.map Entry.mark) = [] := by
  rw [h.headEntry, (h.chain hset).next_eq_head?, List.head?_eq_none_iff, Search.left, ← map_leftPtrs,
    List.map_eq_nil_iff]

/-- The node at which the loop stands. -/
theorem current (hset : Setting entries n heap) (h : Rel entries n heap computePartial st m)
    {x : Mark Nat} {rest : List (Mark Nat)} (htodo : m.todo = x :: rest) :
    ∃ before p ps, leftPtrs entries (held m.calls) = before ++ p :: ps ∧ markAt entries p = x ∧
      ps.map (markAt entries) = rest ∧ st.entry = some p ∧ p < entries.length ∧
      st.heap.links.next p = ps.head? := by
  obtain ⟨before, qs, heq, hmap, hentry⟩ := h.entry
  rw [htodo] at hmap
  obtain ⟨p, ps, rfl, hp, hps⟩ := List.map_eq_cons_iff.mp hmap
  have hchain := h.chain hset
  rw [heq] at hchain
  refine ⟨before, p, ps, heq, hp, hps, hentry, ?_, hchain.append_right.next_eq_head?⟩
  exact (mem_leftPtrs.mp (heq ▸ List.mem_append_right before List.mem_cons_self)).1

/-- The loop goes on to the next node. -/
theorem advance (h : Rel entries n heap computePartial st m) {before ps : List Ptr} {p : Ptr}
    {rest : List (Mark Nat)} (heq : leftPtrs entries (held m.calls) = before ++ p :: ps)
    (hps : ps.map (markAt entries) = rest) (hnext : st.heap.links.next p = ps.head?) :
    Rel entries n heap computePartial { st with entry := st.heap.links.next p }
      { m with todo := rest } where
  headEntry := h.headEntry
  count := h.count
  stacked := h.stacked
  entry := ⟨before ++ [p], ps, by rw [heq, List.append_assoc, List.singleton_append], hps, hnext⟩
  state := h.state
  linearized := h.linearized
  cache := h.cache
  longest := h.longest

theorem cacheContains_eq (h : Rel entries n heap computePartial st m) (model : FullModel V S)
    {b : Bitset} {L : Finset Nat} (hb : b.Holds n L) (t : S) :
    cacheContains model st.cache { linearized := b, state := t } = m.cached model.equal L t := by
  rw [Bool.eq_iff_iff]
  simp only [cacheContains, Search.cached, List.any_eq_true, Bool.and_eq_true, Bitset.equals_iff,
    decide_eq_true_iff]
  constructor
  · rintro ⟨ce, hmem, heq, hequal⟩
    rw [heq] at hmem
    obtain ⟨L', hL', hnode⟩ := (h.cache ce).mp hmem
    rw [← heq] at hL'
    exact ⟨(L', ce.state), hnode, (hL'.eq_iff hb).mp rfl, hequal⟩
  · rintro ⟨⟨L', u⟩, hnode, rfl, hequal⟩
    exact ⟨⟨b, u⟩, (h.cache ⟨b, u⟩).mpr ⟨L', hb, hnode⟩, rfl, hequal⟩

/-- The cache after a new entry. -/
theorem cache_push (h : Rel entries n heap computePartial st m) {b : Bitset} {L : Finset Nat}
    (hb : b.Holds n L) (t : S) (ce : CacheEntry S) :
    ce ∈ Function.update st.cache b.hash (st.cache b.hash ++ [{ linearized := b, state := t }])
        ce.linearized.hash ↔
      ∃ L', ce.linearized.Holds n L' ∧ (L', ce.state) ∈ (L, t) :: m.cache := by
  have hnew : ce = { linearized := b, state := t } ↔
      ∃ L', ce.linearized.Holds n L' ∧ (L', ce.state) = (L, t) := by
    constructor
    · rintro rfl
      exact ⟨L, hb, rfl⟩
    · rintro ⟨L', hL', heq⟩
      rw [Prod.mk.injEq] at heq
      have hlin : ce.linearized = b := (hL'.eq_iff hb).mpr heq.1
      cases ce
      rw [CacheEntry.mk.injEq]
      exact ⟨hlin, heq.2⟩
  have hold : ce ∈ Function.update st.cache b.hash
        (st.cache b.hash ++ [{ linearized := b, state := t }]) ce.linearized.hash ↔
      ce ∈ st.cache ce.linearized.hash ∨ ce = { linearized := b, state := t } := by
    by_cases hhash : ce.linearized.hash = b.hash
    · rw [hhash, Function.update_self, List.mem_append, List.mem_singleton]
    · rw [Function.update_of_ne hhash, iff_self_or]
      rintro rfl
      exact absurd rfl hhash
  rw [hold, h.cache, hnew]
  simp only [List.mem_cons, and_or_left, exists_or]
  exact or_comm

theorem take_push (hset : Setting entries n heap) (h : Rel entries n heap computePartial st m)
    {before ps : List Ptr} {p : Ptr} {i : Nat} {rest : List (Mark Nat)}
    (heq : leftPtrs entries (held m.calls) = before ++ p :: ps) (hmark : markAt entries p = .call i)
    (hps : ps.map (markAt entries) = rest) {node : Node V} (hid : node.id = i) {t : S}
    (hcached : m.cached model.equal (insert i (held m.calls)) t = false) :
    ∃ st', st.take model p node t = some st' ∧
      Rel entries n heap computePartial st' (m.push (entries.map Entry.mark) i t rest) := by
  have hmem : p ∈ leftPtrs entries (held m.calls) := by
    rw [heq]
    simp
  have hnat : node.id.toNat = i := by
    rw [hid, Int.toNat_natCast]
  obtain ⟨b, hset', hb⟩ := h.linearized.set (hset.id_lt (mem_leftPtrs.mp hmem).1 hmark)
  obtain ⟨heap', hlift, hnodes', hchain', _⟩ :=
    hset.lift_leftPtrs (h.nodes hset) (h.chain hset) hmem hmark
  have hcontains := (h.cacheContains_eq model hb t).trans hcached
  simp only [Single.take, hnat, hset', hcontains, hlift, Option.bind_eq_bind, Option.bind_some,
    Bool.not_false, if_true]
  refine ⟨_, rfl, ?_⟩
  constructor
  · exact h.headEntry
  · exact h.count
  · rw [List.reverse_append, List.reverse_singleton, List.singleton_append]
    exact ⟨h.state, hmark, ⟨before, ps, heq, hps⟩, st.heap, h.stacked, hlift⟩
  · refine ⟨[], leftPtrs entries (insert i (held m.calls)), ?_, ?_, ?_⟩
    · simp [Search.push]
    · exact map_leftPtrs entries _
    · rw [h.headEntry]
      exact hchain'.next_eq_head?
  · rfl
  · rw [Search.push, Lib.held_cons]
    exact hb
  · exact h.cache_push hb t
  · exact h.longest

theorem take_skip (h : Rel entries n heap computePartial st m) {p : Ptr} {i : Nat}
    (hi : i < n) {node : Node V} (hid : node.id = i) {t : S}
    (hcached : m.cached model.equal (insert i (held m.calls)) t = true) :
    st.take model p node t = some { st with entry := st.heap.links.next p } := by
  have hnat : node.id.toNat = i := by
    rw [hid, Int.toNat_natCast]
  obtain ⟨b, hset', hb⟩ := h.linearized.set hi
  have hcontains := (h.cacheContains_eq model hb t).trans hcached
  simp [Single.take, hnat, hset', hcontains]

/-- The round of a call that is tried. -/
theorem round_call (hset : Setting entries n heap) (happ : Applies model entries)
    (h : Rel entries n heap computePartial st m) {i : Nat} {rest : List (Mark Nat)}
    (htodo : m.todo = .call i :: rest) :
    ∃ before p ps, ∃ node : Node V, leftPtrs entries (held m.calls) = before ++ p :: ps ∧
      markAt entries p = .call i ∧ ps.map (markAt entries) = rest ∧
      st.heap.links.next p = ps.head? ∧ node.id = i ∧ i < n ∧
      st.round model computePartial =
        match next model entries m.state i with
        | some t => (st.take model p node t).map .going
        | none => some (.going { st with entry := st.heap.links.next p }) := by
  obtain ⟨before, p, ps, heq, hmark, hps, hentry, hlt, hnext⟩ := h.current hset htodo
  obtain ⟨node, q, matching, c, r, hnode, hid, hvalue, hmatch, hmatching, hrvalue, hc, hcmark, hr,
    hrmark, _, _⟩ := hset.call_node hlt hmark
  refine ⟨before, p, ps, node, heq, hmark, hps, hnext, hid, hset.id_lt hlt hmark, ?_⟩
  rw [← h.nodes hset] at hnode hmatching
  rw [next, effectIn_eq hset.proper.complete.nodup hc hr hcmark hrmark, ← h.state]
  obtain ⟨⟨ok, t⟩, hstep⟩ := Option.ne_none_iff_exists'.mp (happ c hc r hr i hcmark hrmark st.state)
  simp only [Single.round, hentry, hnode, hmatch, hmatching, hvalue, hrvalue, hstep,
    FullModel.next, Option.bind_eq_bind, Option.bind_some]
  cases ok <;> rfl

theorem round_ret (hset : Setting entries n heap) (h : Rel entries n heap computePartial st m)
    {i : Nat} {rest : List (Mark Nat)} (htodo : m.todo = .ret i :: rest) :
    st.round model computePartial =
      match st.calls.getLast? with
      | none => some (.done (.returned false st.longest))
      | some callsTop => (st.back computePartial callsTop).map .going := by
  obtain ⟨_, p, _, _, hmark, _, hentry, hlt, _⟩ := h.current hset htodo
  obtain ⟨node, hnode, hmatch⟩ := hset.ret_node hlt hmark
  rw [← h.nodes hset] at hnode
  cases hlast : st.calls.getLast? <;>
    simp only [Single.round, hentry, hnode, hmatch, hlast, Option.bind_eq_bind, Option.bind_some]

/-- What is recorded when the search turns back. -/
theorem record (hset : Setting entries n heap) (h : Rel entries n heap computePartial st m) :
    ∃ longest, st.recorded computePartial = some longest ∧
      (computePartial = true → LongestOf n longest (taken m.calls :: m.ends)) := by
  cases hpartial : computePartial with
  | false => exact ⟨st.longest, rfl, fun hfalse ↦ by cases hfalse⟩
  | true =>
      obtain ⟨longest, hrecord, hof⟩ := Single.LongestOf.record (h.longest hpartial)
        ⟨st.seqs, taken m.calls⟩ (h.stacked.lt hset)
      refine ⟨longest, ?_, fun _ ↦ hof⟩
      rw [Single.recorded, if_pos rfl, h.seq hset]
      exact hrecord

theorem back_pop (hset : Setting entries n heap) (h : Rel entries n heap computePartial st m)
    {f : Frame Nat S} {calls : List (Frame Nat S)} (hcalls : m.calls = f :: calls) :
    ∃ callsTop, st.calls.getLast? = some callsTop ∧
      ∃ st', st.back computePartial callsTop = some st' ∧
        Rel entries n heap computePartial st' (m.pop f calls) := by
  have hstacked := h.stacked
  rw [hcalls] at hstacked
  cases hrev : st.calls.reverse with
  | nil =>
      rw [hrev] at hstacked
      exact hstacked.elim
  | cons callsTop cs =>
      rw [hrev] at hstacked
      obtain ⟨heap', hunlift, hst'⟩ := hstacked.unlift hset
      obtain ⟨hstate, hmark, ⟨before, ps, heq, hps⟩, _⟩ := hstacked
      have hst : st.calls = cs.reverse ++ [callsTop] := by
        rw [← List.reverse_reverse st.calls, hrev, List.reverse_cons]
      obtain ⟨hlt, hnot⟩ := mem_leftPtrs.mp (heq ▸ List.mem_append_right before List.mem_cons_self)
      obtain ⟨node, _, _, _, _, hnode, hid, _⟩ := hset.call_node hlt hmark
      rw [← h.nodes hset] at hnode
      have hnat : node.id.toNat = f.id := by
        rw [hid, Int.toNat_natCast]
      obtain ⟨b, hclear, hb⟩ := h.linearized.clear (hset.id_lt hlt hmark)
      obtain ⟨longest, hrecord, hlongest⟩ := h.record hset
      refine ⟨callsTop, by simp [hst], ?_⟩
      simp only [Single.back, hrecord, hnode, hnat, hclear, hunlift, Option.bind_eq_bind,
        Option.bind_some]
      refine ⟨_, rfl, ?_⟩
      have hchain := (hst'.chain hset).2
      rw [heq] at hchain
      constructor
      · exact h.headEntry
      · exact h.count
      · rw [hst, List.dropLast_concat, List.reverse_reverse]
        exact hst'
      · refine ⟨before ++ [callsTop.entry], ps, ?_, hps, hchain.append_right.next_eq_head?⟩
        rw [List.append_assoc, List.singleton_append]
        exact heq
      · exact hstate
      · rw [hcalls, Lib.held_cons, Finset.erase_insert] at hb
        · exact hb
        · rw [hmark] at hnot
          exact hnot
      · exact h.cache
      · exact hlongest

/-- A round of the search that does not end it is a round of the loop. -/
theorem body_going (hset : Setting entries n heap) (happ : Applies model entries)
    (h : Rel entries n heap computePartial st m) {m' : Search Nat S}
    (hstep : m.step (next model entries) model.equal (entries.map Entry.mark) = .going m') :
    ∃ st', st.body model computePartial false = .going st' ∧
      Rel entries n heap computePartial st' m' := by
  obtain ⟨hleft, hcases⟩ := Search.step_eq_going hstep
  obtain ⟨p, hp⟩ := Option.ne_none_iff_exists'.mp (mt (h.next_headEntry hset).mp hleft)
  simp only [Single.body, hp, Bool.false_eq_true, if_false]
  rcases hcases with ⟨i, rest, htodo, rfl, hcached⟩ | ⟨i, rest, t, htodo, hnext, hcached, rfl⟩ |
    ⟨i, rest, f, calls, htodo, hcalls, rfl⟩
  · obtain ⟨before, p, ps, node, heq, _, hps, hp, hid, hi, hround⟩ := h.round_call hset happ htodo
    have hskip : st.round model computePartial =
        some (.going { st with entry := st.heap.links.next p }) := by
      rw [hround]
      cases hnext : next model entries m.state i with
      | none => rfl
      | some t =>
          dsimp only
          rw [h.take_skip hi hid (hcached t hnext)]
          rfl
    rw [hskip]
    exact ⟨_, rfl, h.advance heq hps hp⟩
  · obtain ⟨before, p, ps, node, heq, hmark, hps, _, hid, _, hround⟩ :=
      h.round_call hset happ htodo
    obtain ⟨st', htake, hrel⟩ := h.take_push hset heq hmark hps hid hcached
    rw [hround, hnext]
    dsimp only
    rw [htake]
    exact ⟨st', rfl, hrel⟩
  · obtain ⟨callsTop, hlast, st', hback, hrel⟩ := h.back_pop hset hcalls
    rw [h.round_ret hset htodo, hlast]
    dsimp only
    rw [hback]
    exact ⟨st', rfl, hrel⟩

/-- The loop ends when nothing is left. -/
theorem body_found (hset : Setting entries n heap) (h : Rel entries n heap computePartial st m)
    (hleft : m.left (entries.map Entry.mark) = []) (killed : Bool) :
    st.body model computePartial killed =
      .done (.returned true (List.replicate n (some ⟨st.seqs, taken m.calls⟩))) := by
  simp only [Single.body, (h.next_headEntry hset).mpr hleft, h.seq hset, h.count]

theorem body_killed (hset : Setting entries n heap) (h : Rel entries n heap computePartial st m)
    (hleft : m.left (entries.map Entry.mark) ≠ []) :
    st.body model computePartial true = .done (.returned false st.longest) := by
  obtain ⟨p, hp⟩ := Option.ne_none_iff_exists'.mp (mt (h.next_headEntry hset).mp hleft)
  simp only [Single.body, hp, if_true]

/-- The loop gives up where the search does. -/
theorem body_exhausted (hset : Setting entries n heap) (h : Rel entries n heap computePartial st m)
    (hleft : m.left (entries.map Entry.mark) ≠ []) (hcalls : m.calls = []) {i : Nat}
    {rest : List (Mark Nat)} (htodo : m.todo = .ret i :: rest) :
    st.body model computePartial false = .done (.returned false st.longest) := by
  obtain ⟨p, hp⟩ := Option.ne_none_iff_exists'.mp (mt (h.next_headEntry hset).mp hleft)
  have hnil : st.calls = [] := by
    have hstacked := h.stacked
    rw [hcalls] at hstacked
    cases hrev : st.calls.reverse with
    | nil => exact List.reverse_eq_nil_iff.mp hrev
    | cons c cs =>
        rw [hrev] at hstacked
        exact hstacked.elim
  simp only [Single.body, hp, Bool.false_eq_true, if_false, h.round_ret hset htodo, hnil,
    List.getLast?_nil, Option.getD_some]

end Rel

/-! ## The first round -/

section Start

variable {entries : List (Entry V)} {n : Nat}

theorem answered_of_before (hnodup : (entries.map Entry.mark).Nodup)
    (hpaired : ∀ c ∈ entries, c.kind = .callEntry →
      Lib.Before (entries.map Entry.mark) (.call c.id) (.ret c.id)) : Answered entries := by
  induction entries with
  | nil => trivial
  | cons e entries ih =>
      rw [List.map_cons, List.nodup_cons] at hnodup
      constructor
      · intro hkind
        have hbefore := hpaired e List.mem_cons_self hkind
        have hret : Mark.ret e.id ∈ entries.map Entry.mark := by
          rw [List.map_cons] at hbefore
          have hmem : Mark.ret e.id ∈ e.mark :: entries.map Entry.mark := hbefore.subset (by simp)
          rcases List.mem_cons.mp hmem with heq | hmem
          · rw [(Entry.mark_eq_ret.mp heq.symm).1] at hkind
            cases hkind
          · exact hmem
        obtain ⟨r, hr, hmark⟩ := List.mem_map.mp hret
        exact ⟨r, hr, hmark⟩
      · apply ih hnodup.2
        intro c hc hkind
        have hbefore := hpaired c (List.mem_cons_of_mem e hc) hkind
        rw [List.map_cons] at hbefore
        rcases List.sublist_cons_iff.mp hbefore with htail | ⟨_, heq, _⟩
        · exact htail
        · -- the call of `c` would stand twice
          rw [List.cons.injEq, ← Entry.mark_eq_call.mpr ⟨hkind, rfl⟩] at heq
          exact absurd (heq.1 ▸ List.mem_map_of_mem hc) hnodup.1

theorem Proper.answered (h : Proper entries n) : Answered entries := by
  apply answered_of_before h.complete.nodup
  intro c hc hkind
  have hpaired := h.complete.paired c.mark (List.mem_map_of_mem hc)
  rwa [Entry.mark_eq_call.mpr ⟨hkind, rfl⟩] at hpaired

theorem Listed.length {l : Lib.Links Ptr} {ps : List Ptr} (h : Listed l ps) {fuel : Nat}
    (hfuel : ps.length ≤ fuel) : Porcupine.length l fuel ps.head? = some ps.length := by
  cases ps with
  | nil => cases fuel <;> rfl
  | cons p ps => exact length_of_chain h.1 hfuel

/-- The variables before the first round. -/
theorem start_spec (model : FullModel V S) (h : Proper entries n) (computePartial : Bool) :
    ∃ heap st, Single.start model entries = some st ∧ Setting entries n heap ∧
      Rel entries n heap computePartial st
        (Search.start (entries.map Entry.mark) model.init) := by
  have hmade := makeLinkedEntries_made h.answered
  generalize hlinked : makeLinkedEntries entries = linked at hmade
  have hlength : Porcupine.length linked.heap.links linked.heap.nodes.length linked.root =
      some (2 * n) := by
    rw [hmade.root, hmade.listed.length, ptrs, List.length_reverse, List.length_range, h.length]
    rw [hmade.length, ptrs, List.length_reverse, List.length_range]
  let head : Node V := { value := none, matching := none, id := -1 }
  have hhead := hmade.listed_succ head
  rw [ptrs_succ] at hhead
  let heap : Heap V := { (linked.heap.alloc head).1 with
    links := insertBefore (linked.heap.alloc head).1.links linked.heap.nodes.length linked.root }
  have hset : Setting entries n heap := by
    refine ⟨h, fun p e he ↦ ?_, hhead.1⟩
    obtain ⟨node, hnode, hfor⟩ := hmade.node p e he
    exact ⟨node, Lib.getElem?_of_isPrefix (List.prefix_append _ _) hnode, hfor⟩
  simp only [Single.start, hlinked, hlength, Option.bind_eq_bind, Option.bind_some]
  refine ⟨heap, _, rfl, hset, ?_⟩
  have hn : 2 * n / 2 = n := by omega
  constructor
  · exact hmade.length
  · exact hn
  · rfl
  · refine ⟨[], ptrs entries.length, ?_, map_markAt entries, hmade.root⟩
    simp [Search.start, leftPtrs]
  · rfl
  · dsimp only
    rw [hn]
    exact Bitset.Holds.newBitset n
  · simp [Search.start]
  · intro _
    dsimp only
    rw [hn]
    refine ⟨List.length_replicate, ?_, ?_⟩
    · simp [Search.start]
    · intro i seq hseq
      simp [List.getElem?_replicate] at hseq

end Start

end Lab6824.Porcupine

import Mathlib.Data.List.Basic
import Mathlib.Logic.Function.Basic

/-!
# Links — doubly linked lists

The links of a heap are two partial functions on the nodes.  `Chain l a ps` says that the nodes `ps`
follow the node `a`, linked in both directions, and that nothing follows the last one.  A node that
is unlinked keeps its own links; `relink` uses them to put it back, and restores the links as they
were (`Chain.unlink`).
-/

namespace Lab6824.Lib

@[ext]
structure Links (P : Type*) where
  next : P → Option P
  prev : P → Option P

namespace Links

variable {P : Type*}

def Chain (l : Links P) : P → List P → Prop
  | a, [] => l.next a = none
  | a, p :: ps => l.next a = some p ∧ l.prev p = some a ∧ l.Chain p ps

/-- A chain depends on the links of its nodes only. -/
theorem Chain.congr {l l' : Links P} {a : P} {ps : List P} (h : l.Chain a ps)
    (hnext : ∀ x ∈ a :: ps, l'.next x = l.next x) (hprev : ∀ x ∈ ps, l'.prev x = l.prev x) :
    l'.Chain a ps := by
  induction ps generalizing a with
  | nil =>
      show l'.next a = none
      rw [hnext a List.mem_cons_self]
      exact h
  | cons p ps ih =>
      obtain ⟨ha, hp, hrest⟩ := h
      refine ⟨?_, ?_, ih hrest ?_ ?_⟩
      · rw [hnext a List.mem_cons_self]
        exact ha
      · rw [hprev p List.mem_cons_self]
        exact hp
      · exact fun x hx ↦ hnext x (List.mem_cons_of_mem a hx)
      · exact fun x hx ↦ hprev x (List.mem_cons_of_mem p hx)

theorem Chain.next_eq_head? {l : Links P} {a : P} {ps : List P} (h : l.Chain a ps) :
    l.next a = ps.head? := by
  cases ps with
  | nil => exact h
  | cons p ps => exact h.1

theorem Chain.prev_of_head? {l : Links P} {a c : P} {ps : List P} (h : l.Chain a ps)
    (hc : ps.head? = some c) : l.prev c = some a := by
  cases ps with
  | nil => cases hc
  | cons p ps =>
      rw [List.head?_cons, Option.some.injEq] at hc
      rw [← hc]
      exact h.2.1

/-- The rest of a chain is a chain. -/
theorem Chain.append_right {l : Links P} {a p : P} {ps qs : List P}
    (h : l.Chain a (ps ++ p :: qs)) : l.Chain p qs := by
  induction ps generalizing a with
  | nil => exact h.2.2
  | cons x ps ih => exact ih h.2.2

/-- The link to the node `p`, from the node before it. -/
theorem Chain.link_to {l : Links P} {a p : P} {ps qs : List P} (h : l.Chain a (ps ++ p :: qs)) :
    l.next (ps.getLastD a) = some p ∧ l.prev p = some (ps.getLastD a) := by
  induction ps generalizing a with
  | nil => exact ⟨h.1, h.2.1⟩
  | cons x ps ih =>
      rw [List.getLastD_cons]
      exact ih h.2.2

theorem getLastD_mem_cons (a : P) (ps : List P) : ps.getLastD a ∈ a :: ps := by
  rw [List.getLastD_eq_getLast?]
  cases h : ps.getLast? with
  | none => exact List.mem_cons_self
  | some b => exact List.mem_cons_of_mem a (List.mem_of_getLast? h)

/-- A chain in which the links around `p` lead past it. -/
theorem Chain.bypass {l l' : Links P} {a p : P} {ps qs : List P} (h : l.Chain a (ps ++ p :: qs))
    (hnodup : (a :: ps).Nodup)
    (hseam : l'.next (ps.getLastD a) = qs.head?)
    (hback : ∀ c, qs.head? = some c → l'.prev c = some (ps.getLastD a))
    (hnext : ∀ x ∈ a :: ps ++ qs, x ≠ ps.getLastD a → l'.next x = l.next x)
    (hprev : ∀ x ∈ ps ++ qs, qs.head? ≠ some x → l'.prev x = l.prev x)
    (hqs : (ps ++ qs).Nodup) (hnot : ps.getLastD a ∉ qs) : l'.Chain a (ps ++ qs) := by
  induction ps generalizing a with
  | nil =>
      have hafter : l.Chain p qs := h.2.2
      cases qs with
      | nil => exact hseam
      | cons c qs =>
          refine ⟨hseam, hback c rfl, Chain.congr hafter.2.2 (fun x hx ↦ ?_) (fun x hx ↦ ?_)⟩
          · apply hnext x (List.mem_cons_of_mem a hx)
            exact fun heq ↦ hnot (heq ▸ hx)
          · apply hprev x (List.mem_cons_of_mem c hx)
            intro heq
            rw [List.head?_cons, Option.some.injEq] at heq
            rw [List.nil_append, List.nodup_cons] at hqs
            exact hqs.1 (heq ▸ hx)
  | cons y ps ih =>
      rw [List.getLastD_cons] at hseam hback hnext hnot
      obtain ⟨hay, hya, hrest⟩ := h
      have hlast : ps.getLastD y ∈ y :: ps := getLastD_mem_cons y ps
      have ha : a ≠ ps.getLastD y := fun heq ↦ (List.nodup_cons.mp hnodup).1 (heq ▸ hlast)
      have hy : qs.head? ≠ some y := by
        intro hhead
        have hmem : y ∈ qs := List.mem_of_head? hhead
        rw [List.cons_append, List.nodup_cons] at hqs
        exact hqs.1 (List.mem_append_right ps hmem)
      refine ⟨?_, ?_, ih hrest (List.nodup_cons.mp hnodup).2 hseam hback ?_ ?_ ?_ hnot⟩
      · rw [hnext a (by simp) ha]
        exact hay
      · rw [hprev y (by simp) hy]
        exact hya
      · exact fun x hx ↦ hnext x (List.mem_cons_of_mem a hx)
      · exact fun x hx ↦ hprev x (List.mem_cons_of_mem y hx)
      · exact (List.nodup_cons.mp hqs).2

variable [DecidableEq P]

def setNext (l : Links P) (p : P) (q : Option P) : Links P :=
  { l with next := Function.update l.next p q }

def setPrev (l : Links P) (p : P) (q : Option P) : Links P :=
  { l with prev := Function.update l.prev p q }

@[simp] theorem setNext_next_self (l : Links P) (p : P) (q : Option P) :
    (l.setNext p q).next p = q := by
  simp [setNext]

theorem setNext_next_of_ne (l : Links P) {p x : P} (q : Option P) (h : x ≠ p) :
    (l.setNext p q).next x = l.next x := by
  simp [setNext, h]

@[simp] theorem setNext_prev (l : Links P) (p : P) (q : Option P) : (l.setNext p q).prev = l.prev :=
  rfl

@[simp] theorem setPrev_next (l : Links P) (p : P) (q : Option P) : (l.setPrev p q).next = l.next :=
  rfl

@[simp] theorem setPrev_prev_self (l : Links P) (p : P) (q : Option P) :
    (l.setPrev p q).prev p = q := by
  simp [setPrev]

theorem setPrev_prev_of_ne (l : Links P) {p x : P} (q : Option P) (h : x ≠ p) :
    (l.setPrev p q).prev x = l.prev x := by
  simp [setPrev, h]

/-- Take the node `p` out, where a node comes before it. -/
def unlink (l : Links P) (p : P) : Option (Links P) :=
  (l.prev p).map fun before ↦
    let l := l.setNext before (l.next p)
    match l.next p with
    | none => l
    | some after => l.setPrev after (l.prev p)

/-- Put the node `p` back to where its own links say. -/
def relink (l : Links P) (p : P) : Option (Links P) :=
  (l.prev p).map fun before ↦
    let l := l.setNext before (some p)
    match l.next p with
    | none => l
    | some after => l.setPrev after (some p)

/-- A node that is linked in before the first one. -/
theorem Chain.cons {l : Links P} {a n : P} {ps : List P} (h : l.Chain a ps) (hn : n ∉ a :: ps)
    (ha : a ∉ ps) : ((l.setPrev a (some n)).setNext n (some a)).Chain n (a :: ps) := by
  refine ⟨by simp, by simp, h.congr (fun x hx ↦ ?_) (fun x hx ↦ ?_)⟩
  · exact setNext_next_of_ne _ _ fun heq ↦ hn (heq ▸ hx)
  · exact setPrev_prev_of_ne _ _ fun heq ↦ ha (heq ▸ hx)

/-- Unlinking shortens the chain and leaves the node's own links, and relinking undoes it. -/
theorem Chain.unlink {l : Links P} {a p : P} {ps qs : List P} (h : l.Chain a (ps ++ p :: qs))
    (hnodup : (a :: (ps ++ p :: qs)).Nodup) :
    ∃ l', l.unlink p = some l' ∧ l'.Chain a (ps ++ qs) ∧ l'.next p = l.next p ∧
      l'.relink p = some l := by
  obtain ⟨hto, hfrom⟩ := h.link_to
  have hafter : l.next p = qs.head? := h.append_right.next_eq_head?
  have hlast := getLastD_mem_cons a ps
  generalize hb : ps.getLastD a = b at hto hfrom hlast
  rw [← List.cons_append, List.nodup_append] at hnodup
  obtain ⟨hps, hpqs, hdisj⟩ := hnodup
  rw [List.nodup_cons] at hpqs
  have hbp : p ≠ b := fun heq ↦ hdisj b hlast p List.mem_cons_self heq.symm
  have hbqs : b ∉ qs := fun hmem ↦ hdisj b hlast b (List.mem_cons_of_mem p hmem) rfl
  have happ : (ps ++ qs).Nodup := by
    refine List.nodup_append.mpr ⟨(List.nodup_cons.mp hps).2, hpqs.2, ?_⟩
    exact fun x hx y hy ↦ hdisj x (List.mem_cons_of_mem a hx) y (List.mem_cons_of_mem p hy)
  cases qs with
  | nil =>
      rw [List.head?_nil] at hafter
      refine ⟨l.setNext b none, ?_, ?_, setNext_next_of_ne l none hbp, ?_⟩
      · simp [Links.unlink, hfrom, hafter, setNext_next_of_ne l none hbp]
      · apply h.bypass hps
        · rw [hb]
          exact setNext_next_self l b none
        · intro c hc
          cases hc
        · intro x _ hx
          rw [hb] at hx
          exact setNext_next_of_ne l none hx
        · exact fun x _ _ ↦ rfl
        · exact happ
        · exact List.not_mem_nil
      · simp only [Links.relink, setNext_prev, hfrom, Option.map_some]
        have hstay : ((l.setNext b none).setNext b (some p)).next p = none := by
          rw [setNext_next_of_ne _ _ hbp, setNext_next_of_ne _ _ hbp, hafter]
        rw [hstay]
        apply congrArg some
        ext1
        · show Function.update (Function.update l.next b none) b (some p) = l.next
          rw [Function.update_idem, ← hto, Function.update_eq_self]
        · rfl
  | cons c qs =>
      rw [List.head?_cons] at hafter
      have hcp : p ≠ c := fun heq ↦ hpqs.1 (heq ▸ List.mem_cons_self)
      have hback : l.prev c = some p := h.append_right.prev_of_head? rfl
      refine ⟨(l.setNext b (some c)).setPrev c (some b), ?_, ?_,
        setNext_next_of_ne l (some c) hbp, ?_⟩
      · simp [Links.unlink, hfrom, hafter, setNext_next_of_ne l (some c) hbp]
      · apply h.bypass hps
        · rw [hb]
          exact setNext_next_self l b (some c)
        · intro d hd
          rw [List.head?_cons, Option.some.injEq] at hd
          rw [← hd, hb]
          exact setPrev_prev_self _ c (some b)
        · intro x _ hx
          rw [hb] at hx
          exact setNext_next_of_ne l (some c) hx
        · intro x _ hx
          exact setPrev_prev_of_ne _ (some b) fun heq ↦ hx (by rw [heq, List.head?_cons])
        · exact happ
        · rw [hb]
          exact hbqs
      · simp only [Links.relink]
        have hprev : ((l.setNext b (some c)).setPrev c (some b)).prev p = some b := by
          rw [setPrev_prev_of_ne _ _ hcp]
          exact hfrom
        have hstay : (((l.setNext b (some c)).setPrev c (some b)).setNext b (some p)).next p =
            some c := by
          rw [setNext_next_of_ne _ _ hbp, setPrev_next, setNext_next_of_ne _ _ hbp, hafter]
        rw [hprev, Option.map_some]
        rw [hstay]
        apply congrArg some
        ext1
        · show Function.update (Function.update l.next b (some c)) b (some p) = l.next
          rw [Function.update_idem, ← hto, Function.update_eq_self]
        · show Function.update (Function.update l.prev c (some b)) c (some p) = l.prev
          rw [Function.update_idem, ← hback, Function.update_eq_self]

end Links

end Lab6824.Lib

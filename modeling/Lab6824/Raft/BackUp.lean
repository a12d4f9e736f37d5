import Mathlib.Order.Bounds.Basic
import Mathlib.Data.Int.LeastGreatest
import Lab6824.Raft.NextIndex

/-!
# BackUp — where a rejected `AppendEntries` takes the leader

A follower that has another term at `PrevLogIndex` answers with that term and the place where its
entries of the term begin.  The leader looks for its own last entry of the term and goes on after it,
or at the follower's place if it finds none.  Both searches stop at a dummy entry without looking at
it, and the leader's may have compacted away all but the last entry of the term.
-/

namespace Lab6824

variable {n : Nat} {C σ : Type} {gob : Gob (RaftImage n C) σ}

namespace Raft

/-! ## Terms at logic indices -/

/-- The term at a logic index, if the log still holds it (the dummy included). -/
def termAt (rf : Raft n C σ) (k : Int) : Option Int :=
  (rf.entryAt k).map Log.term

variable {rf : Raft n C σ} {j k t u : Int}

theorem termAt_add (rf : Raft n C σ) (d : Nat) :
    rf.termAt (rf.lastIncludedIndex + d) = (rf.log[d]?).map Log.term := by
  unfold termAt entryAt realIndex
  rw [add_sub_cancel_left, logAt_natCast]

theorem termAt_of_le (h : rf.lastIncludedIndex ≤ k) :
    rf.termAt k = (rf.log[(k - rf.lastIncludedIndex).toNat]?).map Log.term := by
  rw [← termAt_add, Int.toNat_of_nonneg (by omega), add_sub_cancel]

theorem range_of_termAt (h : rf.termAt k = some t) :
    rf.lastIncludedIndex ≤ k ∧ k ≤ rf.getLastLogIndex := by
  obtain ⟨e, he, _⟩ := Option.map_eq_some_iff.mp h
  obtain ⟨hpos, hlt, _⟩ := logAt_eq_some he
  rw [getLastLogIndex_eq]
  unfold realIndex at hpos hlt
  omega

theorem exists_termAt (hlo : rf.lastIncludedIndex ≤ k) (hhi : k ≤ rf.getLastLogIndex) :
    ∃ t, rf.termAt k = some t := by
  rw [getLastLogIndex_eq] at hhi
  rw [termAt_of_le hlo,
    List.getElem?_eq_getElem (show (k - rf.lastIncludedIndex).toNat < rf.log.length by omega)]
  exact ⟨_, rfl⟩

theorem termAt_mono (hsorted : TermsSorted rf.log) (hjk : j ≤ k) (hj : rf.termAt j = some t)
    (hk : rf.termAt k = some u) : t ≤ u := by
  have hlo := (range_of_termAt hj).1
  rw [termAt_of_le hlo] at hj
  rw [termAt_of_le (hlo.trans hjk)] at hk
  obtain ⟨a, ha, rfl⟩ := Option.map_eq_some_iff.mp hj
  obtain ⟨b, hb, rfl⟩ := Option.map_eq_some_iff.mp hk
  apply hsorted.le_of_take hb
  apply List.mem_of_getElem? (i := (j - rf.lastIncludedIndex).toNat)
  rw [List.getElem?_take_of_lt (by omega)]
  exact ha

/-! ## The follower's search -/

/-- The follower's search for the start of the entries of term `t` that end at `p` stops at `i`. -/
structure TermBegins (rf : Raft n C σ) (t p i : Int) : Prop where
  base_le : rf.lastIncludedIndex ≤ i
  le : i ≤ p
  run : ∀ k, i < k → k ≤ p → rf.termAt k = some t
  stop : rf.lastIncludedIndex < i → rf.termAt i ≠ some t

theorem conflictStart_spec {log : List (Log C)} {t : Int} {j i : Nat}
    (h : conflictStart log t j = some i) :
    (∀ k, i < k → k ≤ j → (log[k]?).map Log.term = some t) ∧
      (0 < i → (log[i]?).map Log.term ≠ some t) := by
  induction j with
  | zero =>
      rw [conflictStart, Option.some.injEq] at h
      subst h
      exact ⟨fun k _ _ ↦ by omega, fun hpos ↦ absurd hpos (lt_irrefl 0)⟩
  | succ j ih =>
      rw [conflictStart] at h
      split at h
      · cases h
      · rename_i e he
        split at h
        · rename_i hne
          rw [← Option.some.inj h]
          refine ⟨fun k _ _ ↦ by omega, fun _ hterm ↦ ?_⟩
          rw [he, Option.map_some, Option.some.injEq] at hterm
          exact hne hterm
        · rename_i heq
          obtain ⟨hrun, hstop⟩ := ih h
          refine ⟨fun k hik hk ↦ ?_, hstop⟩
          rcases Nat.le_succ_iff.mp hk with hle | rfl
          · exact hrun k hik hle
          · rw [he, Option.map_some, not_not.mp heq]

theorem TermBegins.of_conflictStart {p : Int} {i : Nat} (hp : rf.lastIncludedIndex ≤ p)
    (h : conflictStart rf.log t (rf.realIndex p).toNat = some i) :
    rf.TermBegins t p (rf.logicIndex i) := by
  have hle := conflictStart_le h
  obtain ⟨hrun, hstop⟩ := conflictStart_spec h
  unfold realIndex at hle hrun
  unfold logicIndex
  refine ⟨by omega, by omega, fun k hik hk ↦ ?_, fun hpos ↦ ?_⟩
  · rw [termAt_of_le (by omega)]
    exact hrun _ (by omega) (by omega)
  · rw [Int.add_comm, termAt_add]
    exact hstop (by omega)

/-- What a rejection for a mismatch says: the log is too short, or has the term of the reply at the
previous index. -/
theorem appendEntries_mismatch {rf' : Raft n C σ} {args : AppendEntriesArgs n C}
    {reply : AppendEntriesReply} (h : rf.appendEntries gob args = some (rf', reply))
    (hno : reply.success = false) (hterm : rf.currentTerm ≤ args.term)
    (hbase : rf.lastIncludedIndex ≤ args.prevLogIndex) :
    reply.term = args.term ∧
      (rf.getLastLogIndex < args.prevLogIndex ∧ reply.conflictTerm = -1 ∧
          reply.conflictIndex = rf.getLastLogIndex + 1 ∨
        rf.termAt args.prevLogIndex = some reply.conflictTerm ∧
          reply.conflictTerm ≠ args.prevLogTerm ∧
          rf.TermBegins reply.conflictTerm args.prevLogIndex (reply.conflictIndex - 1)) := by
  have hct := (appendStepDown_currentTerm_le gob rf args.term).mpr hterm
  have hge := le_appendStepDown_currentTerm gob rf args.term
  obtain ⟨hlog, hlast, _⟩ := indices_eq.mp (appendStepDown_indices gob rf args.term).2
  have hreal : (rf.appendStepDown gob args.term).realIndex = rf.realIndex := by
    unfold realIndex
    rw [hlast]
  have hend : (rf.appendStepDown gob args.term).getLastLogIndex = rf.getLastLogIndex := by
    rw [getLastLogIndex_eq, getLastLogIndex_eq, hlog, hlast]
  unfold appendEntries at h
  dsimp only at h
  rw [if_neg (not_lt.mpr hct), hreal, hend, hlog] at h
  split at h
  · -- the previous index is not before the log, so it is past its end
    rename_i hout
    simp only [Option.some.injEq, Prod.mk.injEq] at h
    rw [← h.2]
    refine ⟨le_antisymm hct hge, Or.inl ⟨?_, rfl, rfl⟩⟩
    unfold realIndex at hout
    omega
  · split at h
    · cases h
    · rename_i prev hprev
      split at h
      · rename_i hne
        split at h
        · cases h
        · rename_i i hi
          simp only [Option.some.injEq, Prod.mk.injEq] at h
          rw [← h.2]
          have hindex : (rf.appendStepDown gob args.term).logicIndex ((i : Int) + 1) - 1 =
              rf.logicIndex i := by
            unfold logicIndex
            rw [hlast]
            omega
          dsimp only
          rw [hindex]
          refine ⟨le_antisymm hct hge, Or.inr ⟨?_, hne, .of_conflictStart hbase hi⟩⟩
          unfold termAt entryAt
          rw [hprev]
          rfl
      · simp only [Option.some.injEq, Prod.mk.injEq] at h
        rw [← h.2] at hno
        cases hno

/-! ## The leader's search -/

theorem lastOfTerm_spec {log : List (Log C)} (t : Int) {j : Nat} (hj : j < log.length) :
    ∃ i, lastOfTerm log t j = some i ∧ i ≤ j ∧
      (∀ k, i < k → k ≤ j → (log[k]?).map Log.term ≠ some t) ∧
      (0 < i → (log[i]?).map Log.term = some t) := by
  induction j with
  | zero => exact ⟨0, rfl, le_refl 0, fun k _ _ ↦ by omega, fun hpos ↦ absurd hpos (lt_irrefl 0)⟩
  | succ j ih =>
      have he := List.getElem?_eq_getElem hj
      rw [lastOfTerm, he]
      dsimp only
      split
      · rename_i heq
        refine ⟨j + 1, rfl, le_refl _, fun k _ _ ↦ by omega, fun _ ↦ ?_⟩
        rw [he, Option.map_some, heq]
      · rename_i hne
        obtain ⟨i, hi, hle, habsent, hfound⟩ := ih (by omega)
        refine ⟨i, hi, by omega, fun k hik hk ↦ ?_, hfound⟩
        rcases Nat.le_succ_iff.mp hk with hle' | rfl
        · exact habsent k hik hle'
        · rw [he, Option.map_some, ne_eq, Option.some.injEq]
          exact hne

/-- Where a conflict at term `t`, which begins at `c`, takes the leader: after its own last entry of
the term, or to `c`. -/
inductive NextAfter (rf : Raft n C σ) (t c : Int) : Int → Prop where
  | found (k : Int) (hterm : t ≠ -1) (hk : rf.lastIncludedIndex < k) (hat : rf.termAt k = some t)
      (hlast : ∀ k', k < k' → rf.termAt k' ≠ some t) : NextAfter rf t c (k + 1)
  | absent (hno : t = -1 ∨ ∀ k, rf.lastIncludedIndex < k → rf.termAt k ≠ some t) :
      NextAfter rf t c c

theorem backUp_next (hne : rf.log ≠ []) (reply : AppendEntriesReply) :
    ∃ next, rf.backUp reply = some next ∧
      rf.NextAfter reply.conflictTerm reply.conflictIndex next := by
  have hlen := List.length_pos_iff.mpr hne
  unfold backUp
  by_cases hmarker : reply.conflictTerm = -1
  · rw [if_pos hmarker]
    exact ⟨_, rfl, .absent (Or.inl hmarker)⟩
  · rw [if_neg hmarker]
    obtain ⟨i, hi, hle, habsent, hfound⟩ :=
      lastOfTerm_spec reply.conflictTerm (show rf.log.length - 1 < rf.log.length by omega)
    have hlt : i < rf.log.length := by omega
    -- the search has looked at every entry after `i`
    have hafter : ∀ k, rf.lastIncludedIndex + i < k → rf.termAt k ≠ some reply.conflictTerm := by
      intro k hk hat
      have hrange := range_of_termAt hat
      rw [getLastLogIndex_eq] at hrange
      rw [termAt_of_le (by omega)] at hat
      exact habsent _ (by omega) (by omega) hat
    rw [hi]
    dsimp only
    rw [List.getElem?_eq_getElem hlt]
    dsimp only
    by_cases hzero : i = 0
    · rw [if_pos (Or.inl hzero)]
      refine ⟨_, rfl, .absent (Or.inr fun k hk ↦ hafter k ?_)⟩
      omega
    · have hat := hfound (by omega)
      rw [List.getElem?_eq_getElem hlt, Option.map_some, Option.some.injEq] at hat
      rw [if_neg (by push Not; exact ⟨hzero, hat⟩)]
      have hnext : rf.logicIndex ((i : Int) + 1) = rf.lastIncludedIndex + i + 1 := by
        unfold logicIndex
        omega
      rw [hnext]
      refine ⟨_, rfl, .found _ hmarker (by omega) ?_ hafter⟩
      rw [termAt_add, List.getElem?_eq_getElem hlt, Option.map_some, hat]

/-- A leader that gets a rejection of its own term goes to where its search leads. -/
theorem handleAppendEntriesReply_rejected (gob : Gob (RaftImage n C) σ)
    (args : AppendEntriesArgs n C) (reply : AppendEntriesReply) (server : Fin n) (hne : rf.log ≠ [])
    (hlead : rf.Leads reply.sendTerm) (hterm : reply.term ≤ rf.currentTerm)
    (hno : reply.success = false) :
    ∃ next, rf.NextAfter reply.conflictTerm reply.conflictIndex next ∧
      rf.handleAppendEntriesReply gob args reply server =
        some { rf with nextIndex := Function.update rf.nextIndex server next } := by
  obtain ⟨next, hnext, hafter⟩ := backUp_next hne reply
  refine ⟨next, hafter, ?_⟩
  unfold handleAppendEntriesReply
  dsimp only
  have hstay : rf.stepDown gob reply.term = rf := if_neg (not_lt.mpr hterm)
  have hcurrent : ¬ (rf.state ≠ .leader ∨ reply.sendTerm ≠ rf.currentTerm) := by
    push Not
    exact ⟨hlead.1, hlead.2.symm⟩
  rw [hstay, if_neg hcurrent, hno, hnext]
  rfl

/-! ## Two logs -/

/-- Both logs hold the index, with the same term. -/
def Shares (lead fol : Raft n C σ) (k : Int) : Prop :=
  ∃ t, lead.termAt k = some t ∧ fol.termAt k = some t

/-- Logs as a leader and a follower may have them: in order, equal below a shared index as far as
both go back, and both holding the later of the two boundaries. -/
structure Compatible (lead fol : Raft n C σ) : Prop where
  sorted : TermsSorted lead.log
  sorted' : TermsSorted fol.log
  matching : ∀ j k, j ≤ k → lead.Shares fol k →
    ∀ t u, lead.termAt j = some t → fol.termAt j = some u → t = u
  boundary : lead.Shares fol (max lead.lastIncludedIndex fol.lastIncludedIndex)

/-- `next` lies after the last index up to `p` that the logs share, and not after `p`. -/
def Between (lead fol : Raft n C σ) (p next : Int) : Prop :=
  ∃ m, IsGreatest {k | k ≤ p ∧ lead.Shares fol k} m ∧ m + 1 ≤ next ∧ next ≤ p

/-- The search for the term that the follower has at `p` leads to the right place.  If the leader has
entries of that term, they lie before `p`; if its search finds none, no entry of the follower of that
term is shared, not even with the dummy entry of the leader. -/
structure SearchFits (lead fol : Raft n C σ) (p : Int) : Prop where
  found : ∀ t u, fol.termAt p = some t → lead.termAt p = some u → t ≠ -1 →
    (∃ k, lead.lastIncludedIndex < k ∧ lead.termAt k = some t) → t < u
  absent : ∀ t, fol.termAt p = some t →
    (t = -1 ∨ ∀ k, lead.lastIncludedIndex < k → lead.termAt k ≠ some t) →
    ∀ k, fol.lastIncludedIndex < k → k ≤ p → fol.termAt k = some t → lead.termAt k ≠ some t

section TwoLogs

variable {lead fol : Raft n C σ} {p next c i : Int}

theorem Compatible.exists_greatest (h : lead.Compatible fol) (hlead : lead.lastIncludedIndex ≤ p)
    (hfol : fol.lastIncludedIndex ≤ p) :
    ∃ m, IsGreatest {k | k ≤ p ∧ lead.Shares fol k} m ∧ lead.lastIncludedIndex ≤ m := by
  obtain ⟨m, hm, hmax⟩ := Int.exists_greatest_of_bdd
    (P := fun k ↦ k ≤ p ∧ lead.Shares fol k) ⟨p, fun _ hk ↦ hk.1⟩
    ⟨_, max_le hlead hfol, h.boundary⟩
  refine ⟨m, ⟨hm, fun k hk ↦ hmax k hk⟩, ?_⟩
  exact (le_max_left _ _).trans (hmax _ ⟨max_le hlead hfol, h.boundary⟩)

/-- After an entry of the leader of the term `t` of the follower. -/
theorem Compatible.between_found (h : lead.Compatible fol) {m k : Int}
    (hm : IsGreatest {k | k ≤ p ∧ lead.Shares fol k} m) (hp : fol.termAt p = some t)
    (hu : lead.termAt p = some u) (hne : t ≠ u) (hk : lead.termAt k = some t)
    (hlast : ∀ k', k < k' → lead.termAt k' ≠ some t) :
    m + 1 ≤ k + 1 ∧ k + 1 ≤ p ↔ t < u := by
  constructor
  · rintro ⟨_, hkp⟩
    have hle := termAt_mono h.sorted (show k ≤ p by omega) hk hu
    omega
  · intro hlt
    obtain ⟨hmp, x, hx, hx'⟩ := hm.1
    have hbefore : k < p := by
      by_contra hafter
      have hle := termAt_mono h.sorted (not_lt.mp hafter) hu hk
      omega
    refine ⟨?_, by omega⟩
    by_contra hkm
    have hge := termAt_mono h.sorted (show k ≤ m by omega) hk hx
    have hle := termAt_mono h.sorted' hmp hx' hp
    exact hlast m (by omega) (by rw [hx]; congr 1; omega)

/-- At the place where the entries of the follower of the term begin. -/
theorem Compatible.between_absent (h : lead.Compatible fol) {m : Int}
    (hm : IsGreatest {k | k ≤ p ∧ lead.Shares fol k} m) (hlead : lead.lastIncludedIndex ≤ p)
    (hp : fol.termAt p = some t) (hu : lead.termAt p = some u) (hne : t ≠ u)
    (hbegins : fol.TermBegins t p i) :
    m + 1 ≤ i + 1 ∧ i + 1 ≤ p ↔
      ∀ k, fol.lastIncludedIndex < k → k ≤ p → fol.termAt k = some t → lead.termAt k ≠ some t := by
  have hbase := hbegins.base_le
  have hip : i < p := by
    rcases hbegins.le.lt_or_eq with hlt | rfl
    · exact hlt
    · -- the rejected entry is not the dummy: there the logs agree
      rcases hbase.lt_or_eq with hafter | heq
      · exact absurd hp (hbegins.stop hafter)
      · obtain ⟨x, hx, hx'⟩ := h.boundary
        rw [max_eq_right (by omega), heq] at hx hx'
        rw [hu, Option.some.injEq] at hx
        rw [hp, Option.some.injEq] at hx'
        exact absurd (hx'.trans hx.symm) hne
  constructor
  · rintro ⟨hmi, _⟩ k hbk hkp hk hk'
    have hkm := hm.2 ⟨hkp, t, hk', hk⟩
    obtain ⟨x, hx⟩ := exists_termAt hbase (hbegins.le.trans (range_of_termAt hp).2)
    have hge := termAt_mono h.sorted' (show k ≤ i by omega) hk hx
    have hle := termAt_mono h.sorted' hbegins.le hx hp
    exact hbegins.stop (by omega) (by rw [hx]; congr 1; omega)
  · intro hfree
    obtain ⟨hmp, x, hx, hx'⟩ := hm.1
    refine ⟨?_, by omega⟩
    by_contra him
    have hrun := hbegins.run m (by omega) hmp
    rw [hx', Option.some.injEq] at hrun
    exact hfree m (by omega) hmp (hrun ▸ hx') (hrun ▸ hx)

/-- Where a rejection for another term at `p` takes the leader. -/
theorem Compatible.between_iff (h : lead.Compatible fol) (hlead : lead.lastIncludedIndex ≤ p)
    (hp : fol.termAt p = some t) (hu : lead.termAt p = some u) (hne : t ≠ u)
    (hbegins : fol.TermBegins t p (c - 1)) (hnext : lead.NextAfter t c next) :
    lead.Between fol p next ↔ lead.SearchFits fol p := by
  obtain ⟨m, hm, _⟩ := h.exists_greatest hlead (range_of_termAt hp).1
  have hunique : lead.Between fol p next ↔ m + 1 ≤ next ∧ next ≤ p :=
    ⟨fun ⟨_, hm', hb⟩ ↦ hm'.unique hm ▸ hb, fun hb ↦ ⟨m, hm, hb⟩⟩
  rw [hunique]
  cases hnext with
  | found k hterm hk hat hlast =>
      rw [h.between_found hm hp hu hne hat hlast]
      constructor
      · intro hlt
        refine ⟨fun t' u' ht hu' _ _ ↦ ?_, fun t' ht hno ↦ ?_⟩
        · rw [hp, Option.some.injEq] at ht
          rw [hu, Option.some.injEq] at hu'
          omega
        · rw [hp, Option.some.injEq] at ht
          subst ht
          exact absurd hat ((hno.resolve_left hterm) k hk)
      · intro hfits
        exact hfits.found _ u hp hu hterm ⟨k, hk, hat⟩
  | absent hno =>
      have hplace := h.between_absent hm hlead hp hu hne hbegins
      rw [Int.sub_add_cancel] at hplace
      rw [hplace]
      constructor
      · intro hfree
        refine ⟨fun t' u' ht _ hterm hex ↦ ?_, fun t' ht _ ↦ ?_⟩
        · rw [hp, Option.some.injEq] at ht
          subst ht
          obtain ⟨k, hk, hat⟩ := hex
          exact absurd hat ((hno.resolve_left hterm) k hk)
        · rw [hp, Option.some.injEq] at ht
          subst ht
          exact hfree
      · intro hfits
        exact hfits.absent _ hp hno

/-- Where a rejection by a follower whose log ends before `p` takes the leader. -/
theorem Compatible.between_short (h : lead.Compatible fol) (hlead : lead.lastIncludedIndex ≤ p)
    (hfol : fol.lastIncludedIndex ≤ p) (hshort : fol.getLastLogIndex < p)
    (hmarker : t = -1) (hindex : c = fol.getLastLogIndex + 1) (hnext : lead.NextAfter t c next) :
    lead.Between fol p next ∧ lead.SearchFits fol p := by
  obtain ⟨m, hm, _⟩ := h.exists_greatest hlead hfol
  obtain ⟨_, x, _, hx⟩ := hm.1
  have hlast := (range_of_termAt hx).2
  have hnone : ∀ t, fol.termAt p ≠ some t := fun t ht ↦ by
    have hrange := (range_of_termAt ht).2
    omega
  refine ⟨?_, fun t _ ht ↦ absurd ht (hnone t), fun t ht ↦ absurd ht (hnone t)⟩
  cases hnext with
  | found k hterm => exact absurd hmarker hterm
  | absent => exact ⟨m, hm, by omega, by omega⟩

end TwoLogs

/-- What a rejection of the request with previous index `p` should do to the next index of the
server: it comes to lie between the logs' last shared index and `p`, which is further down than
before and does not make the leader send a snapshot. -/
def BacksUp (lead fol lead' : Raft n C σ) (server : Fin n) (p : Int) : Prop :=
  lead.Between fol p (lead'.nextIndex server) ∧
    lead'.nextIndex server < lead.nextIndex server ∧
    ∀ install, lead'.onRound server ≠ some (.snapshot install)

end Raft

/-- A request that a leader has built from its log and a follower rejects for a mismatch takes the
leader to where it should exactly if its search fits the follower's log. -/
theorem backs_up_iff_search_fits {lead fol fol' : Raft n C σ} {server : Fin n}
    {args : AppendEntriesArgs n C} {reply : AppendEntriesReply} (hlogs : lead.Compatible fol)
    (hround : lead.onRound server = some (.append args))
    (hbase : fol.lastIncludedIndex ≤ args.prevLogIndex)
    (hrej : fol.appendEntries gob args = some (fol', reply)) (hno : reply.success = false)
    (hterm : fol.currentTerm ≤ args.term) :
    ∃ lead', lead.handleAppendEntriesReply gob args { reply with sendTerm := args.term } server =
        some lead' ∧
      (lead.BacksUp fol lead' server args.prevLogIndex ↔
        lead.SearchFits fol args.prevLogIndex) := by
  obtain ⟨hlead, hge, index, prev, hindex, hprev, hargs⟩ := Raft.onRound_append hround
  have hne : lead.log ≠ [] := by
    intro hnil
    rw [hnil, List.getElem?_nil] at hprev
    cases hprev
  have hp : args.prevLogIndex = lead.nextIndex server - 1 := by rw [hargs]
  have hu : lead.termAt args.prevLogIndex = some args.prevLogTerm := by
    rw [hp, hargs, Raft.termAt_of_le hge]
    unfold Raft.realIndex at hindex
    rw [hindex, Int.toNat_natCast, hprev]
    rfl
  rw [← hp] at hge
  obtain ⟨hreply, hwhy⟩ := Raft.appendEntries_mismatch hrej hno hterm hbase
  have hsent : lead.Leads args.term := ⟨hlead, by rw [hargs]⟩
  have hcurrent : reply.term ≤ lead.currentTerm := by
    rw [hreply, ← hsent.2]
  obtain ⟨next, hnext, hhandle⟩ := Raft.handleAppendEntriesReply_rejected gob args
    { reply with sendTerm := args.term } server hne hsent hcurrent hno
  refine ⟨_, hhandle, ?_⟩
  have hbetween : lead.Between fol args.prevLogIndex next ↔
      lead.SearchFits fol args.prevLogIndex := by
    rcases hwhy with ⟨hshort, hmarker, hci⟩ | ⟨hat, hdiff, hbegins⟩
    · have hboth := hlogs.between_short hge hbase hshort hmarker hci hnext
      exact iff_of_true hboth.1 hboth.2
    · exact hlogs.between_iff hge hat hu hdiff hbegins hnext
  rw [← hbetween]
  unfold Raft.BacksUp
  dsimp only
  rw [Function.update_self]
  refine ⟨And.left, fun hb ↦ ⟨hb, ?_⟩⟩
  obtain ⟨m, hm, hmnext, hnextp⟩ := hb
  refine ⟨by omega, fun install hsnap ↦ ?_⟩
  -- the shared boundary is not before the leader's own
  obtain ⟨_, hlow, _⟩ := Raft.onRound_snapshot hsnap
  dsimp only at hlow
  rw [Function.update_self] at hlow
  have hmax := hm.2 ⟨max_le hge hbase, hlogs.boundary⟩
  have hleft := le_max_left lead.lastIncludedIndex fol.lastIncludedIndex
  omega

/-- Server 2 leads term 1, commits its first command and keeps the second to itself.  Server 0
compacts the first, leads term 2, restarts with a command of that term and leads term 3. -/
def boundaryRun : List (Action 3 Nat (RaftImage 3 Nat)) :=
  let vote (rpc : Nat) (term : Int) (candidate : Fin 3) (index last : Int) :
      Envelope 3 (RequestVoteArgs 3) := ⟨rpc, 1, ⟨term, candidate, index, last⟩⟩
  let yes (term : Int) : RequestVoteReply := { term := term, voteGranted := true }
  let append (rpc : Nat) (dst : Fin 3) (index last : Int) (entries : List (Log Nat)) (commit : Int) :
      Envelope 3 (AppendEntriesArgs 3 Nat) := ⟨rpc, dst, ⟨1, 2, index, last, entries, commit⟩⟩
  let x : Log Nat := ⟨some 5, 1⟩
  [ .electTimeout 2, .electRound 2 0, .electRound 2 0, .requestVote (vote 1 1 2 0 0),
    .voteReply 2 0 (vote 1 1 2 0 0) (yes 1), .start 2 (some 5),
    .onRound 2 0, .appendEntries (append 2 0 0 0 [x] 0),
    .appendReply 2 (append 2 0 0 0 [x] 0) { term := 1, success := true },
    .onRound 2 1, .appendEntries (append 3 1 0 0 [x] 1),
    .onRound 2 0, .appendEntries (append 4 0 1 1 [] 1),
    .wakeApplier 0, .updateApplied 0, .sendCommand 0, .serviceDone 0, .snapshot 0 1 [bootImage],
    .start 2 (some 6),
    -- term 2
    .electTimeout 0, .electRound 0 0, .electRound 0 0, .requestVote (vote 5 2 0 1 1),
    .voteReply 0 0 (vote 5 2 0 1 1) (yes 2), .start 0 (some 7), .crash 0,
    -- term 3
    .electTimeout 0, .electRound 0 0, .electRound 0 0, .requestVote (vote 6 3 0 2 2),
    .voteReply 0 0 (vote 6 3 0 2 2) (yes 3), .onRound 0 2 ]

/-- In term 3 server 2 rejects the request with previous index 2.  Both logs have term 1 at index 1,
but that is the dummy entry of server 0, whose search does not look at it: the next index becomes 1,
and server 0 is going to send the snapshot of index 1. -/
theorem backs_up_past_boundary :
    ∃ w, Lib.run (World.step (Gob.plain (RaftImage 3 Nat))) World.init boundaryRun = some w ∧
      (w.nodes 0).rf.Compatible (w.nodes 2).rf ∧
      ∃ args fol' reply lead', (w.nodes 0).rf.onRound 2 = some (.append args) ∧
        args.prevLogIndex = 2 ∧ (w.nodes 2).rf.lastIncludedIndex = 0 ∧
        (w.nodes 2).rf.appendEntries (Gob.plain (RaftImage 3 Nat)) args = some (fol', reply) ∧
        reply.success = false ∧ (w.nodes 2).rf.currentTerm ≤ args.term ∧
        (w.nodes 0).rf.handleAppendEntriesReply (Gob.plain (RaftImage 3 Nat)) args
          { reply with sendTerm := args.term } 2 = some lead' ∧
        lead'.nextIndex 2 = 1 ∧ (w.nodes 0).rf.Shares (w.nodes 2).rf 1 ∧
        ¬ (w.nodes 0).rf.BacksUp (w.nodes 2).rf lead' 2 args.prevLogIndex := by
  let gob := Gob.plain (RaftImage 3 Nat)
  let args : AppendEntriesArgs 3 Nat := ⟨3, 0, 2, 2, [], 0⟩
  let reply : AppendEntriesReply := { term := 3, conflictTerm := 1, conflictIndex := 1 }
  have hcheck : (Lib.run (World.step gob) World.init boundaryRun).any (fun w ↦
      decide ((w.nodes 0).rf.onRound 2 = some (.append args) ∧
        ((w.nodes 2).rf.appendEntries gob args).map Prod.snd = some reply ∧
        ((w.nodes 0).rf.handleAppendEntriesReply gob args { reply with sendTerm := 3 } 2).map
          (fun rf ↦ rf.nextIndex 2) = some 1 ∧
        (w.nodes 2).rf.currentTerm ≤ 3 ∧ (w.nodes 2).rf.lastIncludedIndex = 0 ∧
        (w.nodes 0).rf.lastIncludedIndex = 1 ∧ (w.nodes 0).rf.getLastLogIndex = 2 ∧
        ((w.nodes 0).rf.log.map Log.term).Pairwise (· ≤ ·) ∧
        ((w.nodes 2).rf.log.map Log.term).Pairwise (· ≤ ·) ∧
        (w.nodes 0).rf.termAt 1 = some 1 ∧ (w.nodes 2).rf.termAt 1 = some 1 ∧
        (w.nodes 0).rf.termAt 2 = some 2 ∧ (w.nodes 2).rf.termAt 2 = some 1)) = true := by
    decide +kernel
  obtain ⟨w, hrun, hw⟩ := Lib.exists_run_of_any hcheck
  obtain ⟨hround, hreply, hnext, hterm, hbase, hlead, hlast, hsorted, hsorted', hl₁, hf₁, hl₂, hf₂⟩ :=
    of_decide_eq_true hw
  obtain ⟨⟨fol', reply'⟩, hrej, rfl⟩ := Option.map_eq_some_iff.mp hreply
  obtain ⟨lead', hhandle, hindex⟩ := Option.map_eq_some_iff.mp hnext
  have hshares : (w.nodes 0).rf.Shares (w.nodes 2).rf 1 := ⟨1, hl₁, hf₁⟩
  refine ⟨w, hrun, ⟨List.pairwise_map.mp hsorted, List.pairwise_map.mp hsorted', ?_, ?_⟩,
    args, fol', reply, lead', hround, rfl, hbase, hrej, rfl, hterm, hhandle, hindex, hshares, ?_⟩
  · rintro j k hjk ⟨x, hx, hx'⟩ t u ht hu
    have hj := (Raft.range_of_termAt ht).1
    have hk := (Raft.range_of_termAt hx).2
    rw [hlead] at hj
    rw [hlast] at hk
    obtain rfl | rfl : k = 1 ∨ k = 2 := by omega
    · obtain rfl : j = 1 := by omega
      rw [hl₁, Option.some.injEq] at ht
      rw [hf₁, Option.some.injEq] at hu
      omega
    · rw [hl₂, Option.some.injEq] at hx
      rw [hf₂, Option.some.injEq] at hx'
      omega
  · rw [hlead, hbase]
    exact hshares
  · rintro ⟨⟨m, hm, hle, _⟩, _⟩
    have hge := hm.2 ⟨show (1 : Int) ≤ args.prevLogIndex by decide, hshares⟩
    omega

/-- A leader of term 4 that has compacted index 1 and has the terms 1, 1, 2, 3, 3 at 2 to 6. -/
def searchingLeader : Raft 3 Nat (RaftImage 3 Nat) :=
  let boot : Raft 3 Nat (RaftImage 3 Nat) := Raft.fresh 0 {}
  { boot with
    currentTerm := 4
    log := [⟨none, 1⟩, ⟨some 2, 1⟩, ⟨some 3, 1⟩, ⟨some 4, 2⟩, ⟨some 5, 3⟩, ⟨some 6, 3⟩]
    state := .leader
    nextIndex := fun _ ↦ 7
    lastIncludedIndex := 1
    lastIncludedTerm := 1 }

/-- A follower that has compacted index 2 and has the terms 1, 2, 2, 2 at 3 to 6. -/
def searchedFollower : Raft 3 Nat (RaftImage 3 Nat) :=
  let boot : Raft 3 Nat (RaftImage 3 Nat) := Raft.fresh 1 {}
  { boot with
    currentTerm := 2
    log := [⟨none, 1⟩, ⟨some 3, 1⟩, ⟨some 4, 2⟩, ⟨some 7, 2⟩, ⟨some 8, 2⟩]
    lastIncludedIndex := 2
    lastIncludedTerm := 1 }

/-- The follower rejects previous index 6, where it has term 2, and answers with index 4, where its
entries of that term begin.  The leader finds its last entry of term 2 at the same index, the last
that the logs share, and goes on from index 5. -/
theorem backs_up_to_conflicting_term :
    let gob := Gob.plain (RaftImage 3 Nat)
    let args : AppendEntriesArgs 3 Nat := ⟨4, 0, 6, 3, [], 0⟩
    let reply : AppendEntriesReply := { term := 4, conflictTerm := 2, conflictIndex := 4 }
    ∃ fol' lead', searchedFollower.appendEntries gob args = some (fol', reply) ∧
      searchingLeader.handleAppendEntriesReply gob args { reply with sendTerm := 4 } 1 =
        some lead' ∧
      lead'.nextIndex 1 = 5 ∧ searchingLeader.BacksUp searchedFollower lead' 1 6 := by
  intro gob args reply
  have hlow : ∀ k, 2 ≤ k → k ≤ 4 → searchingLeader.termAt k = searchedFollower.termAt k := by
    intro k hge hle
    obtain rfl | rfl | rfl : k = 2 ∨ k = 3 ∨ k = 4 := by omega
    · rfl
    · rfl
    · rfl
  have hhigh : ∀ k, 4 < k → ¬ searchingLeader.Shares searchedFollower k := by
    rintro k hlt ⟨t, hl, hf⟩
    have hle : k ≤ 6 := (Raft.range_of_termAt hf).2
    obtain rfl | rfl : k = 5 ∨ k = 6 := by omega
    · exact absurd (hl.trans hf.symm) (by decide)
    · exact absurd (hl.trans hf.symm) (by decide)
  have hlogs : searchingLeader.Compatible searchedFollower := by
    refine ⟨show List.Pairwise _ _ by decide, show List.Pairwise _ _ by decide, ?_, 1, rfl, rfl⟩
    intro j k hjk hshares t u ht hu
    have hk : k ≤ 4 := not_lt.mp fun hlt ↦ hhigh k hlt hshares
    have hj : 2 ≤ j := (Raft.range_of_termAt hu).1
    rw [hlow j hj (hjk.trans hk)] at ht
    exact Option.some.inj (ht.symm.trans hu)
  obtain ⟨lead', hhandle, hiff⟩ := backs_up_iff_search_fits hlogs
    (show searchingLeader.onRound 1 = some (.append args) from rfl) (by decide)
    (show searchedFollower.appendEntries gob args = some (_, reply) from rfl) rfl (by decide)
  have hnext : (searchingLeader.handleAppendEntriesReply gob args { reply with sendTerm := 4 } 1).map
      (fun rf ↦ rf.nextIndex 1) = some 5 := rfl
  refine ⟨_, lead', rfl, hhandle, ?_, hiff.mpr ⟨?_, ?_⟩⟩
  · rw [hhandle] at hnext
    exact Option.some.inj hnext
  · intro t u ht hu _ _
    obtain rfl : 2 = t := Option.some.inj ht
    obtain rfl : 3 = u := Option.some.inj hu
    decide
  · -- the search of the leader does find the term
    intro t ht hnone
    obtain rfl : 2 = t := Option.some.inj ht
    exact absurd rfl (hnone.resolve_left (by decide) 4 (by decide))

end Lab6824

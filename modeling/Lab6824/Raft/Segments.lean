import Lab6824.Lib.Segment
import Lab6824.Raft.Boundary
import Lab6824.Raft.Leader

/-!
# Segments — logs with a dummy entry as parts of logs

The log of a server is the segment after its snapshot, with the term of the dummy entry in front, and
so is what an `AppendEntries` request carries after its previous entry.  `step_segment` says what a
step can make of the segment of a server, if a snapshot that is accepted fits the log and a restart
finds the term of the dummy entry where it looks for it.
-/

namespace Lab6824

variable {n : Nat} {C σ : Type} {gob : Gob (RaftImage n C) σ}

open Lib (Segment)
open Lib.Segment (Part)

/-! ## Lists with a dummy entry -/

/-- The list as a segment whose first element is the dummy entry at `base`. -/
def segmentOf (base : Int) (log : List (Log C)) : Segment (Log C) :=
  ⟨base, (log.head?.map Log.term).getD 0, log.tail⟩

section SegmentOf

variable {base i : Int} {log entries : List (Log C)} {p : Nat}

theorem segmentOf_entryAt (h : base < i) :
    (segmentOf base log).entryAt i = logAt log (i - base) := by
  obtain ⟨m, hm⟩ : ∃ m : Nat, i = base + 1 + m := ⟨(i - base - 1).toNat, by omega⟩
  rw [hm, show base + 1 + m - base = ((m + 1 : Nat) : Int) by omega, logAt_natCast,
    ← List.getElem?_tail]
  exact Segment.entryAt_add (segmentOf base log) m

theorem segmentOf_termAt (hne : log ≠ []) (i : Int) :
    (segmentOf base log).termAt i = (logAt log (i - base)).map Log.term := by
  obtain ⟨d, rest, rfl⟩ := List.exists_cons_of_ne_nil hne
  by_cases hlt : base < i
  · rw [Segment.termAt_of_ne (by show i ≠ base; omega), segmentOf_entryAt hlt]
    rfl
  · by_cases heq : i = base
    · subst heq
      rw [show i - i = ((0 : Nat) : Int) by omega, logAt_natCast]
      exact Segment.termAt_base _
    · have hno : logAt (d :: rest) (i - base) = none := if_pos (by omega)
      rw [hno, Segment.termAt_of_ne (by show i ≠ base; omega), Segment.entryAt, if_neg (by exact hlt)]
      rfl

theorem segmentOf_last (hne : log ≠ []) : (segmentOf base log).last = log.length - 1 + base := by
  have hpos := List.length_pos_iff.mpr hne
  unfold Segment.last segmentOf
  dsimp only
  rw [List.length_tail]
  omega

/-- The list from the entry at `p` on, of which only the term is kept. -/
theorem part_of_drop {e : Log C} (he : log[p]? = some e) :
    Part ⟨base + p, e.term, log.drop (p + 1)⟩ (segmentOf base log) ∧
      Segment.last ⟨base + p, e.term, log.drop (p + 1)⟩ = (segmentOf base log).last := by
  have hlt := (List.getElem?_eq_some_iff.mp he).1
  have hne : log ≠ [] := List.ne_nil_of_length_pos (by omega)
  refine ⟨⟨?_, fun i a ha ↦ ?_⟩, ?_⟩
  · rw [segmentOf_termAt hne]
    dsimp only
    rw [show base + p - base = ((p : Nat) : Int) by omega, logAt_natCast, he]
    rfl
  · have hlo : base + p < i := (Segment.range_of_entryAt ha).1
    rw [Segment.entryAt_of_lt hlo, List.getElem?_drop] at ha
    dsimp only at ha
    have hi : i - base = ((p + 1 + (i - (base + p) - 1).toNat : Nat) : Int) := by omega
    rw [segmentOf_entryAt (by omega), hi, logAt_natCast]
    exact ha
  · rw [segmentOf_last hne]
    unfold Segment.last
    dsimp only
    rw [List.length_drop]
    omega

theorem segmentOf_concat (hne : log ≠ []) (e : Log C) :
    segmentOf base (log ++ [e]) = (segmentOf base log).push e := by
  obtain ⟨d, rest, rfl⟩ := List.exists_cons_of_ne_nil hne
  rfl

theorem segmentOf_take_append (hlt : p < log.length) (term : Int) :
    segmentOf base (log.take (p + 1) ++ entries)
      = (segmentOf base log).splice ⟨base + p, term, entries⟩ := by
  have hne : log ≠ [] := List.ne_nil_of_length_pos (by omega)
  obtain ⟨d, rest, rfl⟩ := List.exists_cons_of_ne_nil hne
  unfold segmentOf Segment.splice
  dsimp only
  rw [show (base + p - base).toNat = p by omega]
  rfl

end SegmentOf

/-! ## Servers and requests -/

def Raft.segment (rf : Raft n C σ) : Segment (Log C) :=
  segmentOf rf.lastIncludedIndex rf.log

def AppendEntriesArgs.segment (args : AppendEntriesArgs n C) : Segment (Log C) :=
  ⟨args.prevLogIndex, args.prevLogTerm, args.entries⟩

namespace Raft

theorem segment_congr {rf rf' : Raft n C σ} (hlog : rf'.log = rf.log)
    (hbase : rf'.lastIncludedIndex = rf.lastIncludedIndex) : rf'.segment = rf.segment := by
  unfold segment
  rw [hlog, hbase]

theorem segment_entryAt {rf : Raft n C σ} {i : Int} (h : rf.lastIncludedIndex < i) :
    rf.segment.entryAt i = rf.entryAt i :=
  segmentOf_entryAt h

theorem segment_termAt {rf : Raft n C σ} (hne : rf.log ≠ []) {i : Int} :
    rf.segment.termAt i = (rf.entryAt i).map Log.term :=
  segmentOf_termAt hne i

theorem segment_last {rf : Raft n C σ} (hne : rf.log ≠ []) : rf.segment.last = rf.getLastLogIndex :=
  segmentOf_last hne

/-- The entry at `i` becomes the dummy entry; only its term is kept. -/
theorem segment_cut {rf rf' : Raft n C σ} {i : Int} {e : Log C} (he : rf.entryAt i = some e)
    (hbase : rf'.lastIncludedIndex = i) {d : Log C} (hd : d.term = e.term)
    (hlog : rf'.log = d :: rf.log.drop ((rf.realIndex i).toNat + 1)) :
    rf'.segment.Part rf.segment ∧ rf'.segment.last = rf.segment.last := by
  obtain ⟨hlo, _, hget⟩ := logAt_eq_some he
  have hseg : rf'.segment
      = ⟨rf.lastIncludedIndex + (rf.realIndex i).toNat, e.term,
          rf.log.drop ((rf.realIndex i).toNat + 1)⟩ := by
    unfold segment segmentOf
    rw [hlog, hbase, ← hd]
    unfold realIndex at hlo ⊢
    rw [show rf.lastIncludedIndex + ((i - rf.lastIncludedIndex).toNat : Int) = i by omega]
    rfl
  rw [hseg]
  exact part_of_drop hget

/-- A round sends a part of the log. -/
theorem onRound_segment {rf : Raft n C σ} {server : Fin n} {args : AppendEntriesArgs n C}
    (h : rf.onRound server = some (.append args)) : args.segment.Part rf.segment := by
  obtain ⟨_, _, index, prev, hindex, hprev, hargs⟩ := onRound_append h
  have hpart : Part ⟨rf.lastIncludedIndex + index, prev.term, rf.log.drop (index + 1)⟩ rf.segment :=
    (part_of_drop hprev).1
  unfold realIndex at hindex
  rw [hargs, AppendEntriesArgs.segment]
  dsimp only
  rw [show rf.nextIndex server - 1 = rf.lastIncludedIndex + index by omega]
  exact hpart

theorem Accepts.segment {rf : Raft n C σ} {args : AppendEntriesArgs n C} {pli : Nat}
    (h : rf.Accepts args pli) :
    args.segment = ⟨rf.lastIncludedIndex + pli, args.prevLogTerm, args.entries⟩ ∧
      rf.segment.termAt args.segment.base = some args.segment.baseTerm := by
  have hne : rf.log ≠ [] := List.ne_nil_of_length_pos (by have := h.lt; omega)
  have hindex := h.index
  refine ⟨?_, ?_⟩
  · unfold realIndex at hindex
    unfold AppendEntriesArgs.segment
    rw [show args.prevLogIndex = rf.lastIncludedIndex + pli by omega]
  · unfold Raft.segment AppendEntriesArgs.segment
    rw [segmentOf_termAt hne]
    dsimp only
    unfold realIndex at hindex
    rw [hindex, logAt_natCast]
    exact h.prev

section Accepted

/-! What lies after the previous entry of a request that is accepted, in the log and in the
request. -/

variable {rf : Raft n C σ} {args : AppendEntriesArgs n C} {pli : Nat}

theorem Accepts.segment_last (h : rf.Accepts args pli) :
    args.segment.last = rf.lastIncludedIndex + pli + args.entries.length := by
  rw [h.segment.1]
  rfl

theorem Accepts.entryAt_sent (h : rf.Accepts args pli) (j : Nat) :
    args.segment.entryAt (rf.lastIncludedIndex + pli + 1 + j) = args.entries[j]? := by
  rw [h.segment.1]
  exact Segment.entryAt_add ⟨rf.lastIncludedIndex + pli, args.prevLogTerm, args.entries⟩ j

theorem segment_entryAt_add (rf : Raft n C σ) (pli j : Nat) :
    rf.segment.entryAt (rf.lastIncludedIndex + pli + 1 + j) = rf.log[pli + 1 + j]? := by
  have hindex : rf.realIndex (rf.lastIncludedIndex + pli + 1 + j) = ((pli + 1 + j : Nat) : Int) := by
    unfold realIndex
    omega
  rw [segment_entryAt (by omega), entryAt, hindex, logAt_natCast]

/-- If the log has the terms of all entries that are sent, it has that of the last one, which may be
the previous entry of the request. -/
theorem Accepts.termAt_last (h : rf.Accepts args pli)
    (hall : ∀ j < args.entries.length,
      (rf.log[pli + 1 + j]?).map Log.term = (args.entries[j]?).map Log.term) :
    rf.segment.termAt args.segment.last = args.segment.termAt args.segment.last := by
  obtain ⟨hargs, hterm⟩ := h.segment
  have hbase : args.segment.base = rf.lastIncludedIndex + pli := by rw [hargs]
  rcases Nat.eq_zero_or_pos args.entries.length with hnil | hpos
  · have hlast : args.segment.last = args.segment.base := by
      rw [h.segment_last, hbase, hnil]
      omega
    rw [hlast, hterm, Segment.termAt_base]
  · have hlast : args.segment.last
        = rf.lastIncludedIndex + pli + 1 + (args.entries.length - 1 : Nat) := by
      rw [h.segment_last]
      omega
    have hlo := (Segment.range_of_termAt hterm).1
    rw [hlast, Segment.termAt_of_ne (by omega), Segment.termAt_of_ne (by omega),
      segment_entryAt_add, h.entryAt_sent]
    exact hall _ (by omega)

/-- Terms that differ at an index of the log are a conflict. -/
theorem Accepts.exists_conflict (h : rf.Accepts args pli) {j : Nat}
    (hlog : pli + 1 + j < rf.log.length) (hj : j < args.entries.length)
    (hne : (rf.log[pli + 1 + j]?).map Log.term ≠ (args.entries[j]?).map Log.term) :
    ∃ c e e', rf.segment.entryAt c = some e ∧ args.segment.entryAt c = some e' ∧
      e.term ≠ e'.term := by
  rw [List.getElem?_eq_getElem hlog, List.getElem?_eq_getElem hj] at hne
  refine ⟨rf.lastIncludedIndex + pli + 1 + j, rf.log[pli + 1 + j], args.entries[j], ?_, ?_, ?_⟩
  · rw [segment_entryAt_add, List.getElem?_eq_getElem hlog]
  · rw [h.entryAt_sent, List.getElem?_eq_getElem hj]
  · exact fun heq ↦ hne (congrArg some heq)

/-- The two outcomes of a merge: the log has the term of the last entry sent, or it is replaced from
the previous entry on, and then it was no longer than the request or had a conflict with it. -/
theorem segment_merge {rf' : Raft n C σ} (h : rf.Accepts args pli)
    (hlog : rf'.log = mergeLog rf.log pli args.entries)
    (hbase : rf'.lastIncludedIndex = rf.lastIncludedIndex) :
    (rf'.segment = rf.segment ∧
        rf.segment.termAt args.segment.last = args.segment.termAt args.segment.last) ∨
      (rf'.segment = rf.segment.splice args.segment ∧
        (rf.segment.last ≤ args.segment.last ∨
          ∃ c e e', rf.segment.entryAt c = some e ∧ args.segment.entryAt c = some e' ∧
            e.term ≠ e'.term)) := by
  have hne : rf.log ≠ [] := List.ne_nil_of_length_pos (by have := h.lt; omega)
  rcases mergeLog_cases h.lt args.entries with ⟨hsame, _, hall⟩ | ⟨hnew, hwhy⟩
  · exact Or.inl ⟨segment_congr (hlog.trans hsame) hbase, h.termAt_last hall⟩
  · refine Or.inr ⟨?_, ?_⟩
    · rw [h.segment.1, segment, segment, hlog, hbase, hnew]
      exact segmentOf_take_append h.lt _
    · rw [segment_last hne, getLastLogIndex_eq, h.segment_last]
      rcases hwhy with hle | ⟨j, hj, hdiff⟩
      · exact Or.inl (by omega)
      · by_cases hjl : pli + 1 + j < rf.log.length
        · exact Or.inr (h.exists_conflict hjl hj hdiff)
        · exact Or.inl (by omega)

end Accepted

end Raft

/-! ## What a step makes of the segment of a server -/

/-- A snapshot that is about to be accepted ends with an entry of the log, or nothing of the log lies
beyond it and the server does not lead. -/
def InstallsMatching (w : World n C σ) : Action n C σ → Prop
  | .condInstallSnapshot s =>
    ∀ msg ∈ (w.nodes s).applyCh, (w.nodes s).rf.commitIndex < msg.snapshotIndex →
      ((w.nodes s).rf.entryAt msg.snapshotIndex).map Log.term = some msg.snapshotTerm ∨
        (w.nodes s).rf.getLastLogIndex ≤ msg.snapshotIndex ∧ (w.nodes s).rf.state ≠ .leader
  | _ => True

instance (w : World n C σ) (a : Action n C σ) : Decidable (InstallsMatching w a) := by
  unfold InstallsMatching
  induction a using Action.casesOn <;> infer_instance

/-- A server restarts only while `lastIncludedTerm` is the term of its dummy entry. -/
def RestartsAligned (w : World n C σ) : Action n C σ → Prop
  | .crash s => (w.nodes s).rf.dummyTerm = some (w.nodes s).rf.lastIncludedTerm
  | _ => True

instance (w : World n C σ) (a : Action n C σ) : Decidable (RestartsAligned w a) := by
  unfold RestartsAligned
  induction a using Action.casesOn <;> infer_instance

/-- What step `a` makes of the segment of server `t`, which it leaves with `rf'`. -/
inductive SegmentStep (w : World n C σ) (a : Action n C σ) (t : Fin n) (rf' : Raft n C σ) : Prop where
  | cut (hpart : rf'.segment.Part (w.nodes t).rf.segment)
      (hlast : rf'.segment.last = (w.nodes t).rf.segment.last)
  | replaced (hrole : (w.nodes t).rf.state ≠ .leader)
      (hlast : (w.nodes t).rf.segment.last ≤ rf'.segment.base) (hnil : rf'.segment.entries = [])
  | pushed (command : Option C) (ha : a = .start t command)
      (hlead : (w.nodes t).rf.state = .leader)
      (hterm : rf'.currentTerm = (w.nodes t).rf.currentTerm)
      (h : rf'.segment = (w.nodes t).rf.segment.push ⟨command, (w.nodes t).rf.currentTerm⟩)
  | merged (env : Envelope n (AppendEntriesArgs n C)) (ha : a = .appendEntries env)
      (hdst : env.dst = t) (henv : env ∈ w.appendReqs)
      (hle : (w.nodes t).rf.currentTerm ≤ env.args.term) (hterm : rf'.currentTerm = env.args.term)
      (hprev : (w.nodes t).rf.segment.termAt env.args.segment.base = some env.args.segment.baseTerm)
      (h : (rf'.segment = (w.nodes t).rf.segment ∧
          (w.nodes t).rf.segment.termAt env.args.segment.last
            = env.args.segment.termAt env.args.segment.last) ∨
        (rf'.segment = (w.nodes t).rf.segment.splice env.args.segment ∧
          ((w.nodes t).rf.segment.last ≤ env.args.segment.last ∨
            ∃ c e e', (w.nodes t).rf.segment.entryAt c = some e ∧
              env.args.segment.entryAt c = some e' ∧ e.term ≠ e'.term)))

theorem SegmentStep.of_eq {w : World n C σ} {a : Action n C σ} {t : Fin n} {rf' : Raft n C σ}
    (h : rf'.segment = (w.nodes t).rf.segment) : SegmentStep w a t rf' :=
  .cut (h ▸ Part.refl _) (h ▸ rfl)

theorem step_segment {w w' : World n C σ} {a : Action n C σ} (hstep : Step gob w a w')
    (hdur : ∀ s, Durable gob (w.nodes s).rf) (hinst : InstallsMatching w a)
    (hcrash : RestartsAligned w a) (t : Fin n) : SegmentStep w a t (w'.nodes t).rf := by
  have hne := (hdur t).log_ne_nil
  have hindex := step_indices hstep hdur t
  generalize (w'.nodes t).rf = rf' at hindex ⊢
  cases hindex with
  | same _ hi | committed _ _ _ _ _ _ hi | applied _ _ _ hi =>
      obtain ⟨hlog, hbase, _⟩ := indices_eq.mp hi
      exact .of_eq (Raft.segment_congr hlog hbase)
  | restarted ha hres =>
      -- the restart writes `lastIncludedTerm` over the term of the dummy entry, which is the same
      subst ha
      obtain ⟨d', hlog, hd'⟩ := hres.log
      obtain ⟨d, rest, hcons⟩ := List.exists_cons_of_ne_nil hne
      have hterm : some d.term = some (w.nodes t).rf.lastIncludedTerm := by
        have hal : (w.nodes t).rf.dummyTerm = _ := hcrash
        rw [Raft.dummyTerm, hcons] at hal
        exact hal
      refine .of_eq ?_
      unfold Raft.segment segmentOf
      rw [hlog, hcons, hres.lastIncludedIndex]
      show Segment.mk _ d'.term _ = Segment.mk _ d.term _
      rw [hd', Option.some.inj hterm]
      rfl
  | appended command ha hlead hterm hi =>
      obtain ⟨hlog, hbase, _⟩ := indices_eq.mp hi
      refine .pushed command ha hlead hterm ?_
      unfold Raft.segment
      rw [hlog, hbase, segmentOf_concat hne]
  | merged env pli ha hdst henv hacc hterm hi =>
      obtain ⟨hlog, hbase, _⟩ := indices_eq.mp hi
      exact .merged env ha hdst henv hacc.term hterm hacc.segment.2
        (Raft.segment_merge hacc hlog hbase)
  | installed msg ha hch hvalid hnew hbase' hterm hi =>
      obtain ⟨hlog, hbase, _⟩ := indices_eq.mp hi
      subst ha
      -- the snapshot ends with an entry of the log, or leaves nothing of it
      rcases hinst msg hch hnew with hfits | ⟨hlast, hrole⟩
      · obtain ⟨e, he, heq⟩ := Option.map_eq_some_iff.mp hfits
        rw [Raft.keptAfter_eq_drop hbase'] at hlog
        obtain ⟨hpart, hlast⟩ := Raft.segment_cut he hbase heq.symm hlog
        exact .cut hpart hlast
      · refine .replaced hrole ?_ ?_
        · rw [Raft.segment_last hne]
          show _ ≤ rf'.lastIncludedIndex
          rw [hbase]
          exact hlast
        · show rf'.log.tail = []
          rw [hlog, Raft.keptAfter, if_pos hlast]
          rfl
  | compacted i data dummy rest ha hnew hdrop hterm hi =>
      obtain ⟨hlog, hbase, _⟩ := indices_eq.mp hi
      have hget : (w.nodes t).rf.log[((w.nodes t).rf.realIndex i).toNat]? = some dummy := by
        rw [← List.head?_drop, hdrop]
        rfl
      have hat : (w.nodes t).rf.entryAt i = some dummy := by
        unfold Raft.entryAt logAt
        rw [if_neg (by unfold Raft.realIndex; omega)]
        exact hget
      have hrest : (w.nodes t).rf.log.drop (((w.nodes t).rf.realIndex i).toNat + 1) = rest := by
        rw [← List.tail_drop, hdrop]
        rfl
      rw [← hrest] at hlog
      obtain ⟨hpart, hlast⟩ := Raft.segment_cut hat hbase (by rfl) hlog
      exact .cut hpart hlast

end Lab6824

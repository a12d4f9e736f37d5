import Lab6824.Raft.Merge
import Lab6824.Raft.Votes
import Mathlib.Tactic.MkIffOfInductiveProp

/-!
# Indices — how a step moves the log and the indices into it

One inversion lemma for all runs: `step_indices` says what a step can do to `log`,
`lastIncludedIndex`, `lastIncludedTerm`, `commitIndex` and `lastApplied` of one server.  It leaves them
alone, or it is one of a restart, `Start`, an accepted `AppendEntries`, a reply that completes a
majority, `updateApplied`, an accepted snapshot and a compaction.
-/

namespace Lab6824

variable {n : Nat} {C σ : Type} {gob : Gob (RaftImage n C) σ}

/-! ## The log after a merge -/

/-- What the merge of `AppendEntries` makes of a log. -/
def mergeLog (log : List (Log C)) (pli : Nat) (entries : List (Log C)) : List (Log C) :=
  if (Raft.mergeScan log (pli + 1) entries).2 = true ∨
      (Raft.mergeScan log (pli + 1) entries).1 = log.length then
    log.take (pli + 1) ++ entries
  else log

/-- The merged log is the old one, which then has the terms of all entries, or the entries replace
everything after the previous one, and then either the old log had a conflict or it was no longer. -/
theorem mergeLog_cases {log : List (Log C)} {pli : Nat} (hlt : pli < log.length)
    (entries : List (Log C)) :
    (mergeLog log pli entries = log ∧ pli + 1 + entries.length ≤ log.length ∧
        ∀ j < entries.length, (log[pli + 1 + j]?).map Log.term = (entries[j]?).map Log.term) ∨
      (mergeLog log pli entries = log.take (pli + 1) ++ entries ∧
        (log.length ≤ pli + 1 + entries.length ∨
          ∃ j < entries.length, (log[pli + 1 + j]?).map Log.term ≠ (entries[j]?).map Log.term)) := by
  have hspec := mergeScan_spec log entries (pli + 1) hlt
  unfold mergeLog
  split
  · rename_i hcond
    refine Or.inr ⟨rfl, ?_⟩
    rcases hcond with hconf | hend
    · exact Or.inr (hspec.conflict hconf)
    · exact Or.inl (hend ▸ hspec.le_entries)
  · rename_i hcond
    push Not at hcond
    rcases hspec.done (Bool.not_eq_true _ ▸ hcond.1) with hall | hend
    · have hle := hspec.le_log
      exact Or.inl ⟨rfl, by omega, fun j hj ↦ hspec.same j (by omega)⟩
    · exact absurd hend hcond.2

section Merged

variable {log entries : List (Log C)} {pli : Nat}

theorem length_mergeLog_ge (hlt : pli < log.length) (entries : List (Log C)) :
    pli + 1 + entries.length ≤ (mergeLog log pli entries).length := by
  rcases mergeLog_cases hlt entries with ⟨he, hle, _⟩ | ⟨he, _⟩
  · rw [he]
    exact hle
  · rw [he, List.length_append, List.length_take_of_le hlt]

/-- Up to the previous entry nothing changes. -/
theorem mergeLog_getElem?_le (hlt : pli < log.length) {k : Nat} (hk : k ≤ pli) :
    (mergeLog log pli entries)[k]? = log[k]? := by
  rcases mergeLog_cases hlt entries with ⟨he, _⟩ | ⟨he, _⟩
  · rw [he]
  · rw [he, List.getElem?_append_left (by rw [List.length_take_of_le hlt]; omega),
      List.getElem?_take_of_lt (by omega)]

end Merged

/-! ## Replies that complete a majority -/

/-- The leader has learned that `server` has all entries up to `k`. -/
def Raft.matched (rf : Raft n C σ) (server : Fin n) (k : Int) : Raft n C σ :=
  { rf with matchIndex := Function.update rf.matchIndex server k }

/-- The index of the last entry that a request carries, or of the previous one if it carries none. -/
def AppendEntriesArgs.lastIndex (args : AppendEntriesArgs n C) : Int :=
  args.prevLogIndex + args.entries.length

/-- The reply `reply` to `env` completes the majority for the entries that were sent. -/
@[mk_iff]
structure Completes (rf : Raft n C σ) (env : Envelope n (AppendEntriesArgs n C))
    (reply : AppendEntriesReply) : Prop where
  leader : rf.state = .leader
  sent : env.args.term = rf.currentTerm
  replied : reply.term = rf.currentTerm
  success : reply.success = true
  learned : rf.matchIndex env.dst < env.args.lastIndex
  ahead : rf.commitIndex < env.args.lastIndex
  majority : (rf.matched env.dst env.args.lastIndex).matchCount env.args.lastIndex ≥ n / 2 + 1

instance (rf : Raft n C σ) (env : Envelope n (AppendEntriesArgs n C)) (reply : AppendEntriesReply) :
    Decidable (Completes rf env reply) :=
  decidable_of_iff' _ (completes_iff rf env reply)

/-- `handleAppendEntriesReply` moves `commitIndex` only when the reply completes a majority. -/
theorem appendReply_commit {rf rf' : Raft n C σ} {env : Envelope n (AppendEntriesArgs n C)}
    {reply : AppendEntriesReply}
    (hv : rf.handleAppendEntriesReply gob env.args { reply with sendTerm := env.args.term } env.dst
      = some rf') :
    rf'.commitIndex = rf.commitIndex ∨
      Completes rf env reply ∧ rf'.commitIndex = env.args.lastIndex ∧
        rf'.currentTerm = rf.currentTerm ∧ rf'.state = .leader ∧
        rf'.matchCount env.args.lastIndex ≥ n / 2 + 1 := by
  obtain ⟨ni, mi, ci, ch, hfields⟩ := Raft.handleAppendEntriesReply_cases hv
  have hmatch := Raft.handleAppendEntriesReply_match rfl hv
  dsimp only at hfields hmatch
  rw [Raft.stepDown_commitIndex] at hmatch
  rcases hmatch with ⟨_, hci⟩ | ⟨hlead, hsent, hyes, hlt, hmi, hci | ⟨hci, hahead, hrep, hcount⟩⟩
  · exact Or.inl hci
  · exact Or.inl hci
  · -- a leader has not stepped down
    have hself : rf.stepDown gob reply.term = rf := by
      rcases Raft.stepDown_cases gob rf reply.term with ⟨_, he⟩ | ⟨_, he⟩
      · rw [he] at hlead
        cases hlead
      · exact he
    rw [hself] at hlead hsent hlt hmi hrep hfields
    have hme : rf'.me = rf.me := by rw [hfields]
    refine Or.inr ⟨⟨hlead, hsent, hrep.symm, hyes, hlt, hahead, ?_⟩, hci, ?_, ?_, hcount⟩
    · rw [Raft.matchCount, hmi, hme] at hcount
      exact hcount
    · rw [hfields]
    · rw [hfields]
      exact hlead

/-! ## What a step does to the indices of one server -/

/-- The log, the boundary of what has been compacted, and how far commit and application have got. -/
def Raft.indices (rf : Raft n C σ) : List (Log C) × Int × Int × Int × Int :=
  (rf.log, rf.lastIncludedIndex, rf.lastIncludedTerm, rf.commitIndex, rf.lastApplied)

theorem indices_eq {rf : Raft n C σ} {log : List (Log C)} {base term ci la : Int} :
    rf.indices = (log, base, term, ci, la) ↔
      rf.log = log ∧ rf.lastIncludedIndex = base ∧ rf.lastIncludedTerm = term ∧
        rf.commitIndex = ci ∧ rf.lastApplied = la := by
  simp only [Raft.indices, Prod.mk.injEq]

/-- The request is neither stale nor refused: the log has the previous entry, with its term. -/
@[mk_iff]
structure Raft.Accepts (rf : Raft n C σ) (args : AppendEntriesArgs n C) (pli : Nat) : Prop where
  term : rf.currentTerm ≤ args.term
  index : rf.realIndex args.prevLogIndex = pli
  prev : (rf.log[pli]?).map Log.term = some args.prevLogTerm

instance (rf : Raft n C σ) (args : AppendEntriesArgs n C) (pli : Nat) :
    Decidable (rf.Accepts args pli) :=
  decidable_of_iff' _ (Raft.accepts_iff rf args pli)

theorem Raft.Accepts.lt {rf : Raft n C σ} {args : AppendEntriesArgs n C} {pli : Nat}
    (h : rf.Accepts args pli) : pli < rf.log.length := by
  obtain ⟨e, he, _⟩ := Option.map_eq_some_iff.mp h.prev
  exact (List.getElem?_eq_some_iff.mp he).1

/-- What is left of the entries after index `i` when a snapshot of that index is installed. -/
def Raft.keptAfter (rf : Raft n C σ) (i : Int) : List (Log C) :=
  if rf.getLastLogIndex ≤ i then [] else rf.log.drop ((rf.realIndex i).toNat + 1)

theorem Raft.condInstallSnapshot_kept {rf rf' : Raft n C σ} {t i : Int} {data : List σ}
    (hne : rf.log ≠ []) (h : rf.condInstallSnapshot gob t i data = some (rf', true)) :
    rf.lastIncludedIndex ≤ i ∧ rf'.log = ⟨none, t⟩ :: rf.keptAfter i := by
  have hlen := List.length_pos_iff.mpr hne
  unfold condInstallSnapshot at h
  unfold keptAfter
  split at h
  · simp at h
  · dsimp only at h
    by_cases hlast : rf.getLastLogIndex ≤ i
    · rw [if_pos hlast] at h ⊢
      simp only [Option.some.injEq, Prod.mk.injEq, and_true] at h
      rw [← h]
      refine ⟨?_, rfl⟩
      unfold getLastLogIndex logicIndex at hlast
      omega
    · rw [if_neg hlast] at h ⊢
      split at h
      · cases h
      · cases h
      · -- the slice starts in range, so the snapshot is not older than the boundary
        rename_i _ rest hfrom
        simp only [Option.some.injEq, Prod.mk.injEq, and_true] at h
        rw [← h]
        unfold logFrom at hfrom
        split at hfrom
        · cases hfrom
        · rename_i hrange
          push Not at hrange
          rw [Option.some.injEq] at hfrom
          unfold realIndex at hrange
          refine ⟨by omega, ?_⟩
          rw [← List.tail_drop, hfrom]
          rfl

theorem Raft.getLastLogIndex_eq (rf : Raft n C σ) :
    rf.getLastLogIndex = rf.log.length - 1 + rf.lastIncludedIndex := rfl

theorem Raft.keptAfter_eq_drop {rf : Raft n C σ} {i : Int} (hbase : rf.lastIncludedIndex ≤ i) :
    rf.keptAfter i = rf.log.drop ((rf.realIndex i).toNat + 1) := by
  unfold keptAfter
  split
  · rename_i hlast
    rw [getLastLogIndex_eq] at hlast
    unfold realIndex
    rw [List.drop_eq_nil_of_le (by omega)]
  · rfl

theorem Raft.entryAt_congr {rf rf' : Raft n C σ} (hlog : rf'.log = rf.log)
    (hbase : rf'.lastIncludedIndex = rf.lastIncludedIndex) (k : Int) :
    rf'.entryAt k = rf.entryAt k := by
  unfold entryAt realIndex
  rw [hlog, hbase]

theorem Raft.entryAt_append {rf rf' : Raft n C σ} {es : List (Log C)} {k : Int} {e : Log C}
    (hlog : rf'.log = rf.log ++ es) (hbase : rf'.lastIncludedIndex = rf.lastIncludedIndex)
    (h : rf.entryAt k = some e) : rf'.entryAt k = some e := by
  obtain ⟨hpos, hlt, hget⟩ := logAt_eq_some h
  unfold entryAt realIndex at *
  unfold logAt
  rw [hlog, hbase, if_neg (not_lt.mpr hpos), List.getElem?_append_left (by omega), hget]

/-- Cutting the log off at `i` leaves the entries after `i` where they were. -/
theorem Raft.entryAt_of_tail {rf rf' : Raft n C σ} {i k : Int} (hbase : rf.lastIncludedIndex ≤ i)
    (hnew : rf'.lastIncludedIndex = i)
    (htail : rf'.log.tail = rf.log.drop ((rf.realIndex i).toNat + 1)) (hk : i < k) :
    rf'.entryAt k = rf.entryAt k := by
  obtain ⟨m, hm⟩ : ∃ m : Nat, k - i = (m + 1 : Nat) := ⟨(k - i - 1).toNat, by omega⟩
  have hold : k - rf.lastIncludedIndex = ((i - rf.lastIncludedIndex).toNat + 1 + m : Nat) := by omega
  unfold entryAt realIndex at *
  rw [hnew, hm, hold, logAt_natCast, logAt_natCast, ← List.getElem?_tail, htail, List.getElem?_drop]

/-- What step `a` does to server `t`, which it leaves with `rf'`. -/
inductive IndexStep (w : World n C σ) (a : Action n C σ) (t : Fin n) (rf' : Raft n C σ) : Prop where
  | same (hterm : (w.nodes t).rf.currentTerm ≤ rf'.currentTerm)
      (h : rf'.indices = (w.nodes t).rf.indices)
  | restarted (ha : a = .crash t) (hres : Restored t (w.nodes t).rf rf')
  | appended (command : Option C) (ha : a = .start t command)
      (hlead : (w.nodes t).rf.state = .leader)
      (hterm : rf'.currentTerm = (w.nodes t).rf.currentTerm)
      (h : rf'.indices = ((w.nodes t).rf.log ++ [⟨command, (w.nodes t).rf.currentTerm⟩],
        (w.nodes t).rf.lastIncludedIndex, (w.nodes t).rf.lastIncludedTerm,
        (w.nodes t).rf.commitIndex, (w.nodes t).rf.lastApplied))
  | merged (env : Envelope n (AppendEntriesArgs n C)) (pli : Nat) (ha : a = .appendEntries env)
      (hdst : env.dst = t) (henv : env ∈ w.appendReqs)
      (hacc : (w.nodes t).rf.Accepts env.args pli) (hterm : rf'.currentTerm = env.args.term)
      (h : rf'.indices = (mergeLog (w.nodes t).rf.log pli env.args.entries,
        (w.nodes t).rf.lastIncludedIndex, (w.nodes t).rf.lastIncludedTerm,
        (if env.args.leaderCommit > (w.nodes t).rf.commitIndex then
          min env.args.leaderCommit env.args.lastIndex else (w.nodes t).rf.commitIndex),
        (w.nodes t).rf.lastApplied))
  | committed (env : Envelope n (AppendEntriesArgs n C)) (reply : AppendEntriesReply)
      (ha : a = .appendReply t env reply) (hcall : env ∈ (w.nodes t).appendCalls)
      (hdone : Completes (w.nodes t).rf env reply)
      (hterm : rf'.currentTerm = (w.nodes t).rf.currentTerm)
      (h : rf'.indices = ((w.nodes t).rf.log, (w.nodes t).rf.lastIncludedIndex,
        (w.nodes t).rf.lastIncludedTerm, env.args.lastIndex, (w.nodes t).rf.lastApplied))
  | applied (ha : a = .updateApplied t) (hawake : (w.nodes t).applierAwake = true)
      (hterm : rf'.currentTerm = (w.nodes t).rf.currentTerm)
      (h : rf'.indices = ((w.nodes t).rf.log, (w.nodes t).rf.lastIncludedIndex,
        (w.nodes t).rf.lastIncludedTerm, (w.nodes t).rf.commitIndex, (w.nodes t).rf.commitIndex))
  | installed (msg : ApplyMsg C σ) (ha : a = .condInstallSnapshot t)
      (hch : (w.nodes t).applyCh = some msg) (hvalid : msg.snapshotValid = true)
      (hnew : (w.nodes t).rf.commitIndex < msg.snapshotIndex)
      (hbase : (w.nodes t).rf.lastIncludedIndex ≤ msg.snapshotIndex)
      (hterm : rf'.currentTerm = (w.nodes t).rf.currentTerm)
      (h : rf'.indices =
        (⟨none, msg.snapshotTerm⟩ :: (w.nodes t).rf.keptAfter msg.snapshotIndex,
          msg.snapshotIndex, (w.nodes t).rf.lastIncludedTerm, msg.snapshotIndex,
          msg.snapshotIndex))
  | compacted (i : Int) (data : List σ) (dummy : Log C) (rest : List (Log C))
      (ha : a = .snapshot t i data) (hnew : (w.nodes t).rf.lastIncludedIndex < i)
      (hdrop : (w.nodes t).rf.log.drop ((w.nodes t).rf.realIndex i).toNat = dummy :: rest)
      (hterm : rf'.currentTerm = (w.nodes t).rf.currentTerm)
      (h : rf'.indices = ({ dummy with command := none } :: rest, i, dummy.term,
        (w.nodes t).rf.commitIndex, max (w.nodes t).rf.lastApplied i))

theorem IndexStep.update {w : World n C σ} {a : Action n C σ} {s : Fin n} {nd : Node n C σ}
    (h : IndexStep w a s nd.rf) (t : Fin n) :
    IndexStep w a t (Function.update w.nodes s nd t).rf := by
  refine (Function.forall_update_iff w.nodes fun t nd ↦ IndexStep w a t nd.rf).mpr ⟨h, ?_⟩ t
  intro t _
  exact .same (le_refl _) rfl

theorem stepDown_indices (gob : Gob (RaftImage n C) σ) (rf : Raft n C σ) (term : Int) :
    rf.currentTerm ≤ (rf.stepDown gob term).currentTerm ∧
      (rf.stepDown gob term).indices = rf.indices := by
  rcases Raft.stepDown_cases gob rf term with ⟨hlt, he⟩ | ⟨_, he⟩
  · rw [he]
    exact ⟨hlt.le, rfl⟩
  · rw [he]
    exact ⟨le_refl _, rfl⟩

theorem appendStepDown_indices (gob : Gob (RaftImage n C) σ) (rf : Raft n C σ) (term : Int) :
    rf.currentTerm ≤ (rf.appendStepDown gob term).currentTerm ∧
      (rf.appendStepDown gob term).indices = rf.indices := by
  rcases Raft.appendStepDown_cases gob rf term with ⟨hlt | ⟨_, heq⟩, he⟩ | ⟨_, _, he⟩
  · rw [he]
    exact ⟨hlt.le, rfl⟩
  · rw [he]
    exact ⟨heq.le, rfl⟩
  · rw [he]
    exact ⟨le_refl _, rfl⟩

/-- A request is refused, or it is accepted and merged in its own term. -/
theorem Raft.appendEntries_accepts {rf rf' : Raft n C σ} {args : AppendEntriesArgs n C}
    {reply : AppendEntriesReply} (h : rf.appendEntries gob args = some (rf', reply)) :
    (reply.success = false ∧ rf' = rf.appendStepDown gob args.term) ∨
      (reply.success = true ∧ ∃ pli, rf.Accepts args pli ∧ rf'.currentTerm = args.term ∧
        rf' = (rf.appendStepDown gob args.term).mergeEntries gob args pli) := by
  rcases (appendEntries_cases h).2 with hno | ⟨hyes, hle, p, prev, hp, hprev, hmatch, rfl⟩
  · exact Or.inl hno
  · obtain ⟨hlog, hbase, _⟩ := indices_eq.mp (appendStepDown_indices gob rf args.term).2
    have hge := le_appendStepDown_currentTerm gob rf args.term
    refine Or.inr ⟨hyes, p, ⟨(appendStepDown_currentTerm_le gob _ _).mp hle, ?_, ?_⟩, ?_, rfl⟩
    · unfold realIndex at hp ⊢
      rw [← hbase]
      exact hp
    · rw [← hlog, hprev, ← hmatch]
      rfl
    · rw [mergeEntries_currentTerm]
      exact le_antisymm hle hge

/-- What a request does to the log and the indices. -/
theorem Raft.appendEntries_indices {rf rf' : Raft n C σ} {args : AppendEntriesArgs n C}
    {reply : AppendEntriesReply} (h : rf.appendEntries gob args = some (rf', reply)) :
    (reply.success = false ∧ rf.currentTerm ≤ rf'.currentTerm ∧ rf'.indices = rf.indices) ∨
      (reply.success = true ∧ ∃ pli, rf.Accepts args pli ∧ rf'.currentTerm = args.term ∧
        rf'.indices = (mergeLog rf.log pli args.entries, rf.lastIncludedIndex, rf.lastIncludedTerm,
          (if args.leaderCommit > rf.commitIndex then min args.leaderCommit args.lastIndex
            else rf.commitIndex), rf.lastApplied)) := by
  obtain ⟨hterm, hsame⟩ := appendStepDown_indices gob rf args.term
  rcases Raft.appendEntries_accepts h with ⟨hno, rfl⟩ | ⟨hyes, pli, hacc, hct, rfl⟩
  · exact Or.inl ⟨hno, hterm, hsame⟩
  · obtain ⟨hlog, hbase, hbterm, hci, hla⟩ := indices_eq.mp hsame
    refine Or.inr ⟨hyes, pli, hacc, hct, indices_eq.mpr ⟨?_, ?_, ?_, ?_, ?_⟩⟩
    · rw [mergeEntries_log, hlog]
      rfl
    · rw [mergeEntries_lastIncludedIndex, hbase]
    · rw [mergeEntries_lastIncludedTerm, hbterm]
    · rw [mergeEntries_commitIndex, hci]
      rfl
    · rw [mergeEntries_lastApplied, hla]

namespace IndexStep

variable {w : World n C σ} {a : Action n C σ} {s : Fin n}

theorem appendEntries {env : Envelope n (AppendEntriesArgs n C)} {rf' : Raft n C σ}
    {reply : AppendEntriesReply} (henv : env ∈ w.appendReqs)
    (hv : (w.nodes env.dst).rf.appendEntries gob env.args = some (rf', reply)) :
    IndexStep w (.appendEntries env) env.dst rf' := by
  rcases Raft.appendEntries_indices hv with ⟨_, hterm, hsame⟩ | ⟨_, p, hacc, hct, hindices⟩
  · exact .same hterm hsame
  · exact .merged env p rfl rfl henv hacc hct hindices

theorem appendReply {env : Envelope n (AppendEntriesArgs n C)} {rf' : Raft n C σ}
    {reply : AppendEntriesReply} (hcall : env ∈ (w.nodes s).appendCalls)
    (hv : (w.nodes s).rf.handleAppendEntriesReply gob env.args
      { reply with sendTerm := env.args.term } env.dst = some rf') :
    IndexStep w (.appendReply s env reply) s rf' := by
  obtain ⟨ni, mi, ci, ch, hfields⟩ := Raft.handleAppendEntriesReply_cases hv
  obtain ⟨hterm, hsame⟩ := stepDown_indices gob (w.nodes s).rf reply.term
  obtain ⟨hlog, hbase, hbterm, _, hla⟩ := indices_eq.mp hsame
  dsimp only at hfields
  have hindices : rf'.indices = ((w.nodes s).rf.log, (w.nodes s).rf.lastIncludedIndex,
      (w.nodes s).rf.lastIncludedTerm, rf'.commitIndex, (w.nodes s).rf.lastApplied) := by
    rw [hfields]
    exact indices_eq.mpr ⟨hlog, hbase, hbterm, rfl, hla⟩
  rcases appendReply_commit hv with hci | ⟨hdone, hci, hct, _, _⟩
  · rw [hci] at hindices
    refine .same ?_ hindices
    rw [hfields]
    exact hterm
  · rw [hci] at hindices
    exact .committed env reply rfl hcall hdone hct hindices

/-- An accepted snapshot keeps the entries after its index, if the log goes that far. -/
theorem condInstallSnapshot {msg : ApplyMsg C σ} {rf' : Raft n C σ} {accepted : Bool}
    (hne : (w.nodes s).rf.log ≠ []) (hch : (w.nodes s).applyCh = some msg)
    (hvalid : msg.snapshotValid = true)
    (hv : (w.nodes s).rf.condInstallSnapshot gob msg.snapshotTerm msg.snapshotIndex msg.snapshot
      = some (rf', accepted)) :
    IndexStep w (.condInstallSnapshot s) s rf' := by
  rcases Raft.condInstallSnapshot_cases hv with ⟨_, _, rfl⟩ | ⟨rfl, hnew, rest, rf₁, rfl, rfl⟩
  · exact .same (le_refl _) rfl
  · obtain ⟨hbase, hrest⟩ := Raft.condInstallSnapshot_kept hne hv
    refine .installed msg rfl hch hvalid hnew hbase rfl ?_
    refine indices_eq.mpr ⟨?_, rfl, rfl, rfl, rfl⟩
    dsimp only at hrest ⊢
    rw [hrest]

theorem snapshot {i : Int} {data : List σ} {rf' : Raft n C σ} {stored : Bool}
    (hv : (w.nodes s).rf.snapshot gob i data = some (rf', stored)) :
    IndexStep w (.snapshot s i data) s rf' := by
  rcases Raft.snapshot_cases hv with ⟨_, _, rfl⟩ | ⟨_, hnew, dummy, rest, rf₁, _, hdrop, rfl, rfl⟩
  · exact .same (le_refl _) rfl
  · refine .compacted i data dummy rest rfl hnew hdrop rfl ?_
    refine indices_eq.mpr ⟨rfl, rfl, rfl, rfl, ?_⟩
    dsimp only
    omega

end IndexStep

theorem step_indices {w w' : World n C σ} {a : Action n C σ} (hstep : Step gob w a w')
    (hdur : ∀ s, Durable gob (w.nodes s).rf) (t : Fin n) : IndexStep w a t (w'.nodes t).rf := by
  cases hstep with
  | timeoutLeader | roundIdle => exact .same (le_refl _) rfl
  | campaign s hnd =>
      subst hnd
      exact .update (by exact .same (Int.le_add_one (le_refl _)) rfl) t
  | requestVote env hnd henv hv =>
      subst hnd
      obtain ⟨hterm, hsame⟩ := stepDown_indices gob (w.nodes env.dst).rf env.args.term
      refine .update ?_ t
      rcases Raft.requestVote_cases hv with ⟨_, rfl⟩ | ⟨_, _, _, _, rfl⟩
      · exact .same hterm hsame
      · exact .same hterm hsame
  | voteRetire s k env reply hnd hel hcall hrep hlt =>
      subst hnd
      exact .update (by exact .same hlt.le rfl) t
  | appendEntries env hnd henv hv =>
      subst hnd
      exact .update (.appendEntries henv hv) t
  | appendReply s env reply hnd hcall hrep hv =>
      subst hnd
      exact .update (.appendReply hcall hv) t
  | installSnapshot env hnd henv hv =>
      subst hnd
      have hrf := Raft.installSnapshot_rf gob (w.nodes env.dst).rf env.args
      rw [hv] at hrf
      dsimp only at hrf
      obtain ⟨hterm, hsame⟩ := stepDown_indices gob (w.nodes env.dst).rf env.args.term
      rw [← hrf] at hterm hsame
      exact .update (by exact .same hterm hsame) t
  | snapshotReply s env reply hnd =>
      subst hnd
      refine .update ?_ t
      dsimp only
      unfold Raft.handleSnapshotReply
      split
      · rename_i hlt
        exact .same hlt.le rfl
      · exact .same (le_refl _) rfl
  | start s command hnd =>
      subst hnd
      refine .update ?_ t
      dsimp only
      unfold Raft.start
      split
      · rename_i hlead
        exact .appended command rfl hlead rfl rfl
      · exact .same (le_refl _) rfl
  | updateApplied s hnd hawake hv =>
      subst hnd
      rw [Raft.updateApplied_rf hv]
      exact .update (by exact .applied rfl hawake rfl rfl) t
  | condInstallSnapshot s hnd hch hvalid hv =>
      subst hnd
      exact .update (.condInstallSnapshot (hdur s).log_ne_nil hch hvalid hv) t
  | snapshot s index data hnd hv =>
      subst hnd
      exact .update (.snapshot hv) t
  | crash s hnd hmake =>
      subst hnd
      obtain ⟨rf', hmake', hres, _⟩ := (hdur s).make s
      rw [hmake, Option.some.injEq] at hmake'
      subst hmake'
      exact .update (by exact .restarted rfl hres) t
  -- the remaining steps leave the indices alone
  | electSkip _ _ hnd | electSend _ _ hnd | voteIgnore _ _ _ _ hnd | voteCount _ _ _ _ hnd
  | voteLead _ _ _ _ hnd | roundSnapshot _ _ hnd | roundAppend _ _ hnd | sendCommand _ hnd
  | sendSnapshot _ _ hnd | serviceDone _ hnd =>
      subst hnd
      exact .update (by exact .same (le_refl _) rfl) t
  | wakeApplier s hnd hrf =>
      subst hnd hrf
      exact .update (by exact .same (le_refl _) rfl) t

/-- The state that `AppendEntries` leaves is the one that its receiver has after the step. -/
theorem step_appendEntries {w w' : World n C σ} {env : Envelope n (AppendEntriesArgs n C)}
    (hstep : Step gob w (.appendEntries env) w') :
    ∃ reply, (w.nodes env.dst).rf.appendEntries gob env.args =
      some ((w'.nodes env.dst).rf, reply) := by
  cases hstep with
  | @appendEntries _ _ _ reply hnd henv hv =>
      subst hnd
      refine ⟨reply, ?_⟩
      dsimp only
      rw [Function.update_self]
      exact hv

theorem step_appendReply {w w' : World n C σ} {s : Fin n}
    {env : Envelope n (AppendEntriesArgs n C)} {reply : AppendEntriesReply}
    (hstep : Step gob w (.appendReply s env reply) w') :
    (env, reply) ∈ w.appendReps ∧ (w.nodes s).rf.handleAppendEntriesReply gob env.args
      { reply with sendTerm := env.args.term } env.dst = some (w'.nodes s).rf := by
  cases hstep with
  | appendReply _ _ _ hnd hcall hrep hv =>
      subst hnd
      refine ⟨hrep, ?_⟩
      dsimp only
      rw [Function.update_self]
      exact hv

theorem step_crash {w w' : World n C σ} {t : Fin n} (hstep : Step gob w (.crash t) w')
    (hdur : ∀ s, Durable gob (w.nodes s).rf) : Restored t (w.nodes t).rf (w'.nodes t).rf := by
  cases hstep with
  | crash _ hnd hmake =>
      subst hnd
      obtain ⟨rf', hmake', hres, _⟩ := (hdur t).make t
      rw [hmake, Option.some.injEq] at hmake'
      subst hmake'
      dsimp only
      rw [Function.update_self]
      exact hres

theorem IndexStep.term_le {w : World n C σ} {a : Action n C σ} {t : Fin n} {rf' : Raft n C σ}
    (h : IndexStep w a t rf') : (w.nodes t).rf.currentTerm ≤ rf'.currentTerm := by
  cases h with
  | same hterm => exact hterm
  | restarted ha hres => exact hres.currentTerm.ge
  | merged env pli ha hdst henv hacc hterm => exact hterm ▸ hacc.term
  | appended _ _ _ hterm | committed _ _ _ _ _ hterm | applied _ _ hterm
  | installed _ _ _ _ _ _ hterm | compacted _ _ _ _ _ _ _ hterm => exact hterm.ge

theorem IndexStep.base_le {w : World n C σ} {a : Action n C σ} {t : Fin n} {rf' : Raft n C σ}
    (h : IndexStep w a t rf') : (w.nodes t).rf.lastIncludedIndex ≤ rf'.lastIncludedIndex := by
  cases h with
  | restarted ha hres => exact hres.lastIncludedIndex.ge
  | installed msg _ _ _ _ hbase _ hi => exact hbase.trans (indices_eq.mp hi).2.1.ge
  | compacted i _ _ _ _ hnew _ _ hi => exact hnew.le.trans (indices_eq.mp hi).2.1.ge
  | same _ hi | appended _ _ _ _ hi | merged _ _ _ _ _ _ _ hi | committed _ _ _ _ _ _ hi
  | applied _ _ _ hi => exact (indices_eq.mp hi).2.1.ge

theorem IndexStep.base_eq {w : World n C σ} {a : Action n C σ} {t : Fin n} {rf' : Raft n C σ}
    (h : IndexStep w a t rf') (hcut : ∀ i data, a ≠ .snapshot t i data)
    (hinstall : a ≠ .condInstallSnapshot t) :
    rf'.lastIncludedIndex = (w.nodes t).rf.lastIncludedIndex := by
  cases h with
  | restarted ha hres => exact hres.lastIncludedIndex
  | installed msg ha => exact absurd ha hinstall
  | compacted i data _ _ ha => exact absurd ha (hcut i data)
  | same _ hi | appended _ _ _ _ hi | merged _ _ _ _ _ _ _ hi | committed _ _ _ _ _ _ hi
  | applied _ _ _ hi => exact (indices_eq.mp hi).2.1

/-! ## Requests, replies and the calls that wait for them -/

/-- A new `AppendEntries` request is one that a round of its sender has built. -/
theorem step_appendReqs {w w' : World n C σ} {a : Action n C σ} (hstep : Step gob w a w')
    {env : Envelope n (AppendEntriesArgs n C)} (henv : env ∈ w'.appendReqs) :
    env ∈ w.appendReqs ∨
      ∃ s, a = .onRound s env.dst ∧ env.dst ≠ s ∧
        (w.nodes s).rf.onRound env.dst = some (.append env.args) := by
  cases hstep with
  | roundAppend s server hnd hne hround henv' =>
      subst hnd henv'
      rcases List.mem_cons.mp henv with rfl | hold
      · exact Or.inr ⟨s, rfl, hne, hround⟩
      · exact Or.inl hold
  | _ => exact Or.inl henv

theorem World.appendReqs_mono {w w' : World n C σ} {a : Action n C σ} (hstep : Step gob w a w') :
    w.appendReqs ⊆ w'.appendReqs := by
  cases hstep with
  | roundAppend => exact List.subset_cons_self _ _
  | _ => exact List.Subset.refl _

theorem appendCalls_update {w : World n C σ} {s t : Fin n} {nd : Node n C σ}
    {env : Envelope n (AppendEntriesArgs n C)}
    (h : env ∈ (Function.update w.nodes s nd t).appendCalls) :
    env ∈ (w.nodes t).appendCalls ∨ t = s ∧ env ∈ nd.appendCalls :=
  Lib.of_update (p := fun nd : Node n C σ ↦ env ∈ nd.appendCalls) h

/-- A new call is one whose request has just been sent. -/
theorem step_appendCalls {w w' : World n C σ} {a : Action n C σ} (hstep : Step gob w a w')
    {t : Fin n} {env : Envelope n (AppendEntriesArgs n C)}
    (henv : env ∈ (w'.nodes t).appendCalls) :
    env ∈ (w.nodes t).appendCalls ∨
      a = .onRound t env.dst ∧ env ∈ w'.appendReqs ∧
        (w.nodes t).rf.onRound env.dst = some (.append env.args) := by
  cases hstep with
  | timeoutLeader | roundIdle => exact Or.inl henv
  | roundAppend s server hnd hne hround henv' =>
      subst hnd henv'
      rcases appendCalls_update henv with hold | ⟨rfl, hnew⟩
      · exact Or.inl hold
      · rcases List.mem_cons.mp hnew with rfl | hold
        · exact Or.inr ⟨rfl, List.mem_cons_self, hround⟩
        · exact Or.inl hold
  | appendReply s env' reply hnd hcall hrep hv hcalls =>
      subst hnd
      rcases appendCalls_update henv with hold | ⟨rfl, hnew⟩
      · exact Or.inl hold
      · exact Or.inl (hcalls hnew)
  | crash s hnd hmake =>
      rcases appendCalls_update henv with hold | ⟨rfl, hnew⟩
      · exact Or.inl hold
      · cases hnew
  -- the remaining steps leave the calls alone
  | campaign _ hnd | electSkip _ _ hnd | electSend _ _ hnd | requestVote _ hnd
  | voteRetire _ _ _ _ hnd | voteIgnore _ _ _ _ hnd | voteCount _ _ _ _ hnd
  | voteLead _ _ _ _ hnd | roundSnapshot _ _ hnd | appendEntries _ hnd | installSnapshot _ hnd
  | snapshotReply _ _ _ hnd | start _ _ hnd | wakeApplier _ hnd | updateApplied _ hnd
  | sendCommand _ hnd | sendSnapshot _ _ hnd | serviceDone _ hnd | condInstallSnapshot _ hnd
  | snapshot _ _ _ hnd =>
      subst hnd
      rcases appendCalls_update henv with hold | ⟨rfl, hnew⟩
      · exact Or.inl hold
      · exact Or.inl hnew

/-- A new reply is one that its receiver has just given. -/
theorem step_appendReps {w w' : World n C σ} {a : Action n C σ} (hstep : Step gob w a w')
    {env : Envelope n (AppendEntriesArgs n C)} {reply : AppendEntriesReply}
    (hrep : (env, reply) ∈ w'.appendReps) :
    (env, reply) ∈ w.appendReps ∨
      a = .appendEntries env ∧ env ∈ w.appendReqs ∧
        (w.nodes env.dst).rf.appendEntries gob env.args = some ((w'.nodes env.dst).rf, reply) := by
  cases hstep with
  | appendEntries env' hnd henv hv =>
      subst hnd
      rcases List.mem_cons.mp hrep with heq | hold
      · rw [Prod.mk.injEq] at heq
        obtain ⟨rfl, rfl⟩ := heq
        refine Or.inr ⟨rfl, henv, ?_⟩
        dsimp only
        rw [Function.update_self]
        exact hv
      · exact Or.inl hold
  | _ => exact Or.inl hrep

end Lab6824

import Lab6824.Raft.Boundary
import Lab6824.Raft.Indices

/-!
# Install — the suffix that survives a snapshot

`CondInstallSnapshot` keeps the entries after the index of the snapshot whenever the log is longer,
without a look at the entry at that index.  Where that entry has the term of the snapshot, or there
is nothing after it, the terms along every log stay in order.
-/

namespace Lab6824

variable {n : Nat} {C σ : Type} {gob : Gob (RaftImage n C) σ}

/-! ## Logs in order -/

/-- The terms along the log do not decrease. -/
def TermsSorted (log : List (Log C)) : Prop :=
  log.Pairwise fun a b ↦ a.term ≤ b.term

namespace TermsSorted

variable {log entries : List (Log C)}

/-- From the entry at `p` on, all terms are at least its own. -/
theorem le_of_drop {p : Nat} {e : Log C} (h : TermsSorted log) (he : log[p]? = some e) :
    ∀ b ∈ log.drop (p + 1), e.term ≤ b.term := by
  obtain ⟨hlt, rfl⟩ := List.getElem?_eq_some_iff.mp he
  have hdrop : TermsSorted (log.drop p) := h.drop
  rw [List.drop_eq_getElem_cons hlt] at hdrop
  exact (List.pairwise_cons.mp hdrop).1

/-- Up to the entry at `p`, all terms are at most its own. -/
theorem le_of_take {p : Nat} {e : Log C} (h : TermsSorted log) (he : log[p]? = some e) :
    ∀ b ∈ log.take (p + 1), b.term ≤ e.term := by
  obtain ⟨hlt, rfl⟩ := List.getElem?_eq_some_iff.mp he
  have htake : TermsSorted (log.take (p + 1)) := h.take
  rw [List.take_succ_eq_append_getElem hlt] at htake ⊢
  intro b hb
  rcases List.mem_append.mp hb with hb | hb
  · exact (List.pairwise_append.mp htake).2.2 b hb _ (List.mem_singleton_self _)
  · rw [List.mem_singleton.mp hb]

/-- Entries that go on from the term of the entry at `p` can replace what follows it. -/
theorem append {p : Nat} {e : Log C} {term : Int} (h : TermsSorted log) (he : log[p]? = some e)
    (hterm : e.term = term) (hes : TermsSorted (⟨none, term⟩ :: entries)) :
    TermsSorted (log.take (p + 1) ++ entries) := by
  obtain ⟨hge, hes⟩ := List.pairwise_cons.mp hes
  refine List.pairwise_append.mpr ⟨h.take, hes, fun a ha b hb ↦ ?_⟩
  have hle := h.le_of_take he a ha
  have hge := hge b hb
  dsimp only at hge
  omega

theorem merge {p : Nat} {term : Int} (h : TermsSorted log) (hlt : p < log.length)
    (hterm : (log[p]?).map Log.term = some term) (hes : TermsSorted (⟨none, term⟩ :: entries)) :
    TermsSorted (mergeLog log p entries) := by
  obtain ⟨e, he, heq⟩ := Option.map_eq_some_iff.mp hterm
  rcases mergeLog_cases hlt entries with ⟨hsame, _⟩ | ⟨hnew, _⟩
  · rw [hsame]
    exact h
  · rw [hnew]
    exact h.append he heq hes

end TermsSorted

theorem mem_mergeLog {log entries : List (Log C)} {p : Nat} (hlt : p < log.length) {e : Log C}
    (he : e ∈ mergeLog log p entries) : e ∈ log ∨ e ∈ entries := by
  rcases mergeLog_cases hlt entries with ⟨hsame, _⟩ | ⟨hnew, _⟩
  · rw [hsame] at he
    exact Or.inl he
  · rw [hnew] at he
    rcases List.mem_append.mp he with he | he
    · exact Or.inl (List.mem_of_mem_take he)
    · exact Or.inr he

/-- The terms of a server's log are in order and none is ahead of `currentTerm`; `lastIncludedTerm`,
which a restart puts into the dummy entry, is not ahead of the term that stands there. -/
structure Raft.Ordered (rf : Raft n C σ) : Prop where
  sorted : TermsSorted rf.log
  bounded : ∀ e ∈ rf.log, e.term ≤ rf.currentTerm
  boundary : ∀ d ∈ rf.log.head?, rf.lastIncludedTerm ≤ d.term

/-! ## The condition -/

/-- Nothing comes after index `i`, or the entry there has term `t`. -/
def Raft.Fits (rf : Raft n C σ) (t i : Int) : Prop :=
  rf.getLastLogIndex ≤ i ∨ (rf.entryAt i).map Log.term = some t

instance (rf : Raft n C σ) (t i : Int) : Decidable (rf.Fits t i) := by
  unfold Raft.Fits
  infer_instance

/-- A snapshot that `CondInstallSnapshot` is about to accept fits the log, and is of no lower term
than the snapshot that the server has taken itself. -/
def InstallsFit (w : World n C σ) : Action n C σ → Prop
  | .condInstallSnapshot s =>
    ∀ msg ∈ (w.nodes s).applyCh, (w.nodes s).rf.commitIndex < msg.snapshotIndex →
      (w.nodes s).rf.Fits msg.snapshotTerm msg.snapshotIndex ∧
        (w.nodes s).rf.lastIncludedTerm ≤ msg.snapshotTerm
  | _ => True

instance (w : World n C σ) (a : Action n C σ) : Decidable (InstallsFit w a) := by
  unfold InstallsFit
  induction a using Action.casesOn <;> infer_instance

namespace Raft.Ordered

variable {rf rf' : Raft n C σ}

/-- The dummy entry stays and the rest may change. -/
theorem of_head (h : rf.Ordered) (hhead : rf'.log.head? = rf.log.head?)
    (hbase : rf'.lastIncludedTerm = rf.lastIncludedTerm) (hsorted : TermsSorted rf'.log)
    (hbounded : ∀ e ∈ rf'.log, e.term ≤ rf'.currentTerm) : rf'.Ordered := by
  refine ⟨hsorted, hbounded, fun d hd ↦ ?_⟩
  rw [hhead] at hd
  rw [hbase]
  exact h.boundary d hd

/-- A new dummy entry. -/
theorem of_cons {d : Log C} {rest : List (Log C)} (hlog : rf'.log = d :: rest)
    (hsorted : TermsSorted (d :: rest)) (hd : d.term ≤ rf'.currentTerm)
    (hrest : ∀ e ∈ rest, e.term ≤ rf'.currentTerm) (hbase : rf'.lastIncludedTerm ≤ d.term) :
    rf'.Ordered := by
  refine ⟨hlog ▸ hsorted, ?_, ?_⟩
  · rw [hlog]
    exact List.forall_mem_cons.mpr ⟨hd, hrest⟩
  · intro e he
    rw [hlog] at he
    rw [← Option.some.inj he]
    exact hbase

/-- A restart puts `lastIncludedTerm` into the dummy entry, which lowers its term at most. -/
theorem restored (h : rf.Ordered) (hne : rf.log ≠ []) {s : Fin n} (hres : Restored s rf rf') :
    rf'.Ordered := by
  obtain ⟨d', hlog, hd'⟩ := hres.log
  obtain ⟨d, rest, hd⟩ := List.exists_cons_of_ne_nil hne
  have hle : d'.term ≤ d.term := hd' ▸ h.boundary d (by rw [hd]; rfl)
  obtain ⟨hhead, htail⟩ := List.pairwise_cons.mp (hd ▸ h.sorted)
  obtain ⟨hdb, hrest⟩ := List.forall_mem_cons.mp (hd ▸ h.bounded)
  rw [hd] at hlog
  apply of_cons hlog (List.pairwise_cons.mpr ⟨fun b hb ↦ hle.trans (hhead b hb), htail⟩)
  · rw [hres.currentTerm]
    exact hle.trans hdb
  · rw [hres.currentTerm]
    exact hrest
  · rw [hres.lastIncludedTerm, hd']

theorem keptAfter (h : rf.Ordered) {t i : Int} (hfits : rf.Fits t i) :
    TermsSorted (⟨none, t⟩ :: rf.keptAfter i) := by
  unfold Raft.keptAfter
  split
  · exact List.pairwise_singleton _ _
  · rename_i hlast
    obtain ⟨e, he, rfl⟩ := Option.map_eq_some_iff.mp (hfits.resolve_left hlast)
    have hge := h.sorted.le_of_drop (logAt_eq_some he).2.2
    exact List.pairwise_cons.mpr ⟨fun b hb ↦ hge b hb, h.sorted.drop⟩

end Raft.Ordered

theorem Raft.mem_of_mem_keptAfter {rf : Raft n C σ} {i : Int} {e : Log C}
    (he : e ∈ rf.keptAfter i) : e ∈ rf.log := by
  unfold Raft.keptAfter at he
  split at he
  · cases he
  · exact List.mem_of_mem_drop he

/-! ## What holds in every run that meets it -/

/-- Logs are in order, and so is what the requests and the pending snapshots bring. -/
structure TermsInv (gob : Gob (RaftImage n C) σ) (w : World n C σ) : Prop extends
    StorageInv gob w where
  ordered : ∀ s, (w.nodes s).rf.Ordered
  requests : ∀ env ∈ w.appendReqs, TermsSorted (⟨none, env.args.prevLogTerm⟩ :: env.args.entries) ∧
    ∀ e ∈ env.args.entries, e.term ≤ env.args.term
  snapshots : ∀ env ∈ w.snapshotReqs, env.args.lastIncludedTerm ≤ env.args.term
  pending : ∀ s msg, (w.nodes s).Pending msg → msg.snapshotValid = true →
    msg.snapshotTerm ≤ (w.nodes s).rf.currentTerm

namespace TermsInv

theorem init : TermsInv gob (World.init : World n C σ) where
  toStorageInv := StorageInv.init
  ordered := by
    intro s
    refine ⟨List.pairwise_singleton _ _, fun e he ↦ ?_, fun d hd ↦ ?_⟩
    · rw [List.mem_singleton.mp he]
      exact le_refl (0 : Int)
    · rw [← Option.some.inj hd]
      exact le_refl (0 : Int)
  requests := by
    intro env henv
    cases henv
  snapshots := by
    intro env henv
    cases henv
  pending := by
    rintro s msg (hb | hs | hc) _
    · cases hb
    · cases hs
    · cases hc

variable {w w' : World n C σ} {a : Action n C σ}

theorem ordered_step (h : TermsInv gob w) (hok : InstallsFit w a) (hstep : Step gob w a w')
    (t : Fin n) : (w'.nodes t).rf.Ordered := by
  have hold := h.ordered t
  have hne := (h.durable t).log_ne_nil
  have hindex := step_indices hstep h.durable t
  have hterm := hindex.term_le
  generalize (w'.nodes t).rf = rf' at hindex hterm ⊢
  cases hindex with
  | same _ hi | committed _ _ _ _ _ _ hi | applied _ _ _ hi =>
      obtain ⟨hlog, _, hbase, _⟩ := indices_eq.mp hi
      apply hold.of_head (by rw [hlog]) hbase
      · rw [hlog]
        exact hold.sorted
      · rw [hlog]
        exact fun e he ↦ (hold.bounded e he).trans hterm
  | restarted ha hres => exact hold.restored hne hres
  | appended command ha hlead hct hi =>
      obtain ⟨hlog, _, hbase, _⟩ := indices_eq.mp hi
      apply hold.of_head (by rw [hlog, List.head?_append_of_ne_nil _ hne]) hbase
      · rw [hlog]
        refine List.pairwise_append.mpr ⟨hold.sorted, List.pairwise_singleton _ _, ?_⟩
        intro e he b hb
        rw [List.mem_singleton.mp hb]
        exact hold.bounded e he
      · intro e he
        rw [hlog] at he
        rw [hct]
        rcases List.mem_append.mp he with he | he
        · exact hold.bounded e he
        · rw [List.mem_singleton.mp he]
  | merged env pli ha hdst henv hacc hct hi =>
      obtain ⟨hlog, _, hbase, _⟩ := indices_eq.mp hi
      obtain ⟨hes, hesle⟩ := h.requests env henv
      have hzero : (mergeLog (w.nodes t).rf.log pli env.args.entries)[0]? = (w.nodes t).rf.log[0]? :=
        mergeLog_getElem?_le hacc.lt (Nat.zero_le pli)
      apply hold.of_head (by rw [hlog, List.head?_eq_getElem?, hzero, List.head?_eq_getElem?]) hbase
      · rw [hlog]
        exact hold.sorted.merge hacc.lt hacc.prev hes
      · intro e he
        rw [hlog] at he
        rw [hct]
        rcases mem_mergeLog hacc.lt he with he | he
        · exact (hold.bounded e he).trans hacc.term
        · exact hesle e he
  | installed msg ha hch hvalid hnew _ hct hi =>
      -- here the condition is used: the suffix is kept without a look at its terms
      obtain ⟨hlog, _, hbase, _⟩ := indices_eq.mp hi
      subst ha
      obtain ⟨hfits, hle⟩ := hok msg hch hnew
      apply Raft.Ordered.of_cons hlog (hold.keptAfter hfits)
      · rw [hct]
        exact h.pending t msg (Or.inr (Or.inr hch)) hvalid
      · rw [hct]
        exact fun e he ↦ hold.bounded e (Raft.mem_of_mem_keptAfter he)
      · rw [hbase]
        exact hle
  | compacted i data dummy rest ha hnew hdrop hct hi =>
      obtain ⟨hlog, _, hbase, _⟩ := indices_eq.mp hi
      have hsub : dummy :: rest <:+ (w.nodes t).rf.log := hdrop ▸ List.drop_suffix _ _
      obtain ⟨hhead, htail⟩ := List.pairwise_cons.mp (hold.sorted.sublist hsub.sublist)
      apply Raft.Ordered.of_cons hlog (List.pairwise_cons.mpr ⟨fun b hb ↦ hhead b hb, htail⟩)
      · rw [hct]
        exact hold.bounded dummy (hsub.subset List.mem_cons_self)
      · rw [hct]
        exact fun e he ↦ hold.bounded e (hsub.subset (List.mem_cons_of_mem dummy he))
      · exact hbase.le

/-- A request carries a part of a log. -/
theorem requests_step (h : TermsInv gob w) (hstep : Step gob w a w')
    {env : Envelope n (AppendEntriesArgs n C)} (henv : env ∈ w'.appendReqs) :
    TermsSorted (⟨none, env.args.prevLogTerm⟩ :: env.args.entries) ∧
      ∀ e ∈ env.args.entries, e.term ≤ env.args.term := by
  rcases step_appendReqs hstep henv with hold | ⟨s, _, _, hround⟩
  · exact h.requests env hold
  · obtain ⟨_, _, index, prev, _, hprev, hargs⟩ := Raft.onRound_append hround
    obtain ⟨hsorted, hbounded, _⟩ := h.ordered s
    have hge := hsorted.le_of_drop hprev
    rw [hargs]
    exact ⟨List.pairwise_cons.mpr ⟨fun b hb ↦ hge b hb, hsorted.drop⟩,
      fun e he ↦ hbounded e (List.mem_of_mem_drop he)⟩

theorem snapshots_step (h : TermsInv gob w) (hstep : Step gob w a w')
    {env : Envelope n (InstallSnapshotArgs n σ)} (henv : env ∈ w'.snapshotReqs) :
    env.args.lastIncludedTerm ≤ env.args.term := by
  rcases h.sent_step hstep henv with hold | ⟨s, _, hargs⟩
  · exact h.snapshots env hold
  · obtain ⟨d, rest, hlog⟩ := List.exists_cons_of_ne_nil (h.durable s).log_ne_nil
    obtain ⟨_, hbounded, hboundary⟩ := h.ordered s
    rw [hlog] at hbounded hboundary
    rw [hargs]
    exact (hboundary d rfl).trans (hbounded d List.mem_cons_self)

theorem pending_step (h : TermsInv gob w) (hstep : Step gob w a w') {s : Fin n}
    {msg : ApplyMsg C σ} (hmsg : (w'.nodes s).Pending msg) (hvalid : msg.snapshotValid = true) :
    msg.snapshotTerm ≤ (w'.nodes s).rf.currentTerm := by
  rcases step_pending hstep hmsg with hold | hcmd | ⟨env, henv, hterm, rfl⟩
  · exact (h.pending s msg hold hvalid).trans (step_indices hstep h.durable s).term_le
  · rw [hcmd] at hvalid
    cases hvalid
  · exact (h.snapshots env henv).trans hterm

theorem step (h : TermsInv gob w) (hok : InstallsFit w a) (hstep : Step gob w a w') :
    TermsInv gob w' where
  toStorageInv := h.toStorageInv.step hstep
  ordered := h.ordered_step hok hstep
  requests := fun _ henv ↦ h.requests_step hstep henv
  snapshots := fun _ henv ↦ h.snapshots_step hstep henv
  pending := fun _ _ hmsg hvalid ↦ h.pending_step hstep hmsg hvalid

end TermsInv

/-- What an accepted snapshot of term `t` and index `i` should leave behind: entries after `i` only
if the log held the entry that the snapshot ends with, and terms that do not decrease. -/
structure LeavesNoConflict (rf rf' : Raft n C σ) (t i : Int) : Prop where
  suffix : (rf.entryAt i).map Log.term = some t ∨ rf'.log = [⟨none, t⟩]
  dummy : rf'.log.head? = some ⟨none, t⟩
  sorted : TermsSorted rf'.log

/-- In a run whose installed snapshots fit the logs they are installed into, an accepted call of
`CondInstallSnapshot` leaves no conflicting suffix exactly if its snapshot fits, too. -/
theorem leaves_no_conflict_iff_fits [DecidableEq C] [DecidableEq σ] {gob : Gob (RaftImage n C) σ}
    {w : World n C σ} {as : List (Action n C σ)}
    (hok : Lib.Along (World.step gob) InstallsFit World.init as)
    (hrun : Lib.run (World.step gob) World.init as = some w) (s : Fin n) {t i : Int}
    {data : List σ} {rf' : Raft n C σ}
    (hacc : (w.nodes s).rf.condInstallSnapshot gob t i data = some (rf', true)) :
    LeavesNoConflict (w.nodes s).rf rf' t i ↔ (w.nodes s).rf.Fits t i := by
  have hinv : TermsInv gob w :=
    Lib.run_invariant (fun _ _ _ h hok hstep ↦ h.step hok (World.step_inv hstep)) TermsInv.init
      hok hrun
  obtain ⟨_, hlog⟩ := Raft.condInstallSnapshot_kept (hinv.durable s).log_ne_nil hacc
  constructor
  · rintro ⟨hheld | halone, _, _⟩
    · exact Or.inr hheld
    · -- nothing was kept, so there was nothing after `i`
      left
      rw [hlog, List.cons.injEq] at halone
      have hnil := halone.2
      unfold Raft.keptAfter at hnil
      split at hnil
      · assumption
      · rename_i hlast
        have hlen := List.drop_eq_nil_iff.mp hnil
        unfold Raft.getLastLogIndex Raft.logicIndex at hlast ⊢
        unfold Raft.realIndex at hlen
        omega
  · intro hfits
    refine ⟨?_, by rw [hlog]; rfl, hlog ▸ (hinv.ordered s).keptAfter hfits⟩
    rcases hfits with hlast | hheld
    · right
      rw [hlog, Raft.keptAfter, if_pos hlast]
    · exact Or.inl hheld

/-- Server 2 leads term 1 and accepts two commands that it does not replicate.  Server 0 leads term 2
with the vote of server 1, commits a command of its own at index 1 and compacts it; its snapshot
comes to server 2. -/
def tailRun : List (Action 3 Nat (RaftImage 3 Nat)) :=
  let vote (rpc : Nat) (dst : Fin 3) (term : Int) (candidate : Fin 3) :
      Envelope 3 (RequestVoteArgs 3) := ⟨rpc, dst, ⟨term, candidate, 0, 0⟩⟩
  let yes (term : Int) : RequestVoteReply := { term := term, voteGranted := true }
  let append (rpc : Nat) (dst : Fin 3) : Envelope 3 (AppendEntriesArgs 3 Nat) :=
    ⟨rpc, dst, ⟨2, 0, 0, 0, [⟨some 7, 2⟩], 0⟩⟩
  let install : Envelope 3 (InstallSnapshotArgs 3 (RaftImage 3 Nat)) :=
    ⟨5, 2, ⟨2, 0, 1, 2, [bootImage]⟩⟩
  [ .electTimeout 2, .electRound 2 0, .electRound 2 0, .requestVote (vote 1 1 1 2),
    .voteReply 2 0 (vote 1 1 1 2) (yes 1), .start 2 (some 5), .start 2 (some 6),
    -- term 2
    .requestVote (vote 0 0 1 2), .electTimeout 0, .electRound 0 0, .electRound 0 0,
    .requestVote (vote 2 1 2 0), .voteReply 0 0 (vote 2 1 2 0) (yes 2), .start 0 (some 7),
    .onRound 0 2, .onRound 0 1, .appendEntries (append 4 1),
    .appendReply 0 (append 4 1) { term := 2, success := true },
    .wakeApplier 0, .updateApplied 0, .sendCommand 0, .snapshot 0 1 [bootImage], .serviceDone 0,
    .onRound 0 2, .installSnapshot install, .sendSnapshot 2 0 ]

/-- Server 2 accepts the snapshot of index 1 and term 2 and keeps its own entry of term 1 after it,
though its entry at index 1 is of term 1. -/
theorem conflicting_suffix_kept :
    ∃ w, Lib.run (World.step (Gob.plain (RaftImage 3 Nat))) World.init tailRun = some w ∧
      ∃ rf', (w.nodes 2).rf.condInstallSnapshot (Gob.plain (RaftImage 3 Nat)) 2 1 [bootImage] =
          some (rf', true) ∧
        (w.nodes 2).applyCh.map (fun msg ↦ (msg.snapshotTerm, msg.snapshotIndex, msg.snapshot)) =
          some (2, 1, [bootImage]) ∧
        (w.nodes 2).rf.entryAt 1 = some ⟨some 5, 1⟩ ∧ rf'.log = [⟨none, 2⟩, ⟨some 6, 1⟩] ∧
        ¬ LeavesNoConflict (w.nodes 2).rf rf' 2 1 := by
  have hcheck : (Lib.run (World.step (Gob.plain (RaftImage 3 Nat))) World.init tailRun).any
      (fun w ↦ ((w.nodes 2).rf.condInstallSnapshot (Gob.plain (RaftImage 3 Nat)) 2 1
        [bootImage]).any fun r ↦ decide (r.2 = true ∧
          (w.nodes 2).applyCh.map (fun msg ↦ (msg.snapshotTerm, msg.snapshotIndex, msg.snapshot)) =
            some (2, 1, [bootImage]) ∧
          (w.nodes 2).rf.entryAt 1 = some ⟨some 5, 1⟩ ∧
          r.1.log = [⟨none, 2⟩, ⟨some 6, 1⟩])) = true := by
    decide +kernel
  obtain ⟨w, hrun, hw⟩ := Lib.exists_run_of_any hcheck
  obtain ⟨⟨rf', accepted⟩, hacc, hr⟩ := (Option.any_eq_true _ _).mp hw
  obtain ⟨rfl, hch, hentry, hlog⟩ := of_decide_eq_true hr
  refine ⟨w, hrun, rf', hacc, hch, hentry, hlog, fun hbad ↦ ?_⟩
  have hsorted := hbad.sorted
  rw [hlog] at hsorted
  exact absurd ((List.pairwise_cons.mp hsorted).1 _ List.mem_cons_self) (by decide)

/-- After `installRun` the leader sends two more commands to server 2, whose answer is lost, and to
server 1, with which it commits them.  It compacts the first of the two; as it does not know of the
entries of server 2, it sends its snapshot there. -/
def matchingTailRun : List (Action 3 Nat (RaftImage 3 Nat)) :=
  let install (rpc : Nat) (index : Int) : Envelope 3 (InstallSnapshotArgs 3 (RaftImage 3 Nat)) :=
    ⟨rpc, 2, ⟨1, 0, index, 1, [bootImage]⟩⟩
  let append (rpc : Nat) (dst : Fin 3) : Envelope 3 (AppendEntriesArgs 3 Nat) :=
    ⟨rpc, dst, ⟨1, 0, 1, 1, [⟨some 8, 1⟩, ⟨some 9, 1⟩], 1⟩⟩
  installRun ++
  [ .serviceDone 2, .snapshotReply 0 (install 2 1) { term := 1 }, .start 0 (some 8),
    .start 0 (some 9), .onRound 0 2, .appendEntries (append 3 2),
    .onRound 0 1, .appendEntries (append 4 1),
    .appendReply 0 (append 4 1) { term := 1, success := true },
    .wakeApplier 0, .updateApplied 0, .sendCommand 0, .snapshot 0 2 [bootImage], .serviceDone 0,
    .onRound 0 2, .installSnapshot (install 5 2), .sendSnapshot 2 0 ]

/-- In `matchingTailRun` server 2 has installed one snapshot.  The next one ends with an entry that
its log has, and the entry after it is kept. -/
theorem leaves_no_conflict_matchingTailRun :
    ∃ w, Lib.run (World.step (Gob.plain (RaftImage 3 Nat))) World.init matchingTailRun = some w ∧
      ∃ rf', (w.nodes 2).rf.condInstallSnapshot (Gob.plain (RaftImage 3 Nat)) 1 2 [bootImage] =
          some (rf', true) ∧
        (w.nodes 2).rf.log = [⟨none, 1⟩, ⟨some 8, 1⟩, ⟨some 9, 1⟩] ∧
        rf'.log = [⟨none, 1⟩, ⟨some 9, 1⟩] ∧ LeavesNoConflict (w.nodes 2).rf rf' 1 2 := by
  have hcheck : (Lib.run (World.step (Gob.plain (RaftImage 3 Nat))) World.init
      matchingTailRun).any (fun w ↦ ((w.nodes 2).rf.condInstallSnapshot
        (Gob.plain (RaftImage 3 Nat)) 1 2 [bootImage]).any fun r ↦
          decide (r.2 = true ∧ (w.nodes 2).rf.log = [⟨none, 1⟩, ⟨some 8, 1⟩, ⟨some 9, 1⟩] ∧
            r.1.log = [⟨none, 1⟩, ⟨some 9, 1⟩] ∧ (w.nodes 2).rf.Fits 1 2)) = true := by
    decide +kernel
  have hok : Lib.Along (World.step (Gob.plain (RaftImage 3 Nat))) InstallsFit World.init
      matchingTailRun := by
    decide +kernel
  obtain ⟨w, hrun, hw⟩ := Lib.exists_run_of_any hcheck
  obtain ⟨⟨rf', accepted⟩, hacc, hr⟩ := (Option.any_eq_true _ _).mp hw
  obtain ⟨rfl, hlog, hlog', hfits⟩ := of_decide_eq_true hr
  exact ⟨w, hrun, rf', hacc, hlog, hlog', (leaves_no_conflict_iff_fits hok hrun 2 hacc).mpr hfits⟩

end Lab6824

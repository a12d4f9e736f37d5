import Lab6824.Hosts
import Lab6824.KvRaft.Linearizable

/-!
# Stack — the key/value service on top of Raft

`KvRaft.Cluster` takes it for granted that the servers have one common sequence of operations.  Here
they have none: each runs on its Raft peer, with what `Start`, `GetState` and `applyCh` give it.
Every run of the stack in which the peers agree is matched by a run of the cluster, so what the
clerks see is linearizable.
-/

namespace Lab6824.KvRaft

variable {n m : Nat} {σ : Type}

/-! ## The stack -/

/-- Clerks, servers and the peers below them.  It is the peers that order the operations: `started`
and `committed` of `front` stay empty. -/
structure Stack (n m : Nat) (σ : Type) where
  front : Cluster n m σ
  raft : World n Op σ

inductive StackAction (n m : Nat) (σ : Type) where
  | clerk (a : ClusterAction n m)
  | host (a : HostAction n (Envelope n Args) Op σ)

/-- The action is one of a clerk. -/
def ClusterAction.ofClerk : ClusterAction n m → Bool
  | .server _ _ | .commit _ => false
  | _ => true

/-- What the action hands to a server has arrived there. -/
def Cluster.delivers (w : Cluster n m σ) : HostAction n (Envelope n Args) Op σ → Bool
  | .serve s action => w.arrives s action
  | _ => true

namespace Stack

def init [NeZero n] (uids : Fin m → Int) : Stack n m σ where
  front := Cluster.init uids
  raft := World.init

def hosts (st : Stack n m σ) : Hosts n KVServer (Envelope n Args) Op Answer String σ where
  raft := st.raft
  nodes := st.front.nodes

variable [DecidableEq σ] (raftGob : Gob (RaftImage n Op) σ) (gob : Gob (RequestIds × Store) σ)

def host (st : Stack n m σ) (a : HostAction n (Envelope n Args) Op σ) : Option (Stack n m σ) :=
  if st.front.delivers a then
    match st.hosts.step (kvService n gob) raftGob a with
    | none => none
    | some (hosts, replies) =>
      some
        { raft := hosts.raft
          front :=
            { st.front with nodes := hosts.nodes, replies := replies ++ st.front.replies } }
  else none

def step [NeZero n] (st : Stack n m σ) : StackAction n m σ → Option (Stack n m σ)
  | .clerk a =>
    if a.ofClerk then (st.front.step gob a).map fun front ↦ { st with front := front } else none
  | .host a => st.host raftGob gob a

end Stack

/-- The conditions under which the peers agree. -/
def StackAgrees (st : Stack n m σ) : StackAction n m σ → Prop
  | .clerk _ => True
  | .host a => HostsAgree st.hosts a

instance decidableStackAgrees (st : Stack n m σ) :
    (a : StackAction n m σ) → Decidable (StackAgrees st a)
  | .clerk _ => isTrue trivial
  | .host a => inferInstanceAs (Decidable (HostsAgree st.hosts a))

/-! ## The cluster without its sequence -/

namespace Cluster

variable {gob : Gob (RequestIds × Store) σ} {w w' : Cluster n m σ}

/-- What the clerks and the servers have of the cluster; the events keep their order but not their
position in the sequence. -/
def erase (w : Cluster n m σ) : Cluster n m σ :=
  { w with started := [], committed := [], history := w.history.map fun e ↦ (0, e.2) }

theorem map_snd_erase (w : Cluster n m σ) :
    w.erase.history.map Prod.snd = w.history.map Prod.snd := by
  show (w.history.map fun e ↦ ((0 : Nat), e.2)).map Prod.snd = _
  rw [List.map_map]
  rfl

variable {c : Fin m}

theorem erase_call (method : Method) : w.erase.call c method = (w.call c method).map erase := by
  have hclerk : w.erase.clerks c = w.clerks c := rfl
  cases hloop : (w.clerks c).loop with
  | some loop => simp only [call, hclerk, hloop, Option.map_none]
  | none =>
      simp only [call, hclerk, hloop, Option.map_some]
      simp [erase, setClerk]

theorem erase_send : w.erase.send c = (w.send c).map erase := by
  have hclerk : w.erase.clerks c = w.clerks c := rfl
  simp only [send, hclerk]
  split
  · rfl
  · rfl

theorem erase_fail [NeZero n] : w.erase.fail c = (w.fail c).map erase := by
  have hclerk : w.erase.clerks c = w.clerks c := rfl
  simp only [fail, hclerk]
  split
  · rfl
  · rfl

theorem erase_reply [NeZero n] (answer : Answer) :
    w.erase.reply c answer = (w.reply c answer).map erase := by
  have hclerk : w.erase.clerks c = w.clerks c := rfl
  have hreplies : w.erase.replies = w.replies := rfl
  simp only [reply, hclerk, hreplies]
  split
  · split
    · split
      · rfl
      · simp [erase, setClerk]
    · rfl
  · rfl

/-- A clerk does not look at the sequence. -/
theorem erase_step [NeZero n] {a : ClusterAction n m} (ha : a.ofClerk = true) :
    w.erase.step gob a = (w.step gob a).map erase := by
  cases a with
  | call c method => exact erase_call method
  | send c => exact erase_send
  | fail c => exact erase_fail
  | reply c answer => exact erase_reply answer
  | server | commit => cases ha

/-- A clerk leaves the servers alone. -/
theorem clerk_frame [NeZero n] {a : ClusterAction n m} (ha : a.ofClerk = true)
    (h : w.step gob a = some w') :
    w'.nodes = w.nodes ∧ w'.started = w.started ∧ w'.committed = w.committed := by
  cases a with
  | call c method =>
      simp only [step, call] at h
      split at h
      · cases h
      · rw [← Option.some.inj h]
        exact ⟨rfl, rfl, rfl⟩
  | send c =>
      simp only [step, send] at h
      split at h
      · rw [← Option.some.inj h]
        exact ⟨rfl, rfl, rfl⟩
      · cases h
  | fail c =>
      simp only [step, fail] at h
      split at h
      · rw [← Option.some.inj h]
        exact ⟨rfl, rfl, rfl⟩
      · cases h
  | reply c answer =>
      simp only [step, reply] at h
      split at h
      · split at h
        · split at h
          all_goals
            rw [← Option.some.inj h]
            exact ⟨rfl, rfl, rfl⟩
        · cases h
      · cases h
  | server | commit => cases ha

/-- Started operations get into the sequence. -/
theorem run_commit [NeZero n] {ops : List Op} (hops : ∀ op ∈ ops, op ∈ w.started) :
    Lib.run (step gob) w (ops.map .commit) =
      some { w with committed := w.committed ++ ops } := by
  induction ops generalizing w with
  | nil => rw [List.append_nil]; rfl
  | cons op ops ih =>
      have hstep : w.step gob (.commit op) = some { w with committed := w.committed ++ [op] } :=
        if_pos (hops op List.mem_cons_self)
      rw [List.map_cons, Lib.run_cons]
      refine ⟨_, hstep, ?_⟩
      have hrest := ih (w := { w with committed := w.committed ++ [op] })
        fun op hop ↦ hops op (List.mem_cons_of_mem _ hop)
      rw [hrest, List.append_assoc, List.singleton_append]

end Cluster

/-! ## Simulation -/

/-- The stack is what the clerks and the servers have of the cluster `w`, over peers that are at the
sequence of `w`. -/
structure Backs (raftGob : Gob (RaftImage n Op) σ) (gob : Gob (RequestIds × Store) σ)
    (st : Stack n m σ) (w : Cluster n m σ) : Prop where
  front : st.front = w.erase
  hosted : ∃ q, Hosted (kvService n gob) raftGob ⟨st.raft, w.nodes⟩ q w.committed w.started

namespace Backs

variable [NeZero n] {raftGob : Gob (RaftImage n Op) σ} {gob : Gob (RequestIds × Store) σ}
  {st st' : Stack n m σ} {w : Cluster n m σ}

theorem init (uids : Fin m → Int) :
    Backs raftGob gob (Stack.init uids : Stack n m σ) (Cluster.init uids) where
  front := rfl
  hosted := ⟨_, Hosted.init⟩

/-- The cluster can do what the servers did, up to the sequence. -/
theorem server_of_serves {a : HostAction n (Envelope n Args) Op σ} {nodes : Fin n → KvNode n σ}
    {new : List Op} {replies : List (Envelope n Args × Answer)} (hdelivers : w.delivers a = true)
    (h : Serves (kvService n gob) w.committed a w.nodes nodes new replies) :
    ∃ as, Lib.run (Cluster.step gob) w as =
      some
        { w with nodes := nodes, started := new ++ w.started, replies := replies ++ w.replies } := by
  cases h with
  | idle => exact ⟨[], rfl⟩
  | node s action hstep harrived =>
      have harrives : w.arrives s action = true := by
        cases action with
        | handle env =>
            rw [harrived env rfl] at hdelivers
            exact hdelivers
        | _ => rfl
      refine ⟨[.server s action], ?_⟩
      rw [Lib.run_cons]
      refine ⟨_, ?_, rfl⟩
      show w.server gob s action = _
      unfold Cluster.server
      rw [if_pos harrives, hstep]

variable [DecidableEq σ]

theorem clerk_step (h : Backs raftGob gob st w) {a : ClusterAction n m}
    (hstep : st.step raftGob gob (.clerk a) = some st') :
    ∃ as w', Lib.run (Cluster.step gob) w as = some w' ∧ Backs raftGob gob st' w' := by
  simp only [Stack.step] at hstep
  split at hstep
  · rename_i ha
    obtain ⟨front, hfront, rfl⟩ := Option.map_eq_some_iff.mp hstep
    rw [h.front, Cluster.erase_step ha] at hfront
    obtain ⟨w', hw', rfl⟩ := Option.map_eq_some_iff.mp hfront
    obtain ⟨hnodes, hstarted, hcommitted⟩ := Cluster.clerk_frame ha hw'
    refine ⟨[a], w', Lib.run_cons.mpr ⟨w', hw', rfl⟩, rfl, ?_⟩
    rw [hnodes, hstarted, hcommitted]
    exact h.hosted
  · cases hstep

theorem host_step (h : Backs raftGob gob st w) {a : HostAction n (Envelope n Args) Op σ}
    (hok : HostsAgree st.hosts a) (hstep : st.step raftGob gob (.host a) = some st') :
    ∃ as w', Lib.run (Cluster.step gob) w as = some w' ∧ Backs raftGob gob st' w' := by
  simp only [Stack.step, Stack.host] at hstep
  split at hstep
  · rename_i hdelivers
    split at hstep
    · cases hstep
    · rename_i hosts replies hhosts
      obtain ⟨q, hhosted⟩ := h.hosted
      have hst : st.hosts = ⟨st.raft, w.nodes⟩ := by
        rw [Stack.hosts, h.front]
        rfl
      rw [hst] at hhosts hok
      obtain ⟨q', ops, new, hserves, hops, hhosted'⟩ := hhosted.step rfl hok hhosts
      rw [h.front] at hdelivers
      obtain ⟨as, has⟩ := server_of_serves (w := w) hdelivers hserves
      have hrun := Lib.run_append.mpr ⟨_, has, Cluster.run_commit hops⟩
      refine ⟨as ++ ops.map .commit, _, hrun, ?_, ?_⟩
      · rw [← Option.some.inj hstep, h.front]
        rfl
      · rw [← Option.some.inj hstep]
        exact ⟨q', hhosted'⟩
  · cases hstep

theorem step (h : Backs raftGob gob st w) {a : StackAction n m σ} (hok : StackAgrees st a)
    (hstep : st.step raftGob gob a = some st') :
    ∃ as w', Lib.run (Cluster.step gob) w as = some w' ∧ Backs raftGob gob st' w' := by
  cases a with
  | clerk a => exact h.clerk_step hstep
  | host a => exact h.host_step hok hstep

theorem run {uids : Fin m → Int} {as : List (StackAction n m σ)}
    (hok : Lib.Along (Stack.step raftGob gob) StackAgrees (Stack.init uids) as)
    (hrun : Lib.run (Stack.step raftGob gob) (Stack.init uids) as = some st) :
    ∃ w bs, Lib.run (Cluster.step gob) (Cluster.init uids) bs = some w ∧
      Backs raftGob gob st w := by
  refine Lib.run_invariant (I := fun st ↦ ∃ w bs,
    Lib.run (Cluster.step gob) (Cluster.init uids) bs = some w ∧ Backs raftGob gob st w)
    ?_ ⟨_, [], rfl, Backs.init uids⟩ hok hrun
  rintro st a st' ⟨w, bs, hbs, hback⟩ hag hstep
  obtain ⟨cs, w', hcs, hback'⟩ := hback.step hag hstep
  exact ⟨w', bs ++ cs, Lib.run_append.mpr ⟨w, hbs, hcs⟩, hback'⟩

end Backs

/-- Clerks of different uids that call key/value servers which run on Raft and keep their whole log
see one key/value store, in every run of clerks, servers and peers in which the peers agree. -/
theorem kvraft_over_raft_linearizable [NeZero n] [DecidableEq σ]
    (raftGob : Gob (RaftImage n Op) σ) (gob : Gob (RequestIds × Store) σ) {uids : Fin m → Int}
    (huids : Function.Injective uids) {as : List (StackAction n m σ)} {st : Stack n m σ}
    (hok : Lib.Along (Stack.step raftGob gob) StackAgrees (Stack.init uids) as)
    (hrun : Lib.run (Stack.step raftGob gob) (Stack.init uids) as = some st) :
    Lib.Linearizable kvModel (st.front.history.map Prod.snd) := by
  obtain ⟨w, bs, hbs, hback⟩ := Backs.run hok hrun
  rw [hback.front, Cluster.map_snd_erase]
  have hcalls := (ClusterInv.run huids hbs).calls
  obtain ⟨point, hpoint⟩ := hcalls.exists_point
  exact Lib.linearizable_of_log (hcalls.logEffects hpoint)

/-! ## A run of three servers -/

abbrev StackBytes := RaftImage 3 Op ⊕ (RequestIds × Store)

/-- Server 0 is elected by server 1. -/
def electSteps : List (Action 3 Op StackBytes) :=
  let vote : Envelope 3 (RequestVoteArgs 3) := ⟨0, 1, ⟨1, 0, 0, 0⟩⟩
  [ .electTimeout 0, .electRound 0 0, .electRound 0 0, .requestVote vote,
    .voteReply 0 0 vote { term := 1, voteGranted := true } ]

/-- Server 1 stores the entries, and server 0 commits and delivers them. -/
def replicateSteps (env : Envelope 3 (AppendEntriesArgs 3 Op)) : List (Action 3 Op StackBytes) :=
  [ .onRound 0 1, .appendEntries env, .appendReply 0 env { term := 1, success := true },
    .wakeApplier 0, .updateApplied 0, .sendCommand 0 ]

/-- Server 0 answers the request when its operation is delivered. -/
def answerSteps (env : Envelope 3 Args) (append : Envelope 3 (AppendEntriesArgs 3 Op)) :
    List (HostAction 3 (Envelope 3 Args) Op StackBytes) :=
  [.serve 0 (.handle env), .start 0 0] ++ (replicateSteps append).map .raft ++
    [.apply 0, .getState 0, .serve 0 (.getWaitChan 0), .serve 0 .applierChan, .serve 0 .send,
      .serve 0 (.receive 0), .done 0]

/-- One clerk puts a value and the other gets it, both by server 0, which crashes in the end. -/
def putGetRun : List (StackAction 3 2 StackBytes) :=
  let writer : Fin 2 := ⟨0, Nat.two_pos⟩
  let reader : Fin 2 := ⟨1, Nat.one_lt_two⟩
  let put : Args := (Method.put "k" "a").args 1 1
  let get : Args := (Method.get "k").args 2 1
  (electSteps.map fun a ↦ .host (.raft a)) ++
  [.clerk (.call writer (.put "k" "a")), .clerk (.send writer)] ++
  (answerSteps ⟨0, 0, put⟩ ⟨1, 1, ⟨1, 0, 0, 0, [{ command := some put.toOp, term := 1 }], 0⟩⟩).map
    .host ++
  [.clerk (.reply writer { err := .ok }), .clerk (.call reader (.get "k")), .clerk (.send reader)] ++
  (answerSteps ⟨1, 0, get⟩ ⟨2, 1, ⟨1, 0, 1, 1, [{ command := some get.toOp, term := 1 }], 1⟩⟩).map
    .host ++
  [.host (.crash 0), .clerk (.reply reader { err := .ok, value := "a" })]

theorem kvraft_over_raft_linearizable_putGetRun :
    ∃ st, Lib.run (Stack.step (Gob.left _ _) (Gob.right _ _)) (Stack.init twoUids) putGetRun =
        some st ∧
      st.front.history.map Prod.snd =
        [.call (1, 1) { op := 1, key := "k", value := "a" }, .ret (1, 1) {},
          .call (2, 1) { op := 0, key := "k" }, .ret (2, 1) { value := "a" }] ∧
      Lib.Linearizable kvModel (st.front.history.map Prod.snd) := by
  have hcheck : (Lib.run (Stack.step (Gob.left _ _) (Gob.right _ _)) (Stack.init twoUids)
      putGetRun).any (fun st ↦ decide (st.front.history.map Prod.snd =
        [.call (1, 1) { op := 1, key := "k", value := "a" }, .ret (1, 1) {},
          .call (2, 1) { op := 0, key := "k" }, .ret (2, 1) { value := "a" }])) = true := by
    decide +kernel
  have hok : Lib.Along (Stack.step (Gob.left _ _) (Gob.right _ _)) StackAgrees (Stack.init twoUids)
      putGetRun := by
    decide +kernel
  obtain ⟨st, hrun, htest⟩ := Lib.exists_run_of_any hcheck
  exact ⟨st, hrun, of_decide_eq_true htest,
    kvraft_over_raft_linearizable _ _ twoUids_injective hok hrun⟩

end Lab6824.KvRaft

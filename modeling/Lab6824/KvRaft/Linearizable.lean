import Lab6824.KvRaft.History

/-!
# Linearizable — the cluster behaves like one key/value store

Every call takes effect at one position of the committed sequence: a Put or an Append at the first
operation of the call, since later ones are recognised by their request id, and a completed Get at
the operation whose answer the clerk got.  The positions lie between the call and its return, so the
history of the calls is linearizable.
-/

namespace Lab6824.KvRaft

/-! ## The values of one key -/

namespace KVServer

variable {kv : KVServer} {op : Op}

theorem value_of_get (hget : op.op = .get) (key : String) :
    (kv.applyCommand op).1.value key = kv.value key := by
  have hm : (kv.execute op).1.m = kv.m := by
    unfold execute
    rw [if_neg fun hskip ↦ hskip.2 hget, hget]
    dsimp only
    split <;> rfl
  unfold value
  rw [applyCommand_m, hm]

/-- A Put or Append with a new request id does to its key what the model says. -/
theorem step_of_lt (hother : op.op ≠ .get) (hnew : kv.lastRequest op.uId < op.requestId)
    (out : KvOutput) :
    kvModel.step (kv.value op.key) op.input out = (true, (kv.applyCommand op).1.value op.key) := by
  unfold value
  rw [applyCommand_m]
  unfold execute
  rw [if_neg fun hskip ↦ absurd hskip.1 (not_le.mpr hnew)]
  cases hop : op.op with
  | get => exact absurd hop hother
  | put => simp [kvModel, Op.input, hop, Finmap.lookup_insert]
  | append => simp [kvModel, Op.input, hop, Finmap.lookup_insert, value]

theorem value_of_ne {key : String} (hkey : op.key ≠ key) :
    (kv.applyCommand op).1.value key = kv.value key := by
  have hm : (kv.execute op).1.m.lookup key = kv.m.lookup key := by
    unfold execute
    split
    · rfl
    · split
      · exact Finmap.lookup_insert_of_ne _ (Ne.symm hkey)
      · exact Finmap.lookup_insert_of_ne _ (Ne.symm hkey)
      · split <;> rfl
  unfold value
  rw [applyCommand_m, hm]

end KVServer

/-! ## What takes effect where -/

/-- No earlier operation of the sequence belongs to the same call. -/
def First (cs : List Op) (p : Nat) (op : Op) : Prop :=
  ∀ q < p, ∀ op', cs[q]? = some op' → op'.ident ≠ op.ident

section Effect

variable (history : List Stamped) (cs : List Op) (point : Nat → Int × Int → KvOutput → Nat)

open Classical in
/-- The call that takes effect at position `p`; `point` tells for a return where the answer of the
call comes from. -/
noncomputable def effect (p : Nat) : Option (Lib.Operation (Int × Int) KvInput KvOutput) :=
  match cs[p]? with
  | none => none
  | some op =>
    if op.op = .get then
      if h : ∃ r : Nat × KvOutput, (r.1, Lib.Event.ret op.ident r.2) ∈ history ∧
          point r.1 op.ident r.2 = p then
        some { call := op.ident, input := op.input, output := h.choose.2 }
      else none
    else if First cs p op then some { call := op.ident, input := op.input, output := {} }
    else none

variable {history cs point}

/-- The two reasons for a call to take effect. -/
theorem effect_eq_some {p : Nat} {a : Lib.Operation (Int × Int) KvInput KvOutput}
    (h : effect history cs point p = some a) :
    ∃ op, cs[p]? = some op ∧ a.call = op.ident ∧ a.input = op.input ∧
      ((op.op = .get ∧ ∃ t, (t, Lib.Event.ret op.ident a.output) ∈ history ∧
          point t op.ident a.output = p) ∨
        (op.op ≠ .get ∧ First cs p op)) := by
  unfold effect at h
  split at h
  · cases h
  · rename_i op hp
    split at h
    · rename_i hget
      split at h
      · rename_i hret
        rw [← Option.some.inj h]
        exact ⟨op, hp, rfl, rfl, Or.inl ⟨hget, hret.choose.1, hret.choose_spec⟩⟩
      · cases h
    · rename_i hother
      split at h
      · rename_i hfirst
        rw [← Option.some.inj h]
        exact ⟨op, hp, rfl, rfl, Or.inr ⟨hother, hfirst⟩⟩
      · cases h

theorem exists_effect_get {p t : Nat} {op : Op} {output : KvOutput} (hp : cs[p]? = some op)
    (hget : op.op = .get) (hret : (t, Lib.Event.ret op.ident output) ∈ history)
    (hpoint : point t op.ident output = p) :
    ∃ a, effect history cs point p = some a ∧ a.call = op.ident := by
  have hex : ∃ r : Nat × KvOutput, (r.1, Lib.Event.ret op.ident r.2) ∈ history ∧
      point r.1 op.ident r.2 = p := ⟨(t, output), hret, hpoint⟩
  unfold effect
  rw [hp]
  dsimp only
  rw [if_pos hget, dif_pos hex]
  exact ⟨_, rfl, rfl⟩

theorem effect_first {p : Nat} {op : Op} (hp : cs[p]? = some op) (hother : op.op ≠ .get)
    (hfirst : First cs p op) :
    effect history cs point p = some { call := op.ident, input := op.input, output := {} } := by
  unfold effect
  rw [hp]
  dsimp only
  rw [if_neg hother, if_pos hfirst]

/-- Where no call takes effect there is a Get or a repetition. -/
theorem effect_eq_none {p : Nat} {op : Op} (h : effect history cs point p = none)
    (hp : cs[p]? = some op) : op.op = .get ∨ ¬ First cs p op := by
  by_contra hno
  rw [not_or, not_not] at hno
  rw [effect_first hp hno.1 hno.2] at h
  cases h

end Effect

namespace CallsInv

variable {n m : Nat} {uids : Fin m → Int} {clerks : Fin m → Clerk n} {history : List Stamped}
  {cs : List Op} {point : Nat → Int × Int → KvOutput → Nat}

/-- The position `p` has the operation whose answer the call has returned. -/
def IsPoint (history : List Stamped) (cs : List Op) (point : Nat → Int × Int → KvOutput → Nat) :
    Prop :=
  ∀ t call output, (t, Lib.Event.ret call output) ∈ history →
    ∃ op, point t call output < t ∧ cs[point t call output]? = some op ∧ op.ident = call ∧
      Result cs (point t call output) op output

theorem exists_point (h : CallsInv uids clerks history cs) : ∃ point, IsPoint history cs point := by
  have hpoint : ∀ t call output, ∃ p, (t, Lib.Event.ret call output) ∈ history →
      ∃ op, p < t ∧ cs[p]? = some op ∧ op.ident = call ∧ Result cs p op output := by
    intro t call output
    by_cases hret : (t, Lib.Event.ret call output) ∈ history
    · obtain ⟨p, hp⟩ := h.returned t call output hret
      exact ⟨p, fun _ ↦ hp⟩
    · exact ⟨0, fun hret' ↦ absurd hret' hret⟩
  choose point hpoint using hpoint
  exact ⟨point, hpoint⟩

theorem logged_op (h : CallsInv uids clerks history cs) {p q : Nat} {op op' : Op}
    (hp : cs[p]? = some op) (hq : cs[q]? = some op') (hident : op.ident = op'.ident) : op = op' :=
  h.op_unique (h.logged op (List.mem_of_getElem? hp)) (h.logged op' (List.mem_of_getElem? hq)) hident

/-- The first operation of a call is new to the servers. -/
theorem new_of_first (h : CallsInv uids clerks history cs) {p : Nat} {op : Op}
    (hp : cs[p]? = some op) (hfirst : First cs p op) :
    (stateAfter cs p).lastRequest op.uId < op.requestId := by
  rw [← not_le, le_lastRequest_iff]
  rintro (hle | ⟨q, op', hqp, hq, huid, hle⟩)
  · have hpos := h.requestId_pos (h.logged op (List.mem_of_getElem? hp))
    omega
  · have hlt := h.earlier_of_first hp hfirst hqp hq huid
    omega

/-- A repeated operation is known to the servers. -/
theorem state_of_not_first {p : Nat} {op : Op} (hp : cs[p]? = some op) (hfirst : ¬ First cs p op) :
    stateAfter cs (p + 1) = stateAfter cs p := by
  unfold First at hfirst
  push Not at hfirst
  obtain ⟨q, hqp, op', hq, hident⟩ := hfirst
  obtain ⟨huid, hid⟩ := Prod.mk.inj hident
  rw [stateAfter_succ hp]
  apply KVServer.applyCommand_of_le
  rw [le_lastRequest_iff]
  exact Or.inr ⟨q, op', hqp, hq, huid, hid.ge⟩

theorem effect_once (h : CallsInv uids clerks history cs) {p q : Nat}
    {a b : Lib.Operation (Int × Int) KvInput KvOutput}
    (ha : effect history cs point p = some a) (hb : effect history cs point q = some b)
    (hcall : a.call = b.call) : p = q := by
  obtain ⟨op, hp, hacall, _, hareason⟩ := effect_eq_some ha
  obtain ⟨op', hq, hbcall, _, hbreason⟩ := effect_eq_some hb
  have hop : op = op' := h.logged_op hp hq (by rw [← hacall, ← hbcall, hcall])
  subst hop
  rcases hareason with ⟨hget, t, hret, hpoint⟩ | ⟨hother, hfirst⟩
  · obtain ⟨_, t', hret', hpoint'⟩ := hbreason.resolve_right fun hno ↦ hno.1 hget
    obtain ⟨rfl, hout⟩ := h.retOnce t t' _ _ _ hret hret'
    rw [← hpoint, ← hpoint', hout]
  · obtain ⟨_, hfirst'⟩ := hbreason.resolve_left fun hno ↦ hother hno.1
    rcases lt_trichotomy p q with hlt | heq | hgt
    · exact absurd rfl (hfirst' p hlt op hp)
    · exact heq
    · exact absurd rfl (hfirst q hgt op hq)

/-- A call that has returned took effect, with the output that it returned. -/
theorem effect_returned (h : CallsInv uids clerks history cs) (hpoint : IsPoint history cs point)
    {t : Nat} {call : Int × Int} {output : KvOutput}
    (hret : (t, Lib.Event.ret call output) ∈ history) :
    ∃ p a, p < t ∧ p < cs.length ∧ effect history cs point p = some a ∧ a.call = call ∧
      a.output = output := by
  obtain ⟨op, hlt, hp, rfl, hresult⟩ := hpoint t call output hret
  have hlen := (List.getElem?_eq_some_iff.mp hp).1
  by_cases hget : op.op = .get
  · obtain ⟨a, ha, hacall⟩ := exists_effect_get hp hget hret rfl
    refine ⟨_, a, hlt, hlen, ha, hacall, ?_⟩
    obtain ⟨op', hp', _, _, hreason⟩ := effect_eq_some ha
    have hop : op' = op := Option.some.inj (hp'.symm.trans hp)
    subst hop
    obtain ⟨_, t', hret', _⟩ := hreason.resolve_right fun hno ↦ hno.1 hget
    exact (h.retOnce t' t _ _ _ hret' hret).2
  · -- the first operation of the call stands at or before the one that was answered
    classical
    have hex : ∃ (q : Nat) (op' : Op), cs[q]? = some op' ∧ op'.ident = op.ident := ⟨_, op, hp, rfl⟩
    obtain ⟨op', hq, hident⟩ := Nat.find_spec hex
    have hle : Nat.find hex ≤ point t op.ident output := Nat.find_min' hex ⟨op, hp, rfl⟩
    have hop : op' = op := h.logged_op hq hp hident
    subst hop
    have hfirst : First cs (Nat.find hex) op' := fun q hlt' op₀ hop₀ heq ↦
      Nat.find_min hex hlt' ⟨op₀, hop₀, heq⟩
    refine ⟨Nat.find hex, _, by omega, by omega, effect_first hq hget hfirst, rfl, ?_⟩
    exact (hresult.other hget).symm

theorem logEffects (h : CallsInv uids clerks history cs) (hpoint : IsPoint history cs point) :
    Lib.LogEffects kvModel history cs.length (effect history cs point)
      (fun p key ↦ (stateAfter cs p).value key) where
  sorted := h.sorted
  once := fun _ _ _ _ ha hb hcall ↦ h.effect_once ha hb hcall
  called := by
    intro p a ha
    obtain ⟨op, hp, hcall, hinput, _⟩ := effect_eq_some ha
    obtain ⟨t, ht⟩ := h.logged op (List.mem_of_getElem? hp)
    rw [hcall, hinput]
    exact List.mem_map.mpr ⟨_, ht, rfl⟩
  late := by
    intro p a t input ha hmem
    obtain ⟨op, hp, hcall, _, _⟩ := effect_eq_some ha
    exact h.late t a.call input p op hmem hp hcall.symm
  returned := fun _ _ _ hret ↦ h.effect_returned hpoint hret
  start := fun _ ↦ rfl
  idle := by
    intro p hnone
    funext key
    cases hp : cs[p]? with
    | none => rw [stateAfter, Lib.after_succ_of_none hp]
    | some op =>
        rcases effect_eq_none hnone hp with hget | hrepeat
        · rw [stateAfter_succ hp, KVServer.value_of_get hget]
        · rw [state_of_not_first hp hrepeat]
  other := by
    intro p a key ha hkey
    obtain ⟨op, hp, _, hinput, _⟩ := effect_eq_some ha
    rw [hinput] at hkey
    rw [stateAfter_succ hp, KVServer.value_of_ne hkey]
  allowed := by
    intro p a ha
    obtain ⟨op, hp, hcall, hinput, hreason⟩ := effect_eq_some ha
    rw [hinput, stateAfter_succ hp]
    change kvModel.step ((stateAfter cs p).value op.key) op.input a.output =
      (true, ((stateAfter cs p).applyCommand op).1.value op.key)
    rcases hreason with ⟨hget, t, hret, rfl⟩ | ⟨hother, hfirst⟩
    · obtain ⟨op', _, hp', _, hresult⟩ := hpoint t op.ident a.output hret
      have hop : op' = op := Option.some.inj (hp'.symm.trans hp)
      subst hop
      rw [KVServer.value_of_get hget]
      simp [kvModel, Op.input, hget, hresult.get hget]
    · exact KVServer.step_of_lt hother (h.new_of_first hp hfirst) a.output

end CallsInv

/-- The calls of any number of clerks with different uids, in any run of the cluster, form a history
that is linearizable with respect to `models.KvModel`. -/
theorem kvraft_linearizable {n m : Nat} [NeZero n] {σ : Type} (gob : Gob (RequestIds × Store) σ)
    (uids : Fin m → Int) (huids : Function.Injective uids) (as : List (ClusterAction n m))
    (w : Cluster n m σ) (hrun : Lib.run (Cluster.step gob) (Cluster.init uids) as = some w) :
    Lib.Linearizable kvModel (w.history.map Prod.snd) := by
  have hcalls := (ClusterInv.run huids hrun).calls
  obtain ⟨point, hpoint⟩ := hcalls.exists_point
  exact Lib.linearizable_of_log (hcalls.logEffects hpoint)

/-- What a server does to answer a request through the log: the handler of `env` is the only one, and
its operation comes next in the sequence. -/
def serve {n m : Nat} (s : Fin n) (env : Envelope n Args) (index : Int) : List (ClusterAction n m) :=
  [.server s (.handle env), .server s (.start 0 index true), .commit env.args.toOp,
    .server s .apply, .server s (.getState true), .server s (.getWaitChan 0),
    .server s .applierChan, .server s .send, .server s (.receive 0), .server s (.snapshot false)]

def twoUids (c : Fin 2) : Int := c.val + 1

theorem twoUids_injective : Function.Injective twoUids := by
  intro c d h
  unfold twoUids at h
  omega

/-- The clerk of uid `1` appends; its first request is logged by server `0` and then given up, the
second one is logged again by server `1`.  The clerk of uid `2` reads the value there. -/
def retryRun : List (ClusterAction 2 2) :=
  let first : Args := (Method.append "k" "a").args 1 1
  let second : Args := (Method.get "k").args 2 1
  [.call 0 (.append "k" "a"), .send 0, .server 0 (.handle ⟨0, 0, first⟩),
    .server 0 (.start 0 1 true), .commit first.toOp, .fail 0, .send 0,
    .server 1 (.handle ⟨1, 1, first⟩), .server 1 (.start 0 2 true), .commit first.toOp,
    .server 1 .apply, .server 1 (.getState false), .server 1 (.snapshot true),
    .server 1 .apply, .server 1 (.getState true), .server 1 .applierChan, .server 1 .send,
    .server 1 (.getWaitChan 0), .server 1 (.receive 0), .server 1 (.snapshot false),
    .reply 0 { err := .ok }, .call 1 (.get "k"), .send 1, .server 0 (.handle ⟨2, 0, second⟩),
    .server 0 (.start 1 0 false), .reply 1 { err := .errWrongLeader }, .send 1] ++
  serve 1 ⟨3, 1, second⟩ 3 ++ [.server 1 .restart, .reply 1 { err := .ok, value := "a" }]

theorem kvraft_linearizable_retryRun :
    ∃ w, Lib.run (Cluster.step (Gob.plain (RequestIds × Store))) (Cluster.init twoUids) retryRun =
        some w ∧ w.committed.length = 3 ∧
      w.history.map Prod.snd =
        [.call (1, 1) { op := 2, key := "k", value := "a" }, .ret (1, 1) {},
          .call (2, 1) { op := 0, key := "k" }, .ret (2, 1) { value := "a" }] ∧
      Lib.Linearizable kvModel (w.history.map Prod.snd) := by
  have hcheck : (Lib.run (Cluster.step (Gob.plain (RequestIds × Store))) (Cluster.init twoUids)
      retryRun).any (fun w ↦ decide (w.committed.length = 3 ∧ w.history.map Prod.snd =
        [.call (1, 1) { op := 2, key := "k", value := "a" }, .ret (1, 1) {},
          .call (2, 1) { op := 0, key := "k" }, .ret (2, 1) { value := "a" }])) = true := by
    decide +kernel
  obtain ⟨w, hrun, htest⟩ := Lib.exists_run_of_any hcheck
  obtain ⟨hlen, hhistory⟩ := of_decide_eq_true htest
  exact ⟨w, hrun, hlen, hhistory, kvraft_linearizable _ _ twoUids_injective retryRun w hrun⟩

end Lab6824.KvRaft

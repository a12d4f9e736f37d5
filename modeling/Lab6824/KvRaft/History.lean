import Lab6824.KvRaft.Cluster

/-!
# History — what the clerks' calls and the committed sequence have to do with each other

`CallsInv` is about the calls: a clerk makes one after the other, and a call that has returned stands
in the committed sequence.  `ServersInv` is about the servers: what they are given, pass to `Start`
and answer.  Together they hold in every run of a cluster whose clerks have different uids.
-/

namespace Lab6824.KvRaft

variable {n m : Nat} {σ : Type}

/-- The call that the operation belongs to has been made. -/
def Called (history : List Stamped) (op : Op) : Prop :=
  ∃ t, (t, Lib.Event.call op.ident op.input) ∈ history

/-- `out` is the right result for the operation at position `p` of the sequence. -/
structure Result (cs : List Op) (p : Nat) (op : Op) (out : KvOutput) : Prop where
  get : op.op = .get → out.value = (stateAfter cs p).value op.key
  other : op.op ≠ .get → out = {}

structure CallsInv (uids : Fin m → Int) (clerks : Fin m → Clerk n) (history : List Stamped)
    (committed : List Op) : Prop where
  uid : ∀ c, (clerks c).uid = uids c
  nonneg : ∀ c, 0 ≤ (clerks c).requestId
  sorted : history.Pairwise fun a b ↦ a.1 ≤ b.1
  bounded : ∀ e ∈ history, e.1 ≤ committed.length
  callBound : ∀ t call input, (t, Lib.Event.call call input) ∈ history →
    ∃ c, call.1 = uids c ∧ 1 ≤ call.2 ∧ call.2 ≤ (clerks c).requestId
  retBound : ∀ t call output, (t, Lib.Event.ret call output) ∈ history →
    ∃ c, call.1 = uids c ∧ call.2 ≤ (clerks c).requestId
  callOnce : ∀ t t' call input input', (t, Lib.Event.call call input) ∈ history →
    (t', Lib.Event.call call input') ∈ history → input = input'
  retOnce : ∀ t t' call output output', (t, Lib.Event.ret call output) ∈ history →
    (t', Lib.Event.ret call output') ∈ history → t = t' ∧ output = output'
  /-- No operation of a call is in the sequence before the call is made. -/
  late : ∀ t call input p op, (t, Lib.Event.call call input) ∈ history →
    committed[p]? = some op → op.ident = call → t ≤ p
  /-- A clerk makes a call after the earlier ones have returned. -/
  prior : ∀ t call input r, (t, Lib.Event.call call input) ∈ history → 1 ≤ r → r < call.2 →
    ∃ t' output, t' ≤ t ∧ (t', Lib.Event.ret (call.1, r) output) ∈ history
  done : ∀ c r, 1 ≤ r → r ≤ (clerks c).requestId →
    r < (clerks c).requestId ∨ (clerks c).loop = none →
    ∃ t output, (t, Lib.Event.ret (uids c, r) output) ∈ history
  current : ∀ c loop, (clerks c).loop = some loop →
    Called history (loop.method.args (uids c) (clerks c).requestId).toOp ∧
      (∀ t output, (t, Lib.Event.ret (uids c, (clerks c).requestId) output) ∉ history) ∧
      ∀ env, loop.rpc = some env → env.args = loop.method.args (uids c) (clerks c).requestId
  returned : ∀ t call output, (t, Lib.Event.ret call output) ∈ history →
    ∃ p op, p < t ∧ committed[p]? = some op ∧ op.ident = call ∧ Result committed p op output
  logged : ∀ op ∈ committed, Called history op

theorem Called.append {history : List Stamped} {op : Op} (h : Called history op)
    (events : List Stamped) : Called (history ++ events) op := by
  obtain ⟨t, ht⟩ := h
  exact ⟨t, List.mem_append_left _ ht⟩

@[simp] theorem ident_toOp_args (method : Method) (uid requestId : Int) :
    (method.args uid requestId).toOp.ident = (uid, requestId) := by
  cases method <;> rfl

section Events

/-! Which calls and which returns a history holds that gets one more event. -/

variable {history : List Stamped} {t k : Nat} {call id : Int × Int} {input input' : KvInput}
  {output output' : KvOutput}

theorem mem_call_append_call
    (h : (t, Lib.Event.call call input) ∈ history ++ [(k, Lib.Event.call id input')]) :
    (t, Lib.Event.call call input) ∈ history ∨ t = k ∧ call = id ∧ input = input' := by
  simpa using h

theorem mem_ret_append_call
    (h : (t, Lib.Event.ret call output) ∈ history ++ [(k, Lib.Event.call id input')]) :
    (t, Lib.Event.ret call output) ∈ history := by
  simpa using h

theorem mem_call_append_ret
    (h : (t, Lib.Event.call call input) ∈ history ++ [(k, Lib.Event.ret id output')]) :
    (t, Lib.Event.call call input) ∈ history := by
  simpa using h

theorem mem_ret_append_ret
    (h : (t, Lib.Event.ret call output) ∈ history ++ [(k, Lib.Event.ret id output')]) :
    (t, Lib.Event.ret call output) ∈ history ∨ t = k ∧ call = id ∧ output = output' := by
  simpa using h

end Events

/-- A clerk that keeps its uid and its request id is replaced. -/
theorem update_clerk (clerks : Fin m → Clerk n) (c : Fin m) (ck : Clerk n)
    (huid : ck.uid = (clerks c).uid) (hid : ck.requestId = (clerks c).requestId) (d : Fin m) :
    (Function.update clerks c ck d).uid = (clerks d).uid ∧
      (Function.update clerks c ck d).requestId = (clerks d).requestId := by
  refine (Function.forall_update_iff clerks fun d ck ↦
    ck.uid = (clerks d).uid ∧ ck.requestId = (clerks d).requestId).mpr ⟨⟨huid, hid⟩, ?_⟩ d
  exact fun d _ ↦ ⟨rfl, rfl⟩

namespace CallsInv

variable {uids : Fin m → Int} {clerks : Fin m → Clerk n} {history : List Stamped}
  {committed : List Op}

theorem init [NeZero n] (uids : Fin m → Int) :
    CallsInv uids (fun c ↦ (makeClerk (uids c) : Clerk n)) [] [] where
  uid := fun _ ↦ rfl
  nonneg := fun _ ↦ le_refl 0
  sorted := List.Pairwise.nil
  bounded := by simp
  callBound := by simp
  retBound := by simp
  callOnce := by simp
  retOnce := by simp
  late := by simp
  prior := by simp
  done := by
    intro c r hpos hle
    change r ≤ 0 at hle
    omega
  current := by
    intro c loop hloop
    cases hloop
  returned := by simp
  logged := by simp

/-- The sequence gets one more operation. -/
theorem commit (h : CallsInv uids clerks history committed) {op : Op} (hop : Called history op) :
    CallsInv uids clerks history (committed ++ [op]) where
  uid := h.uid
  nonneg := h.nonneg
  sorted := h.sorted
  bounded := by
    intro e he
    rw [List.length_append]
    exact (h.bounded e he).trans (Nat.le_add_right _ _)
  callBound := h.callBound
  retBound := h.retBound
  callOnce := h.callOnce
  retOnce := h.retOnce
  late := by
    intro t call input p op' hcall hp hident
    by_cases hlt : p < committed.length
    · rw [List.getElem?_append_left hlt] at hp
      exact h.late t call input p op' hcall hp hident
    · exact (h.bounded _ hcall).trans (not_lt.mp hlt)
  prior := h.prior
  done := h.done
  current := h.current
  returned := by
    intro t call output hret
    obtain ⟨p, op', hpt, hp, hident, hresult⟩ := h.returned t call output hret
    have hlt := (List.getElem?_eq_some_iff.mp hp).1
    refine ⟨p, op', hpt, (List.getElem?_append_left hlt).trans hp, hident, ⟨fun hget ↦ ?_, ?_⟩⟩
    · rw [stateAfter_append hlt.le]
      exact hresult.get hget
    · exact hresult.other
  logged := by
    intro op' hop'
    rcases List.mem_append.mp hop' with hold | hnew
    · exact h.logged op' hold
    · rw [List.mem_singleton.mp hnew]
      exact hop

/-- An event that happens now keeps the history sorted. -/
theorem sorted_append (h : CallsInv uids clerks history committed)
    (e : Lib.Event (Int × Int) KvInput KvOutput) :
    (history ++ [(committed.length, e)]).Pairwise fun a b ↦ a.1 ≤ b.1 := by
  rw [List.pairwise_append]
  refine ⟨h.sorted, List.pairwise_singleton _ _, fun a ha b hb ↦ ?_⟩
  rw [List.mem_singleton.mp hb]
  exact h.bounded a ha

theorem bounded_append (h : CallsInv uids clerks history committed)
    (e : Lib.Event (Int × Int) KvInput KvOutput) :
    ∀ e' ∈ history ++ [(committed.length, e)], e'.1 ≤ committed.length := by
  intro e' he'
  rcases List.mem_append.mp he' with hold | hnew
  · exact h.bounded e' hold
  · rw [List.mem_singleton.mp hnew]

/-- No call of a clerk has a higher id than the one it is at. -/
theorem call_le (h : CallsInv uids clerks history committed) (huids : Function.Injective uids)
    {c : Fin m} {t : Nat} {r : Int} {input : KvInput}
    (hcall : (t, Lib.Event.call (uids c, r) input) ∈ history) : r ≤ (clerks c).requestId := by
  obtain ⟨c', huid, _, hle⟩ := h.callBound t _ input hcall
  rw [huids huid]
  exact hle

theorem ret_le (h : CallsInv uids clerks history committed) (huids : Function.Injective uids)
    {c : Fin m} {t : Nat} {r : Int} {output : KvOutput}
    (hret : (t, Lib.Event.ret (uids c, r) output) ∈ history) : r ≤ (clerks c).requestId := by
  obtain ⟨c', huid, hle⟩ := h.retBound t _ output hret
  rw [huids huid]
  exact hle

/-- The loop of a clerk goes on. -/
theorem setLoop (h : CallsInv uids clerks history committed) {c : Fin m} {loop loop' : Loop n}
    (hloop : (clerks c).loop = some loop) (hmethod : loop'.method = loop.method)
    (hrpc : ∀ env, loop'.rpc = some env →
      env.args = loop'.method.args (uids c) (clerks c).requestId) :
    CallsInv uids (Function.update clerks c { clerks c with loop := some loop' }) history
      committed := by
  have hsame := update_clerk clerks c { clerks c with loop := some loop' } rfl rfl
  refine
    { h with
      uid := fun d ↦ (hsame d).1.trans (h.uid d)
      nonneg := fun d ↦ (hsame d).2 ▸ h.nonneg d
      callBound := fun t call input hcall ↦ ?_
      retBound := fun t call output hret ↦ ?_
      done := fun d r hpos hle hdone ↦ ?_
      current := fun d loop₀ hd ↦ ?_ }
  · obtain ⟨d, huid, hpos, hle⟩ := h.callBound t call input hcall
    exact ⟨d, huid, hpos, (hsame d).2 ▸ hle⟩
  · obtain ⟨d, huid, hle⟩ := h.retBound t call output hret
    exact ⟨d, huid, (hsame d).2 ▸ hle⟩
  · rw [(hsame d).2] at hle hdone
    refine h.done d r hpos hle (hdone.imp_right fun hnone ↦ ?_)
    by_cases hd : d = c
    · rw [hd, Function.update_self] at hnone
      cases hnone
    · rw [Function.update_of_ne hd] at hnone
      exact hnone
  · rw [(hsame d).2]
    by_cases hdc : d = c
    · subst hdc
      rw [Function.update_self, Option.some.injEq] at hd
      subst hd
      obtain ⟨hcalled, hret, _⟩ := h.current d loop hloop
      exact ⟨hmethod ▸ hcalled, hret, hrpc⟩
    · rw [Function.update_of_ne hdc] at hd
      exact h.current d loop₀ hd

/-- A clerk that is in no call makes one. -/
theorem call (h : CallsInv uids clerks history committed) (huids : Function.Injective uids)
    {c : Fin m} (hidle : (clerks c).loop = none) (method : Method) {op : Op}
    (hop : op = (method.args (uids c) ((clerks c).requestId + 1)).toOp) :
    CallsInv uids (Function.update clerks c ((clerks c).begin method))
      (history ++ [(committed.length, .call op.ident op.input)]) committed := by
  have hident : op.ident = (uids c, (clerks c).requestId + 1) := by
    rw [hop, ident_toOp_args]
  have hfresh : ∀ t input, (t, Lib.Event.call op.ident input) ∉ history := by
    intro t input hcall
    rw [hident] at hcall
    have hle := h.call_le huids hcall
    omega
  have hself : (Function.update clerks c ((clerks c).begin method) c) = (clerks c).begin method :=
    Function.update_self _ _ _
  have hother : ∀ d, d ≠ c → Function.update clerks c ((clerks c).begin method) d = clerks d :=
    fun d hd ↦ Function.update_of_ne hd _ _
  have hle : ∀ d, (clerks d).requestId ≤
      (Function.update clerks c ((clerks c).begin method) d).requestId := by
    intro d
    by_cases hd : d = c
    · rw [hd, hself]
      exact Int.le_add_one (le_refl _)
    · rw [hother d hd]
  constructor
  case uid =>
    intro d
    by_cases hd : d = c
    · rw [hd, hself]
      exact h.uid c
    · rw [hother d hd]
      exact h.uid d
  case nonneg => exact fun d ↦ (h.nonneg d).trans (hle d)
  case sorted => exact h.sorted_append _
  case bounded => exact h.bounded_append _
  case callBound =>
    intro t call input hcall
    rcases mem_call_append_call hcall with hold | ⟨_, rfl, _⟩
    · obtain ⟨d, huid, hpos, hd⟩ := h.callBound t call input hold
      exact ⟨d, huid, hpos, hd.trans (hle d)⟩
    · have hnonneg := h.nonneg c
      refine ⟨c, by rw [hident], by rw [hident]; dsimp only; omega, ?_⟩
      rw [hident, hself]
      exact le_refl _
  case retBound =>
    intro t call output hret
    obtain ⟨d, huid, hd⟩ := h.retBound t call output (mem_ret_append_call hret)
    exact ⟨d, huid, hd.trans (hle d)⟩
  case callOnce =>
    intro t t' call input input' hcall hcall'
    rcases mem_call_append_call hcall with hold | ⟨_, rfl, rfl⟩
    · rcases mem_call_append_call hcall' with hold' | ⟨_, rfl, _⟩
      · exact h.callOnce t t' call input input' hold hold'
      · exact absurd hold (hfresh t input)
    · rcases mem_call_append_call hcall' with hold' | ⟨_, _, rfl⟩
      · exact absurd hold' (hfresh t' input')
      · rfl
  case retOnce =>
    intro t t' call output output' hret hret'
    exact h.retOnce t t' call output output' (mem_ret_append_call hret) (mem_ret_append_call hret')
  case late =>
    intro t call input p op' hcall hp hp'
    rcases mem_call_append_call hcall with hold | ⟨_, rfl, _⟩
    · exact h.late t call input p op' hold hp hp'
    · -- the sequence holds no operation of a call that has not been made
      obtain ⟨t', ht'⟩ := h.logged op' (List.mem_of_getElem? hp)
      rw [hp'] at ht'
      exact absurd ht' (hfresh t' _)
  case prior =>
    intro t call input r hcall hpos hr
    rcases mem_call_append_call hcall with hold | ⟨rfl, rfl, _⟩
    · obtain ⟨t', output, ht', hret⟩ := h.prior t call input r hold hpos hr
      exact ⟨t', output, ht', List.mem_append_left _ hret⟩
    · rw [hident] at hr ⊢
      dsimp only at hr
      obtain ⟨t', output, hret⟩ := h.done c r hpos (by omega) (Or.inr hidle)
      exact ⟨t', output, h.bounded _ hret, List.mem_append_left _ hret⟩
  case done =>
    intro d r hpos hr hdone
    by_cases hd : d = c
    · subst hd
      rw [hself] at hr hdone
      have hlt := hdone.resolve_right (by exact Option.some_ne_none _)
      change r < (clerks d).requestId + 1 at hlt
      obtain ⟨t, output, hret⟩ := h.done d r hpos (by omega) (Or.inr hidle)
      exact ⟨t, output, List.mem_append_left _ hret⟩
    · rw [hother d hd] at hr hdone
      obtain ⟨t, output, hret⟩ := h.done d r hpos hr hdone
      exact ⟨t, output, List.mem_append_left _ hret⟩
  case current =>
    intro d loop hloop
    by_cases hd : d = c
    · subst hd
      rw [hself] at hloop ⊢
      cases hloop
      refine ⟨⟨committed.length, ?_⟩, fun t output hret ↦ ?_, fun env henv ↦ by cases henv⟩
      · change (committed.length, Lib.Event.call
          (method.args (uids d) ((clerks d).requestId + 1)).toOp.ident
          (method.args (uids d) ((clerks d).requestId + 1)).toOp.input) ∈ _
        rw [← hop]
        exact List.mem_append_right _ (List.mem_singleton.mpr rfl)
      · have hbound := h.ret_le huids (mem_ret_append_call hret)
        change (clerks d).requestId + 1 ≤ _ at hbound
        omega
    · rw [hother d hd] at hloop ⊢
      obtain ⟨hcalled, hret, hrpc⟩ := h.current d loop hloop
      exact ⟨hcalled.append _, fun t output hmem ↦ hret t output (mem_ret_append_call hmem), hrpc⟩
  case returned =>
    intro t call output hret
    exact h.returned t call output (mem_ret_append_call hret)
  case logged => exact fun op' hop' ↦ (h.logged op' hop').append _

/-- A call whose operation is in the sequence returns. -/
theorem finish (h : CallsInv uids clerks history committed) (huids : Function.Injective uids)
    {c : Fin m} {loop : Loop n} (hloop : (clerks c).loop = some loop) {output : KvOutput}
    (hreturned : ∃ p op, committed[p]? = some op ∧ op.ident = (uids c, (clerks c).requestId) ∧
      Result committed p op output) :
    CallsInv uids (Function.update clerks c ((clerks c).finish loop))
      (history ++ [(committed.length, .ret (uids c, (clerks c).requestId) output)]) committed := by
  have hnone := (h.current c loop hloop).2.1
  have hsame := update_clerk clerks c ((clerks c).finish loop) rfl rfl
  constructor
  case uid => exact fun d ↦ (hsame d).1.trans (h.uid d)
  case nonneg => exact fun d ↦ (hsame d).2 ▸ h.nonneg d
  case sorted => exact h.sorted_append _
  case bounded => exact h.bounded_append _
  case callBound =>
    intro t call input hcall
    obtain ⟨d, huid, hpos, hle⟩ := h.callBound t call input (mem_call_append_ret hcall)
    exact ⟨d, huid, hpos, (hsame d).2 ▸ hle⟩
  case retBound =>
    intro t call output' hret
    rcases mem_ret_append_ret hret with hold | ⟨_, rfl, _⟩
    · obtain ⟨d, huid, hle⟩ := h.retBound t call output' hold
      exact ⟨d, huid, (hsame d).2 ▸ hle⟩
    · exact ⟨c, rfl, (hsame c).2.ge⟩
  case callOnce =>
    intro t t' call input input' hcall hcall'
    exact h.callOnce t t' call input input' (mem_call_append_ret hcall) (mem_call_append_ret hcall')
  case retOnce =>
    intro t t' call out out' hret hret'
    rcases mem_ret_append_ret hret with hold | ⟨rfl, rfl, rfl⟩
    · rcases mem_ret_append_ret hret' with hold' | ⟨_, rfl, _⟩
      · exact h.retOnce t t' call out out' hold hold'
      · exact absurd hold (hnone t out)
    · rcases mem_ret_append_ret hret' with hold' | ⟨rfl, _, rfl⟩
      · exact absurd hold' (hnone t' out')
      · exact ⟨rfl, rfl⟩
  case late =>
    intro t call input p op hcall
    exact h.late t call input p op (mem_call_append_ret hcall)
  case prior =>
    intro t call input r hcall hpos hr
    obtain ⟨t', out, ht', hret⟩ := h.prior t call input r (mem_call_append_ret hcall) hpos hr
    exact ⟨t', out, ht', List.mem_append_left _ hret⟩
  case done =>
    intro d r hpos hr hdone
    rw [(hsame d).2] at hr hdone
    by_cases hlast : d = c ∧ r = (clerks c).requestId
    · obtain ⟨rfl, rfl⟩ := hlast
      exact ⟨committed.length, output, List.mem_append_right _ (List.mem_singleton.mpr rfl)⟩
    · have hdone' : r < (clerks d).requestId ∨ (clerks d).loop = none := by
        by_cases hd : d = c
        · subst hd
          exact Or.inl (lt_of_le_of_ne hr fun heq ↦ hlast ⟨rfl, heq⟩)
        · rw [Function.update_of_ne hd] at hdone
          exact hdone
      obtain ⟨t, out, hret⟩ := h.done d r hpos hr hdone'
      exact ⟨t, out, List.mem_append_left _ hret⟩
  case current =>
    intro d loop' hd
    by_cases hdc : d = c
    · rw [hdc, Function.update_self] at hd
      cases hd
    · rw [Function.update_of_ne hdc] at hd
      obtain ⟨hcalled, hret, hrpc⟩ := h.current d loop' hd
      rw [(hsame d).2]
      refine ⟨hcalled.append _, fun t out hmem ↦ ?_, hrpc⟩
      rcases mem_ret_append_ret hmem with hold | ⟨_, hcall, _⟩
      · exact hret t out hold
      · exact hdc (huids (Prod.mk.inj hcall).1)
  case returned =>
    intro t call out hret
    rcases mem_ret_append_ret hret with hold | ⟨rfl, rfl, rfl⟩
    · exact h.returned t call out hold
    · obtain ⟨p, op, hp, hident, hresult⟩ := hreturned
      exact ⟨p, op, (List.getElem?_eq_some_iff.mp hp).1, hp, hident, hresult⟩
  case logged => exact fun op hop ↦ (h.logged op hop).append _

/-! ### What follows for the sequence -/

theorem input_injective {op op' : Op} (hident : op.ident = op'.ident) (hinput : op.input = op'.input) :
    op = op' := by
  obtain ⟨key, value, kind, requestId, uId⟩ := op
  obtain ⟨key', value', kind', requestId', uId'⟩ := op'
  simp only [Op.ident, Prod.mk.injEq] at hident
  simp only [Op.input, KvInput.mk.injEq] at hinput
  obtain ⟨rfl, rfl⟩ := hident
  obtain ⟨hkind, rfl, rfl⟩ := hinput
  cases kind <;> cases kind' <;> first | rfl | exact absurd hkind (by decide)

/-- Operations of one call are equal. -/
theorem op_unique (h : CallsInv uids clerks history committed) {op op' : Op}
    (hop : Called history op) (hop' : Called history op') (hident : op.ident = op'.ident) :
    op = op' := by
  obtain ⟨t, ht⟩ := hop
  obtain ⟨t', ht'⟩ := hop'
  rw [← hident] at ht'
  exact input_injective hident (h.callOnce t t' _ _ _ ht ht')

theorem requestId_pos (h : CallsInv uids clerks history committed) {op : Op}
    (hop : Called history op) : 1 ≤ op.requestId := by
  obtain ⟨t, ht⟩ := hop
  obtain ⟨c, _, hpos, _⟩ := h.callBound t _ _ ht
  exact hpos

/-- Before the first operation of a call the sequence holds only operations of earlier calls of the
clerk. -/
theorem earlier_of_first (h : CallsInv uids clerks history committed) {p q : Nat} {op op' : Op}
    (hp : committed[p]? = some op)
    (hfirst : ∀ q < p, ∀ op', committed[q]? = some op' → op'.ident ≠ op.ident)
    (hqp : q < p) (hq : committed[q]? = some op') (huid : op'.uId = op.uId) :
    op'.requestId < op.requestId := by
  by_contra hge
  have hne : op'.ident ≠ op.ident := hfirst q hqp op' hq
  have hlt : op.requestId < op'.requestId := by
    refine lt_of_le_of_ne (not_lt.mp hge) fun heq ↦ hne ?_
    unfold Op.ident
    rw [huid, heq]
  -- the later call was made after the earlier one had returned
  obtain ⟨t', ht'⟩ := h.logged op' (List.mem_of_getElem? hq)
  have hpos := h.requestId_pos (h.logged op (List.mem_of_getElem? hp))
  obtain ⟨t, output, hle, hret⟩ := h.prior t' op'.ident _ op.requestId ht' hpos hlt
  obtain ⟨k, op₀, hk, hop₀, hident, _⟩ := h.returned t _ output hret
  have hlate := h.late t' op'.ident _ q op' ht' hq rfl
  refine hfirst k (by omega) op₀ hop₀ ?_
  rw [hident]
  unfold Op.ident
  rw [huid]

end CallsInv

/-! ## Servers -/

structure ServersInv (gob : Gob (RequestIds × Store) σ) (w : Cluster n m σ) : Prop where
  nodes : ∀ s, (w.nodes s).Inv (kvService n gob) w.committed
  justified : ∀ r ∈ w.replies, (kvService n gob).Justified w.committed r.1 r.2
  handled : ∀ s, ∀ hd ∈ (w.nodes s).handlers, hd.env ∈ w.requests
  requested : ∀ env ∈ w.requests, Called w.history env.args.toOp
  started : ∀ op ∈ w.started, Called w.history op

namespace ServersInv

variable {gob : Gob (RequestIds × Store) σ} {w : Cluster n m σ}

theorem init [NeZero n] (uids : Fin m → Int) :
    ServersInv gob (Cluster.init uids : Cluster n m σ) where
  nodes := fun _ ↦ Lib.Node.Inv.initial (kvService n gob) []
  justified := by simp [Cluster.init]
  handled := by simp [Cluster.init]
  requested := by simp [Cluster.init]
  started := by simp [Cluster.init]

/-- The clerks and the history move on; the servers are where they were. -/
theorem event (h : ServersInv gob w) (clerks : Fin m → Clerk n) (events : List Stamped) :
    ServersInv gob { w with clerks := clerks, history := w.history ++ events } :=
  { nodes := h.nodes
    justified := h.justified
    handled := h.handled
    requested := fun env henv ↦ (h.requested env henv).append events
    started := fun op hop ↦ (h.started op hop).append events }

theorem request (h : ServersInv gob w) {env : Envelope n Args} (henv : Called w.history env.args.toOp)
    (clerks : Fin m → Clerk n) (nextRpc : Nat) :
    ServersInv gob
      { w with clerks := clerks, requests := env :: w.requests, nextRpc := nextRpc } :=
  { nodes := h.nodes
    justified := h.justified
    handled := fun s hd hhd ↦ List.mem_cons_of_mem _ (h.handled s hd hhd)
    requested := by
      intro env' henv'
      rcases List.mem_cons.mp henv' with rfl | hold
      · exact henv
      · exact h.requested env' hold
    started := h.started }

theorem commit (h : ServersInv gob w) (op : Op) :
    ServersInv gob { w with committed := w.committed ++ [op] } :=
  { nodes := fun s ↦ (h.nodes s).mono (List.prefix_append _ _)
    justified := fun r hr ↦ (h.justified r hr).mono (List.prefix_append _ _)
    handled := h.handled
    requested := h.requested
    started := h.started }

theorem server (h : ServersInv gob w) {w' : Cluster n m σ} {s : Fin n}
    {action : Lib.NodeAction (Envelope n Args)} (hstep : w.server gob s action = some w') :
    ServersInv gob w' ∧ w'.clerks = w.clerks ∧ w'.history = w.history ∧
      w'.committed = w.committed := by
  unfold Cluster.server at hstep
  split at hstep
  · rename_i harrives
    split at hstep
    · cases hstep
    · rename_i out hout
      rw [← Option.some.inj hstep]
      have hhandle : ∀ env, action = .handle env → env ∈ w.requests := by
        rintro env rfl
        exact (of_decide_eq_true harrives).1
      obtain ⟨hinv, hjust⟩ := (h.nodes s).step hout
      have hsourced := Lib.Node.step_sourced (h.handled s) hhandle hout
      refine ⟨⟨fun t ↦ ?_, fun r hr ↦ ?_, fun t hd hhd ↦ ?_, h.requested, fun op hop ↦ ?_⟩,
        rfl, rfl, rfl⟩
      · exact (Function.forall_update_iff w.nodes fun _ nd ↦
          nd.Inv (kvService n gob) w.committed).mpr ⟨hinv, fun t _ ↦ h.nodes t⟩ t
      · rcases List.mem_append.mp hr with hnew | hold
        · exact hjust r hnew
        · exact h.justified r hold
      · change hd ∈ (Function.update w.nodes s out.node t).handlers at hhd
        rcases Lib.of_update (f := w.nodes) (p := fun nd ↦ hd ∈ nd.handlers) hhd with hold | ⟨_, hnew⟩
        · exact h.handled t hd hold
        · exact hsourced.handlers hd hnew
      · rcases List.mem_append.mp hop with hnew | hold
        · obtain ⟨env, henv, rfl⟩ := hsourced.started op hnew
          exact h.requested env henv
        · exact h.started op hold
  · cases hstep

end ServersInv

/-! ## Runs -/

structure ClusterInv (uids : Fin m → Int) (gob : Gob (RequestIds × Store) σ)
    (w : Cluster n m σ) : Prop where
  calls : CallsInv uids w.clerks w.history w.committed
  servers : ServersInv gob w

/-- The answer that `Get` computes is the value that it finds. -/
theorem result_get (kv : KVServer) {op : Op} (hget : op.op = .get) (key : String) :
    (Method.get key).result (kv.applyCommand op).2 = { value := kv.value op.key } := by
  unfold KVServer.applyCommand KVServer.execute KVServer.value
  rw [if_neg fun hskip ↦ hskip.2 hget, hget]
  dsimp only
  cases kv.m.lookup op.key <;> rfl

theorem result_of_ne_get {method : Method} {uid requestId : Int} (answer : Answer)
    (h : (method.args uid requestId).toOp.op ≠ .get) : method.result answer = {} := by
  cases method with
  | get key => exact absurd rfl h
  | put key value => rfl
  | append key value => rfl

/-- `PutAppend` answers at once only if the client has had a request with this id or a higher one. -/
theorem le_of_answerEarly {kv : KVServer} {method : Method} {uid requestId : Int} {answer : Answer}
    (h : kv.answerEarly (method.args uid requestId) = some answer) :
    requestId ≤ kv.lastRequest uid ∧ (method.args uid requestId).toOp.op ≠ .get := by
  cases method with
  | get key => cases h
  | put key value =>
      simp only [Method.args, KVServer.answerEarly, Option.ite_none_right_eq_some] at h
      exact ⟨h.1, by simp [Method.args, Args.toOp]⟩
  | append key value =>
      simp only [Method.args, KVServer.answerEarly, Option.ite_none_right_eq_some] at h
      exact ⟨h.1, by simp [Method.args, Args.toOp]⟩

namespace ClusterInv

variable {uids : Fin m → Int} {gob : Gob (RequestIds × Store) σ} {w : Cluster n m σ}

/-- A reply that ends the loop of a clerk tells it what the sequence says about its call. -/
theorem reply_right (h : ClusterInv uids gob w) (huids : Function.Injective uids) {c : Fin m}
    {loop : Loop n} {env : Envelope n Args} {answer : Answer}
    (hloop : (w.clerks c).loop = some loop) (hrpc : loop.rpc = some env)
    (hreply : (env, answer) ∈ w.replies) (hends : loop.method.retries answer = false) :
    ∃ p op, w.committed[p]? = some op ∧ op.ident = (uids c, (w.clerks c).requestId) ∧
      Result w.committed p op (loop.method.result answer) := by
  obtain ⟨hcalled, _, hargs⟩ := h.calls.current c loop hloop
  have henv := hargs env hrpc
  have hown : ∀ (p : Nat) (op : Op), w.committed[p]? = some op →
      op.ident = (uids c, (w.clerks c).requestId) →
      op = (loop.method.args (uids c) (w.clerks c).requestId).toOp := by
    intro p op hp hident
    refine h.calls.op_unique (h.calls.logged op (List.mem_of_getElem? hp)) hcalled ?_
    rw [hident, ident_toOp_args]
  cases h.servers.justified _ hreply with
  | refused hrefused =>
      change answer = { err := .errWrongLeader } at hrefused
      rw [hrefused] at hends
      cases hmethod : loop.method <;> rw [hmethod] at hends <;> cases hends
  | answered index hanswered =>
      obtain ⟨p, op, hp, hident, _, hanswer⟩ := hanswered
      change op.ident = env.args.toOp.ident at hident
      change answer = ((stateAfter w.committed p).applyCommand op).2 at hanswer
      rw [henv, ident_toOp_args] at hident
      have hop := hown p op hp hident
      refine ⟨p, op, hp, hident, ⟨fun hget ↦ ?_, fun hother ↦ ?_⟩⟩
      · rw [hanswer]
        cases hmethod : loop.method with
        | get key => rw [result_get _ hget]
        | put key value =>
            rw [hop, hmethod] at hget
            cases hget
        | append key value =>
            rw [hop, hmethod] at hget
            cases hget
      · rw [hop] at hother
        exact result_of_ne_get answer hother
  | early k hk hearly =>
      change (stateAfter w.committed k).answerEarly env.args = some answer at hearly
      rw [henv] at hearly
      obtain ⟨hle, hother⟩ := le_of_answerEarly hearly
      have hpos := h.calls.requestId_pos hcalled
      rw [le_lastRequest_iff] at hle
      rcases hle with hle | ⟨p, op, _, hp, huid, hle⟩
      · have hid : (loop.method.args (uids c) (w.clerks c).requestId).toOp.requestId =
            (w.clerks c).requestId :=
          congrArg Prod.snd (ident_toOp_args loop.method (uids c) (w.clerks c).requestId)
        omega
      · -- no higher request id has been used by this clerk
        have hident : op.ident = (uids c, (w.clerks c).requestId) := by
          obtain ⟨t, ht⟩ := h.calls.logged op (List.mem_of_getElem? hp)
          have huid' : op.ident = (uids c, op.requestId) := by
            unfold Op.ident
            rw [huid]
          rw [huid'] at ht ⊢
          rw [le_antisymm (h.calls.call_le huids ht) hle]
        have hop := hown p op hp hident
        rw [← hop] at hother
        refine ⟨p, op, hp, hident, ⟨fun hget ↦ absurd hget hother, fun _ ↦ ?_⟩⟩
        rw [hop] at hother
        exact result_of_ne_get answer hother

variable {w' : Cluster n m σ}

theorem init [NeZero n] (uids : Fin m → Int) :
    ClusterInv uids gob (Cluster.init uids : Cluster n m σ) :=
  ⟨CallsInv.init uids, ServersInv.init uids⟩

/-- The loop of clerk `c` goes on, and nothing else happens. -/
theorem setLoop (h : ClusterInv uids gob w) {c : Fin m} {loop loop' : Loop n}
    (hloop : (w.clerks c).loop = some loop) (hmethod : loop'.method = loop.method)
    (hrpc : loop'.rpc = none) :
    ClusterInv uids gob (w.setClerk c { w.clerks c with loop := some loop' }) := by
  refine ⟨h.calls.setLoop hloop hmethod fun env henv ↦ ?_, ?_⟩
  · rw [hrpc] at henv
    cases henv
  · exact ⟨h.servers.nodes, h.servers.justified, h.servers.handled, h.servers.requested,
      h.servers.started⟩

theorem call (h : ClusterInv uids gob w) (huids : Function.Injective uids) {c : Fin m}
    {method : Method} (hstep : w.call c method = some w') : ClusterInv uids gob w' := by
  unfold Cluster.call at hstep
  dsimp only at hstep
  split at hstep
  · cases hstep
  · rename_i hidle
    rw [← Option.some.inj hstep]
    refine ⟨h.calls.call huids hidle method ?_, h.servers.event _ _⟩
    rw [← h.calls.uid c]
    rfl

theorem send (h : ClusterInv uids gob w) {c : Fin m} (hstep : w.send c = some w') :
    ClusterInv uids gob w' := by
  unfold Cluster.send at hstep
  dsimp only at hstep
  split at hstep
  · rename_i method leader oldLeader hloop
    rw [← Option.some.inj hstep]
    obtain ⟨hcalled, _, _⟩ := h.calls.current c _ hloop
    rw [← h.calls.uid c] at hcalled
    refine ⟨h.calls.setLoop hloop rfl fun env henv ↦ ?_, h.servers.request hcalled _ _⟩
    rw [← Option.some.inj henv, h.calls.uid c]
  · cases hstep

theorem fail [NeZero n] (h : ClusterInv uids gob w) {c : Fin m} (hstep : w.fail c = some w') :
    ClusterInv uids gob w' := by
  unfold Cluster.fail at hstep
  dsimp only at hstep
  split at hstep
  · rename_i hloop
    rw [← Option.some.inj hstep]
    exact h.setLoop hloop rfl rfl
  · cases hstep

theorem reply [NeZero n] (h : ClusterInv uids gob w) (huids : Function.Injective uids) {c : Fin m}
    {answer : Answer} (hstep : w.reply c answer = some w') : ClusterInv uids gob w' := by
  unfold Cluster.reply at hstep
  dsimp only at hstep
  split at hstep
  · rename_i method leader oldLeader env hloop
    split at hstep
    · rename_i hreply
      split at hstep
      · rw [← Option.some.inj hstep]
        exact h.setLoop hloop rfl rfl
      · rename_i hends
        rw [← Option.some.inj hstep, h.calls.uid c]
        have hright := h.reply_right huids hloop rfl hreply (Bool.eq_false_iff.mpr hends)
        exact ⟨h.calls.finish huids hloop hright, h.servers.event _ _⟩
    · cases hstep
  · cases hstep

theorem commit (h : ClusterInv uids gob w) {op : Op} (hstep : w.commit op = some w') :
    ClusterInv uids gob w' := by
  unfold Cluster.commit at hstep
  split at hstep
  · rename_i hstarted
    rw [← Option.some.inj hstep]
    exact ⟨h.calls.commit (h.servers.started op hstarted), h.servers.commit op⟩
  · cases hstep

theorem step [NeZero n] (huids : Function.Injective uids) (w : Cluster n m σ)
    (a : ClusterAction n m) (w' : Cluster n m σ) (h : ClusterInv uids gob w)
    (hstep : w.step gob a = some w') :
    ClusterInv uids gob w' := by
  cases a with
  | call c method => exact h.call huids hstep
  | send c => exact h.send hstep
  | fail c => exact h.fail hstep
  | reply c answer => exact h.reply huids hstep
  | server s action =>
      obtain ⟨hservers, hclerks, hhistory, hcommitted⟩ := h.servers.server hstep
      have hcalls := h.calls
      rw [← hclerks, ← hhistory, ← hcommitted] at hcalls
      exact ⟨hcalls, hservers⟩
  | commit op => exact h.commit hstep

theorem run [NeZero n] (huids : Function.Injective uids) {as : List (ClusterAction n m)}
    (hrun : Lib.run (Cluster.step gob) (Cluster.init uids) as = some w) : ClusterInv uids gob w :=
  Lib.run_invariant (fun w a w' h _ hstep ↦ step huids w a w' h hstep) (init uids)
    (Lib.along_true _ as) hrun

end ClusterInv

end Lab6824.KvRaft

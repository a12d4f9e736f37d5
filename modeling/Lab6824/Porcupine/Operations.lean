import Lab6824.Lib.Intervals
import Lab6824.Porcupine.Schedules

/-!
# Operations — the check of a list of operations

An operation takes effect at some point between its call and its return; both times included, so that
operations which only touch may take effect in either order.  `OperationsLinearizable` says so in terms
of the operations and their times, without reference to the entries of the checker.
-/

namespace Lab6824.Porcupine

open Lib (Mark)

variable {V S : Type}

/-- The effect of the operation, if the model allows it. -/
def operationNext (model : FullModel V S) (s : S) (op : Operation V) : Option S :=
  model.next s op.input op.output

/-- Some order of the operations explains the history. -/
def OperationsLinearizable (model : FullModel V S) (history : List (Operation V)) : Prop :=
  ∃ order, Lib.Explains Operation.call Operation.ret (operationNext model) model.init history order

/-! ## The entries -/

section Entries

variable {history : List (Operation V)} {byTime : Lib.Sorter (Entry.less (V := V))}

@[simp] theorem mark_callEntry (op : Operation V) (i : Nat) : (op.callEntry i).mark = .call i := rfl

@[simp] theorem mark_returnEntry (op : Operation V) (i : Nat) : (op.returnEntry i).mark = .ret i :=
  rfl

theorem mem_makeEntries {e : Entry V} :
    e ∈ makeEntries byTime history ↔
      ∃ i, ∃ op : Operation V, history[i]? = some op ∧
        (e = op.callEntry i ∨ e = op.returnEntry i) := by
  rw [makeEntries, (byTime.perm _).mem_iff, operationEntries, List.mem_flatMap]
  simp only [Prod.exists, List.mem_zipIdx_iff_getElem?, List.mem_cons, List.not_mem_nil, or_false]
  exact exists_comm

/-- The marks of the operations numbered from `k` on. -/
theorem marks_zipIdx (history : List (Operation V)) (k : Nat) :
    (((history.zipIdx k).flatMap fun (elem, id) ↦ [elem.callEntry id, elem.returnEntry id]).map
        Entry.mark).Nodup ∧
      ∀ m ∈ ((history.zipIdx k).flatMap fun (elem, id) ↦
        [elem.callEntry id, elem.returnEntry id]).map Entry.mark, k ≤ m.id := by
  induction history generalizing k with
  | nil => simp
  | cons op history ih =>
      obtain ⟨hnodup, hle⟩ := ih (k + 1)
      simp only [List.zipIdx_cons, List.flatMap_cons, List.cons_append, List.nil_append,
        List.map_cons, List.nodup_cons, List.mem_cons, mark_callEntry, mark_returnEntry]
      refine ⟨⟨?_, ?_, hnodup⟩, ?_⟩
      · rintro (hret | hmem)
        · cases hret
        · exact absurd (hle _ hmem) (by simp)
      · intro hmem
        exact absurd (hle _ hmem) (by simp)
      · rintro m (rfl | rfl | hm)
        · exact le_refl k
        · exact le_refl k
        · exact (Nat.le_succ k).trans (hle m hm)

theorem nodup_marks (byTime : Lib.Sorter (Entry.less (V := V))) (history : List (Operation V)) :
    ((makeEntries byTime history).map Entry.mark).Nodup :=
  ((byTime.perm _).map _).nodup_iff.mpr (marks_zipIdx history 0).1

theorem length_makeEntries (byTime : Lib.Sorter (Entry.less (V := V)))
    (history : List (Operation V)) : (makeEntries byTime history).length = 2 * history.length := by
  rw [makeEntries, (byTime.perm _).length_eq, operationEntries, List.length_flatMap]
  simp [Nat.mul_comm]

/-- A call comes before a return unless the return is earlier. -/
theorem call_before_ret {i j : Nat} {a b : Operation V} (hi : history[i]? = some a)
    (hj : history[j]? = some b) (hle : b.call ≤ a.ret) :
    Lib.Before ((makeEntries byTime history).map Entry.mark) (.call j) (.ret i) := by
  have hmi : a.returnEntry i ∈ operationEntries history :=
    (byTime.perm _).mem_iff.mp (mem_makeEntries.mpr ⟨i, a, hi, Or.inr rfl⟩)
  have hmj : b.callEntry j ∈ operationEntries history :=
    (byTime.perm _).mem_iff.mp (mem_makeEntries.mpr ⟨j, b, hj, Or.inl rfl⟩)
  have hne : b.callEntry j ≠ a.returnEntry i := fun heq ↦ by cases congrArg Entry.kind heq
  have hless : Entry.less (b.callEntry j) (a.returnEntry i) = true := by
    by_cases heq : b.call = a.ret
    · simp [Entry.less, Operation.returnEntry, Operation.callEntry, heq]
    · simp [Entry.less, Operation.returnEntry, Operation.callEntry, heq, lt_of_le_of_ne hle heq]
  exact (byTime.before_of_less hmj hmi hne hless).map Entry.mark

theorem ret_before_call {i j : Nat} {a b : Operation V} (hi : history[i]? = some a)
    (hj : history[j]? = some b) :
    Lib.Before ((makeEntries byTime history).map Entry.mark) (.ret i) (.call j) ↔ a.ret < b.call := by
  constructor
  · intro hbefore
    by_contra hnot
    exact Lib.not_sublist_swap (nodup_marks byTime history) hbefore
      (call_before_ret hi hj (not_lt.mp hnot))
  · intro hlt
    have hmi : a.returnEntry i ∈ operationEntries history :=
      (byTime.perm _).mem_iff.mp (mem_makeEntries.mpr ⟨i, a, hi, Or.inr rfl⟩)
    have hmj : b.callEntry j ∈ operationEntries history :=
      (byTime.perm _).mem_iff.mp (mem_makeEntries.mpr ⟨j, b, hj, Or.inl rfl⟩)
    have hne : a.returnEntry i ≠ b.callEntry j := fun heq ↦ by cases congrArg Entry.kind heq
    have hless : Entry.less (a.returnEntry i) (b.callEntry j) = true := by
      simp [Entry.less, Operation.returnEntry, Operation.callEntry, hlt.ne, hlt]
    exact (byTime.before_of_less hmi hmj hne hless).map Entry.mark

theorem mem_marks {m : Mark Nat} :
    m ∈ (makeEntries byTime history).map Entry.mark ↔ m.id < history.length := by
  rw [List.mem_map]
  constructor
  · rintro ⟨e, he, rfl⟩
    obtain ⟨i, op, hop, rfl | rfl⟩ := mem_makeEntries.mp he
    · exact (List.getElem?_eq_some_iff.mp hop).1
    · exact (List.getElem?_eq_some_iff.mp hop).1
  · intro hlt
    have hop := List.getElem?_eq_getElem hlt
    cases m with
    | call i => exact ⟨_, mem_makeEntries.mpr ⟨i, _, hop, Or.inl rfl⟩, rfl⟩
    | ret i => exact ⟨_, mem_makeEntries.mpr ⟨i, _, hop, Or.inr rfl⟩, rfl⟩

theorem makeEntries_proper (htime : ∀ op ∈ history, op.call ≤ op.ret) :
    Proper (makeEntries byTime history) history.length where
  complete :=
    { nodup := nodup_marks byTime history
      paired := by
        intro m hm
        have hop := List.getElem?_eq_getElem (mem_marks.mp hm)
        exact call_before_ret hop hop (htime _ (List.getElem_mem _)) }
  length := length_makeEntries byTime history
  ids i := mem_marks

/-! ## Linearizations -/

/-- The operations with the numbers `is`. -/
def Numbered (history : List (Operation V)) (order : List (Operation V)) (is : List Nat) : Prop :=
  List.Forall₂ (fun op i ↦ history[i]? = some op) order is

theorem numbered_range (history : List (Operation V)) :
    Numbered history history (List.range history.length) := by
  apply List.forall₂_iff_get.mpr
  refine ⟨by simp, fun i hi hi' ↦ ?_⟩
  simp

theorem next_makeEntries (model : FullModel V S) (s : S) {i : Nat} {op : Operation V}
    (hop : history[i]? = some op) :
    next model (makeEntries byTime history) s i = operationNext model s op :=
  effectIn_eq (nodup_marks byTime history) (mem_makeEntries.mpr ⟨i, op, hop, Or.inl rfl⟩)
    (mem_makeEntries.mpr ⟨i, op, hop, Or.inr rfl⟩) (mark_callEntry op i) (mark_returnEntry op i) s

theorem run_makeEntries (model : FullModel V S) {order : List (Operation V)} {is : List Nat}
    (hnum : Numbered history order is) (s : S) :
    Lib.run (next model (makeEntries byTime history)) s is =
      Lib.run (operationNext model) s order := by
  induction hnum generalizing s with
  | nil => rfl
  | cons hop _ ih =>
      simp only [Lib.run, next_makeEntries model s hop]
      split
      · rfl
      · exact ih _

/-- Numbers below the length belong to operations. -/
theorem exists_numbered {is : List Nat} (his : ∀ i ∈ is, i < history.length) :
    ∃ order, Numbered history order is := by
  induction is with
  | nil => exact ⟨[], .nil⟩
  | cons i is ih =>
      rw [List.forall_mem_cons] at his
      obtain ⟨order, horder⟩ := ih his.2
      exact ⟨history[i] :: order, .cons (List.getElem?_eq_getElem his.1) horder⟩

theorem Numbered.unique {order order' : List (Operation V)} {is : List Nat}
    (h : Numbered history order is) (h' : Numbered history order' is) : order = order' := by
  induction h generalizing order' with
  | nil =>
      cases h'
      rfl
  | cons hop _ ih =>
      cases h' with
      | cons hop' hrest =>
          rw [hop, Option.some.injEq] at hop'
          rw [hop', ih hrest]

/-- The order of numbers and the order of operations. -/
theorem perm_of_numbered {order : List (Operation V)} {is : List Nat}
    (h : Numbered history order is) (hperm : is.Perm (List.range history.length)) :
    order.Perm history := by
  have hcomp : (Relation.Comp (List.Forall₂ fun op i ↦ history[i]? = some op) List.Perm) order
      (List.range history.length) := ⟨is, h, hperm⟩
  rw [List.forall₂_comp_perm_eq_perm_comp_forall₂] at hcomp
  obtain ⟨w, hw, hrange⟩ := hcomp
  rwa [Numbered.unique hrange (numbered_range history)] at hw

theorem exists_numbered_of_perm {order : List (Operation V)} (hperm : order.Perm history) :
    ∃ is, Numbered history order is ∧ is.Perm (List.range history.length) :=
  List.perm_comp_forall₂ hperm (numbered_range history)

/-- The checker and the definition above ask for the same thing. -/
theorem canLinearize_iff (model : FullModel V S) (htime : ∀ op ∈ history, op.call ≤ op.ret) :
    CanLinearize model (makeEntries byTime history) ↔ OperationsLinearizable model history := by
  have hproper : Proper (makeEntries byTime history) history.length := makeEntries_proper htime
  simp only [CanLinearize, Lib.fullLinearization_iff_pairwise hproper.complete, hproper.ids]
  constructor
  · rintro ⟨is, hnodup, hmem, hpairs, t, hrun⟩
    obtain ⟨order, hnum⟩ := exists_numbered fun i hi ↦ (hmem i).mp hi
    have hperm : is.Perm (List.range history.length) := by
      rw [List.perm_ext_iff_of_nodup hnodup List.nodup_range]
      simpa using hmem
    refine ⟨order, perm_of_numbered hnum hperm, ?_, t, by rwa [← run_makeEntries model hnum]⟩
    refine Lib.Forall₂.pairwise ?_ hnum.flip hpairs
    intro i a j b hi hj hbefore hlt
    exact hbefore ((ret_before_call hj hi).mpr hlt)
  · rintro ⟨order, hlin⟩
    obtain ⟨is, hnum, hperm⟩ := exists_numbered_of_perm hlin.perm
    obtain ⟨t, hrun⟩ := hlin.legal
    refine ⟨is, hperm.nodup_iff.mpr List.nodup_range, fun i ↦ ?_, ?_, t, ?_⟩
    · rw [hperm.mem_iff, List.mem_range]
    · refine Lib.Forall₂.pairwise ?_ hnum hlin.realTime
      intro a i b j hi hj hnot hbefore
      exact hnot ((ret_before_call hj hi).mp hbefore)
    · rwa [run_makeEntries model hnum]

end Entries

/-! ## The whole check -/

/-- What the check asks of the operations. -/
structure CheckableOperations (model : FullModel V S) (history : List (Operation V)) : Prop where
  time : ∀ op ∈ history, op.call ≤ op.ret
  applies : ∀ op ∈ history, ∀ s, model.step s op.input op.output ≠ none

section Checkable

variable {model : FullModel V S} {history : List (Operation V)}
  {byTime : Lib.Sorter (Entry.less (V := V))}

theorem checkable_makeEntries (hequal : EqualStates model) (hops : CheckableOperations model history) :
    Checkable model (makeEntries byTime history) where
  proper := ⟨_, makeEntries_proper hops.time⟩
  applies := by
    intro c hc r hr i hci hri s
    obtain ⟨j, op, hop, rfl | rfl⟩ := mem_makeEntries.mp hc
    · obtain ⟨k, op', hop', rfl | rfl⟩ := mem_makeEntries.mp hr
      · cases hri
      · cases hci
        cases hri
        rw [hop, Option.some.injEq] at hop'
        subst hop'
        exact hops.applies op (List.mem_of_getElem? hop) s
    · cases hci
  equal := hequal.equalSound _

end Checkable

/-- A run of `checkOperations` or `checkEvents`, as far as it has come: the history is partitioned, the
parts are converted to entries, and these are given to `checkParallel`. -/
structure Check {α : Type} (model : FullModel V S) (partition : List α → Option (List (List α)))
    (convert : List α → List (Entry V)) (history : List α) (verbose : Bool) (timeout : Int) where
  partitions : List (List α)
  partitioned : partition history = some partitions
  ords : Fin (partitions.map convert).length → Lib.RangeOrder Seq
  /-- The steps of the goroutines of `checkParallel`. -/
  actions : List (PoolAction (partitions.map convert).length)
  pool : Pool V S (partitions.map convert).length
  run : Lib.run (Pool.step model (partitions.map convert) verbose timeout ords)
    (Pool.init model (partitions.map convert)) actions = some pool

namespace Check

variable {α : Type} {model : FullModel V S} {partition : List α → Option (List (List α))}
  {convert : List α → List (Entry V)} {history : List α} {verbose : Bool} {timeout : Int}

def result (check : Check model partition convert history verbose timeout) : Option CheckResult :=
  check.pool.main.result

/-- No goroutine can take a step. -/
def Stuck (check : Check model partition convert history verbose timeout) : Prop :=
  ∀ a, check.pool.step model (check.partitions.map convert) verbose timeout check.ords a = none

/-- What a run of the check means for the partitions of the history. -/
structure Sound (check : Check model partition convert history verbose timeout)
    (Linearizable : List α → Prop) : Prop where
  bounded : check.actions.length ≤ Pool.steps (check.partitions.map convert)
  returns : check.Stuck →
    ((∃ result, check.result = some result) ↔ check.partitions ≠ [] ∨ 0 < timeout)
  ok : check.result = some .ok → ∀ sub ∈ check.partitions, Linearizable sub
  illegal : check.result = some .illegal → ∃ sub ∈ check.partitions, ¬ Linearizable sub
  unknown : check.result = some .unknown → 0 < timeout

theorem sound (check : Check model partition convert history verbose timeout)
    {Linearizable : List α → Prop}
    (hsub : ∀ sub ∈ check.partitions, Checkable model (convert sub) ∧
      (CanLinearize model (convert sub) ↔ Linearizable sub)) : check.Sound Linearizable := by
  have hcheck : ∀ entries ∈ check.partitions.map convert, Checkable model entries := by
    intro entries hentries
    obtain ⟨sub, hmem, rfl⟩ := List.mem_map.mp hentries
    exact (hsub sub hmem).1
  have hfinal : ∀ result, check.result = some result → ∃ info,
      Pool.Final model (check.partitions.map convert) verbose timeout result info := by
    intro result hresult
    obtain ⟨info, hmain⟩ := Main.eq_finished hresult
    exact ⟨info, Pool.final_of_run hcheck check.run hmain⟩
  constructor
  · exact (Pool.inv_of_run hcheck check.run).1
  · intro hstuck
    have hreturned := Pool.returned_iff_of_stuck hcheck check.run hstuck
    rwa [ne_eq, List.map_eq_nil_iff] at hreturned
  · intro hok sub hmem
    obtain ⟨info, hinfo⟩ := hfinal _ hok
    exact (hsub sub hmem).2.mp (hinfo.ok rfl _ (List.mem_map_of_mem hmem))
  · intro hillegal
    obtain ⟨info, hinfo⟩ := hfinal _ hillegal
    obtain ⟨entries, hentries, hnot⟩ := hinfo.illegal rfl
    obtain ⟨sub, hmem, rfl⟩ := List.mem_map.mp hentries
    exact ⟨sub, hmem, fun hlin ↦ hnot ((hsub sub hmem).2.mpr hlin)⟩
  · intro hunknown
    obtain ⟨info, hinfo⟩ := hfinal _ hunknown
    exact hinfo.unknown rfl

end Check

/-- A run of `checkOperations`. -/
abbrev OperationsCheck [DecidableEq S] (byTime : Lib.Sorter (Entry.less (V := V)))
    (model : Model V S) (history : List (Operation V)) (verbose : Bool) (timeout : Int) :=
  Check (fillDefault model) (fillDefault model).partition (makeEntries byTime) history verbose timeout

theorem OperationsCheck.sound [DecidableEq S] {byTime : Lib.Sorter (Entry.less (V := V))}
    {model : Model V S} {history : List (Operation V)} {verbose : Bool} {timeout : Int}
    (hequal : EqualStates (fillDefault model))
    (check : OperationsCheck byTime model history verbose timeout)
    (hops : ∀ sub ∈ check.partitions, CheckableOperations (fillDefault model) sub) :
    check.Sound (OperationsLinearizable (fillDefault model)) := by
  apply Check.sound
  intro sub hsub
  exact ⟨checkable_makeEntries hequal (hops sub hsub), canLinearize_iff _ (hops sub hsub).time⟩

end Lab6824.Porcupine

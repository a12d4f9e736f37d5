import Lab6824.Porcupine.Parallel

/-!
# Schedules — the check of several histories, in every order of steps

While the function is in the `select`, nobody is killed, so that every result in the channel is
right.  The function counts the results; when it has counted all of them, each goroutine has stored
its part of `longest` before.
-/

namespace Lab6824.Porcupine

open Lib (Progress RangeOrder)

variable {V S : Type}

namespace Pool

/-! ## The invariant -/

section Invariant

variable (model : FullModel V S) (history : List (List (Entry V))) (computeInfo : Bool)
  (timeout : Int)

/-- The result is right, and so are the sequences that explain it. -/
structure Final (result : CheckResult) (info : LinearizationInfo V) : Prop where
  ok : result = .ok → ∀ entries ∈ history, CanLinearize model entries
  illegal : result = .illegal → ∃ entries ∈ history, ¬ CanLinearize model entries
  unknown : result = .unknown → 0 < timeout
  partials : computeInfo = true → ∀ i : Fin history.length,
    ∃ orders, info.partialLinearizations[i.val]? = some orders ∧
      (∀ order ∈ orders, IsPartial model (history.get i) order) ∧
      (timeout ≤ 0 ∨ result = .ok → ∀ order, IsPartial model (history.get i) order → ∀ op ∈ order,
        ∃ order' ∈ orders, op ∈ order' ∧ order.length ≤ order'.length)

def MainInv (p : Pool V S history.length) : Main V → Prop
  | .selecting count ok =>
    p.kill = false ∧ ∑ j, sentOne (p.workers j) = count + p.results.length ∧
      (count < history.length ∨ history.length = 0) ∧
      (ok = true → ∑ j, sentFalse (p.workers j) = p.results.count false) ∧
      (ok = false → ∃ entries ∈ history, ¬ CanLinearize model entries)
  | .draining count ok timedOut =>
    computeInfo = true ∧ count < history.length ∧
      ∑ j, sentOne (p.workers j) = count + p.results.length ∧ timedOut = true ∧ 0 < timeout ∧
      (ok = false → ∃ entries ∈ history, ¬ CanLinearize model entries)
  | .finished result info => Final model history computeInfo timeout result info

/-- The steps that the function itself can still take. -/
def mainWork : Main V → Nat
  | .selecting count _ => history.length - count + 1
  | .draining count _ _ => history.length - count
  | .finished _ _ => 0

/-- The goroutines, of which each has `ws i` steps left at most. -/
def WorkersInv (p : Pool V S history.length) (ws : Fin history.length → Nat) : Prop :=
  ∀ i, WorkerInv model (history.get i) computeInfo p.kill (p.longest i) (ws i) (p.workers i)

def Inv (w : Nat) (p : Pool V S history.length) : Prop :=
  ∃ ws, WorkersInv model history computeInfo p ws ∧ MainInv model history computeInfo timeout p p.main ∧
    w = ∑ i, ws i + mainWork history p.main

end Invariant

section Main

variable {model : FullModel V S} {history : List (List (Entry V))} {computeInfo : Bool}
  {timeout : Int} {ords : Fin history.length → RangeOrder Seq} {p p' : Pool V S history.length}
  {ws : Fin history.length → Nat} {as : List (PoolAction history.length)}

/-- What the explanations are worth when all goroutines have sent their results. -/
theorem partials_of_told (ord : RangeOrder Seq) {i : Fin history.length} {ok : Bool}
    (h : Told model (history.get i) computeInfo p.kill ok (p.longest i)) (hinfo : computeInfo = true) :
    (∀ order ∈ partials ord (p.longest i), IsPartial model (history.get i) order) ∧
      (p.kill = false → ∀ order, IsPartial model (history.get i) order → ∀ op ∈ order,
        ∃ order' ∈ partials ord (p.longest i), op ∈ order' ∧ order.length ≤ order'.length) := by
  obtain ⟨killed, himp, hv⟩ := h
  have hmem : ∀ order, order ∈ partials ord (p.longest i) ↔
      ∃ seq, some seq ∈ p.longest i ∧ seq.order = order := by
    intro order
    simp [partials, ord.mem_visit]
  constructor
  · intro order horder
    obtain ⟨seq, hseq, rfl⟩ := (hmem order).mp horder
    obtain ⟨op, hop⟩ := List.mem_iff_getElem?.mp hseq
    exact (hv.sound (Or.inr hinfo) op seq hop).2
  · intro hkill order horder op hop
    have hnot : killed = false := by
      rw [← Bool.not_eq_true]
      exact fun hk ↦ by rw [himp hk] at hkill; cases hkill
    obtain ⟨seq, hseq, hle⟩ := hv.maximal (Or.inr ⟨hinfo, hnot⟩) order horder op hop
    refine ⟨seq.order, (hmem _).mpr ⟨seq, List.mem_of_getElem? hseq, rfl⟩, ?_, hle⟩
    exact (hv.sound (Or.inr hinfo) op seq hseq).1

theorem told_of_sum (hws : WorkersInv model history computeInfo p ws)
    (hsum : ∑ j, sentOne (p.workers j) = history.length) (i : Fin history.length) :
    ∃ ok, p.workers i = .sent ok ∧ Told model (history.get i) computeInfo p.kill ok (p.longest i) := by
  obtain ⟨ok, hok⟩ := exists_sent hsum i
  have hworker := hws i
  rw [hok] at hworker
  exact ⟨ok, hok, hworker.2⟩

/-- What follows the loop is right, whatever has ended it. -/
theorem mainInv_afterLoop (hws : WorkersInv model history computeInfo p ws) {count : Nat}
    {ok timedOut : Bool} (hworkers : p'.workers = p.workers) (hresults : p'.results = p.results)
    (hsum : ∑ j, sentOne (p.workers j) = count + p.results.length)
    (hearly : computeInfo = true → count < history.length → timedOut = true)
    (htime : timedOut = true → 0 < timeout)
    (hgood : ok = true → timedOut = false → ∀ entries ∈ history, CanLinearize model entries)
    (hbad : ok = false → ∃ entries ∈ history, ¬ CanLinearize model entries)
    (hkill : computeInfo = true → timedOut = false → p.kill = false) :
    MainInv model history computeInfo timeout p'
      (afterLoop history computeInfo ords p.longest count ok timedOut) := by
  unfold afterLoop
  split
  · rename_i hdrain
    have hout := hearly hdrain.1 hdrain.2
    refine ⟨hdrain.1, hdrain.2, ?_, hout, htime hout, hbad⟩
    rw [hworkers, hresults]
    exact hsum
  · rename_i hdone
    constructor
    · intro hres
      cases ok <;> cases timedOut <;> simp [checkResult] at hres
      exact hgood rfl rfl
    · intro hres
      cases ok <;> cases timedOut <;> simp [checkResult] at hres <;> exact hbad rfl
    · intro hres
      cases ok <;> cases timedOut <;> simp [checkResult] at hres
      exact htime rfl
    · intro hinfo i
      have hall : ∑ j, sentOne (p.workers j) = history.length := by
        have hle := sum_sentOne_le p.workers
        have hcount : ¬ count < history.length := fun hlt ↦ hdone ⟨hinfo, hlt⟩
        omega
      obtain ⟨ok', _, htold⟩ := told_of_sum hws hall i
      obtain ⟨hsound, hmax⟩ := partials_of_told (ords i) htold hinfo
      refine ⟨partials (ords i) (p.longest i), ?_, hsound, fun hcond ↦ ?_⟩
      · rw [info, if_pos hinfo]
        simp
      · apply hmax
        apply hkill hinfo
        cases timedOut with
        | false => rfl
        | true =>
            exfalso
            rcases hcond with hle | hres
            · exact absurd (htime rfl) (not_lt.mpr hle)
            · cases ok <;> simp [checkResult] at hres

theorem mainWork_selecting (count : Nat) (ok : Bool) :
    mainWork history (.selecting count ok : Main V) = history.length - count + 1 := rfl

theorem mainWork_draining (count : Nat) (ok timedOut : Bool) :
    mainWork history (.draining count ok timedOut : Main V) = history.length - count := rfl

theorem mainWork_afterLoop_le (computeInfo : Bool) (ords : Fin history.length → RangeOrder Seq)
    (longest : Fin history.length → List (Option Seq)) (count : Nat) (ok timedOut : Bool) :
    mainWork history (afterLoop history computeInfo ords longest count ok timedOut) ≤
      history.length - count := by
  unfold afterLoop
  split
  · exact le_refl _
  · exact Nat.zero_le _

/-- The step of a goroutine. -/
theorem step_work {i : Fin history.length}
    (h : p.step model history computeInfo timeout ords (.work i) = some p') :
    (∃ st, p.workers i = .running st ∧ p' = { p with
      workers := Function.update p.workers i (.after (st.body model computeInfo p.kill)) }) ∨
    (∃ ok l, p.workers i = .returned ok l ∧ p' = { p with
      longest := Function.update p.longest i l
      workers := Function.update p.workers i (.stored ok) }) ∨
    ∃ ok, p.workers i = .stored ok ∧ p' = { p with
      results := p.results ++ [ok]
      workers := Function.update p.workers i (.sent ok) } := by
  simp only [step] at h
  split at h
  · rename_i st hworker
    injection h with h
    exact Or.inl ⟨st, hworker, h.symm⟩
  · rename_i ok l hworker
    injection h with h
    exact Or.inr (Or.inl ⟨ok, l, hworker, h.symm⟩)
  · rename_i ok hworker
    split at h
    · injection h with h
      exact Or.inr (Or.inr ⟨ok, hworker, h.symm⟩)
    · cases h
  · cases h
  · cases h

/-- The other goroutines do not notice the step of one of them. -/
theorem WorkersInv.update (hws : WorkersInv model history computeInfo p ws) {i : Fin history.length}
    {worker : Worker V S} {w : Nat}
    (hworkers : p'.workers = Function.update p.workers i worker)
    (hlongest : ∀ j ≠ i, p'.longest j = p.longest j) (hkill : p'.kill = p.kill)
    (hnew : WorkerInv model (history.get i) computeInfo p.kill (p'.longest i) w worker) :
    WorkersInv model history computeInfo p' (Function.update ws i w) := by
  intro j
  rw [hworkers, hkill]
  by_cases hj : j = i
  · subst hj
    rw [Function.update_self, Function.update_self]
    exact hnew
  · rw [Function.update_of_ne hj, Function.update_of_ne hj, hlongest j hj]
    exact hws j

theorem sum_update_lt (ws : Fin history.length → Nat) {i : Fin history.length} {w : Nat}
    (hlt : w < ws i) : ∑ j, Function.update ws i w j < ∑ j, ws j := by
  have hsum := sum_update (fun x : Nat ↦ x) ws i w
  omega

/-- A step that sends nothing changes nothing for the function itself. -/
theorem MainInv.congr (h : MainInv model history computeInfo timeout p p.main)
    (hmain : p'.main = p.main) (hkill : p'.kill = p.kill) (hresults : p'.results = p.results)
    (hone : ∑ j, sentOne (p'.workers j) = ∑ j, sentOne (p.workers j))
    (hfalse : ∑ j, sentFalse (p'.workers j) = ∑ j, sentFalse (p.workers j)) :
    MainInv model history computeInfo timeout p' p'.main := by
  rw [hmain]
  cases hm : p.main with
  | selecting count ok =>
      rw [hm] at h
      simp only [MainInv, hkill, hresults, hone, hfalse] at h ⊢
      exact h
  | draining count ok timedOut =>
      rw [hm] at h
      simp only [MainInv, hresults, hone] at h ⊢
      exact h
  | finished result info =>
      rw [hm] at h
      exact h

theorem sentOne_after (x : Progress (Single V S) Outcome) : sentOne (.after x) = 0 := by
  rcases x with st | ok
  · rfl
  · cases ok <;> rfl

theorem sentOne_start (entries : List (Entry V)) :
    sentOne (.start model entries : Worker V S) = 0 := by
  unfold Worker.start
  split <;> rfl

theorem sentFalse_start (entries : List (Entry V)) :
    sentFalse (.start model entries : Worker V S) = 0 := by
  unfold Worker.start
  split <;> rfl

theorem sentFalse_after (x : Progress (Single V S) Outcome) : sentFalse (.after x) = 0 := by
  rcases x with st | ok
  · rfl
  · cases ok <;> rfl

/-- A goroutine that sends its result. -/
theorem MainInv.send (h : MainInv model history computeInfo timeout p p.main) {i : Fin history.length}
    {ok : Bool} (hworker : p.workers i = .stored ok) :
    MainInv model history computeInfo timeout
      { p with results := p.results ++ [ok], workers := Function.update p.workers i (.sent ok) }
      p.main := by
  have hone := sum_update sentOne p.workers i (.sent ok)
  have hfalse := sum_update sentFalse p.workers i (.sent ok)
  rw [hworker, show sentOne (.stored ok : Worker V S) = 0 from rfl,
    show sentOne (.sent ok : Worker V S) = 1 from rfl] at hone
  rw [hworker, show sentFalse (.stored ok : Worker V S) = 0 from rfl, sentFalse_sent] at hfalse
  cases hm : p.main with
  | selecting count ok' =>
      rw [hm] at h
      obtain ⟨hkill, hsum, hcount, hgood, hbad⟩ := h
      refine ⟨hkill, ?_, hcount, fun hok ↦ ?_, hbad⟩
      · simp only [List.length_append, List.length_singleton]
        omega
      · have hold := hgood hok
        simp only [List.count_append]
        omega
  | draining count ok' timedOut =>
      rw [hm] at h
      obtain ⟨hinfo, hcount, hsum, hrest⟩ := h
      refine ⟨hinfo, hcount, ?_, hrest⟩
      simp only [List.length_append, List.length_singleton]
      omega
  | finished result info =>
      rw [hm] at h
      exact h

theorem Inv.work (hcheck : ∀ entries ∈ history, Checkable model entries) {w : Nat}
    (h : Inv model history computeInfo timeout w p) {i : Fin history.length}
    (hstep : p.step model history computeInfo timeout ords (.work i) = some p') :
    ∃ w' < w, Inv model history computeInfo timeout w' p' := by
  obtain ⟨ws, hws, hmain, rfl⟩ := h
  have hi := hws i
  rcases step_work hstep with ⟨st, hworker, rfl⟩ | ⟨ok, l, hworker, rfl⟩ | ⟨ok, hworker, rfl⟩
  · rw [hworker] at hi
    obtain ⟨w', hlt, hnew⟩ := hi.round (hcheck _ (List.getElem_mem i.isLt))
    refine ⟨_, Nat.add_lt_add_right (sum_update_lt ws hlt) _, _,
      hws.update rfl (fun _ _ ↦ rfl) rfl hnew, hmain.congr rfl rfl rfl ?_ ?_, rfl⟩
    · have hone := sum_update sentOne p.workers i (.after (st.body model computeInfo p.kill))
      rw [hworker, sentOne_after] at hone
      exact hone
    · have hfalse := sum_update sentFalse p.workers i (.after (st.body model computeInfo p.kill))
      rw [hworker, sentFalse_after] at hfalse
      exact hfalse
  · rw [hworker] at hi
    obtain ⟨hw, htold⟩ := hi
    refine ⟨_, Nat.add_lt_add_right (sum_update_lt ws (w := 1) (i := i) (by omega)) _, _,
      hws.update rfl (fun j hj ↦ Function.update_of_ne hj _ _) rfl ⟨rfl, ?_⟩,
      hmain.congr rfl rfl rfl ?_ ?_, rfl⟩
    · show Told model (history.get i) computeInfo p.kill ok (Function.update p.longest i l i)
      rw [Function.update_self]
      exact htold
    · have hone := sum_update sentOne p.workers i (.stored ok)
      rw [hworker] at hone
      exact hone
    · have hfalse := sum_update sentFalse p.workers i (.stored ok)
      rw [hworker] at hfalse
      exact hfalse
  · rw [hworker] at hi
    obtain ⟨hw, htold⟩ := hi
    exact ⟨_, Nat.add_lt_add_right (sum_update_lt ws (w := 0) (i := i) (by omega)) _, _,
      hws.update rfl (fun _ _ ↦ rfl) rfl ⟨rfl, htold⟩, hmain.send hworker, rfl⟩

/-- A false result that comes while nobody is killed is right. -/
theorem exists_not_canLinearize (hws : WorkersInv model history computeInfo p ws)
    (hkill : p.kill = false) (hfalse : 0 < ∑ j, sentFalse (p.workers j)) :
    ∃ entries ∈ history, ¬ CanLinearize model entries := by
  obtain ⟨i, hi⟩ := exists_sent_false hfalse
  have hworker := hws i
  rw [hi] at hworker
  obtain ⟨_, killed, himp, hv⟩ := hworker
  refine ⟨history.get i, List.get_mem history i, hv.refuted rfl ?_⟩
  rw [← Bool.not_eq_true]
  exact fun hk ↦ by rw [himp hk] at hkill; cases hkill

/-- If all results are there and none was false, there are linearizations. -/
theorem canLinearize_of_sums (hws : WorkersInv model history computeInfo p ws)
    (hone : ∑ j, sentOne (p.workers j) = history.length)
    (hfalse : ∑ j, sentFalse (p.workers j) = 0) {entries : List (Entry V)}
    (hmem : entries ∈ history) : CanLinearize model entries := by
  obtain ⟨i, hi, rfl⟩ := List.getElem_of_mem hmem
  obtain ⟨ok, hok, killed, _, hv⟩ := told_of_sum hws hone ⟨i, hi⟩
  apply hv.found
  have hzero := (Finset.sum_eq_zero_iff.mp hfalse) ⟨i, hi⟩ (Finset.mem_univ _)
  rw [hok] at hzero
  cases ok with
  | true => rfl
  | false => cases hzero

theorem WorkersInv.mono (hws : WorkersInv model history computeInfo p ws)
    (hworkers : p'.workers = p.workers) (hlongest : p'.longest = p.longest)
    (hkill : p.kill = true → p'.kill = true) : WorkersInv model history computeInfo p' ws := by
  intro i
  rw [hworkers, hlongest]
  exact (hws i).mono hkill

/-- A result is received in the `select`. -/
theorem Inv.select {w : Nat} (h : Inv model history computeInfo timeout w p) {result : Bool}
    {results : List Bool} (hresults : p.results = result :: results) {count : Nat} {ok : Bool}
    (hmain : p.main = .selecting count ok)
    (hstep : p.step model history computeInfo timeout ords .receive = some p') :
    ∃ w' < w, Inv model history computeInfo timeout w' p' := by
  obtain ⟨ws, hws, hinv, rfl⟩ := h
  rw [hmain] at hinv ⊢
  obtain ⟨hkill, hsum, hcount, hgood, hbad⟩ := hinv
  rw [hresults, List.length_cons] at hsum
  have hle := sum_sentOne_le p.workers
  have hgood' : (ok && result) = true → ∑ j, sentFalse (p.workers j) = results.count false := by
    intro hand
    rw [Bool.and_eq_true] at hand
    rw [hgood hand.1, hresults, hand.2]
    simp
  have hbad' : (ok && result) = false → ∃ entries ∈ history, ¬ CanLinearize model entries := by
    intro hand
    cases ok with
    | false => exact hbad rfl
    | true =>
        -- a goroutine has sent false
        have hres : result = false := by simpa using hand
        apply exists_not_canLinearize hws hkill
        rw [hgood rfl, hresults, hres]
        simp
  have hafter : (computeInfo = true → ¬ count + 1 < history.length) →
      ((ok && result) = true → ¬ count + 1 < history.length) →
      ∀ q : Pool V S history.length, q.workers = p.workers → q.results = results →
        MainInv model history computeInfo timeout q
          (afterLoop history computeInfo ords p.longest (count + 1) (ok && result) false) := by
    intro hinfo hall q hworkers hres
    have hws' : WorkersInv model history computeInfo { p with results := results } ws := hws
    apply mainInv_afterLoop hws' hworkers hres
    · dsimp only
      omega
    · exact fun hci hlt ↦ absurd hlt (hinfo hci)
    · intro hfalse
      cases hfalse
    · intro hand _ entries hmem
      have hend := hall hand
      have hzero : results.length = 0 := by omega
      rw [List.length_eq_zero_iff.mp hzero] at hgood'
      refine canLinearize_of_sums hws ?_ (hgood' hand) hmem
      omega
    · exact hbad'
    · exact fun _ _ ↦ hkill
  have hwork := mainWork_afterLoop_le computeInfo ords p.longest
    (count + 1) (ok && result) false
  simp only [step, hresults, hmain] at hstep
  split at hstep
  · -- a false result, and no explanation is wanted
    rename_i hstop
    rw [Bool.and_eq_true, Bool.not_eq_true', Bool.not_eq_true'] at hstop
    injection hstep with hstep
    subst hstep
    refine ⟨_, ?_, ws, hws.mono rfl rfl fun _ ↦ rfl, hafter ?_ ?_ _ rfl rfl, rfl⟩
    · dsimp only
      rw [mainWork_selecting]
      omega
    · intro hinfo
      rw [hinfo] at hstop
      cases hstop.2
    · intro hand
      rw [hand] at hstop
      cases hstop.1
  · split at hstep
    · -- the last result
      rename_i hge
      injection hstep with hstep
      subst hstep
      refine ⟨_, ?_, ws, hws, hafter (fun _ ↦ not_lt.mpr hge) (fun _ ↦ not_lt.mpr hge) _ rfl rfl,
        rfl⟩
      dsimp only
      rw [mainWork_selecting]
      omega
    · rename_i hlt
      injection hstep with hstep
      subst hstep
      refine ⟨_, ?_, ws, hws, ⟨hkill, ?_, Or.inl (not_le.mp hlt), hgood', hbad'⟩, rfl⟩
      · dsimp only
        rw [mainWork_selecting, mainWork_selecting]
        omega
      · dsimp only
        omega

/-- A result is received while the function waits for the remaining goroutines. -/
theorem Inv.drain {w : Nat} (h : Inv model history computeInfo timeout w p) {result : Bool}
    {results : List Bool} (hresults : p.results = result :: results) {count : Nat}
    {ok timedOut : Bool} (hmain : p.main = .draining count ok timedOut)
    (hstep : p.step model history computeInfo timeout ords .receive = some p') :
    ∃ w' < w, Inv model history computeInfo timeout w' p' := by
  obtain ⟨ws, hws, hinv, rfl⟩ := h
  rw [hmain] at hinv ⊢
  obtain ⟨hinfo, hcount, hsum, hout, htime, hbad⟩ := hinv
  rw [hresults, List.length_cons] at hsum
  have hwork := mainWork_afterLoop_le computeInfo ords p.longest
    (count + 1) ok timedOut
  simp only [step, hresults, hmain] at hstep
  injection hstep with hstep
  subst hstep
  refine ⟨_, ?_, ws, hws, ?_, rfl⟩
  · dsimp only
    rw [mainWork_draining]
    omega
  · have hws' : WorkersInv model history computeInfo { p with results := results } ws := hws
    apply mainInv_afterLoop hws' rfl rfl
    · dsimp only
      omega
    · exact fun _ _ ↦ hout
    · exact fun _ ↦ htime
    · intro _ hnot
      rw [hout] at hnot
      cases hnot
    · exact hbad
    · intro _ hnot
      rw [hout] at hnot
      cases hnot

theorem Inv.receive {w : Nat} (h : Inv model history computeInfo timeout w p)
    (hstep : p.step model history computeInfo timeout ords .receive = some p') :
    ∃ w' < w, Inv model history computeInfo timeout w' p' := by
  cases hresults : p.results with
  | nil => simp [step, hresults] at hstep
  | cons result results =>
      cases hmain : p.main with
      | selecting count ok => exact h.select hresults hmain hstep
      | draining count ok timedOut => exact h.drain hresults hmain hstep
      | finished result info => simp [step, hresults, hmain] at hstep

theorem Inv.timer {w : Nat} (h : Inv model history computeInfo timeout w p)
    (hstep : p.step model history computeInfo timeout ords .timeout = some p') :
    ∃ w' < w, Inv model history computeInfo timeout w' p' := by
  obtain ⟨ws, hws, hinv, rfl⟩ := h
  cases hmain : p.main with
  | draining count ok timedOut => simp [step, hmain] at hstep
  | finished result info => simp [step, hmain] at hstep
  | selecting count ok =>
      rw [hmain] at hinv
      obtain ⟨_, hsum, _, _, hbad⟩ := hinv
      have hwork := mainWork_afterLoop_le computeInfo ords p.longest
        count ok true
      simp only [step, hmain] at hstep
      split at hstep
      · rename_i htime
        injection hstep with hstep
        subst hstep
        refine ⟨_, ?_, ws, hws.mono rfl rfl fun _ ↦ rfl, ?_, rfl⟩
        · dsimp only
          rw [mainWork_selecting]
          omega
        · refine mainInv_afterLoop hws rfl rfl hsum ?_ ?_ ?_ ?_ ?_
          · exact fun _ _ ↦ rfl
          · exact fun _ ↦ htime
          · intro _ hnot
            cases hnot
          · exact hbad
          · intro _ hnot
            cases hnot
      · cases hstep

theorem Inv.step (hcheck : ∀ entries ∈ history, Checkable model entries) (w : Nat)
    (p : Pool V S history.length) (a : PoolAction history.length) (p' : Pool V S history.length)
    (h : Inv model history computeInfo timeout w p)
    (hstep : p.step model history computeInfo timeout ords a = some p') :
    ∃ w' < w, Inv model history computeInfo timeout w' p' := by
  cases a with
  | work i => exact h.work hcheck hstep
  | receive => exact h.receive hstep
  | timeout => exact h.timer hstep

/-- A bound for the steps of all goroutines together. -/
def steps (history : List (List (Entry V))) : Nat :=
  ∑ i : Fin history.length, (rounds (history.get i) + 3) + (history.length + 1)

theorem Inv.init (hcheck : ∀ entries ∈ history, Checkable model entries) :
    Inv model history computeInfo timeout (steps history) (init model history) := by
  refine ⟨fun i ↦ rounds (history.get i) + 3, fun i ↦ ?_, ⟨rfl, ?_, ?_, ?_, ?_⟩, rfl⟩
  · exact workerInv_start (hcheck _ (List.getElem_mem i.isLt))
  · simp [Pool.init, sentOne_start]
  · omega
  · simp [Pool.init, sentFalse_start]
  · intro hfalse
    cases hfalse

theorem inv_of_run (hcheck : ∀ entries ∈ history, Checkable model entries)
    (hrun : Lib.run (Pool.step model history computeInfo timeout ords) (Pool.init model history) as =
      some p) :
    as.length ≤ steps history ∧ ∃ w, Inv model history computeInfo timeout w p :=
  Lib.run_bounded (Inv.step hcheck) (Inv.init hcheck) hrun

/-- A goroutine that is not at its end can take a step, since the channel has room. -/
theorem sum_sentOne_of_stuck (hws : WorkersInv model history computeInfo p ws) {count : Nat}
    (hsum : ∑ j, sentOne (p.workers j) = count + p.results.length)
    (hstuck : ∀ a, p.step model history computeInfo timeout ords a = none) :
    ∑ j, sentOne (p.workers j) = history.length := by
  have hall : ∀ i, sentOne (p.workers i) = 1 := by
    intro i
    have hworker := hws i
    have hwork := hstuck (.work i)
    cases hi : p.workers i with
    | running st => simp [step, hi] at hwork
    | returned ok l => simp [step, hi] at hwork
    | stored ok =>
        have hlt : ∑ j, sentOne (p.workers j) < history.length :=
          sum_sentOne_lt (i := i) (by rw [hi]; rfl)
        have hroom : p.results.length < history.length := by omega
        simp [step, hi, hroom] at hwork
    | sent ok => rfl
    | crashed =>
        rw [hi] at hworker
        exact hworker.elim
  simp [hall]

/-- Where no goroutine can take a step, the function has returned, or there was nothing to check. -/
theorem finished_of_stuck {w : Nat} (h : Inv model history computeInfo timeout w p)
    (hstuck : ∀ a, p.step model history computeInfo timeout ords a = none) :
    (∃ result info, p.main = .finished result info) ∨ history = [] ∧ timeout ≤ 0 := by
  obtain ⟨ws, hws, hinv, _⟩ := h
  have hreceive := hstuck .receive
  have htimer := hstuck .timeout
  cases hmain : p.main with
  | finished result info => exact Or.inl ⟨result, info, rfl⟩
  | draining count ok timedOut =>
      rw [hmain] at hinv
      obtain ⟨_, hcount, hsum, _⟩ := hinv
      have hall := sum_sentOne_of_stuck hws hsum hstuck
      cases hresults : p.results with
      | cons result results => simp [step, hresults, hmain] at hreceive
      | nil =>
          rw [hresults, List.length_nil] at hsum
          omega
  | selecting count ok =>
      rw [hmain] at hinv
      obtain ⟨_, hsum, hcount, _⟩ := hinv
      have hall := sum_sentOne_of_stuck hws hsum hstuck
      cases hresults : p.results with
      | cons result results =>
          exfalso
          simp only [step, hresults, hmain] at hreceive
          split at hreceive
          · cases hreceive
          · split at hreceive <;> cases hreceive
      | nil =>
          right
          rw [hresults, List.length_nil] at hsum
          have hzero : history.length = 0 := by omega
          refine ⟨List.length_eq_zero_iff.mp hzero, ?_⟩
          by_contra hpos
          simp only [step, hmain, if_pos (not_le.mp hpos)] at htimer
          cases htimer

theorem init_of_run_nil (htime : timeout ≤ 0) {p : Pool V S ([] : List (List (Entry V))).length}
    {ords : Fin ([] : List (List (Entry V))).length → RangeOrder Seq}
    {as : List (PoolAction ([] : List (List (Entry V))).length)}
    (hrun : Lib.run (Pool.step model [] computeInfo timeout ords) (Pool.init model []) as =
      some p) : p = Pool.init model [] := by
  cases as with
  | nil =>
      rw [Lib.run_nil, Option.some.injEq] at hrun
      exact hrun.symm
  | cons a as =>
      obtain ⟨q, hq, _⟩ := Lib.run_cons.mp hrun
      cases a with
      | work i => exact i.elim0
      | receive => cases hq
      | timeout =>
          simp only [step, Pool.init, if_neg (not_lt.mpr htime)] at hq
          cases hq

theorem final_of_run (hcheck : ∀ entries ∈ history, Checkable model entries)
    (hrun : Lib.run (Pool.step model history computeInfo timeout ords) (Pool.init model history) as =
      some p) {result : CheckResult} {info : LinearizationInfo V}
    (hmain : p.main = .finished result info) :
    Final model history computeInfo timeout result info := by
  obtain ⟨_, w, ws, _, hinv, _⟩ := inv_of_run hcheck hrun
  rwa [hmain] at hinv

theorem returned_iff_of_stuck (hcheck : ∀ entries ∈ history, Checkable model entries)
    (hrun : Lib.run (Pool.step model history computeInfo timeout ords) (Pool.init model history) as =
      some p) (hstuck : ∀ a, p.step model history computeInfo timeout ords a = none) :
    (∃ result, p.main.result = some result) ↔ history ≠ [] ∨ 0 < timeout := by
  constructor
  · rintro ⟨result, hresult⟩
    by_contra hnone
    rw [not_or, not_not, not_lt] at hnone
    obtain ⟨rfl, htime⟩ := hnone
    rw [init_of_run_nil htime hrun] at hresult
    cases hresult
  · intro hor
    obtain ⟨_, w, hinv⟩ := inv_of_run hcheck hrun
    rcases finished_of_stuck hinv hstuck with ⟨result, info, hmain⟩ | ⟨hnil, htime⟩
    · exact ⟨result, by rw [hmain]; rfl⟩
    · rcases hor with hne | hpos
      · exact absurd hnil hne
      · exact absurd hpos (not_lt.mpr htime)

end Main

end Pool

theorem Main.eq_finished {main : Main V} {result : CheckResult} (h : main.result = some result) :
    ∃ info, main = .finished result info := by
  cases main with
  | finished result' info =>
      cases h
      exact ⟨info, rfl⟩
  | _ => cases h

/-! ## Every order of steps -/

section Schedules

variable {model : FullModel V S} {history : List (List (Entry V))} {computeInfo : Bool}
  {timeout : Int} {ords : Fin history.length → RangeOrder Seq} {p : Pool V S history.length}
  {as : List (PoolAction history.length)}

/-- The result is right, whatever the order of the steps. -/
theorem checkParallel_sound (hcheck : ∀ entries ∈ history, Checkable model entries)
    (hrun : Lib.run (Pool.step model history computeInfo timeout ords) (Pool.init model history) as =
      some p) {result : CheckResult} (hresult : p.main.result = some result) :
    (result = .ok → ∀ entries ∈ history, CanLinearize model entries) ∧
      (result = .illegal → ∃ entries ∈ history, ¬ CanLinearize model entries) ∧
      (result = .unknown → 0 < timeout) := by
  obtain ⟨info, hmain⟩ := Main.eq_finished hresult
  have hfinal := Pool.final_of_run hcheck hrun hmain
  exact ⟨hfinal.ok, hfinal.illegal, hfinal.unknown⟩

/-- The partial linearizations that are returned explain a part of their history each; if the check
was not cut short, each operation is in a longest one. -/
theorem checkParallel_partials (hcheck : ∀ entries ∈ history, Checkable model entries)
    (hrun : Lib.run (Pool.step model history true timeout ords) (Pool.init model history) as =
      some p) {result : CheckResult} {info : LinearizationInfo V}
    (hmain : p.main = .finished result info) (i : Fin history.length) :
    ∃ orders, info.partialLinearizations[i.val]? = some orders ∧
      (∀ order ∈ orders, IsPartial model (history.get i) order) ∧
      (timeout ≤ 0 ∨ result = .ok → ∀ order, IsPartial model (history.get i) order → ∀ op ∈ order,
        ∃ order' ∈ orders, op ∈ order' ∧ order.length ≤ order'.length) :=
  (Pool.final_of_run hcheck hrun hmain).partials rfl i

/-- The number of steps is bounded.  When no step is possible any more the function has returned,
except that without a timer it waits for ever if there is no history to check. -/
theorem checkParallel_returns (hcheck : ∀ entries ∈ history, Checkable model entries)
    (hrun : Lib.run (Pool.step model history computeInfo timeout ords) (Pool.init model history) as =
      some p) :
    as.length ≤ Pool.steps history ∧
      ((∀ a, p.step model history computeInfo timeout ords a = none) →
        ((∃ result, p.main.result = some result) ↔ history ≠ [] ∨ 0 < timeout)) :=
  ⟨(Pool.inv_of_run hcheck hrun).1, Pool.returned_iff_of_stuck hcheck hrun⟩

end Schedules

/-! ## Two histories of a register -/

/-- Zero is read after seven has been written. -/
def staleRead : List (Entry Nat) :=
  [⟨.callEntry, 7, 0, 0, 0⟩, ⟨.returnEntry, 0, 0, 1, 0⟩, ⟨.callEntry, 0, 1, 2, 1⟩,
    ⟨.returnEntry, 0, 1, 3, 1⟩]

theorem staleRead_proper : Proper staleRead 2 where
  complete := ⟨by decide, by decide⟩
  length := rfl
  ids i := by
    simp [staleRead, Entry.mark]
    omega

def registers : List (List (Entry Nat)) :=
  [overlap, staleRead]

theorem registers_checkable : ∀ entries ∈ registers, Checkable register entries := by
  intro entries hentries
  have hproper : Proper entries 2 := by
    simp only [registers, List.mem_cons, List.not_mem_nil, or_false] at hentries
    rcases hentries with rfl | rfl
    · exact overlap_proper
    · exact staleRead_proper
  exact ⟨⟨2, hproper⟩, register_applies entries, register_equalSound entries⟩

/-- The goroutines take turns.  The first result is received while the second goroutine has stored
but not sent its own; the timer does not fire. -/
def turnsRun : List (PoolAction registers.length) :=
  (List.replicate 5 [.work ⟨0, Nat.two_pos⟩, .work ⟨1, Nat.one_lt_two⟩]).flatten ++
    [.receive, .work ⟨1, Nat.one_lt_two⟩, .receive]

theorem turnsRun_result (computeInfo : Bool) (timeout : Int) :
    ∃ p, Lib.run (Pool.step register registers computeInfo timeout fun _ ↦ .arbitrary Seq)
        (Pool.init register registers) turnsRun = some p ∧ p.main.result = some .illegal := by
  have hany : (Lib.run (Pool.step register registers computeInfo timeout fun _ ↦ .arbitrary Seq)
      (Pool.init register registers) turnsRun).any
      (fun p ↦ p.main.result = some .illegal) = true := by
    cases computeInfo <;> rfl
  obtain ⟨p, hrun, hp⟩ := Lib.exists_run_of_any hany
  exact ⟨p, hrun, of_decide_eq_true hp⟩

theorem checkParallel_sound_turnsRun : ∃ p,
    Lib.run (Pool.step register registers false 1 fun _ ↦ .arbitrary Seq)
        (Pool.init register registers) turnsRun = some p ∧ p.main.result = some .illegal ∧
      ∃ entries ∈ registers, ¬ CanLinearize register entries := by
  obtain ⟨p, hrun, hresult⟩ := turnsRun_result false 1
  exact ⟨p, hrun, hresult, (checkParallel_sound registers_checkable hrun hresult).2.1 rfl⟩

/-- Both histories are explained as far as they can be. -/
theorem checkParallel_partials_turnsRun : ∃ p info,
    Lib.run (Pool.step register registers true 0 fun _ ↦ .arbitrary Seq)
        (Pool.init register registers) turnsRun = some p ∧ p.main = .finished .illegal info ∧
      ∀ i : Fin registers.length, ∃ orders, info.partialLinearizations[i.val]? = some orders ∧
        (∀ order ∈ orders, IsPartial register (registers.get i) order) ∧
        ∀ order, IsPartial register (registers.get i) order → ∀ op ∈ order,
          ∃ order' ∈ orders, op ∈ order' ∧ order.length ≤ order'.length := by
  obtain ⟨p, hrun, hresult⟩ := turnsRun_result true 0
  obtain ⟨info, hmain⟩ := Main.eq_finished hresult
  refine ⟨p, info, hrun, hmain, fun i ↦ ?_⟩
  obtain ⟨orders, horders, hsound, hlongest⟩ :=
    checkParallel_partials registers_checkable hrun hmain i
  exact ⟨orders, horders, hsound, hlongest (Or.inl (le_refl 0))⟩

/-- The timer fires while both goroutines search; the function has returned when they have found
that they are no longer needed. -/
def timeoutRun : List (PoolAction registers.length) :=
  [.work ⟨0, Nat.two_pos⟩, .work ⟨1, Nat.one_lt_two⟩, .timeout] ++
    (List.replicate 3 [.work ⟨0, Nat.two_pos⟩, .work ⟨1, Nat.one_lt_two⟩]).flatten

theorem checkParallel_returns_timeoutRun : ∃ p,
    Lib.run (Pool.step register registers false 1 fun _ ↦ .arbitrary Seq)
        (Pool.init register registers) timeoutRun = some p ∧
      timeoutRun.length ≤ Pool.steps registers ∧ ∃ result, p.main.result = some result := by
  have hany : (Lib.run (Pool.step register registers false 1 fun _ ↦ .arbitrary Seq)
      (Pool.init register registers) timeoutRun).any
      (fun p ↦ ∀ a, p.step register registers false 1 (fun _ ↦ .arbitrary Seq) a = none) =
        true := by
    rfl
  obtain ⟨p, hrun, hp⟩ := Lib.exists_run_of_any hany
  obtain ⟨hbound, hreturns⟩ := checkParallel_returns registers_checkable hrun
  exact ⟨p, hrun, hbound, (hreturns (of_decide_eq_true hp)).mpr (Or.inr Int.one_pos)⟩

end Lab6824.Porcupine

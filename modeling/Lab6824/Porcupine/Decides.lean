import Lab6824.Porcupine.Refines

/-!
# Decides — the check of one history gives the right answer

The loop returns after a number of rounds that depends on the length of the history only.  If it
returns true, it has a linearization; if it returns false and has not been killed, there is none.  The
sequences in `longest` are partial linearizations, and no longer ones contain the same operation.
-/

namespace Lab6824.Porcupine

open Lib (Search taken)

variable {V S : Type}

/-- Some order of all operations explains the history. -/
def CanLinearize (model : FullModel V S) (entries : List (Entry V)) : Prop :=
  ∃ order, Lib.FullLinearization (next model entries) (entries.map Entry.mark) model.init order

/-- The order explains a part of the history, from its start on. -/
def IsPartial (model : FullModel V S) (entries : List (Entry V)) (order : List Nat) : Prop :=
  Lib.PartialLinearization (next model entries) (entries.map Entry.mark) model.init order

/-- Each sequence contains its operation and explains a part of the history. -/
def PartialsSound (model : FullModel V S) (entries : List (Entry V)) (longest : List (Option Seq)) :
    Prop :=
  ∀ i (seq : Seq), longest[i]? = some (some seq) →
    i ∈ seq.order ∧ IsPartial model entries seq.order

/-- No longer sequence with the same operation explains a part of the history. -/
def PartialsLongest (model : FullModel V S) (entries : List (Entry V))
    (longest : List (Option Seq)) : Prop :=
  ∀ order, IsPartial model entries order → ∀ i ∈ order,
    ∃ seq, longest[i]? = some (some seq) ∧ order.length ≤ seq.order.length

/-- What the result of `checkSingle` means; `killed` is what the last round has read. -/
structure Verdict (model : FullModel V S) (entries : List (Entry V)) (computePartial killed ok : Bool)
    (longest : List (Option Seq)) : Prop where
  found : ok = true → CanLinearize model entries
  refuted : ok = false → killed = false → ¬ CanLinearize model entries
  sound : ok = true ∨ computePartial = true → PartialsSound model entries longest
  maximal : ok = true ∨ computePartial = true ∧ killed = false →
    PartialsLongest model entries longest

/-- The function `checkSingle` can be applied to the history. -/
structure Checkable (model : FullModel V S) (entries : List (Entry V)) : Prop where
  proper : ∃ n, Proper entries n
  applies : Applies model entries
  equal : EqualSound model entries

section Verdict

variable {model : FullModel V S} {entries : List (Entry V)} {n : Nat} {heap : Heap V}
  {computePartial : Bool} {st : Single V S} {m : Search Nat S}

theorem verdict_found (hproper : Proper entries n)
    (hinv : Search.Inv (next model entries) (entries.map Entry.mark) model.init m)
    (hleft : m.left (entries.map Entry.mark) = []) (killed : Bool) (ref : Nat) :
    Verdict model entries computePartial killed true
      (List.replicate n (some ⟨ref, taken m.calls⟩)) := by
  have hfull := hinv.fullLinearization hproper.complete hleft
  constructor
  · exact fun _ ↦ ⟨_, hfull⟩
  · intro hfalse
    cases hfalse
  · intro _ i seq hseq
    rw [List.getElem?_replicate] at hseq
    split at hseq
    · rename_i hi
      cases hseq
      exact ⟨hfull.all i ((hproper.ids i).mpr hi), hfull.toPartialLinearization⟩
    · cases hseq
  · intro _ order horder i hi
    have hlt : i < n := (hproper.ids i).mp (horder.called i hi)
    refine ⟨⟨ref, taken m.calls⟩, by rw [List.getElem?_replicate, if_pos hlt], ?_⟩
    apply List.Subperm.length_le
    exact horder.nodup.subperm fun j hj ↦ hfull.all j (horder.called j hj)

theorem verdict_killed (hproper : Proper entries n)
    (hinv : Search.Inv (next model entries) (entries.map Entry.mark) model.init m)
    (hlongest : computePartial = true → LongestOf n st.longest m.ends) :
    Verdict model entries computePartial true false st.longest := by
  constructor
  · intro hfalse
    cases hfalse
  · intro _ hfalse
    cases hfalse
  · intro hor i seq hseq
    obtain ⟨hmem, hin, _⟩ := (hlongest (by simpa using hor)).some i seq hseq
    exact ⟨hin, (Lib.runs_iff_partialLinearization hproper.complete).mp (hinv.ends _ hmem)⟩
  · intro hor
    simp at hor

theorem verdict_exhausted (hproper : Proper entries n)
    (hinv : Search.Inv (next model entries) (entries.map Entry.mark) model.init m)
    (hlongest : computePartial = true → LongestOf n st.longest m.ends)
    (hleft : m.left (entries.map Entry.mark) ≠ []) (hcalls : m.calls = []) {j : Nat}
    {rest : List (Lib.Mark Nat)} (htodo : m.todo = .ret j :: rest) :
    Verdict model entries computePartial false false st.longest := by
  have hsound := (verdict_killed hproper hinv hlongest).sound
  constructor
  · intro hfalse
    cases hfalse
  · rintro _ _ ⟨order, hfull⟩
    obtain ⟨hruns, hnil⟩ := (Lib.fullLinearization_iff hproper.complete).mp hfull
    exact (hinv.exhausted hleft hcalls htodo hruns).1 hnil
  · exact hsound
  · intro hor order horder i hi
    have hof := hlongest (by simpa using hor)
    have hruns := (Lib.runs_iff_partialLinearization hproper.complete).mpr horder
    obtain ⟨stuck, hstuck, hset⟩ :=
      (hinv.exhausted hleft hcalls htodo hruns).2 (List.ne_nil_of_mem hi)
    -- the search has turned back at the same operations, in some order
    have hin : i ∈ stuck := by
      rw [← List.mem_toFinset, hset, List.mem_toFinset]
      exact hi
    have hlength : order.length ≤ stuck.length := by
      rw [← List.toFinset_card_of_nodup horder.nodup, ← hset]
      exact List.toFinset_card_le stuck
    have hlt : i < st.longest.length := by
      rw [hof.length]
      exact (hproper.ids i).mp (horder.called i hi)
    cases hget : st.longest[i]? with
    | none => exact absurd (List.getElem?_eq_none_iff.mp hget) (by omega)
    | some cell =>
        cases cell with
        | none => exact absurd hin (hof.none i hget stuck hstuck)
        | some seq => exact ⟨seq, rfl, hlength.trans ((hof.some i seq hget).2.2 stuck hstuck hin)⟩

end Verdict

/-! ## Whole runs of the loop -/

/-- The variables of the loop are those of a search with work `w` left. -/
def Checking (model : FullModel V S) (entries : List (Entry V)) (n : Nat) (heap : Heap V)
    (computePartial : Bool) (w : Nat) (st : Single V S) : Prop :=
  ∃ m, Rel entries n heap computePartial st m ∧
    Search.Inv (next model entries) (entries.map Entry.mark) model.init m ∧
    Search.work (entries.map Entry.mark) m = w

section Loop

variable {model : FullModel V S} {entries : List (Entry V)} {n : Nat} {heap : Heap V}
  {computePartial : Bool} {st : Single V S}

/-- A round goes on with less work, or returns a right answer. -/
theorem Checking.body (hset : Setting entries n heap) (happ : Applies model entries)
    (hequal : EqualSound model entries) {w : Nat}
    (h : Checking model entries n heap computePartial w st) (killed : Bool) :
    (∃ st' w', st.body model computePartial killed = .going st' ∧ w' < w ∧
      Checking model entries n heap computePartial w' st') ∨
    ∃ ok longest, st.body model computePartial killed = .done (.returned ok longest) ∧
      Verdict model entries computePartial killed ok longest := by
  obtain ⟨m, hrel, hinv, rfl⟩ := h
  by_cases hleft : m.left (entries.map Entry.mark) = []
  · exact Or.inr ⟨true, _, hrel.body_found hset hleft killed,
      verdict_found hset.proper hinv hleft killed st.seqs⟩
  · cases killed with
    | true =>
        exact Or.inr ⟨false, _, hrel.body_killed hset hleft,
          verdict_killed hset.proper hinv hrel.longest⟩
    | false =>
        cases hstep : m.step (next model entries) model.equal (entries.map Entry.mark) with
        | going m' =>
            obtain ⟨st', hbody, hrel'⟩ := hrel.body_going hset happ hstep
            exact Or.inl ⟨st', _, hbody, hinv.work_lt hstep, m', hrel', hinv.step hequal hstep, rfl⟩
        | done found =>
            right
            rcases Search.step_eq_done hstep with ⟨_, hnil⟩ | ⟨_, _, hnil | ⟨hcalls, i, rest, htodo⟩⟩
            · exact absurd hnil hleft
            · exact absurd hnil (hinv.todo_ne_nil hset.proper.complete hleft)
            · exact ⟨false, _, hrel.body_exhausted hset hleft hcalls htodo,
                verdict_exhausted hset.proper hinv hrel.longest hleft hcalls htodo⟩

/-- A bound for the number of rounds. -/
def rounds (entries : List (Entry V)) : Nat :=
  entries.length * Search.cost entries.length

theorem checking_start (model : FullModel V S) (computePartial : Bool) (hproper : Proper entries n) :
    ∃ heap st, Single.start model entries = some st ∧ Setting entries n heap ∧
      Checking model entries n heap computePartial (rounds entries) st := by
  obtain ⟨heap, st, hst, hset, hrel⟩ := start_spec model hproper computePartial
  refine ⟨heap, st, hst, hset, _, hrel, Search.Inv.start model.init, ?_⟩
  rw [Search.work_start, List.length_map, rounds]

theorem checkSingle_verdict (hproper : Proper entries n) (happ : Applies model entries)
    (hequal : EqualSound model entries) (computePartial : Bool) (kill : Nat → Bool) {fuel : Nat}
    (hfuel : rounds entries < fuel) :
    ∃ ok longest k, checkSingle model entries computePartial kill fuel =
        .done (.returned ok longest) ∧
      Verdict model entries computePartial (kill k) ok longest := by
  obtain ⟨heap, st, hst, hset, hstart⟩ := checking_start model computePartial hproper
  obtain ⟨r, k, w, t, _, ht, hdone, hloop⟩ := Lib.loop_returns
    (fun k st ↦ st.body model computePartial (kill k))
    (Checking model entries n heap computePartial)
    (fun k w st t h hgoing ↦ by
      rcases h.body hset happ hequal (kill k) with ⟨st', w', hbody, hlt, hst'⟩ |
        ⟨ok, longest, hbody, _⟩
      · rw [hbody] at hgoing
        cases hgoing
        exact ⟨w', hlt, hst'⟩
      · rw [hbody] at hgoing
        cases hgoing)
    hfuel hstart 0
  rcases ht.body hset happ hequal (kill k) with ⟨st', w', hbody, _⟩ | ⟨ok, longest, hbody, hv⟩
  · rw [hbody] at hdone
    cases hdone
  · rw [hbody] at hdone
    cases hdone
    refine ⟨ok, longest, k, ?_, hv⟩
    rw [checkSingle, hst]
    exact hloop

/-- Whatever the rounds read from `kill`, the function returns; true only if there is a
linearization, and false, when it was not killed, only if there is none. -/
theorem checkSingle_decides (hproper : Proper entries n) (happ : Applies model entries)
    (hequal : EqualSound model entries) (computePartial : Bool) (kill : Nat → Bool) {fuel : Nat}
    (hfuel : rounds entries < fuel) :
    ∃ ok longest, checkSingle model entries computePartial kill fuel =
        .done (.returned ok longest) ∧
      (ok = true → CanLinearize model entries) ∧
      ((∀ k, kill k = false) → ok = false → ¬ CanLinearize model entries) := by
  obtain ⟨ok, longest, k, hcheck, hv⟩ :=
    checkSingle_verdict hproper happ hequal computePartial kill hfuel
  exact ⟨ok, longest, hcheck, hv.found, fun hkill hfalse ↦ hv.refuted hfalse (hkill k)⟩

/-- The sequences that are computed for an explanation. -/
theorem checkSingle_longest (hproper : Proper entries n) (happ : Applies model entries)
    (hequal : EqualSound model entries) (kill : Nat → Bool) {fuel : Nat}
    (hfuel : rounds entries < fuel) :
    ∃ ok longest, checkSingle model entries true kill fuel = .done (.returned ok longest) ∧
      PartialsSound model entries longest ∧
      ((∀ k, kill k = false) → PartialsLongest model entries longest) := by
  obtain ⟨ok, longest, k, hcheck, hv⟩ :=
    checkSingle_verdict hproper happ hequal true kill hfuel
  exact ⟨ok, longest, hcheck, hv.sound (Or.inr rfl),
    fun hkill ↦ hv.maximal (Or.inr ⟨rfl, hkill k⟩)⟩

end Loop

/-! ## A register -/

/-- A register that is zero at first; the input 0 reads it and any other input is written to it. -/
def register : FullModel Nat Nat where
  partition := noPartition
  partitionEvent := noPartitionEvent
  init := 0
  step s input output := if input = 0 then some (output = s, s) else some (true, input)
  equal := shallowEqual

/-- Seven is written while another client reads seven. -/
def overlap : List (Entry Nat) :=
  [⟨.callEntry, 7, 0, 0, 0⟩, ⟨.callEntry, 0, 1, 1, 1⟩, ⟨.returnEntry, 7, 1, 2, 1⟩,
    ⟨.returnEntry, 0, 0, 3, 0⟩]

theorem overlap_proper : Proper overlap 2 where
  complete := ⟨by decide, by decide⟩
  length := rfl
  ids i := by
    simp [overlap, Entry.mark]
    omega

theorem register_applies (entries : List (Entry Nat)) : Applies register entries := by
  intro c _ r _ i _ _ s
  dsimp only [register]
  split <;> simp

theorem register_equalSound (entries : List (Entry Nat)) : EqualSound register entries :=
  (equalStates_of_shallowEqual rfl).equalSound entries

theorem checkSingle_decides_overlap :
    ∃ ok longest, checkSingle register overlap false (fun _ ↦ false) (rounds overlap + 1) =
        .done (.returned ok longest) ∧
      (ok = true → CanLinearize register overlap) ∧
      ((∀ k, (fun _ : Nat ↦ false) k = false) → ok = false → ¬ CanLinearize register overlap) :=
  checkSingle_decides overlap_proper (register_applies overlap)
    (register_equalSound overlap) false (fun _ ↦ false) (Nat.lt_succ_self _)

theorem checkSingle_longest_overlap :
    ∃ ok longest, checkSingle register overlap true (fun _ ↦ false) (rounds overlap + 1) =
        .done (.returned ok longest) ∧
      PartialsSound register overlap longest ∧
      ((∀ k, (fun _ : Nat ↦ false) k = false) → PartialsLongest register overlap longest) :=
  checkSingle_longest overlap_proper (register_applies overlap)
    (register_equalSound overlap) (fun _ ↦ false) (Nat.lt_succ_self _)

end Lab6824.Porcupine

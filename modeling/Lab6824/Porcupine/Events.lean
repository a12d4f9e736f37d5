import Lab6824.Porcupine.Operations
import Mathlib.Data.Finmap

/-!
# Events — the check of a list of calls and returns

Events come in the order of time and carry an id that a call shares with its return.  `renumber` gives
the operations numbers from zero on, as the checker needs them; that this changes nothing is a fact
about other names for the operations.
-/

namespace Lab6824.Porcupine

open Lib (Mark)

variable {V S : Type}

/-- The variables of the loop in `renumber`. -/
structure Renumbering (V : Type) where
  e : List (Event V) := []
  m : Finmap (fun _ : Int ↦ Int) := ∅
  id : Int := 0

def Renumbering.add (r : Renumbering V) (v : Event V) : Renumbering V :=
  match r.m.lookup v.id with
  | some id => { r with e := r.e ++ [{ v with id := id }] }
  | none => { e := r.e ++ [{ v with id := r.id }], m := r.m.insert v.id r.id, id := r.id + 1 }

def renumber (events : List (Event V)) : List (Event V) :=
  (events.foldl Renumbering.add {}).e

/-- The ids are not negative once they are renumbered. -/
def convertEntries (events : List (Event V)) : List (Entry V) :=
  events.zipIdx.map fun (elem, i) ↦
    { kind := if elem.kind = .returnEvent then .returnEntry else .callEntry
      value := elem.value
      id := elem.id.toNat
      time := i
      clientId := elem.clientId }

def Event.mark (e : Event V) : Mark Int :=
  match e.kind with
  | .callEvent => .call e.id
  | .returnEvent => .ret e.id

/-- Some order of the operations explains the events. -/
def EventsLinearizable (model : FullModel V S) (events : List (Event V)) : Prop :=
  ∃ order, Lib.FullLinearization (effectIn model Event.mark Event.value events)
    (events.map Event.mark) model.init order

/-- What the check asks of the events. -/
structure CheckableEvents (model : FullModel V S) (events : List (Event V)) : Prop where
  complete : Lib.Complete (events.map Event.mark)
  applies : ∀ c ∈ events, ∀ r ∈ events, ∀ i, c.mark = .call i → r.mark = .ret i →
    ∀ s, model.step s c.value r.value ≠ none

/-! ## New numbers -/

namespace Renumbering

/-- The number of an id. -/
def number (m : Finmap fun _ : Int ↦ Int) (i : Int) : Int :=
  (m.lookup i).getD 0

/-- The loop has seen `events`. -/
structure Seen (r : Renumbering V) (events : List (Event V)) : Prop where
  nonneg : 0 ≤ r.id
  known : ∀ i, i ∈ r.m ↔ ∃ v ∈ events, v.id = i
  range : ∀ k, (∃ i, r.m.lookup i = some k) ↔ 0 ≤ k ∧ k < r.id
  injective : ∀ i j k, r.m.lookup i = some k → r.m.lookup j = some k → i = j
  renamed : r.e = events.map fun v ↦ { v with id := number r.m v.id }

theorem Seen.init : ({} : Renumbering V).Seen [] where
  nonneg := le_refl 0
  known i := by simpa using Finmap.notMem_empty
  range k := by
    constructor
    · rintro ⟨i, hi⟩
      rw [Finmap.lookup_empty] at hi
      cases hi
    · rintro ⟨hle, hlt⟩
      exact absurd hlt (not_lt.mpr hle)
  injective i j k hi := by
    rw [Finmap.lookup_empty] at hi
    cases hi
  renamed := rfl

section Add

variable {r : Renumbering V} {events : List (Event V)} {v : Event V}

theorem exists_id_concat {i : Int} :
    (∃ w ∈ events ++ [v], w.id = i) ↔ (∃ w ∈ events, w.id = i) ∨ v.id = i := by
  simp only [List.mem_append, List.mem_singleton, or_and_right, exists_or, exists_eq_left]

/-- An event whose id has a number. -/
theorem Seen.again (h : r.Seen events) {id : Int} (hv : r.m.lookup v.id = some id) :
    ({ r with e := r.e ++ [{ v with id := id }] } : Renumbering V).Seen (events ++ [v]) where
  nonneg := h.nonneg
  known i := by
    rw [exists_id_concat, ← h.known]
    constructor
    · exact Or.inl
    · rintro (hi | rfl)
      · exact hi
      · exact Finmap.mem_iff.mpr ⟨id, hv⟩
  range := h.range
  injective := h.injective
  renamed := by
    have hnumber : number r.m v.id = id := by rw [number, hv, Option.getD_some]
    show r.e ++ [{ v with id := id }] = (events ++ [v]).map fun w ↦ { w with id := number r.m w.id }
    rw [h.renamed, List.map_append, List.map_singleton, hnumber]

/-- An event whose id gets the next number. -/
theorem Seen.new (h : r.Seen events) (hv : r.m.lookup v.id = none) :
    ({ e := r.e ++ [{ v with id := r.id }], m := r.m.insert v.id r.id, id := r.id + 1 } :
      Renumbering V).Seen (events ++ [v]) where
  nonneg := by
    have := h.nonneg
    show 0 ≤ r.id + 1
    omega
  known i := by
    rw [exists_id_concat, ← h.known, Finmap.mem_insert, or_comm, eq_comm]
  range k := by
    show (∃ i, (r.m.insert v.id r.id).lookup i = some k) ↔ 0 ≤ k ∧ k < r.id + 1
    have hnonneg := h.nonneg
    constructor
    · rintro ⟨i, hi⟩
      by_cases heq : i = v.id
      · rw [heq, Finmap.lookup_insert, Option.some.injEq] at hi
        omega
      · rw [Finmap.lookup_insert_of_ne _ heq] at hi
        have := (h.range k).mp ⟨i, hi⟩
        omega
    · rintro ⟨hle, hlt⟩
      by_cases heq : k = r.id
      · exact ⟨v.id, by rw [Finmap.lookup_insert, heq]⟩
      · obtain ⟨i, hi⟩ := (h.range k).mpr ⟨hle, by omega⟩
        have hne : i ≠ v.id := fun hiv ↦ by rw [hiv, hv] at hi; cases hi
        exact ⟨i, by rw [Finmap.lookup_insert_of_ne _ hne, hi]⟩
  injective i j k hi hj := by
    have hold : ∀ i', i' ≠ v.id → (r.m.insert v.id r.id).lookup i' = some k →
        r.m.lookup i' = some k ∧ k < r.id := fun i' hne hi' ↦ by
      rw [Finmap.lookup_insert_of_ne _ hne] at hi'
      exact ⟨hi', ((h.range k).mp ⟨i', hi'⟩).2⟩
    by_cases hiv : i = v.id
    · by_cases hjv : j = v.id
      · rw [hiv, hjv]
      · rw [hiv, Finmap.lookup_insert, Option.some.injEq] at hi
        have := (hold j hjv hj).2
        omega
    · by_cases hjv : j = v.id
      · rw [hjv, Finmap.lookup_insert, Option.some.injEq] at hj
        have := (hold i hiv hi).2
        omega
      · exact h.injective i j k (hold i hiv hi).1 (hold j hjv hj).1
  renamed := by
    have hnumber : number (r.m.insert v.id r.id) v.id = r.id := by
      rw [number, Finmap.lookup_insert, Option.getD_some]
    show r.e ++ [{ v with id := r.id }] =
      (events ++ [v]).map fun w ↦ { w with id := number (r.m.insert v.id r.id) w.id }
    rw [h.renamed, List.map_append, List.map_singleton, hnumber]
    congr 1
    apply List.map_congr_left
    intro w hw
    -- the numbers of the earlier ids stay
    have hne : w.id ≠ v.id := by
      intro heq
      obtain ⟨k, hk⟩ := Finmap.mem_iff.mp ((h.known w.id).mpr ⟨w, hw, rfl⟩)
      rw [heq, hv] at hk
      cases hk
    simp only [number, Finmap.lookup_insert_of_ne _ hne]

theorem Seen.add (h : r.Seen events) (v : Event V) : (r.add v).Seen (events ++ [v]) := by
  unfold Renumbering.add
  cases hv : r.m.lookup v.id with
  | some id => exact h.again hv
  | none => exact h.new hv

end Add

theorem seen_foldl (events : List (Event V)) : (events.foldl Renumbering.add {}).Seen events := by
  induction events using List.reverseRecOn with
  | nil => exact Seen.init
  | append_singleton events v ih =>
      rw [List.foldl_append, List.foldl_cons, List.foldl_nil]
      exact ih.add v

end Renumbering

/-- The number that `renumber` gives to an id. -/
def newId (events : List (Event V)) (i : Int) : Nat :=
  (Renumbering.number (events.foldl Renumbering.add {}).m i).toNat

section Converted

variable {events : List (Event V)}

/-- The entry of an event, under its new number. -/
theorem getElem?_convertEntries (events : List (Event V)) (p : Nat) :
    (convertEntries (renumber events))[p]? = events[p]?.map fun v ↦
      { kind := if v.kind = .returnEvent then .returnEntry else .callEntry
        value := v.value, id := newId events v.id, time := p, clientId := v.clientId } := by
  rw [renumber, (Renumbering.seen_foldl events).renamed, convertEntries]
  simp only [List.getElem?_map, List.getElem?_zipIdx, Option.map_map, Nat.zero_add]
  rfl

theorem mark_converted (events : List (Event V)) (v : Event V) (p : Nat) :
    ({ kind := if v.kind = .returnEvent then .returnEntry else .callEntry
       value := v.value, id := newId events v.id, time := p, clientId := v.clientId } :
      Entry V).mark = v.mark.map (newId events) := by
  cases hkind : v.kind <;> simp [Entry.mark, Event.mark, Mark.map, hkind]

theorem mem_convertEntries {e : Entry V} (he : e ∈ convertEntries (renumber events)) :
    ∃ v ∈ events, e.value = v.value ∧ e.mark = v.mark.map (newId events) := by
  obtain ⟨p, hp⟩ := List.mem_iff_getElem?.mp he
  rw [getElem?_convertEntries, Option.map_eq_some_iff] at hp
  obtain ⟨v, hv, rfl⟩ := hp
  exact ⟨v, List.mem_of_getElem? hv, rfl, mark_converted events v p⟩

theorem exists_converted {v : Event V} (hv : v ∈ events) :
    ∃ e ∈ convertEntries (renumber events), e.value = v.value ∧
      e.mark = v.mark.map (newId events) := by
  obtain ⟨p, hp⟩ := List.mem_iff_getElem?.mp hv
  refine ⟨_, List.mem_of_getElem? (i := p) ?_, rfl, mark_converted events v p⟩
  rw [getElem?_convertEntries, hp, Option.map_some]

theorem marks_converted (events : List (Event V)) :
    (convertEntries (renumber events)).map Entry.mark =
      (events.map Event.mark).map (Mark.map (newId events)) := by
  apply List.ext_getElem?
  intro p
  simp only [List.getElem?_map, getElem?_convertEntries, Option.map_map]
  congr 1
  funext v
  exact mark_converted events v p

@[simp] theorem Event.id_mark (v : Event V) : v.mark.id = v.id := by
  cases hkind : v.kind <;> simp [Event.mark, hkind]

theorem exists_number {v : Event V} (hv : v ∈ events) :
    ∃ k : Int, 0 ≤ k ∧ k < (events.foldl Renumbering.add {}).id ∧
      (events.foldl Renumbering.add {}).m.lookup v.id = some k ∧ newId events v.id = k.toNat := by
  have hseen := Renumbering.seen_foldl events
  obtain ⟨k, hk⟩ := Finmap.mem_iff.mp ((hseen.known v.id).mpr ⟨v, hv, rfl⟩)
  obtain ⟨hle, hlt⟩ := (hseen.range k).mp ⟨_, hk⟩
  exact ⟨k, hle, hlt, hk, by rw [newId, Renumbering.number, hk, Option.getD_some]⟩

/-- Different ids get different numbers. -/
theorem renames_newId (events : List (Event V)) :
    Lib.Renames (newId events) (events.map Event.mark) := by
  intro x hx y hy heq
  obtain ⟨v, hv, rfl⟩ := List.mem_map.mp hx
  obtain ⟨w, hw, rfl⟩ := List.mem_map.mp hy
  simp only [Event.id_mark] at heq ⊢
  obtain ⟨k, hk, _, hlookup, hnew⟩ := exists_number hv
  obtain ⟨k', hk', _, hlookup', hnew'⟩ := exists_number hw
  have hkk : k = k' := by omega
  rw [← hkk] at hlookup'
  exact (Renumbering.seen_foldl events).injective _ _ _ hlookup hlookup'

/-- The numbers are those below the number of operations. -/
theorem newId_range (hcomplete : Lib.Complete (events.map Event.mark)) (k : Nat) :
    (∃ i, .call i ∈ events.map Event.mark ∧ newId events i = k) ↔
      k < (events.foldl Renumbering.add {}).id.toNat := by
  have hseen := Renumbering.seen_foldl events
  constructor
  · rintro ⟨i, hi, rfl⟩
    obtain ⟨v, hv, hmark⟩ := List.mem_map.mp hi
    have hid : v.id = i := by rw [← v.id_mark, hmark, Lib.Mark.id_call]
    obtain ⟨k, hle, hlt, _, hnew⟩ := exists_number hv
    rw [hid] at hnew
    omega
  · intro hlt
    obtain ⟨i, hi⟩ := (hseen.range k).mpr ⟨Int.natCast_nonneg k, by omega⟩
    obtain ⟨v, hv, rfl⟩ := (hseen.known i).mp (Finmap.mem_iff.mpr ⟨k, hi⟩)
    have hcall := (hcomplete.paired v.mark (List.mem_map_of_mem hv)).subset List.mem_cons_self
    rw [Event.id_mark] at hcall
    refine ⟨v.id, hcall, ?_⟩
    rw [newId, Renumbering.number, hi, Option.getD_some, Int.toNat_natCast]

theorem proper_converted (hcomplete : Lib.Complete (events.map Event.mark)) :
    Proper (convertEntries (renumber events)) (events.foldl Renumbering.add {}).id.toNat := by
  have hmarks := (renames_newId events).complete_map hcomplete
  rw [← marks_converted] at hmarks
  have hids : ∀ k, .call k ∈ (convertEntries (renumber events)).map Entry.mark ↔
      k < (events.foldl Renumbering.add {}).id.toNat := by
    intro k
    rw [marks_converted, Lib.Renames.call_mem_map]
    exact newId_range hcomplete k
  refine ⟨hmarks, ?_, hids⟩
  rw [← hmarks.length_eq hids, List.length_map]

/-- An operation has the same effect under its new number. -/
theorem next_converted (model : FullModel V S) (hcomplete : Lib.Complete (events.map Event.mark))
    (s : S) {i : Int} (hi : .call i ∈ events.map Event.mark) :
    next model (convertEntries (renumber events)) s (newId events i) =
      effectIn model Event.mark Event.value events s i := by
  have hret := (hcomplete.paired _ hi).subset (List.mem_cons_of_mem _ List.mem_cons_self)
  obtain ⟨c, hc, hci⟩ := List.mem_map.mp hi
  obtain ⟨r, hr, hri⟩ := List.mem_map.mp hret
  obtain ⟨ce, hce, hcvalue, hcmark⟩ := exists_converted hc
  obtain ⟨re, hre, hrvalue, hrmark⟩ := exists_converted hr
  rw [hci] at hcmark
  rw [hri] at hrmark
  rw [next, effectIn_eq (proper_converted hcomplete).complete.nodup hce hre hcmark hrmark,
    effectIn_eq hcomplete.nodup hc hr hci hri, hcvalue, hrvalue]

theorem canLinearize_converted (model : FullModel V S)
    (hcomplete : Lib.Complete (events.map Event.mark)) :
    CanLinearize model (convertEntries (renumber events)) ↔ EventsLinearizable model events := by
  rw [CanLinearize, marks_converted]
  exact (renames_newId events).exists_fullLinearization_map hcomplete
    fun s i hi ↦ next_converted model hcomplete s hi

theorem checkable_converted {model : FullModel V S} (hequal : EqualStates model)
    (h : CheckableEvents model events) : Checkable model (convertEntries (renumber events)) where
  proper := ⟨_, proper_converted h.complete⟩
  applies := by
    intro ce hce re hre k hck hrk s
    obtain ⟨c, hc, hcvalue, hcmark⟩ := mem_convertEntries hce
    obtain ⟨r, hr, hrvalue, hrmark⟩ := mem_convertEntries hre
    rw [hcvalue, hrvalue]
    cases hcm : c.mark with
    | ret i =>
        rw [hck, hcm] at hcmark
        cases hcmark
    | call i =>
        cases hrm : r.mark with
        | call j =>
            rw [hrk, hrm] at hrmark
            cases hrmark
        | ret j =>
            -- a call and a return with the same number have the same id
            rw [hck, hcm, Lib.Mark.map, Lib.Mark.call.injEq] at hcmark
            rw [hrk, hrm, Lib.Mark.map, Lib.Mark.ret.injEq] at hrmark
            have hij : i = j := renames_newId events (.call i) (hcm ▸ List.mem_map_of_mem hc)
              (.ret j) (hrm ▸ List.mem_map_of_mem hr) (hcmark.symm.trans hrmark)
            rw [← hij] at hrm
            exact h.applies c hc r hr i hcm hrm s
  equal := hequal.equalSound _

end Converted

/-- A run of `checkEvents`. -/
abbrev EventsCheck [DecidableEq S] (model : Model V S) (history : List (Event V)) (verbose : Bool)
    (timeout : Int) :=
  Check (fillDefault model) (fillDefault model).partitionEvent
    (fun subhistory ↦ convertEntries (renumber subhistory)) history verbose timeout

/-- The check of events decides for each partition whether its events can be explained; that they are
numbered anew, whatever their ids are, makes no difference. -/
theorem checkEvents_decides [DecidableEq S] {model : Model V S} {history : List (Event V)}
    {verbose : Bool} {timeout : Int} (hequal : EqualStates (fillDefault model))
    (check : EventsCheck model history verbose timeout)
    (hsub : ∀ sub ∈ check.partitions, CheckableEvents (fillDefault model) sub) :
    check.Sound (EventsLinearizable (fillDefault model)) := by
  apply Check.sound
  intro sub hmem
  exact ⟨checkable_converted hequal (hsub sub hmem),
    canLinearize_converted _ (hsub sub hmem).complete⟩

/-! ## A register -/

/-- The register of `Decides`, with what may be left out left out. -/
def registerModel : Model Nat Nat where
  partition := none
  partitionEvent := none
  init := register.init
  step := register.step
  equal := none

/-- Seven is written while another client reads seven; the ids are arbitrary. -/
def overlapEvents : List (Event Nat) :=
  [⟨0, .callEvent, 7, 40⟩, ⟨1, .callEvent, 0, -3⟩, ⟨1, .returnEvent, 7, -3⟩,
    ⟨0, .returnEvent, 0, 40⟩]

theorem overlapEvents_checkable : CheckableEvents (fillDefault registerModel) overlapEvents where
  complete := ⟨by decide, by decide⟩
  applies := by
    intro c _ r _ i _ _ s
    show register.step s c.value r.value ≠ none
    dsimp only [register]
    split <;> simp

theorem checkEvents_decides_overlap :
    ∃ check : EventsCheck registerModel overlapEvents true 0,
      check.result = some .ok ∧ EventsLinearizable (fillDefault registerModel) overlapEvents := by
  have hany : (Lib.run (Pool.step (fillDefault registerModel)
      ([overlapEvents].map fun subhistory ↦ convertEntries (renumber subhistory)) true 0
      fun _ ↦ .arbitrary Seq) (Pool.init (fillDefault registerModel)
      ([overlapEvents].map fun subhistory ↦ convertEntries (renumber subhistory)))
      (List.replicate 5 (.work ⟨0, Nat.one_pos⟩) ++ [.receive])).any
      (fun p ↦ p.main.result = some .ok) = true := by
    rfl
  obtain ⟨p, hrun, hp⟩ := Lib.exists_run_of_any hany
  let check : EventsCheck registerModel overlapEvents true 0 :=
    ⟨[overlapEvents], rfl, fun _ ↦ .arbitrary Seq, _, p, hrun⟩
  have hresult : check.result = some .ok := of_decide_eq_true hp
  have hsound := checkEvents_decides (equalStates_of_shallowEqual rfl) check fun sub hsub ↦ by
    rw [List.mem_singleton.mp hsub]
    exact overlapEvents_checkable
  exact ⟨check, hresult, hsound.ok hresult _ (List.mem_singleton.mpr rfl)⟩

end Lab6824.Porcupine

import Lab6824.Lib.Lists
import Mathlib.Data.Finset.Basic
import Mathlib.Data.List.Infix
import Mathlib.Logic.Relation

/-!
# Replication — logs that the leaders of numbered terms replicate

Servers move through terms.  A server that is elected in a term extends its log there, and the others
adopt the logs that it has had in that term.  `Move` lists what may happen, without messages, and
`LogInv` is what makes two logs agree wherever they have an entry of the same term: for every term
there is one longest log `llog` of its leader, and a log that ends in an entry of the term is a
prefix of it.  Quorums are a parameter; `Completeness` adds what they are for.
-/

namespace Lab6824.Lib

/-- Log entries carry the term in which they were made. -/
class Termed (E : Type*) where
  term : E → Int

open Termed

variable {S E : Type*} [Termed E]

/-! ## Logs -/

/-- The term of the last entry, `0` for the empty log. -/
def lastTerm (L : List E) : Int :=
  (L.getLast?.map term).getD 0

/-- Terms do not decrease along the log. -/
def Ordered (L : List E) : Prop :=
  L.Pairwise fun a b ↦ term a ≤ term b

@[simp] theorem lastTerm_nil : lastTerm ([] : List E) = 0 := rfl

@[simp] theorem lastTerm_concat (L : List E) (e : E) : lastTerm (L ++ [e]) = term e := by
  simp [lastTerm]

theorem exists_last {L : List E} (h : L ≠ []) : ∃ K e, L = K ++ [e] ∧ lastTerm L = term e := by
  refine ⟨L.dropLast, L.getLast h, (List.dropLast_append_getLast h).symm, ?_⟩
  rw [lastTerm, List.getLast?_eq_some_getLast h]
  rfl

theorem Ordered.of_isPrefix {L P : List E} (h : Ordered L) (hP : P <+: L) : Ordered P :=
  h.sublist hP.sublist

theorem Ordered.lastTerm_mono {L P : List E} (h : Ordered L) (hP : P <+: L) (hne : P ≠ []) :
    lastTerm P ≤ lastTerm L := by
  obtain ⟨R, rfl⟩ := hP
  by_cases hR : R = []
  · rw [hR, List.append_nil]
  · obtain ⟨K, e, rfl, hlast⟩ := exists_last hne
    obtain ⟨K', e', rfl, -⟩ := exists_last hR
    rw [hlast, ← List.append_assoc, lastTerm_concat]
    exact (List.pairwise_append.mp h).2.2 e (by simp) e' (by simp)

theorem Ordered.concat {L : List E} {e : E} (h : Ordered L) (he : ∀ a ∈ L, term a ≤ term e) :
    Ordered (L ++ [e]) := by
  refine List.pairwise_append.mpr ⟨h, List.pairwise_singleton _ _, fun a ha b hb ↦ ?_⟩
  rw [List.mem_singleton.mp hb]
  exact he a ha

/-- The log `L` is at least as recent as `Z`: what a voter asks of a candidate. -/
def UpToDate (L Z : List E) : Prop :=
  lastTerm Z < lastTerm L ∨ lastTerm Z = lastTerm L ∧ Z.length ≤ L.length

/-! ## The system -/

/-- `elog T` is the log with which the leader of `T` was elected and `llog T` the longest it has had
in that term.  `acked s T P`: server `s` has had all of `P`, a log of the leader of `T`, in that
term.  `voted z T c Z`: server `z` voted for `c` in `T` while its log was `Z`. -/
structure Replica (S E : Type*) where
  term : S → Int
  log : S → List E
  elog : Int → Option (List E)
  llog : Int → List E
  acked : S → Int → List E → Prop
  voted : S → Int → S → List E → Prop

/-- Nothing has happened. -/
def Replica.start (S E : Type*) : Replica S E where
  term := fun _ ↦ 0
  log := fun _ ↦ []
  elog := fun _ ↦ none
  llog := fun _ ↦ []
  acked := fun _ _ _ ↦ False
  voted := fun _ _ _ _ ↦ False

/-- Every log that ends in term `T` is a prefix of the longest log of the leader of `T`. -/
def Matches (g : Replica S E) (L : List E) : Prop :=
  ∀ P, P <+: L → P ≠ [] → P <+: g.llog (lastTerm P)

structure LogInv (g : Replica S E) : Prop where
  log_matches : ∀ s, Matches g (g.log s)
  llog_matches : ∀ T, Matches g (g.llog T)
  log_ordered : ∀ s, Ordered (g.log s)
  llog_ordered : ∀ T, Ordered (g.llog T)
  log_bound : ∀ s, ∀ e ∈ g.log s, term e ≤ g.term s
  llog_bound : ∀ T, ∀ e ∈ g.llog T, term e ≤ T
  elog_bound : ∀ T X, g.elog T = some X → ∀ e ∈ X, term e < T
  elog_isPrefix : ∀ T X, g.elog T = some X → X <+: g.llog T
  elog_pos : ∀ T X, g.elog T = some X → 0 < T
  unelected : ∀ T, g.elog T = none → g.llog T = []
  acked_isPrefix : ∀ s T P, g.acked s T P → P <+: g.llog T ∧ T ≤ g.term s ∧ ∃ X, g.elog T = some X

theorem Matches.of_isPrefix {g : Replica S E} {L K : List E} (h : Matches g L) (hK : K <+: L) :
    Matches g K :=
  fun P hP hne ↦ h P (hP.trans hK) hne

/-- Longest logs only grow, and a term that has no leader has no entries. -/
theorem Matches.mono {g g' : Replica S E} {L : List E} (h : Matches g L)
    (hgrow : ∀ T, g.llog T <+: g'.llog T) : Matches g' L :=
  fun P hP hne ↦ (h P hP hne).trans (hgrow _)

/-- Two logs that have an entry of one term at the same place agree up to it. -/
theorem Matches.agree {g : Replica S E} {L K P R : List E} (hL : Matches g L) (hK : Matches g K)
    (hP : P <+: L) (hR : R <+: K) (hne : P ≠ []) (hlen : P.length = R.length)
    (hterm : lastTerm P = lastTerm R) : P = R := by
  have hR' : R ≠ [] := by
    rintro rfl
    exact hne (List.length_eq_zero_iff.mp hlen)
  have hPl := hL P hP hne
  have hRl := hK R hR hR'
  rw [← hterm] at hRl
  exact (List.prefix_of_prefix_length_le hPl hRl hlen.le).eq_of_length hlen

theorem lastTerm_take_of_getElem? {L : List E} {k : Nat} {e : E} (h : L[k]? = some e) :
    lastTerm (L.take (k + 1)) = term e := by
  obtain ⟨hlt, hget⟩ := List.getElem?_eq_some_iff.mp h
  rw [List.take_succ_eq_append_getElem hlt, hget, lastTerm_concat]

/-- `Matches.agree` in terms of the entries at one index. -/
theorem Matches.take_eq {g : Replica S E} {L K : List E} (hL : Matches g L) (hK : Matches g K)
    {k : Nat} {e e' : E} (he : L[k]? = some e) (he' : K[k]? = some e') (hterm : term e = term e') :
    L.take (k + 1) = K.take (k + 1) := by
  have hlen := (List.getElem?_eq_some_iff.mp he).1
  have hlen' := (List.getElem?_eq_some_iff.mp he').1
  have htake : (L.take (k + 1)).length = k + 1 := List.length_take_of_le hlen
  refine hL.agree hK (List.take_prefix _ _) (List.take_prefix _ _) ?_ ?_ ?_
  · intro hnil
    rw [hnil, List.length_nil] at htake
    omega
  · rw [htake, List.length_take_of_le hlen']
  · rw [lastTerm_take_of_getElem? he, lastTerm_take_of_getElem? he', hterm]

/-- A term without a leader has no entries. -/
theorem LogInv.no_entry {g : Replica S E} (h : LogInv g) {L : List E} (hL : Matches g L) {T : Int}
    (hopen : g.elog T = none) : ∀ e ∈ L, term e ≠ T := by
  intro e he heT
  obtain ⟨K, R, rfl⟩ := List.append_of_mem he
  have hpre := hL (K ++ [e]) ⟨R, by simp⟩ (by simp)
  rw [lastTerm_concat, heT, h.unelected T hopen] at hpre
  exact absurd (List.prefix_nil.mp hpre) (by simp)

/-! ## Moves -/

variable [DecidableEq S]

/-- One change of the system. -/
inductive Move (quorum : Finset S → Prop) (g : Replica S E) : Replica S E → Prop where
  | raise (s : S) (T : Int) (hle : g.term s ≤ T) :
      Move quorum g { g with term := Function.update g.term s T }
  /-- Votes matter until the term has a leader. -/
  | vote (z c : S) (hopen : g.elog (g.term z) = none) :
      Move quorum g
        { g with voted := fun z' T c' Z ↦
            g.voted z' T c' Z ∨ z' = z ∧ T = g.term z ∧ c' = c ∧ Z = g.log z }
  | elect (s : S) (Q : Finset S) (hpos : 0 < g.term s) (hopen : g.elog (g.term s) = none)
      (hQ : quorum Q)
      (hbacked : ∀ z ∈ Q, ∃ Z, g.voted z (g.term s) s Z ∧ UpToDate (g.log s) Z) :
      Move quorum g
        { g with
          elog := Function.update g.elog (g.term s) (some (g.log s))
          llog := Function.update g.llog (g.term s) (g.log s)
          acked := fun z T P ↦ g.acked z T P ∨ z = s ∧ T = g.term s ∧ P = g.log s }
  | append (s : S) (X : List E) (e : E) (hX : g.elog (g.term s) = some X)
      (hlead : g.log s = g.llog (g.term s)) (he : Termed.term e = g.term s) :
      Move quorum g
        { g with
          log := Function.update g.log s (g.log s ++ [e])
          llog := Function.update g.llog (g.term s) (g.log s ++ [e])
          acked := fun z T P ↦ g.acked z T P ∨ z = s ∧ T = g.term s ∧ P = g.log s ++ [e] }
  /-- A log that already extends the leader's is kept, any other is replaced. -/
  | accept (s : S) (X L M : List E) (hX : g.elog (g.term s) = some X) (hXL : X <+: L)
      (hL : L <+: g.llog (g.term s))
      (hM : L <+: g.log s ∧ M = g.log s ∨ ¬ L <+: g.log s ∧ M = L) :
      Move quorum g
        { g with
          log := Function.update g.log s M
          acked := fun z T P ↦ g.acked z T P ∨ z = s ∧ T = g.term s ∧ P = L }

/-- What never gets lost. -/
structure Grows (g g' : Replica S E) : Prop where
  term : ∀ s, g.term s ≤ g'.term s
  elog : ∀ T X, g.elog T = some X → g'.elog T = some X
  llog : ∀ T, g.llog T <+: g'.llog T
  acked : ∀ s T P, g.acked s T P → g'.acked s T P
  voted : ∀ z T c Z, g.voted z T c Z → g'.voted z T c Z

omit [Termed E] [DecidableEq S] in
theorem Grows.refl (g : Replica S E) : Grows g g :=
  ⟨fun _ ↦ le_refl _, fun _ _ ↦ id, fun _ ↦ List.prefix_refl _, fun _ _ _ ↦ id,
    fun _ _ _ _ ↦ id⟩

omit [Termed E] [DecidableEq S] in
theorem Grows.trans {g g₁ g₂ : Replica S E} (h₁ : Grows g g₁) (h₂ : Grows g₁ g₂) : Grows g g₂ where
  term := fun s ↦ (h₁.term s).trans (h₂.term s)
  elog := fun T X hX ↦ h₂.elog T X (h₁.elog T X hX)
  llog := fun T ↦ (h₁.llog T).trans (h₂.llog T)
  acked := fun s T P hP ↦ h₂.acked s T P (h₁.acked s T P hP)
  voted := fun z T c Z hZ ↦ h₂.voted z T c Z (h₁.voted z T c Z hZ)

omit [Termed E] in
theorem Grows.raise {g : Replica S E} {s : S} {T : Int} (hle : g.term s ≤ T) :
    Grows g { g with term := Function.update g.term s T } := by
  refine { Grows.refl g with term := ?_ }
  exact (Function.forall_update_iff g.term fun z U ↦ g.term z ≤ U).mpr ⟨hle, fun z _ ↦ le_refl _⟩

/-! ## Every move keeps the logs consistent -/

namespace LogInv

variable {quorum : Finset S → Prop} {g : Replica S E}

omit [DecidableEq S] in
theorem start : LogInv (Replica.start S E) where
  log_matches := fun _ P hP hne ↦ absurd (List.prefix_nil.mp hP) hne
  llog_matches := fun _ P hP hne ↦ absurd (List.prefix_nil.mp hP) hne
  log_ordered := fun _ ↦ List.Pairwise.nil
  llog_ordered := fun _ ↦ List.Pairwise.nil
  log_bound := fun _ e he ↦ absurd he List.not_mem_nil
  llog_bound := fun _ e he ↦ absurd he List.not_mem_nil
  elog_bound := fun _ _ hX ↦ absurd hX (by simp [Replica.start])
  elog_isPrefix := fun _ _ hX ↦ absurd hX (by simp [Replica.start])
  elog_pos := fun _ _ hX ↦ absurd hX (by simp [Replica.start])
  unelected := fun _ _ ↦ rfl
  acked_isPrefix := fun _ _ _ hP ↦ hP.elim

theorem raise (h : LogInv g) {s : S} {T : Int} (hle : g.term s ≤ T) :
    LogInv { g with term := Function.update g.term s T } := by
  have hterm := (Grows.raise hle).term
  refine { h with log_bound := fun z e he ↦ ?_, acked_isPrefix := fun z T' P hP ↦ ?_ }
  · exact (h.log_bound z e he).trans (hterm z)
  · obtain ⟨hpre, hT, hX⟩ := h.acked_isPrefix z T' P hP
    exact ⟨hpre, hT.trans (hterm z), hX⟩

omit [DecidableEq S] in
theorem elect (h : LogInv g) {s : S} (hpos : 0 < g.term s) (hopen : g.elog (g.term s) = none) :
    LogInv
      { g with
        elog := Function.update g.elog (g.term s) (some (g.log s))
        llog := Function.update g.llog (g.term s) (g.log s)
        acked := fun z T P ↦ g.acked z T P ∨ z = s ∧ T = g.term s ∧ P = g.log s } := by
  -- the longest log of the new term was empty
  have hgrow : ∀ T, g.llog T <+: Function.update g.llog (g.term s) (g.log s) T := by
    intro T
    by_cases hT : T = g.term s
    · rw [hT, h.unelected _ hopen]
      exact List.nil_prefix
    · rw [Function.update_of_ne hT]
  have hold : ∀ T X, g.elog T = some X → T ≠ g.term s := by
    rintro T X hX rfl
    rw [hopen] at hX
    cases hX
  refine ⟨fun z ↦ (h.log_matches z).mono hgrow, ?_, h.log_ordered, ?_, h.log_bound, ?_,
    fun T X hX ↦ ?_, fun T X hX ↦ ?_, fun T X hX ↦ ?_, fun T hT ↦ ?_, fun z T P hP ↦ ?_⟩
  · exact (Function.forall_update_iff _ fun _ L ↦ Matches _ L).mpr
      ⟨(h.log_matches s).mono hgrow, fun T _ ↦ (h.llog_matches T).mono hgrow⟩
  · exact (Function.forall_update_iff _ fun _ L ↦ Ordered L).mpr
      ⟨h.log_ordered s, fun T _ ↦ h.llog_ordered T⟩
  · exact (Function.forall_update_iff _ fun T L ↦ ∀ e ∈ L, term e ≤ T).mpr
      ⟨h.log_bound s, fun T _ ↦ h.llog_bound T⟩
  · intro e he
    rcases update_eq_some hX with ⟨rfl, rfl⟩ | ⟨_, hX⟩
    · have hle := h.log_bound s e he
      have hne := h.no_entry (h.log_matches s) hopen e he
      omega
    · exact h.elog_bound T X hX e he
  · rcases update_eq_some hX with ⟨rfl, rfl⟩ | ⟨hT, hX⟩
    · show g.log s <+: Function.update g.llog (g.term s) (g.log s) (g.term s)
      rw [Function.update_self]
    · exact (h.elog_isPrefix T X hX).trans (hgrow T)
  · rcases update_eq_some hX with ⟨rfl, rfl⟩ | ⟨_, hX⟩
    · exact hpos
    · exact h.elog_pos T X hX
  · have hne : T ≠ g.term s := by
      rintro rfl
      change Function.update g.elog (g.term s) (some (g.log s)) (g.term s) = none at hT
      rw [Function.update_self] at hT
      cases hT
    show Function.update g.llog (g.term s) (g.log s) T = []
    rw [Function.update_of_ne hne]
    change Function.update g.elog (g.term s) (some (g.log s)) T = none at hT
    rw [Function.update_of_ne hne] at hT
    exact h.unelected T hT
  · rcases hP with hP | ⟨rfl, rfl, rfl⟩
    · obtain ⟨hpre, hle, X, hX⟩ := h.acked_isPrefix z T P hP
      refine ⟨hpre.trans (hgrow T), hle, X, ?_⟩
      show Function.update g.elog (g.term s) (some (g.log s)) T = some X
      rw [Function.update_of_ne (hold T X hX)]
      exact hX
    · refine ⟨?_, le_refl _, g.log z, Function.update_self _ _ _⟩
      show g.log z <+: Function.update g.llog (g.term z) (g.log z) (g.term z)
      rw [Function.update_self]

theorem append (h : LogInv g) {s : S} {X : List E} {e : E} (hX : g.elog (g.term s) = some X)
    (hlead : g.log s = g.llog (g.term s)) (he : Termed.term e = g.term s) :
    LogInv
      { g with
        log := Function.update g.log s (g.log s ++ [e])
        llog := Function.update g.llog (g.term s) (g.log s ++ [e])
        acked := fun z T P ↦ g.acked z T P ∨ z = s ∧ T = g.term s ∧ P = g.log s ++ [e] } := by
  have hgrow : ∀ T, g.llog T <+: Function.update g.llog (g.term s) (g.log s ++ [e]) T := by
    intro T
    by_cases hT : T = g.term s
    · rw [hT, Function.update_self, hlead]
      exact List.prefix_append _ _
    · rw [Function.update_of_ne hT]
  -- the new log of the leader, at both places where it stands
  have hbound : ∀ a ∈ g.log s ++ [e], term a ≤ g.term s := by
    intro a ha
    rcases List.mem_append.mp ha with ha | ha
    · exact h.log_bound s a ha
    · rw [List.mem_singleton.mp ha, he]
  have hordered : Ordered (g.log s ++ [e]) := by
    refine (h.log_ordered s).concat fun a ha ↦ ?_
    rw [he]
    exact h.log_bound s a ha
  have hmatches : ∀ P, P <+: g.log s ++ [e] → P ≠ [] →
      P <+: Function.update g.llog (g.term s) (g.log s ++ [e]) (lastTerm P) := by
    intro P hP hne
    rcases List.prefix_concat_iff.mp hP with rfl | hP
    · rw [lastTerm_concat, he, Function.update_self]
    · exact (h.log_matches s P hP hne).trans (hgrow _)
  refine ⟨?_, ?_, ?_, ?_, ?_, ?_, h.elog_bound,
    fun T Y hY ↦ (h.elog_isPrefix T Y hY).trans (hgrow T), h.elog_pos, fun T hT ↦ ?_,
    fun z T P hP ↦ ?_⟩
  · exact (Function.forall_update_iff _ fun _ L ↦ Matches _ L).mpr
      ⟨hmatches, fun z _ ↦ (h.log_matches z).mono hgrow⟩
  · exact (Function.forall_update_iff _ fun _ L ↦ Matches _ L).mpr
      ⟨hmatches, fun T _ ↦ (h.llog_matches T).mono hgrow⟩
  · exact (Function.forall_update_iff _ fun _ L ↦ Ordered L).mpr
      ⟨hordered, fun z _ ↦ h.log_ordered z⟩
  · exact (Function.forall_update_iff _ fun _ L ↦ Ordered L).mpr
      ⟨hordered, fun T _ ↦ h.llog_ordered T⟩
  · exact (Function.forall_update_iff _ fun z L ↦ ∀ e ∈ L, term e ≤ g.term z).mpr
      ⟨hbound, fun z _ ↦ h.log_bound z⟩
  · exact (Function.forall_update_iff _ fun T L ↦ ∀ e ∈ L, term e ≤ T).mpr
      ⟨hbound, fun T _ ↦ h.llog_bound T⟩
  · have hne : T ≠ g.term s := by
      rintro rfl
      rw [hX] at hT
      cases hT
    show Function.update g.llog (g.term s) (g.log s ++ [e]) T = []
    rw [Function.update_of_ne hne]
    exact h.unelected T hT
  · rcases hP with hP | ⟨rfl, rfl, rfl⟩
    · obtain ⟨hpre, hle, Y, hY⟩ := h.acked_isPrefix z T P hP
      exact ⟨hpre.trans (hgrow T), hle, Y, hY⟩
    · refine ⟨?_, le_refl _, X, hX⟩
      show g.log z ++ [e] <+: Function.update g.llog (g.term z) (g.log z ++ [e]) (g.term z)
      rw [Function.update_self]

theorem accept (h : LogInv g) {s : S} {X L M : List E} (hX : g.elog (g.term s) = some X)
    (hL : L <+: g.llog (g.term s))
    (hM : L <+: g.log s ∧ M = g.log s ∨ ¬ L <+: g.log s ∧ M = L) :
    LogInv
      { g with
        log := Function.update g.log s M
        acked := fun z T P ↦ g.acked z T P ∨ z = s ∧ T = g.term s ∧ P = L } := by
  have hnew : Matches g M ∧ Ordered M ∧ ∀ e ∈ M, term e ≤ g.term s := by
    rcases hM with ⟨_, rfl⟩ | ⟨_, rfl⟩
    · exact ⟨h.log_matches s, h.log_ordered s, h.log_bound s⟩
    · exact ⟨(h.llog_matches _).of_isPrefix hL, (h.llog_ordered _).of_isPrefix hL,
        fun e he ↦ h.llog_bound _ e (hL.subset he)⟩
  refine ⟨?_, h.llog_matches, ?_, h.llog_ordered, ?_, h.llog_bound, h.elog_bound,
    h.elog_isPrefix, h.elog_pos, h.unelected, fun z T P hP ↦ ?_⟩
  · exact (Function.forall_update_iff _ fun _ K ↦ Matches _ K).mpr
      ⟨hnew.1, fun z _ ↦ h.log_matches z⟩
  · exact (Function.forall_update_iff _ fun _ K ↦ Ordered K).mpr
      ⟨hnew.2.1, fun z _ ↦ h.log_ordered z⟩
  · exact (Function.forall_update_iff _ fun z K ↦ ∀ e ∈ K, term e ≤ g.term z).mpr
      ⟨hnew.2.2, fun z _ ↦ h.log_bound z⟩
  · rcases hP with hP | ⟨rfl, rfl, rfl⟩
    · exact h.acked_isPrefix z T P hP
    · exact ⟨hL, le_refl _, X, hX⟩

theorem move {g' : Replica S E} (h : LogInv g) (hm : Move quorum g g') : LogInv g' := by
  cases hm with
  | raise s T hle => exact h.raise hle
  | vote z c hopen => exact { h with }
  | elect s Q hpos hopen hQ hbacked => exact h.elect hpos hopen
  | append s X e hX hlead he => exact h.append hX hlead he
  | accept s X L M hX hXL hL hM => exact h.accept hX hL hM

theorem moves {g' : Replica S E} (h : LogInv g)
    (hm : Relation.ReflTransGen (Move quorum) g g') : LogInv g' := by
  induction hm with
  | refl => exact h
  | tail _ hm ih => exact ih.move hm

theorem grows {g' : Replica S E} (h : LogInv g) (hm : Move quorum g g') : Grows g g' := by
  cases hm with
  | raise s T hle => exact Grows.raise hle
  | vote z c hopen => exact { Grows.refl g with voted := fun _ _ _ _ ↦ Or.inl }
  | elect s Q hpos hopen hQ hbacked =>
      refine { Grows.refl g with elog := fun T X hX ↦ ?_, llog := ?_, acked := fun _ _ _ ↦ Or.inl }
      · show Function.update g.elog (g.term s) (some (g.log s)) T = some X
        rw [Function.update_of_ne]
        · exact hX
        · rintro rfl
          rw [hopen] at hX
          cases hX
      · refine (Function.forall_update_iff g.llog fun T L ↦ g.llog T <+: L).mpr
          ⟨?_, fun T _ ↦ List.prefix_refl _⟩
        rw [h.unelected _ hopen]
        exact List.nil_prefix
  | append s X e hX hlead he =>
      refine { Grows.refl g with llog := ?_, acked := fun _ _ _ ↦ Or.inl }
      refine (Function.forall_update_iff g.llog fun T L ↦ g.llog T <+: L).mpr
        ⟨?_, fun T _ ↦ List.prefix_refl _⟩
      rw [hlead]
      exact List.prefix_append _ _
  | accept s X L M hX hXL hL hM => exact { Grows.refl g with acked := fun _ _ _ ↦ Or.inl }

theorem moves_grows {g' : Replica S E} (h : LogInv g)
    (hm : Relation.ReflTransGen (Move quorum) g g') : Grows g g' := by
  induction hm with
  | refl => exact Grows.refl g
  | tail hms hm ih => exact ih.trans ((h.moves hms).grows hm)

end LogInv

end Lab6824.Lib

import Lab6824.Lib.Replication

/-!
# Completeness — what a quorum has stored is in the log of every later leader

`Stored g z T P`: server `z` has acknowledged, in term `T`, a log that begins with `P`, and `P` ends in
an entry of that term.  Such a `P` stays in the log of `z` as long as every leader between has it; a
candidate that `z` votes for has it too, if its log is up to date; and so, quorum by quorum, does
every later leader.
-/

namespace Lab6824.Lib

open Termed

variable {S E : Type*} [Termed E]

/-- Every leader of a term after `T` and before `b` was elected with a log that begins with `P`. -/
def Kept (g : Replica S E) (T b : Int) (P : List E) : Prop :=
  ∀ U Y, T < U → U < b → g.elog U = some Y → P <+: Y

structure Stored (g : Replica S E) (z : S) (T : Int) (P : List E) : Prop where
  ne_nil : P ≠ []
  lastTerm_eq : lastTerm P = T
  acked : ∃ L, g.acked z T L ∧ P <+: L

structure KeepInv (quorum : Finset S → Prop) (g : Replica S E) : Prop extends LogInv g where
  stored_log : ∀ z T P, Stored g z T P → Kept g T (g.term z + 1) P → P <+: g.log z
  voted_term : ∀ z T c Z, g.voted z T c Z → T ≤ g.term z
  voted_matches : ∀ z T c Z, g.voted z T c Z → Matches g Z
  voted_ordered : ∀ z T c Z, g.voted z T c Z → Ordered Z
  stored_voted : ∀ z T' c Z, g.voted z T' c Z → ∀ T P, Stored g z T P → T < T' →
    Kept g T T' P → P <+: Z
  stored_elog : ∀ T' X, g.elog T' = some X → ∃ Q, quorum Q ∧ ∀ z ∈ Q, T' ≤ g.term z ∧
    ∀ T P, Stored g z T P → T < T' → Kept g T T' P → P <+: X

omit [Termed E] in
theorem Kept.anti {g : Replica S E} {T b b' : Int} {P : List E} (h : Kept g T b' P)
    (hle : b ≤ b') : Kept g T b P :=
  fun U Y hTU hUb hY ↦ h U Y hTU (hUb.trans_le hle) hY

omit [Termed E] in
/-- The terms with a leader only become more. -/
theorem Kept.of_elog {g g' : Replica S E} {T b : Int} {P : List E} (h : Kept g' T b P)
    (helog : ∀ U Y, g.elog U = some Y → g'.elog U = some Y) : Kept g T b P :=
  fun U Y hTU hUb hY ↦ h U Y hTU hUb (helog U Y hY)

theorem Stored.term_le {g : Replica S E} (hg : LogInv g) {z : S} {T : Int} {P : List E}
    (h : Stored g z T P) : T ≤ g.term z := by
  obtain ⟨L, hL, _⟩ := h.acked
  exact (hg.acked_isPrefix z T L hL).2.1

theorem Stored.llog {g : Replica S E} (hg : LogInv g) {z : S} {T : Int} {P : List E}
    (h : Stored g z T P) : P <+: g.llog T := by
  obtain ⟨L, hL, hP⟩ := h.acked
  exact hP.trans (hg.acked_isPrefix z T L hL).1

/-- A new acknowledgement is the only thing that can make something stored. -/
theorem Stored.of_acked {g g' : Replica S E} {s z : S} {T₀ T : Int} {L P : List E}
    (hacked : ∀ z T K, g'.acked z T K ↔ g.acked z T K ∨ z = s ∧ T = T₀ ∧ K = L)
    (h : Stored g' z T P) :
    Stored g z T P ∨ z = s ∧ T = T₀ ∧ P <+: L := by
  obtain ⟨K, hK, hP⟩ := h.acked
  rcases (hacked z T K).mp hK with hK | ⟨hz, hT, rfl⟩
  · exact Or.inl ⟨h.ne_nil, h.lastTerm_eq, K, hK, hP⟩
  · exact Or.inr ⟨hz, hT, hP⟩

/-- Nothing new is stored for a term that the server has left. -/
theorem Stored.of_acked_of_lt {g g' : Replica S E} {s z : S} {T T' : Int} {L P : List E}
    (hacked : ∀ z T K, g'.acked z T K ↔ g.acked z T K ∨ z = s ∧ T = g.term s ∧ K = L)
    (h : Stored g' z T P) (hT' : T' ≤ g.term z) (hlt : T < T') : Stored g z T P := by
  rcases h.of_acked hacked with h | ⟨rfl, rfl, _⟩
  · exact h
  · omega

theorem Stored.congr {g g' : Replica S E} {z : S} {T : Int} {P : List E} (h : Stored g' z T P)
    (hacked : g'.acked = g.acked) : Stored g z T P :=
  ⟨h.ne_nil, h.lastTerm_eq, hacked ▸ h.acked⟩

/-- The argument at an election: what the voter has stored is in every log that is up to date with
the voter's. -/
theorem UpToDate.isPrefix_of_kept {g : Replica S E} (hg : LogInv g) {X Z P : List E} {T T' : Int}
    (hup : UpToDate X Z) (hX : Matches g X) (hXlt : ∀ e ∈ X, term e < T') (hZ : Matches g Z)
    (hZo : Ordered Z) (hPZ : P <+: Z) (hne : P ≠ []) (hT : lastTerm P = T)
    (hpos : 0 < T) (hkept : Kept g T T' P) : P <+: X := by
  have hZne : Z ≠ [] := by
    rintro rfl
    exact hne (List.prefix_nil.mp hPZ)
  have hTZ : T ≤ lastTerm Z := hT ▸ hZo.lastTerm_mono hPZ hne
  have hXne : X ≠ [] := by
    rintro rfl
    rw [UpToDate, lastTerm_nil] at hup
    omega
  have hXl := hX X (List.prefix_refl X) hXne
  rcases hup with hlt | ⟨heq, hlen⟩
  · -- the candidate's last entry is of a later term, whose leader had `P` from the start
    obtain ⟨K, e, hKe, hlast⟩ := exists_last hXne
    have hU : lastTerm X < T' := by
      rw [hlast]
      exact hXlt e (by rw [hKe]; simp)
    cases helog : g.elog (lastTerm X) with
    | none =>
        rw [hg.unelected _ helog] at hXl
        exact absurd (List.prefix_nil.mp hXl) hXne
    | some Y =>
        have hPY := hkept (lastTerm X) Y (by omega) hU helog
        rcases List.prefix_or_prefix_of_prefix hXl (hg.elog_isPrefix _ Y helog) with hXY | hYX
        · -- `Y` has no entries of its own term
          have hmem : e ∈ Y := hXY.subset (by rw [hKe]; simp)
          have hbound := hg.elog_bound _ Y helog e hmem
          omega
        · exact hPY.trans hYX
  · -- both logs end in the same term, so the shorter one is a prefix
    have hZl := hZ Z (List.prefix_refl Z) hZne
    rw [heq] at hZl
    exact hPZ.trans (List.prefix_of_prefix_length_le hZl hXl hlen)

/-! ## Every move keeps what is stored -/

namespace KeepInv

variable {quorum : Finset S → Prop} {g : Replica S E}

theorem vote (h : KeepInv quorum g) {z c : S} (hopen : g.elog (g.term z) = none) :
    KeepInv quorum
      { g with voted := fun z' T c' Z ↦
          g.voted z' T c' Z ∨ z' = z ∧ T = g.term z ∧ c' = c ∧ Z = g.log z } := by
  refine ⟨{ h.toLogInv with }, fun z' T P hst ↦ h.stored_log z' T P (hst.congr rfl), ?_, ?_, ?_, ?_,
    fun T' X hX ↦ ?_⟩
  · rintro z' T c' Z (hv | ⟨rfl, rfl, -, -⟩)
    · exact h.voted_term z' T c' Z hv
    · exact le_refl _
  · rintro z' T c' Z (hv | ⟨rfl, rfl, -, rfl⟩)
    · exact h.voted_matches z' T c' Z hv
    · exact h.log_matches z'
  · rintro z' T c' Z (hv | ⟨rfl, rfl, -, rfl⟩)
    · exact h.voted_ordered z' T c' Z hv
    · exact h.log_ordered z'
  · rintro z' T' c' Z (hv | ⟨rfl, rfl, -, rfl⟩) T P hst hlt hkept
    · exact h.stored_voted z' T' c' Z hv T P (hst.congr rfl) hlt hkept
    · -- the voter itself still has what it has stored, since its own term has no leader yet
      refine h.stored_log z' T P (hst.congr rfl) fun U Y hTU hU hY ↦ ?_
      have hne : U ≠ g.term z' := by
        rintro rfl
        rw [hopen] at hY
        cases hY
      exact hkept U Y hTU (by omega) hY
  · obtain ⟨Q, hQ, hall⟩ := h.stored_elog T' X hX
    exact ⟨Q, hQ, fun z' hz' ↦ ⟨(hall z' hz').1, fun T P hst ↦ (hall z' hz').2 T P (hst.congr rfl)⟩⟩

theorem elect (h : KeepInv quorum g) {s : S} {Q : Finset S} (hpos : 0 < g.term s)
    (hopen : g.elog (g.term s) = none) (hQ : quorum Q)
    (hbacked : ∀ z ∈ Q, ∃ Z, g.voted z (g.term s) s Z ∧ UpToDate (g.log s) Z) :
    KeepInv quorum
      { g with
        elog := Function.update g.elog (g.term s) (some (g.log s))
        llog := Function.update g.llog (g.term s) (g.log s)
        acked := fun z T P ↦ g.acked z T P ∨ z = s ∧ T = g.term s ∧ P = g.log s } := by
  have hinv := h.toLogInv.elect hpos hopen
  have helog : ∀ U Y, g.elog U = some Y →
      Function.update g.elog (g.term s) (some (g.log s)) U = some Y := by
    intro U Y hY
    rw [Function.update_of_ne]
    · exact hY
    · rintro rfl
      rw [hopen] at hY
      cases hY
  have hgrow : ∀ T, g.llog T <+: Function.update g.llog (g.term s) (g.log s) T := by
    intro T
    by_cases hT : T = g.term s
    · rw [hT, h.unelected _ hopen]
      exact List.nil_prefix
    · rw [Function.update_of_ne hT]
  refine ⟨hinv, fun z T P hst hkept ↦ ?_, h.voted_term,
    fun z T c Z hv ↦ (h.voted_matches z T c Z hv).mono hgrow, h.voted_ordered,
    fun z T' c Z hv T P hst hlt hkept ↦ ?_, fun T' X hX ↦ ?_⟩
  · rcases hst.of_acked (fun _ _ _ ↦ Iff.rfl) with hst | ⟨rfl, rfl, hP⟩
    · exact h.stored_log z T P hst (hkept.of_elog helog)
    · exact hP
  · have hst' := hst.of_acked_of_lt (fun _ _ _ ↦ Iff.rfl) (h.voted_term z T' c Z hv) hlt
    exact h.stored_voted z T' c Z hv T P hst' hlt (hkept.of_elog helog)
  · rcases update_eq_some hX with ⟨rfl, rfl⟩ | ⟨_, hX⟩
    · -- the new leader: its voters pass on what they have stored
      refine ⟨Q, hQ, fun z hz ↦ ?_⟩
      obtain ⟨Z, hv, hup⟩ := hbacked z hz
      have hz := h.voted_term z _ s Z hv
      refine ⟨hz, fun T P hst hlt hkept ↦ ?_⟩
      have hst' := hst.of_acked_of_lt (fun _ _ _ ↦ Iff.rfl) hz hlt
      have hkept' := hkept.of_elog helog
      have hPZ := h.stored_voted z _ s Z hv T P hst' hlt hkept'
      have hTpos : 0 < T := by
        obtain ⟨L, hL, _⟩ := hst'.acked
        obtain ⟨_, _, Y, hY⟩ := h.acked_isPrefix z T L hL
        exact h.elog_pos T Y hY
      refine hup.isPrefix_of_kept h.toLogInv (h.log_matches s) (fun e he ↦ ?_)
        (h.voted_matches z _ s Z hv) (h.voted_ordered z _ s Z hv) hPZ hst'.ne_nil
        hst'.lastTerm_eq hTpos hkept'
      have hle := h.log_bound s e he
      have hne := h.no_entry (h.log_matches s) hopen e he
      omega
    · obtain ⟨R, hR, hall⟩ := h.stored_elog T' X hX
      refine ⟨R, hR, fun z hz ↦ ⟨(hall z hz).1, fun T P hst hlt hkept ↦ ?_⟩⟩
      have hst' := hst.of_acked_of_lt (fun _ _ _ ↦ Iff.rfl) (hall z hz).1 hlt
      exact (hall z hz).2 T P hst' hlt (hkept.of_elog helog)

/-- A move that gives `s` a new log and lets it acknowledge `L` in its term. -/
theorem rewrite (h : KeepInv quorum g) {g' : Replica S E} {s : S} {L : List E}
    (hinv : LogInv g') (hterm : g'.term = g.term) (helog : g'.elog = g.elog)
    (hvoted : g'.voted = g.voted) (hgrow : ∀ T, g.llog T <+: g'.llog T)
    (hacked : ∀ z T K, g'.acked z T K ↔ g.acked z T K ∨ z = s ∧ T = g.term s ∧ K = L)
    (hother : ∀ z, z ≠ s → g'.log z = g.log z) (hself : L <+: g'.log s)
    (hkeep : ∀ T P, Stored g s T P → Kept g T (g.term s + 1) P → P <+: g.log s →
      P <+: g'.log s) : KeepInv quorum g' := by
  refine ⟨hinv, fun z T P hst hkept ↦ ?_, fun z T c Z hv ↦ ?_, fun z T c Z hv ↦ ?_,
    fun z T c Z hv ↦ ?_, fun z T' c Z hv T P hst hlt hkept ↦ ?_, fun T' X hX ↦ ?_⟩
  · have hkept' : Kept g T (g.term z + 1) P := by
      rw [hterm] at hkept
      exact hkept.of_elog (by rw [helog]; exact fun _ _ ↦ id)
    rcases hst.of_acked hacked with hst | ⟨rfl, rfl, hP⟩
    · have hold := h.stored_log z T P hst hkept'
      by_cases hz : z = s
      · subst hz
        exact hkeep T P hst hkept' hold
      · rw [hother z hz]
        exact hold
    · exact hP.trans hself
  · rw [hterm]
    exact h.voted_term z T c Z (hvoted ▸ hv)
  · exact (h.voted_matches z T c Z (hvoted ▸ hv)).mono hgrow
  · exact h.voted_ordered z T c Z (hvoted ▸ hv)
  · rw [hvoted] at hv
    have hst' := hst.of_acked_of_lt hacked (h.voted_term z T' c Z hv) hlt
    exact h.stored_voted z T' c Z hv T P hst' hlt
      (hkept.of_elog (by rw [helog]; exact fun _ _ ↦ id))
  · rw [helog] at hX
    obtain ⟨Q, hQ, hall⟩ := h.stored_elog T' X hX
    refine ⟨Q, hQ, fun z hz ↦ ⟨by rw [hterm]; exact (hall z hz).1, fun T P hst hlt hkept ↦ ?_⟩⟩
    have hst' := hst.of_acked_of_lt hacked (hall z hz).1 hlt
    exact (hall z hz).2 T P hst' hlt (hkept.of_elog (by rw [helog]; exact fun _ _ ↦ id))

omit [Termed E] in
/-- A server that adopts a log of the leader of term `b` loses nothing that was stored up to that
term and that every leader since has had. -/
theorem accept_keeps {X L M P log : List E} {T b : Int}
    (hX : g.elog b = some X) (hXL : X <+: L) (hL : L <+: g.llog b)
    (hM : L <+: log ∧ M = log ∨ ¬ L <+: log ∧ M = L)
    (hPl : P <+: g.llog T) (hT : T ≤ b) (hkept : Kept g T (b + 1) P)
    (hP : P <+: log) : P <+: M := by
  rcases hM with ⟨_, rfl⟩ | ⟨hnot, rfl⟩
  · exact hP
  · by_cases heq : T = b
    · rw [heq] at hPl
      rcases List.prefix_or_prefix_of_prefix hPl hL with hPM | hMP
      · exact hPM
      · exact absurd (hMP.trans hP) hnot
    · exact (hkept b X (by omega) (by omega) hX).trans hXL

variable [DecidableEq S]

theorem raise (h : KeepInv quorum g) {s : S} {T : Int} (hle : g.term s ≤ T) :
    KeepInv quorum { g with term := Function.update g.term s T } := by
  have hterm := (Grows.raise hle).term
  refine ⟨h.toLogInv.raise hle, fun z T' P hst hkept ↦ ?_, fun z T' c Z hv ↦ ?_,
    h.voted_matches, h.voted_ordered, fun z T' c Z hv U P hst ↦ ?_, fun T' X hX ↦ ?_⟩
  · refine h.stored_log z T' P (hst.congr rfl) (hkept.anti ?_)
    exact Int.add_le_add_right (hterm z) 1
  · exact (h.voted_term z T' c Z hv).trans (hterm z)
  · exact h.stored_voted z T' c Z hv U P (hst.congr rfl)
  · obtain ⟨Q, hQ, hall⟩ := h.stored_elog T' X hX
    refine ⟨Q, hQ, fun z hz ↦ ⟨(hall z hz).1.trans (hterm z), fun U P hst ↦ ?_⟩⟩
    exact (hall z hz).2 U P (hst.congr rfl)

theorem append (h : KeepInv quorum g) {s : S} {X : List E} {e : E}
    (hX : g.elog (g.term s) = some X) (hlead : g.log s = g.llog (g.term s))
    (he : Termed.term e = g.term s) :
    KeepInv quorum
      { g with
        log := Function.update g.log s (g.log s ++ [e])
        llog := Function.update g.llog (g.term s) (g.log s ++ [e])
        acked := fun z T P ↦ g.acked z T P ∨ z = s ∧ T = g.term s ∧ P = g.log s ++ [e] } := by
  refine h.rewrite (L := g.log s ++ [e]) (s := s) (h.toLogInv.append hX hlead he) rfl rfl rfl
    (fun T ↦ ?_) (fun _ _ _ ↦ Iff.rfl) (fun z hz ↦ Function.update_of_ne hz _ _) ?_
    fun T P _ _ hP ↦ ?_
  · show g.llog T <+: Function.update g.llog (g.term s) (g.log s ++ [e]) T
    by_cases hT : T = g.term s
    · rw [hT, Function.update_self, hlead]
      exact List.prefix_append _ _
    · rw [Function.update_of_ne hT]
  · show g.log s ++ [e] <+: Function.update g.log s (g.log s ++ [e]) s
    rw [Function.update_self]
  · show P <+: Function.update g.log s (g.log s ++ [e]) s
    rw [Function.update_self]
    exact hP.trans (List.prefix_append _ _)

theorem accept (h : KeepInv quorum g) {s : S} {X L M : List E} (hX : g.elog (g.term s) = some X)
    (hXL : X <+: L) (hL : L <+: g.llog (g.term s))
    (hM : L <+: g.log s ∧ M = g.log s ∨ ¬ L <+: g.log s ∧ M = L) :
    KeepInv quorum
      { g with
        log := Function.update g.log s M
        acked := fun z T P ↦ g.acked z T P ∨ z = s ∧ T = g.term s ∧ P = L } := by
  refine h.rewrite (L := L) (s := s) (h.toLogInv.accept hX hL hM) rfl rfl rfl
    (fun T ↦ List.prefix_refl _) (fun _ _ _ ↦ Iff.rfl) (fun z hz ↦ Function.update_of_ne hz _ _)
    ?_ fun T P hst hkept hP ↦ ?_
  · show L <+: Function.update g.log s M s
    rw [Function.update_self]
    rcases hM with ⟨hpre, rfl⟩ | ⟨_, rfl⟩
    · exact hpre
    · exact List.prefix_refl _
  · show P <+: Function.update g.log s M s
    rw [Function.update_self]
    exact accept_keeps hX hXL hL hM (hst.llog h.toLogInv) (hst.term_le h.toLogInv) hkept hP

theorem move {g' : Replica S E} (h : KeepInv quorum g) (hm : Move quorum g g') :
    KeepInv quorum g' := by
  cases hm with
  | raise s T hle => exact h.raise hle
  | vote z c hopen => exact h.vote hopen
  | elect s Q hpos hopen hQ hbacked => exact h.elect hpos hopen hQ hbacked
  | append s X e hX hlead he => exact h.append hX hlead he
  | accept s X L M hX hXL hL hM => exact h.accept hX hXL hL hM

theorem moves {g' : Replica S E} (h : KeepInv quorum g)
    (hm : Relation.ReflTransGen (Move quorum) g g') : KeepInv quorum g' := by
  induction hm with
  | refl => exact h
  | tail _ hm ih => exact ih.move hm

end KeepInv

theorem KeepInv.start (quorum : Finset S → Prop) : KeepInv quorum (Replica.start S E) where
  toLogInv := LogInv.start
  stored_log := by
    rintro z T P ⟨_, _, L, hL, _⟩
    exact hL.elim
  voted_term := fun _ _ _ _ hv ↦ hv.elim
  voted_matches := fun _ _ _ _ hv ↦ hv.elim
  voted_ordered := fun _ _ _ _ hv ↦ hv.elim
  stored_voted := fun _ _ _ _ hv ↦ hv.elim
  stored_elog := fun _ _ hX ↦ absurd hX (by simp [Replica.start])

/-! ## Chosen and committed -/

/-- A quorum has stored `P`, which ends in an entry of term `T`. -/
def Chosen (quorum : Finset S → Prop) (g : Replica S E) (T : Int) (P : List E) : Prop :=
  ∃ Q, quorum Q ∧ ∀ z ∈ Q, Stored g z T P

/-- `K` is part of something that was chosen in a term up to `b`. -/
def Committed (quorum : Finset S → Prop) (g : Replica S E) (b : Int) (K : List E) : Prop :=
  K = [] ∨ ∃ T P, T ≤ b ∧ Chosen quorum g T P ∧ K <+: P

theorem Stored.mono {g g' : Replica S E} (hgrow : Grows g g') {z : S} {T : Int} {P : List E}
    (h : Stored g z T P) : Stored g' z T P := by
  obtain ⟨L, hL, hP⟩ := h.acked
  exact ⟨h.ne_nil, h.lastTerm_eq, L, hgrow.acked z T L hL, hP⟩

theorem Committed.mono {quorum : Finset S → Prop} {g g' : Replica S E} (hgrow : Grows g g')
    {b b' : Int} (hle : b ≤ b') {K : List E} (h : Committed quorum g b K) :
    Committed quorum g' b' K := by
  rcases h with h | ⟨T, P, hT, ⟨Q, hQ, hst⟩, hK⟩
  · exact Or.inl h
  · exact Or.inr ⟨T, P, hT.trans hle, ⟨Q, hQ, fun z hz ↦ (hst z hz).mono hgrow⟩, hK⟩

section Quorums

variable {quorum : Finset S → Prop} {g : Replica S E}
  (hinter : ∀ Q R, quorum Q → quorum R → ∃ z, z ∈ Q ∧ z ∈ R)

include hinter

/-- Leader completeness: every later leader was elected with what had been, or was going to be,
chosen.  The induction is on the term of the later leader. -/
theorem Chosen.isPrefix_elog (hg : KeepInv quorum g) {T : Int} {P : List E}
    (hch : Chosen quorum g T P) {T' : Int} {X : List E} (hlt : T < T')
    (hX : g.elog T' = some X) : P <+: X := by
  induction hk : (T' - T).toNat using Nat.strong_induction_on generalizing T' X with
  | _ k ih =>
      obtain ⟨Q, hQ, hst⟩ := hch
      obtain ⟨R, hR, hall⟩ := hg.stored_elog T' X hX
      obtain ⟨z, hzQ, hzR⟩ := hinter Q R hQ hR
      refine (hall z hzR).2 T P (hst z hzQ) hlt fun U Y hTU hUT' hY ↦ ?_
      exact ih (U - T).toNat (by omega) hTU hY rfl

theorem Chosen.kept (hg : KeepInv quorum g) {T : Int} {P : List E} (hch : Chosen quorum g T P)
    (b : Int) : Kept g T b P :=
  fun _ _ hlt _ hX ↦ hch.isPrefix_elog hinter hg hlt hX

theorem Chosen.isPrefix_llog (hg : KeepInv quorum g) {T : Int} {P : List E}
    (hch : Chosen quorum g T P) : P <+: g.llog T ∧ ∃ X, g.elog T = some X := by
  obtain ⟨Q, hQ, hst⟩ := hch
  obtain ⟨z, hz, _⟩ := hinter Q Q hQ hQ
  obtain ⟨L, hL, hP⟩ := (hst z hz).acked
  obtain ⟨hpre, _, hX⟩ := hg.acked_isPrefix z T L hL
  exact ⟨hP.trans hpre, hX⟩

/-- Whatever two quorums have chosen, one extends the other. -/
theorem Chosen.comparable (hg : KeepInv quorum g) {T T' : Int} {P P' : List E}
    (hch : Chosen quorum g T P) (hch' : Chosen quorum g T' P') : P <+: P' ∨ P' <+: P := by
  -- both are prefixes of the longest log of the later term
  have hle : ∀ {T T' : Int} {P P' : List E}, Chosen quorum g T P → Chosen quorum g T' P' →
      T ≤ T' → P <+: g.llog T' := by
    intro T T' P P' hch hch' hle
    obtain ⟨hP, _⟩ := hch.isPrefix_llog hinter hg
    obtain ⟨_, X, hX⟩ := hch'.isPrefix_llog hinter hg
    by_cases heq : T = T'
    · rw [← heq]
      exact hP
    · exact (hch.isPrefix_elog hinter hg (by omega) hX).trans (hg.elog_isPrefix T' X hX)
  rcases le_total T T' with h | h
  · exact List.prefix_or_prefix_of_prefix (hle hch hch' h) (hle hch' hch' (le_refl T'))
  · exact List.prefix_or_prefix_of_prefix (hle hch hch (le_refl T)) (hle hch' hch h)

theorem Committed.comparable (hg : KeepInv quorum g) {b b' : Int} {K K' : List E}
    (h : Committed quorum g b K) (h' : Committed quorum g b' K') : K <+: K' ∨ K' <+: K := by
  rcases h with rfl | ⟨T, P, _, hch, hK⟩
  · exact Or.inl List.nil_prefix
  rcases h' with rfl | ⟨T', P', _, hch', hK'⟩
  · exact Or.inr List.nil_prefix
  rcases hch.comparable hinter hg hch' with hPP' | hP'P
  · exact List.prefix_or_prefix_of_prefix (hK.trans hPP') hK'
  · exact List.prefix_or_prefix_of_prefix hK (hK'.trans hP'P)

/-- Adopting a log of the leader keeps what is committed. -/
theorem Committed.accept (hg : KeepInv quorum g) {X L M K log : List E} {b : Int}
    (hX : g.elog b = some X) (hXL : X <+: L) (hL : L <+: g.llog b)
    (hM : L <+: log ∧ M = log ∨ ¬ L <+: log ∧ M = L)
    (h : Committed quorum g b K) (hK : K <+: log) : K <+: M := by
  rcases h with rfl | ⟨T, P, hT, hch, hKP⟩
  · exact List.nil_prefix
  · have hkept : Kept g T (b + 1) K := fun U Y hTU hU hY ↦
      hKP.trans (hch.kept hinter hg _ U Y hTU hU hY)
    exact KeepInv.accept_keeps hX hXL hL hM (hKP.trans (hch.isPrefix_llog hinter hg).1) hT
      hkept hK

/-- What is committed up to a term is in the longest log of its leader. -/
theorem Committed.isPrefix_llog (hg : KeepInv quorum g) {b T : Int} {K X : List E}
    (h : Committed quorum g b K) (hle : b ≤ T) (hX : g.elog T = some X) : K <+: g.llog T := by
  rcases h with rfl | ⟨U, P, hU, hch, hKP⟩
  · exact List.nil_prefix
  · apply hKP.trans
    by_cases hUT : U = T
    · rw [← hUT]
      exact (hch.isPrefix_llog hinter hg).1
    · exact (hch.isPrefix_elog hinter hg (by omega) hX).trans (hg.elog_isPrefix T X hX)

/-- Of finitely many committed logs one extends all the others. -/
theorem Committed.exists_longest (hg : KeepInv quorum g) {ι : Type*} {f : ι → List E}
    (hf : ∀ i, ∃ b, Committed quorum g b (f i)) {b : Int} {K : List E}
    (hK : Committed quorum g b K) (is : List ι) :
    ∃ b' M, Committed quorum g b' M ∧ K <+: M ∧ (∀ i ∈ is, f i <+: M) ∧
      (M = K ∨ ∃ i, M = f i) := by
  induction is with
  | nil => exact ⟨b, K, hK, List.prefix_refl K, fun i hi ↦ absurd hi List.not_mem_nil, Or.inl rfl⟩
  | cons i is ih =>
      obtain ⟨b', M, hM, hKM, hall, hfrom⟩ := ih
      obtain ⟨c, hi⟩ := hf i
      rcases hi.comparable hinter hg hM with hle | hle
      · refine ⟨b', M, hM, hKM, fun j hj ↦ ?_, hfrom⟩
        rcases List.mem_cons.mp hj with rfl | hj
        · exact hle
        · exact hall j hj
      · refine ⟨c, f i, hi, hKM.trans hle, fun j hj ↦ ?_, Or.inr ⟨i, rfl⟩⟩
        rcases List.mem_cons.mp hj with rfl | hj
        · exact List.prefix_refl _
        · exact (hall j hj).trans hle

end Quorums

end Lab6824.Lib

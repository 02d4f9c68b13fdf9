import ForgePass.Contracts.ScoreWindow

/-!
# Chronology of the score history

`computed_at` is an argument of the caller, and `anchor_score` appends without
comparing it.  So the history is ascending at every moment of a run exactly
when the accepted calls arrive in order: each with a `computed_at` no smaller
than that of the current score it meets.
-/

namespace ForgePass.Contracts.TrustScore

open ForgePass.Verified

variable {A : Type} [DecidableEq A]

/-- `a` was computed no later than `b`. The dates are arguments of the calls;
the contract does not compare them. -/
def NoLater (a b : ScoreSnapshot) : Prop := a.computedAt ≤ b.computedAt

instance : DecidableRel NoLater := fun a b =>
  inferInstanceAs (Decidable (a.computedAt ≤ b.computedAt))

theorem NoLater.refl (a : ScoreSnapshot) : NoLater a a := UInt64.le_refl _

instance : IsTrans ScoreSnapshot NoLater := ⟨fun _ _ _ => UInt64.le_trans⟩

/-- The history of `w` is ascending and the current score is a latest one. -/
structure Chronological (w : A) (s : Store A) : Prop where
  ascending : (getScoreHistory s w).Pairwise NoLater
  newest : ∀ c ∈ getCurrentScore s w, ∀ snap ∈ getScoreHistory s w,
    NoLater snap c

/-- Every entry that a step drops from the history of `w`, copies counted, was
computed no later than all entries before and after the step. -/
def DropsEarliest (w : A) (s s' : Store A) : Prop :=
  ∀ dropped ∈ (getScoreHistory s w).diff (getScoreHistory s' w),
    ∀ snap ∈ getScoreHistory s w ++ getScoreHistory s' w, NoLater dropped snap

/-- An accepted `anchor_score` on `w` is computed no earlier than the current
score of `w`. -/
def InOrder (w : A) (s : Store A) (i : Invocation A (Call A)) : Prop :=
  match i.call with
  | .anchorScore v score _ _ time =>
      v = w ∧ SignedBy (adminOf s) i.env ∧ score ≤ 100 →
        ∀ c ∈ getCurrentScore s w, c.computedAt ≤ time
  | .initializeAdmin _ => True

instance (w : A) (s : Store A) (i : Invocation A (Call A)) :
    Decidable (InOrder w s i) :=
  match i with
  | ⟨env, .anchorScore v score _ _ time⟩ =>
      inferInstanceAs (Decidable (v = w ∧ SignedBy (adminOf s) env ∧
        score ≤ 100 → ∀ c ∈ getCurrentScore s w, c.computedAt ≤ time))
  | ⟨_, .initializeAdmin _⟩ => .isTrue trivial

/-! ## Order of the calls and order of the sequence -/

/-- Under the cap, a call anchors its snapshot for `w` when it is about `w`,
authorised, and in the score range. -/
theorem scoreEntry_step {w : A} {s : Store A}
    (hCap : (getScoreHistory s w).length ≤ 50) (env : Env A) (v : A)
    (score : UInt32) (version hash : HostString) (time : UInt64) :
    let i : Invocation A (Call A) :=
      ⟨env, .anchorScore v score version hash time⟩
    scoreEntry w (i, (machine.step s i).1) =
      if v = w ∧ SignedBy (adminOf s) env ∧ score ≤ 100 then
        some ⟨score, version, hash, time⟩
      else none := by
  simp only [machine, guestMachine, exec, anchorScore_run]
  by_cases hSigned : SignedBy (adminOf s) env
  · by_cases hOver : 100 < score
    · have hScore : ¬score ≤ 100 := UInt32.not_le.mpr hOver
      simp [hSigned, hOver, hScore, scoreEntry]
    · have hScore : score ≤ 100 := UInt32.not_lt.mp hOver
      by_cases hv : v = w
      · subst hv
        have hUnder : ¬50 < (getScoreHistory s v).length := by omega
        simp [hSigned, hOver, hScore, hUnder, scoreEntry]
      · by_cases hLong : 50 < (getScoreHistory s v).length
        · simp [hSigned, hOver, hv, hLong, scoreEntry]
        · simp [hSigned, hOver, hv, hLong, scoreEntry]
  · simp [hSigned, scoreEntry]

/-- Under the cap, `InOrder` speaks of the snapshot the call anchors. -/
theorem inOrder_iff {w : A} {s : Store A}
    (hCap : (getScoreHistory s w).length ≤ 50) (i : Invocation A (Call A)) :
    InOrder w s i ↔
      ∀ snap ∈ scoreEntry w (i, (machine.step s i).1),
        ∀ c ∈ getCurrentScore s w, NoLater c snap := by
  obtain ⟨env, call⟩ := i
  cases call with
  | initializeAdmin a => simp [InOrder, scoreEntry]
  | anchorScore v score version hash time =>
      rw [scoreEntry_step hCap]
      by_cases hAccept : v = w ∧ SignedBy (adminOf s) env ∧ score ≤ 100
      · simp [InOrder, hAccept, NoLater]
      · simp only [InOrder, hAccept, false_implies, if_false, true_iff]
        intro snap hSnap
        cases hSnap

/-- The accepted calls on `w` arrive in order exactly when the anchored
sequence is ascending. -/
theorem each_inOrder_iff (w : A) (is : List (Invocation A (Call A))) :
    machine.Each (InOrder w) is ↔
      (anchoredScores w (machine.history is)).Pairwise NoLater := by
  induction is using List.reverseRecOn with
  | nil => simp [anchoredScores]
  | append_singleton is i ih =>
      have hMirrors := mirrors_run w is
      have hCap : (getScoreHistory (machine.run is) w).length ≤ 50 := by
        rw [hMirrors.history, lastN_length]
        omega
      rw [machine.each_concat, ih, inOrder_iff hCap, machine.history_concat,
        anchoredScores_concat, hMirrors.current]
      cases hEntry : scoreEntry w (i, (machine.step (machine.run is) i).1) with
      | none => simp
      | some snap =>
          rw [Option.toList_some, pairwise_concat_iff]
          simp

/-! ## Order of the sequence and order of the history -/

omit [DecidableEq A] in
/-- An ascending sequence has ascending windows, ending in a latest entry. -/
theorem Mirrors.chronological {w : A} {s : Store A} {log : List ScoreSnapshot}
    (h : Mirrors w s log) (hSorted : log.Pairwise NoLater) :
    Chronological w s where
  ascending := by
    rw [h.history]
    exact pairwise_lastN hSorted 50
  newest := by
    intro c hc
    rw [h.current, ← getLast?_lastN (n := 50) (by decide)] at hc
    rw [h.history]
    exact rel_getLast_of_pairwise NoLater.refl (pairwise_lastN hSorted 50) hc

/-- A step leaves the history of `w` alone or pushes one snapshot into it. -/
theorem getScoreHistory_step (w : A) (s : Store A) (i : Invocation A (Call A)) :
    getScoreHistory (machine.step s i).2 w = getScoreHistory s w ∨
      ∃ snap, getScoreHistory (machine.step s i).2 w =
        pushCapped 50 (getScoreHistory s w) snap := by
  rcases scoreEntry_cases w (step_transition s i) with
    ⟨snap, -, -, hNext⟩ | ⟨-, hSame⟩
  · right
    refine ⟨snap, ?_⟩
    rw [hNext, getScoreHistory_recordScore, if_pos rfl]
  · exact .inl hSame.history

/-- A step between two ascending histories drops nothing but an earliest
entry. -/
theorem Chronological.dropsEarliest {w : A} {s : Store A}
    {i : Invocation A (Call A)} (h : Chronological w s)
    (h' : Chronological w (machine.step s i).2) :
    DropsEarliest w s (machine.step s i).2 := by
  intro dropped hDropped
  have hAfter := h'.ascending
  rcases getScoreHistory_step w s i with hSame | ⟨new, hPush⟩
  · rw [hSame, mem_diff_iff_count] at hDropped
    exact absurd hDropped (Nat.lt_irrefl _)
  · rw [hPush] at hDropped hAfter ⊢
    obtain ⟨rest, hBefore, hFull, hRest⟩ := mem_diff_pushCapped hDropped
    have hSorted := h.ascending
    rw [hBefore] at hSorted hFull
    rw [hRest] at hAfter ⊢
    rw [hBefore]
    have hNonempty : rest ≠ [] := by
      rintro rfl
      simp at hFull
    exact rel_of_popped NoLater.refl hNonempty hSorted hAfter

/-- If the history is ascending all along a run, so is the whole sequence:
each appended snapshot shares a history with its predecessor. -/
theorem sorted_of_chronological {w : A} {is : List (Invocation A (Call A))}
    (h : machine.Along (Chronological w) is) :
    (anchoredScores w (machine.history is)).Pairwise NoLater := by
  induction is using List.reverseRecOn with
  | nil => simp [anchoredScores]
  | append_singleton is i ih =>
      have hWindow := h.final.ascending
      rw [(mirrors_run w (is ++ [i])).history] at hWindow
      rw [machine.history_concat, anchoredScores_concat] at hWindow ⊢
      cases hEntry : scoreEntry w (i, (machine.step (machine.run is) i).1) with
      | none => simpa using ih h.of_concat
      | some snap =>
          rw [hEntry, Option.toList_some] at hWindow
          rw [Option.toList_some, pairwise_concat_iff]
          exact ⟨ih h.of_concat,
            last_rel_of_pairwise_lastN (by decide) hWindow⟩

theorem chronological_of_each {w : A} {is : List (Invocation A (Call A))}
    (h : machine.Each (InOrder w) is) : Chronological w (machine.run is) :=
  (mirrors_run w is).chronological ((each_inOrder_iff w is).mp h)

theorem each_dropsEarliest {w : A} {is : List (Invocation A (Call A))}
    (h : machine.Each (InOrder w) is) :
    machine.Each (fun s i => DropsEarliest w s (machine.step s i).2) is := by
  induction is using List.reverseRecOn with
  | nil => exact machine.each_nil
  | append_singleton is i ih =>
      have hBefore := (machine.each_concat.mp h).1
      have hAfter := chronological_of_each h
      rw [machine.run_concat] at hAfter
      rw [machine.each_concat]
      exact ⟨ih hBefore, (chronological_of_each hBefore).dropsEarliest hAfter⟩

/-- **Chronology.**  Along a run the history of `w` is ascending with the
current score a latest one, and every entry dropped is an earliest one, if and
only if the accepted calls on `w` arrive in order. -/
theorem score_history_chronological_iff (w : A)
    (is : List (Invocation A (Call A))) :
    machine.Along (Chronological w) is ∧
        machine.Each (fun s i => DropsEarliest w s (machine.step s i).2) is ↔
      machine.Each (InOrder w) is := by
  constructor
  · rintro ⟨hAlong, -⟩
    exact (each_inOrder_iff w is).mpr (sorted_of_chronological hAlong)
  · intro h
    exact ⟨fun p hp => chronological_of_each (h.earlier hp),
      each_dropsEarliest h⟩

/-- A retried call with an older `computed_at` leaves the history descending. -/
theorem score_history_descends :
    ¬∀ is : List (Invocation Nat (Call Nat)),
      machine.Along (Chronological 7) is ∧
        machine.Each (fun s i => DropsEarliest 7 s (machine.step s i).2)
          is := by
  intro h
  let env : Env Nat := ⟨{0}, 100⟩
  have hRun := (h [⟨env, .initializeAdmin 0⟩,
    ⟨env, .anchorScore 7 60 [1] [0xaa] 20⟩,
    ⟨env, .anchorScore 7 50 [1] [0xbb] 10⟩]).1.final.ascending
  revert hRun
  decide

end ForgePass.Contracts.TrustScore

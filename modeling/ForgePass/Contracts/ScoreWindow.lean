import ForgePass.Contracts.TrustScoreSpec

/-!
# The score history is a sliding window

The abstract state of a wallet is the whole sequence of snapshots anchored for
it.  `Mirrors` says how the three stores reflect that sequence: the history is
its window of 50, the instance-tier snapshot its last entry, the instance-tier
count the length of the window.  A queue that pops its front when full keeps
the window, so every call keeps `Mirrors`, and the defensive cap error is
never returned.
-/

namespace ForgePass.Contracts.TrustScore

open ForgePass.Verified

variable {A : Type} [DecidableEq A]

/-- A call with its answer. -/
abbrev Event (A : Type) := Invocation A (Call A) × Answer

/-- The snapshot a call anchors for wallet `w`, if any: the arguments of an
accepted `anchor_score`, as they came. -/
def scoreEntry (w : A) : Event A → Option ScoreSnapshot
  | (⟨_, .anchorScore w' score version hash time⟩, .ok _) =>
      if w' = w then some ⟨score, version, hash, time⟩ else none
  | _ => none

/-- The snapshots of the accepted `anchor_score` calls on `w`, in call order. -/
def anchoredScores (w : A) (history : List (Event A)) : List ScoreSnapshot :=
  history.filterMap (scoreEntry w)

theorem anchoredScores_concat (w : A) (history : List (Event A))
    (e : Event A) :
    anchoredScores w (history ++ [e]) =
      anchoredScores w history ++ (scoreEntry w e).toList :=
  Machine.filterMap_concat _ _ _

theorem scoreEntry_refused (w : A) (i : Invocation A (Call A))
    (e : Failure ContractError) : scoreEntry w (i, .error e) = none := by
  obtain ⟨env, call⟩ := i
  cases call with
  | initializeAdmin a => rfl
  | anchorScore v score version hash time => rfl

/-! ## The stores mirror the sequence -/

/-- The three stores of `w` reflect the anchored sequence `log`: the history is
its last fifty entries, the current score the last one, and the count the
length of the history. -/
structure Mirrors (w : A) (s : Store A) (log : List ScoreSnapshot) : Prop where
  history : getScoreHistory s w = lastN 50 log
  current : getCurrentScore s w = log.getLast?
  count : (snapshotCount? s w).map UInt32.toNat =
    if log = [] then none else some (getScoreHistory s w).length
  scores : ∀ snap ∈ log, snap.score ≤ 100

/-- The three stores of `w` are the same in both states. -/
structure SameScores (w : A) (s s' : Store A) : Prop where
  history : getScoreHistory s' w = getScoreHistory s w
  current : getCurrentScore s' w = getCurrentScore s w
  count : snapshotCount? s' w = snapshotCount? s w

omit [DecidableEq A] in
theorem Mirrors.frame {w : A} {s s' : Store A} {log : List ScoreSnapshot}
    (h : Mirrors w s log) (hSame : SameScores w s s') : Mirrors w s' log where
  history := hSame.history.trans h.history
  current := hSame.current.trans h.current
  count := by
    rw [hSame.count, hSame.history]
    exact h.count
  scores := h.scores

/-- Recording a snapshot appends it to the mirrored sequence. -/
theorem Mirrors.record {w : A} {s : Store A} {log : List ScoreSnapshot}
    (h : Mirrors w s log) {snap : ScoreSnapshot} (hScore : snap.score ≤ 100) :
    Mirrors w (recordScore s w snap) (log ++ [snap]) := by
  have hPush : pushCapped 50 (getScoreHistory s w) snap =
      lastN 50 (log ++ [snap]) := by
    rw [h.history]
    exact pushCapped_lastN (by decide) log snap
  refine ⟨?_, ?_, ?_, ?_⟩
  · rw [getScoreHistory_recordScore, if_pos rfl, hPush]
  · rw [getCurrentScore_recordScore, if_pos rfl, List.getLast?_concat]
  · have hLen : (lastN 50 (log ++ [snap])).length < UInt32.size := by
      rw [lastN_length, UInt32.size]
      omega
    have hSome : log ++ [snap] ≠ [] := by simp
    rw [snapshotCount?_recordScore, if_pos rfl, getScoreHistory_recordScore,
      if_pos rfl, hPush, if_neg hSome, Option.map_some,
      UInt32.toNat_ofNat_of_lt' hLen]
  · intro x hx
    rcases List.mem_append.mp hx with hOld | hNew
    · exact h.scores x hOld
    · rw [List.mem_singleton] at hNew
      exact hNew ▸ hScore

/-- A call anchors its snapshot for `w`, or leaves the stores of `w` alone. -/
theorem scoreEntry_cases (w : A) {s s' : Store A} {i : Invocation A (Call A)}
    {answer : Answer} (hStep : Transition s i answer s') :
    (∃ snap, scoreEntry w (i, answer) = some snap ∧ snap.score ≤ 100 ∧
      s' = recordScore s w snap) ∨
      (scoreEntry w (i, answer) = none ∧ SameScores w s s') := by
  cases hStep with
  | refused i e =>
      exact .inr ⟨scoreEntry_refused w i e, rfl, rfl, rfl⟩
  | initialized env a hAdmin =>
      exact .inr ⟨rfl, getScoreHistory_setAdmin s w a,
        getCurrentScore_setAdmin s w a, snapshotCount?_setAdmin s w a⟩
  | anchored env v score version hash time hSigned hScore =>
      by_cases hv : v = w
      · subst hv
        exact .inl ⟨⟨score, version, hash, time⟩, if_pos rfl, hScore, rfl⟩
      · have hw : w ≠ v := fun hEq => hv hEq.symm
        have hHistory := getScoreHistory_recordScore s w v
          ⟨score, version, hash, time⟩
        have hCurrent := getCurrentScore_recordScore s w v
          ⟨score, version, hash, time⟩
        have hCount := snapshotCount?_recordScore s w v
          ⟨score, version, hash, time⟩
        rw [if_neg hw] at hHistory hCurrent hCount
        exact .inr ⟨if_neg hv, hHistory, hCurrent, hCount⟩

/-- One call extends the mirrored sequence by the snapshot it anchors, if it
anchors one for `w`. -/
theorem mirrors_step (w : A) {s s' : Store A} {history : List (Event A)}
    {i : Invocation A (Call A)} {answer : Answer}
    (hStep : Transition s i answer s')
    (h : Mirrors w s (anchoredScores w history)) :
    Mirrors w s' (anchoredScores w (history ++ [(i, answer)])) := by
  rw [anchoredScores_concat]
  rcases scoreEntry_cases w hStep with
    ⟨snap, hEntry, hScore, rfl⟩ | ⟨hEntry, hSame⟩
  · rw [hEntry]
    exact h.record hScore
  · rw [hEntry, Option.toList_none, List.append_nil]
    exact h.frame hSame

theorem mirrors_run (w : A) (is : List (Invocation A (Call A))) :
    Mirrors w (machine.run is) (anchoredScores w (machine.history is)) :=
  machine.history_invariant
    (R := fun s history => Mirrors w s (anchoredScores w history))
    ⟨rfl, rfl, rfl, by simp [anchoredScores]⟩
    (fun s _ i h => mirrors_step w (step_transition s i) h) is

/-- The defensive guard never fires: a history of fifty is shortened before it
is extended. -/
theorem capExceeded_unreachable (is : List (Invocation A (Call A)))
    (i : Invocation A (Call A)) :
    (machine.step (machine.run is) i).1 ≠
      .error (.error .historyCapExceeded) := by
  intro h
  obtain ⟨w, hLong⟩ := history_of_capExceeded h
  rw [(mirrors_run w is).history, lastN_length] at hLong
  omega

/-- **Sliding window.**  The history of `w` is the last 50 of the snapshots
anchored for `w`, the current score is the last of them and of the history,
the stored count is the length of the history, scores are at most 100, and the
cap error is unreachable. -/
theorem score_history_window (w : A) (is : List (Invocation A (Call A))) :
    getScoreHistory (machine.run is) w =
        lastN 50 (anchoredScores w (machine.history is)) ∧
      getCurrentScore (machine.run is) w =
        (anchoredScores w (machine.history is)).getLast? ∧
      getCurrentScore (machine.run is) w =
        (getScoreHistory (machine.run is) w).getLast? ∧
      (snapshotCount? (machine.run is) w).map UInt32.toNat =
        (if anchoredScores w (machine.history is) = [] then none
        else some (getScoreHistory (machine.run is) w).length) ∧
      (∀ snap ∈ getScoreHistory (machine.run is) w, snap.score ≤ 100) ∧
      (∀ snap ∈ getCurrentScore (machine.run is) w, snap.score ≤ 100) ∧
      ∀ i, (machine.step (machine.run is) i).1 ≠
        .error (.error .historyCapExceeded) := by
  have h := mirrors_run w is
  refine ⟨h.history, h.current, ?_, h.count, ?_, ?_,
    capExceeded_unreachable is⟩
  · rw [h.current, h.history, getLast?_lastN (by decide)]
  · intro snap hSnap
    rw [h.history] at hSnap
    exact h.scores snap (mem_of_mem_lastN hSnap)
  · intro snap hSnap
    rw [h.current] at hSnap
    exact h.scores snap (List.mem_of_getLast? hSnap)

/-- Of fifty-one scores the first slides out of the window, and a score above
100 never gets in. -/
theorem score_history_window_slides :
    let snap : Nat → ScoreSnapshot := fun n => ⟨.ofNat n, [1], [2], .ofNat n⟩
    let anchor : ScoreSnapshot → Invocation Nat (Call Nat) := fun r =>
      ⟨⟨{0}, 100⟩, .anchorScore 7 r.score r.algorithmVersion r.signalHash
        r.computedAt⟩
    let is := ⟨⟨{0}, 100⟩, .initializeAdmin 0⟩ ::
      (List.range 51).map (fun n => anchor (snap n)) ++ [anchor (snap 101)]
    anchoredScores 7 (machine.history is) = (List.range 51).map snap ∧
      getScoreHistory (machine.run is) 7 = (List.range' 1 50).map snap ∧
      getCurrentScore (machine.run is) 7 = some (snap 50) := by
  intro snap anchor is
  have hScores : anchoredScores 7 (machine.history is) =
      (List.range 51).map snap := by decide +kernel
  obtain ⟨hHistory, hCurrent, -⟩ := score_history_window 7 is
  rw [hHistory, hCurrent, hScores]
  exact ⟨rfl, rfl, rfl⟩

end ForgePass.Contracts.TrustScore

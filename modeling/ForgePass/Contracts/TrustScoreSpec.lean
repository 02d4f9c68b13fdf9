import ForgePass.Contracts.TrustScore
import ForgePass.Verified.Window

/-!
# What one trust-score call does

`anchor_score` has one closed form, in which the two length branches are a
single push into a queue of 50 entries.  `Transition` collects what a call can
do; `refused` says nothing of the error, which `anchorScore_run` gives in
full.
-/

namespace ForgePass.Contracts.TrustScore

open ForgePass.Verified
open ForgePass.Verified.Guest

variable {A : Type}

/-! ## Views -/

/-- The stored administrator. -/
def adminOf (s : Store A) : Option A := s.instanceTier.get .admin

/-- The stored history length of a wallet, if any. -/
def snapshotCount? (s : Store A) (w : A) : Option UInt32 :=
  s.instanceTier.get (.snapshotCount w)

variable [DecidableEq A]

/-! ## Effects and entry points in closed form -/

/-- Push a snapshot into the history of `w` and refresh both mirrors. -/
def recordScore (s : Store A) (w : A) (snap : ScoreSnapshot) : Store A :=
  let history := pushCapped 50 (getScoreHistory s w) snap
  ((s.setPersistent (.scoreHistory w) history).setInstance (.currentScore w)
    snap).setInstance (.snapshotCount w) (.ofNat history.length)

theorem requireAdmin_bind {α : Type} (f : Unit → Exec A α) (env : Env A)
    (s : Store A) :
    (requireAdmin >>= f) env s =
      if SignedBy (adminOf s) env then f () env s
      else (.error (refusal .notInitialized (adminOf s)), s) := by
  have h := requireAdminAt_bind (E := ContractError) (DataKey.admin : DataKey A)
    (id : DataKey.Value A .admin → A) .notInitialized f env s
  rw [Option.map_id, id_eq] at h
  exact h

theorem initializeAdmin_run (a : A) (env : Env A) (s : Store A) :
    initializeAdmin a env s =
      if (adminOf s).isSome then (.error (.error .alreadyInitialized), s)
      else (.ok (), s.setInstance .admin a) :=
  initializeAt_run (V := DataKey.Value A) .admin id
    ContractError.alreadyInitialized a env s

theorem anchorScore_run (w : A) (score : UInt32) (version hash : HostString)
    (time : UInt64) (env : Env A) (s : Store A) :
    anchorScore w score version hash time env s =
      if SignedBy (adminOf s) env then
        if 100 < score then (.error (.error .invalidScore), s)
        else if 50 < (getScoreHistory s w).length then
          (.error (.error .historyCapExceeded), s)
        else (.ok (), recordScore s w ⟨score, version, hash, time⟩)
      else (.error (refusal .notInitialized (adminOf s)), s) := by
  unfold anchorScore
  rw [requireAdmin_bind]
  by_cases hSigned : SignedBy (adminOf s) env
  · rw [if_pos hSigned, if_pos hSigned]
    by_cases hScore : 100 < score
    · simp only [gt_iff_lt, hScore, if_true, fail_bind]
    · have hHistory : (s.persistentTier.get (.scoreHistory w)).getD [] =
          getScoreHistory s w := rfl
      simp only [gt_iff_lt, hScore, if_false, persistentGet_bind, hHistory]
      by_cases hCap : 50 < (getScoreHistory s w).length
      · simp only [hCap, if_true, fail_bind]
      · by_cases hFull : (getScoreHistory s w).length = 50
        · simp only [hFull, recordScore, pushCapped, if_true]
          rfl
        · simp only [hCap, hFull, recordScore, pushCapped, if_false]
          rfl
  · rw [if_neg hSigned, if_neg hSigned]

/-! ## Transitions -/

/-- Everything a call can do to storage, with the answer it gives. -/
inductive Transition (s : Store A) :
    Invocation A (Call A) → Answer → Store A → Prop
  | refused (i : Invocation A (Call A)) (e : Failure ContractError) :
      Transition s i (.error e) s
  | initialized (env : Env A) (a : A) (hAdmin : adminOf s = none) :
      Transition s ⟨env, .initializeAdmin a⟩ (.ok ())
        (s.setInstance .admin a)
  | anchored (env : Env A) (w : A) (score : UInt32)
      (version hash : HostString) (time : UInt64)
      (hSigned : SignedBy (adminOf s) env) (hScore : score ≤ 100) :
      Transition s ⟨env, .anchorScore w score version hash time⟩ (.ok ())
        (recordScore s w ⟨score, version, hash, time⟩)

/-- Every step of the machine is a transition. Invariants are proved by its
cases, without a look at the code of the entry points. -/
theorem step_transition (s : Store A) (i : Invocation A (Call A)) :
    Transition s i (machine.step s i).1 (machine.step s i).2 := by
  obtain ⟨env, call⟩ := i
  simp only [machine, guestMachine]
  cases call with
  | initializeAdmin a =>
      simp only [exec, initializeAdmin_run]
      cases hAdmin : adminOf s with
      | none => exact .initialized env a hAdmin
      | some b => exact .refused _ _
  | anchorScore w score version hash time =>
      simp only [exec, anchorScore_run]
      by_cases hSigned : SignedBy (adminOf s) env
      · by_cases hScore : 100 < score
        · simp only [hSigned, hScore, if_true]
          exact .refused _ _
        · by_cases hCap : 50 < (getScoreHistory s w).length
          · simp only [hSigned, hScore, hCap, if_true, if_false]
            exact .refused _ _
          · simp only [hSigned, hScore, hCap, if_true, if_false]
            exact .anchored env w score version hash time hSigned
              (UInt32.not_lt.mp hScore)
      · simp only [hSigned, if_false]
        exact .refused _ _

/-- The cap error is returned only for a history over the cap. -/
theorem history_of_capExceeded {s : Store A} {i : Invocation A (Call A)}
    (h : (machine.step s i).1 = .error (.error .historyCapExceeded)) :
    ∃ w, 50 < (getScoreHistory s w).length := by
  obtain ⟨env, call⟩ := i
  simp only [machine, guestMachine] at h
  cases call with
  | initializeAdmin a =>
      simp only [exec, initializeAdmin_run] at h
      cases hAdmin : adminOf s with
      | none => simp [hAdmin] at h
      | some b => simp [hAdmin] at h
  | anchorScore w score version hash time =>
      refine ⟨w, ?_⟩
      by_contra hCap
      simp only [exec, anchorScore_run, hCap, if_false] at h
      by_cases hSigned : SignedBy (adminOf s) env
      · by_cases hScore : 100 < score
        · simp [hSigned, hScore] at h
        · simp [hSigned, hScore] at h
      · rw [if_neg hSigned] at h
        cases hAdmin : adminOf s with
        | none => simp [hAdmin, refusal] at h
        | some b => simp [hAdmin, refusal] at h

/-! ## Views of the new state -/

section Views

variable (s : Store A) (w v : A) (a : A) (snap : ScoreSnapshot)

@[simp] theorem adminOf_setAdmin :
    adminOf (s.setInstance .admin a) = some a := by
  simp [adminOf]

@[simp] theorem getScoreHistory_setAdmin :
    getScoreHistory (s.setInstance .admin a) w = getScoreHistory s w := rfl

@[simp] theorem getCurrentScore_setAdmin :
    getCurrentScore (s.setInstance .admin a) w = getCurrentScore s w := by
  simp [getCurrentScore]

@[simp] theorem snapshotCount?_setAdmin :
    snapshotCount? (s.setInstance .admin a) w = snapshotCount? s w := by
  simp [snapshotCount?]

@[simp] theorem adminOf_recordScore :
    adminOf (recordScore s v snap) = adminOf s := by
  simp [adminOf, recordScore]

@[simp] theorem getScoreHistory_recordScore :
    getScoreHistory (recordScore s v snap) w =
      if w = v then pushCapped 50 (getScoreHistory s w) snap
      else getScoreHistory s w := by
  by_cases hw : w = v
  · subst hw
    simp [getScoreHistory, recordScore]
  · simp [getScoreHistory, recordScore, hw]

@[simp] theorem getCurrentScore_recordScore :
    getCurrentScore (recordScore s v snap) w =
      if w = v then some snap else getCurrentScore s w := by
  by_cases hw : w = v
  · subst hw
    simp [getCurrentScore, recordScore]
  · simp [getCurrentScore, recordScore, hw]

@[simp] theorem snapshotCount?_recordScore :
    snapshotCount? (recordScore s v snap) w =
      if w = v then
        some (.ofNat (pushCapped 50 (getScoreHistory s w) snap).length)
      else snapshotCount? s w := by
  by_cases hw : w = v
  · subst hw
    simp [snapshotCount?, recordScore]
  · simp [snapshotCount?, recordScore, hw]

end Views

/-! ## Access control -/

/-- The administrator a call installed, if it did. -/
def installs : Invocation A (Call A) × Answer → Option A
  | (⟨_, .initializeAdmin a⟩, .ok _) => some a
  | _ => none

/-- Only the installing call does without the administrator. -/
theorem adminStep {s s' : Store A} {i : Invocation A (Call A)}
    {answer : Answer} (hStep : Transition s i answer s') :
    AdminStep adminOf (fun _ => False) s i (installs (i, answer)) s' := by
  cases hStep with
  | refused i e =>
      refine .refused ?_ rfl
      obtain ⟨env, call⟩ := i
      cases call with
      | initializeAdmin a => rfl
      | anchorScore w score version hash time => rfl
  | initialized env a hAdmin => exact .installs a rfl hAdmin (by simp)
  | anchored env w score version hash time hSigned hScore =>
      exact .signed rfl hSigned (by simp)

theorem adminGuarded : AdminGuarded (machine : Machine (Store A) _ _) adminOf
    installs (fun _ => False) where
  fresh := rfl
  idle := fun _ h => h.elim
  steps := fun s i => adminStep (step_transition s i)

end ForgePass.Contracts.TrustScore

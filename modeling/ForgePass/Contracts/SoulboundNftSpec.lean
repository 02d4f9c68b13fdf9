import ForgePass.Contracts.SoulboundNft
import ForgePass.Verified.Loop

/-!
# What one soulbound-badge call does

`mint` has one closed form: refuse, or issue one badge.  `issueBadge` is the
whole effect of an accepted mint, and the view lemmas say what each of the
four places it writes reads afterwards.
-/

namespace ForgePass.Contracts.SoulboundNft

open ForgePass.Verified
open ForgePass.Verified.Guest

variable {A M : Type}

/-! ## Views -/

/-- The stored administrator. -/
def adminOf (s : Store A M) : Option A := s.instanceTier.get .admin

/-- The last badge id issued, 0 before the first. -/
def badgeCounter (s : Store A M) : UInt64 :=
  (s.instanceTier.get .badgeCounter).getD 0

/-- The ids indexed under a wallet. -/
def walletBadges (s : Store A M) (w : A) : List UInt64 :=
  (s.persistentTier.get (.walletBadges w)).getD []

theorem getBadgesForWallet_eq (s : Store A M) (w : A) :
    getBadgesForWallet s w = (walletBadges s w).filterMap (getBadge s) := by
  unfold getBadgesForWallet
  simp only [bind_pure]
  rw [forIn_collect (f := getBadge s)]
  · rfl
  · intro id out
    unfold getBadge
    cases s.persistentTier.get (.badge id) with
    | none => simp
    | some r => rfl

/-! ## Entry points in closed form -/

variable [DecidableEq A]

theorem requireAdmin_bind {α : Type} (f : Unit → Exec A M α) (env : Env A)
    (s : Store A M) :
    (requireAdmin >>= f) env s =
      if SignedBy (adminOf s) env then f () env s
      else (.error (refusal .notInitialized (adminOf s)), s) := by
  have h := requireAdminAt_bind (E := ContractError)
    (DataKey.admin : DataKey A M)
    (id : DataKey.Value A M .admin → A) .notInitialized f env s
  rw [Option.map_id, id_eq] at h
  exact h

variable [DecidableEq M]

/-- Write a badge in its four places. -/
def issueBadge (s : Store A M) (r : BadgeRecord A M) : Store A M :=
  (((s.setInstance .badgeCounter r.badgeId).setPersistent (.badge r.badgeId)
    r).setPersistent (.walletBadges r.wallet)
      (walletBadges s r.wallet ++ [r.badgeId])).setInstance
        (.hasBadge r.wallet r.milestoneType) true

theorem initializeAdmin_run (a : A) (env : Env A) (s : Store A M) :
    initializeAdmin a env s =
      if (adminOf s).isSome then (.error (.error .alreadyInitialized), s)
      else (.ok (), s.setInstance .admin a) :=
  initializeAt_run (V := DataKey.Value A M) .admin id
    ContractError.alreadyInitialized a env s

theorem mint_run (w : A) (m : M) (cid : HostString) (time : UInt64)
    (env : Env A) (s : Store A M) :
    mint w m cid time env s =
      if SignedBy (adminOf s) env then
        if hasBadge s w m then (.error (.error .badgeAlreadyMinted), s)
        else
          (.ok (badgeCounter s + 1),
            issueBadge s ⟨badgeCounter s + 1, w, m, cid, time⟩)
      else (.error (refusal .notInitialized (adminOf s)), s) := by
  unfold mint
  rw [requireAdmin_bind]
  by_cases hSigned : SignedBy (adminOf s) env
  · rw [if_pos hSigned, if_pos hSigned, instanceGet_bind]
    have hFlag : (s.instanceTier.get (.hasBadge w m)).getD false =
      hasBadge s w m := rfl
    by_cases hMinted : hasBadge s w m
    · simp only [hFlag, hMinted, if_true, fail_bind]
    · simp [hFlag, hMinted, issueBadge, walletBadges, badgeCounter]
  · rw [if_neg hSigned, if_neg hSigned]

/-! ## Calls in closed form -/

theorem step_initializeAdmin (s : Store A M) (env : Env A) (a : A) :
    machine.step s ⟨env, .initializeAdmin a⟩ =
      if (adminOf s).isSome then (.error (.error .alreadyInitialized), s)
      else (.ok .unit, s.setInstance .admin a) := by
  simp only [machine, guestMachine, exec, map_run, initializeAdmin_run]
  cases adminOf s with
  | none => rfl
  | some b => rfl

theorem step_mint (s : Store A M) (env : Env A) (w : A) (m : M)
    (cid : HostString) (time : UInt64) :
    machine.step s ⟨env, .mint w m cid time⟩ =
      if SignedBy (adminOf s) env then
        if hasBadge s w m then (.error (.error .badgeAlreadyMinted), s)
        else
          (.ok (.badgeId (badgeCounter s + 1)),
            issueBadge s ⟨badgeCounter s + 1, w, m, cid, time⟩)
      else (.error (refusal .notInitialized (adminOf s)), s) := by
  simp only [machine, guestMachine, exec, map_run, mint_run]
  by_cases hSigned : SignedBy (adminOf s) env
  · by_cases hMinted : hasBadge s w m
    · simp only [hSigned, hMinted, if_true]
    · simp only [hSigned, hMinted, if_true]
      rfl
  · simp only [hSigned, if_false]

/-! ## Transitions -/

/-- Everything a call can do to storage, with the answer it gives. -/
inductive Transition (s : Store A M) :
    Invocation A (Call A M) → Answer → Store A M → Prop
  | refused (i : Invocation A (Call A M)) (e : Failure ContractError) :
      Transition s i (.error e) s
  | initialized (env : Env A) (a : A) (hAdmin : adminOf s = none) :
      Transition s ⟨env, .initializeAdmin a⟩ (.ok .unit)
        (s.setInstance .admin a)
  | minted (env : Env A) (w : A) (m : M) (cid : HostString) (time : UInt64)
      (hSigned : SignedBy (adminOf s) env) (hFresh : hasBadge s w m = false) :
      Transition s ⟨env, .mint w m cid time⟩
        (.ok (.badgeId (badgeCounter s + 1)))
        (issueBadge s ⟨badgeCounter s + 1, w, m, cid, time⟩)

/-- Every step of the machine is a transition. Invariants are proved by its
cases, without a look at the code of the entry points. -/
theorem step_transition (s : Store A M) (i : Invocation A (Call A M)) :
    Transition s i (machine.step s i).1 (machine.step s i).2 := by
  obtain ⟨env, call⟩ := i
  cases call with
  | initializeAdmin a =>
      rw [step_initializeAdmin]
      cases hAdmin : adminOf s with
      | none => exact .initialized env a hAdmin
      | some b => exact .refused _ _
  | mint w m cid time =>
      rw [step_mint]
      by_cases hSigned : SignedBy (adminOf s) env
      · rw [if_pos hSigned]
        cases hMinted : hasBadge s w m with
        | true => exact .refused _ _
        | false => exact .minted env w m cid time hSigned hMinted
      · rw [if_neg hSigned]
        exact .refused _ _

/-! ## Views of the new state -/

section Views

variable (s : Store A M) (w : A) (m : M) (a : A) (id : UInt64)
  (r : BadgeRecord A M)

@[simp] theorem adminOf_setAdmin :
    adminOf (s.setInstance .admin a) = some a := by
  simp [adminOf]

@[simp] theorem badgeCounter_setAdmin :
    badgeCounter (s.setInstance .admin a) = badgeCounter s := by
  simp [badgeCounter]

@[simp] theorem getBadge_setAdmin :
    getBadge (s.setInstance .admin a) id = getBadge s id := rfl

@[simp] theorem walletBadges_setAdmin :
    walletBadges (s.setInstance .admin a) w = walletBadges s w := rfl

@[simp] theorem hasBadge_setAdmin :
    hasBadge (s.setInstance .admin a) w m = hasBadge s w m := by
  simp [hasBadge]

@[simp] theorem adminOf_issueBadge : adminOf (issueBadge s r) = adminOf s := by
  simp [adminOf, issueBadge]

@[simp] theorem badgeCounter_issueBadge :
    badgeCounter (issueBadge s r) = r.badgeId := by
  simp [badgeCounter, issueBadge]

@[simp] theorem getBadge_issueBadge :
    getBadge (issueBadge s r) id =
      if id = r.badgeId then some r else getBadge s id := by
  by_cases hId : id = r.badgeId
  · subst hId
    simp [getBadge, issueBadge]
  · simp [getBadge, issueBadge, hId]

@[simp] theorem walletBadges_issueBadge :
    walletBadges (issueBadge s r) w =
      if w = r.wallet then walletBadges s w ++ [r.badgeId]
      else walletBadges s w := by
  by_cases hw : w = r.wallet
  · subst hw
    simp [walletBadges, issueBadge]
  · simp [walletBadges, issueBadge, hw]

@[simp] theorem hasBadge_issueBadge :
    hasBadge (issueBadge s r) w m =
      (decide (w = r.wallet ∧ m = r.milestoneType) || hasBadge s w m) := by
  by_cases hKey : w = r.wallet ∧ m = r.milestoneType
  · obtain ⟨rfl, rfl⟩ := hKey
    simp [hasBadge, issueBadge]
  · simp [hasBadge, issueBadge, hKey]

end Views

/-! ## Access control -/

/-- The administrator a call installed, if it did. -/
def installs : Invocation A (Call A M) × Answer → Option A
  | (⟨_, .initializeAdmin a⟩, .ok _) => some a
  | _ => none

/-- Only the installing call does without the administrator. -/
theorem adminStep {s s' : Store A M} {i : Invocation A (Call A M)}
    {answer : Answer} (hStep : Transition s i answer s') :
    AdminStep adminOf (fun _ => False) s i (installs (i, answer)) s' := by
  cases hStep with
  | refused i e =>
      refine .refused ?_ rfl
      obtain ⟨env, call⟩ := i
      cases call with
      | initializeAdmin a => rfl
      | mint w m cid time => rfl
  | initialized env a hAdmin => exact .installs a rfl hAdmin (by simp)
  | minted env w m cid time hSigned hFresh =>
      exact .signed rfl hSigned (by simp)

theorem adminGuarded : AdminGuarded (machine : Machine (Store A M) _ _) adminOf
    installs (fun _ => False) where
  fresh := rfl
  idle := fun _ h => h.elim
  steps := fun s i => adminStep (step_transition s i)

end ForgePass.Contracts.SoulboundNft

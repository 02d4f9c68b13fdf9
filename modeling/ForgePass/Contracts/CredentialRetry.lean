import ForgePass.Contracts.CredentialRemoval
import ForgePass.Contracts.CredentialReplay

/-!
# Retrying a removal

A removal is retried later with the same arguments, and other calls come in
between.  After the first execution no live credential has a listed source id,
so whatever the retry deletes was accepted in between.  The retry names
credentials by source id alone, so it does delete one that shares its source
id with a removed one, even under another signal type.  It deletes nothing new
exactly when no such credential is left over from the calls in between.
-/

namespace ForgePass.Contracts.CredentialStore

open ForgePass.Verified
open ForgePass.Verified.LogEntry

variable {A S : Type} [DecidableEq A]

/-- The pair of an `add_credential` on `w` was not accepted for `w` before. -/
def FreshPair [DecidableEq S] (w : A) (history : List (Event A S)) :
    Call A S → Prop
  | .addCredential v t sid _ _ =>
      v = w → (t, sid) ∉ (acceptedRecords w history).map dedupKey
  | _ => True

variable [DecidableEq S]

/-- Every `add_credential` on `w` in the run uses a fresh pair. -/
def FreshPairs (w : A) (is : List (Invocation A (Call A S))) : Prop :=
  ∀ n, n < is.length → ∀ i ∈ is[n]?,
    FreshPair w (machine.history (is.take n)) i.call

/-- The retry of a removal of `sids`, after the calls `between` that follow the
first execution in `s`, deletes no record whose id was issued by one of those
calls. -/
def DeletesNothingNew (w : A) (sids : List HostString) (s : Store A S)
    (between : List (Invocation A (Call A S))) (env : Env A) : Prop :=
  let s' := machine.runFrom s between
  let retried := (machine.step s' ⟨env, .removeCredentials w sids⟩).2
  ∀ r ∈ getCredentials s' w, r ∉ getCredentials retried w →
    r.id ∉ (acceptedRecords w (machine.historyFrom s between)).map
      CredentialRecord.id

/-- If the retry passes its checks, every credential that the calls `between`
accepted for `w` under a source id in `sids` was removed by them, too. -/
def NothingLeftToDelete (w : A) (sids : List HostString) (s : Store A S)
    (between : List (Invocation A (Call A S))) (env : Env A) : Prop :=
  let s' := machine.runFrom s between
  SignedBy (adminOf s') env → archiveIndex s' w ≠ 0 →
    ∀ r ∈ survivingRecords w (machine.historyFrom s between),
      r.sourceId ∉ sids

instance (w : A) (history : List (Event A S)) (call : Call A S) :
    Decidable (FreshPair w history call) :=
  match call with
  | .initializeAdmin _ => .isTrue trivial
  | .addCredential v t sid _ _ =>
      inferInstanceAs (Decidable (v = w →
        (t, sid) ∉ (acceptedRecords w history).map dedupKey))
  | .addArchiveRecord _ _ _ _ _ => .isTrue trivial
  | .removeCredentials _ _ => .isTrue trivial

instance (w : A) (is : List (Invocation A (Call A S))) :
    Decidable (FreshPairs w is) :=
  inferInstanceAs (Decidable (∀ n, n < is.length → ∀ i ∈ is[n]?,
    FreshPair w (machine.history (is.take n)) i.call))

instance (w : A) (sids : List HostString) (s : Store A S)
    (between : List (Invocation A (Call A S))) (env : Env A) :
    Decidable (DeletesNothingNew w sids s between env) :=
  inferInstanceAs (Decidable (∀ r ∈ getCredentials
    (machine.runFrom s between) w,
    r ∉ getCredentials (machine.step (machine.runFrom s between)
      ⟨env, .removeCredentials w sids⟩).2 w →
    r.id ∉ (acceptedRecords w (machine.historyFrom s between)).map
      CredentialRecord.id))

/-! ## What is live after the calls in between -/

/-- A successful removal passed its guard. -/
theorem passes_of_ok {w : A} {s : Store A S} {env : Env A}
    {sids : List HostString} {reply : Reply}
    (h : (machine.step s ⟨env, .removeCredentials w sids⟩).1 = .ok reply) :
    Passes w s env := by
  rw [step_removeCredentials] at h
  by_cases hSigned : SignedBy (adminOf s) env
  · rw [if_pos hSigned] at h
    by_cases hGuard : archiveIndex s w = 0
    · rw [if_pos hGuard] at h
      cases h
    · exact ⟨hSigned, hGuard⟩
  · rw [if_neg hSigned] at h
    cases h

/-- The live set after more calls: what they did not remove, then what they
added and did not remove. -/
theorem getCredentials_run_append (w : A)
    (is js : List (Invocation A (Call A S))) :
    getCredentials (machine.run (is ++ js)) w =
      (getCredentials (machine.run is) w).filter
          (fun r => !(journal w (machine.historyFrom (machine.run is) js)).any
            (names r.sourceId)) ++
        survivingRecords w (machine.historyFrom (machine.run is) js) := by
  rw [getCredentials_run, getCredentials_run, machine.history_append]
  unfold survivingRecords journal
  rw [List.filterMap_append, survivors_append]

/-- After the removal of `sids` and more calls, a live record with a listed
source id was added by those calls. -/
theorem live_named_iff {w : A} {is : List (Invocation A (Call A S))}
    {env : Env A} {sids : List HostString}
    (hPasses : Passes w (machine.run is) env)
    (between : List (Invocation A (Call A S))) {r : CredentialRecord A S}
    (hNamed : r.sourceId ∈ sids) :
    let s := machine.run (is ++ [⟨env, .removeCredentials w sids⟩])
    r ∈ getCredentials (machine.runFrom s between) w ↔
      r ∈ survivingRecords w (machine.historyFrom s between) := by
  intro s
  have hRemoved : s = pruneCredentials (machine.run is) w sids := by
    show machine.run (is ++ [⟨env, .removeCredentials w sids⟩]) = _
    rw [machine.run_concat, hPasses.step]
  have hOld : r ∉ getCredentials s w := by
    rw [hRemoved, getCredentials_pruneCredentials, if_pos rfl, mem_dropBy]
    intro hr
    exact hr.2 hNamed
  show r ∈ getCredentials (machine.runFrom (machine.run
    (is ++ [⟨env, .removeCredentials w sids⟩])) between) w ↔ _
  rw [← machine.run_append, getCredentials_run_append, List.mem_append]
  constructor
  · rintro (hFirst | hSecond)
    · exact absurd (List.mem_filter.mp hFirst).1 hOld
    · exact hSecond
  · exact Or.inr

/-- A removal deletes what it names, if it passes its checks. -/
theorem deleted_iff {w : A} {s : Store A S} (env : Env A)
    {sids : List HostString} {r : CredentialRecord A S}
    (hLive : r ∈ getCredentials s w) :
    r ∉ getCredentials (machine.step s ⟨env, .removeCredentials w sids⟩).2 w ↔
      SignedBy (adminOf s) env ∧ archiveIndex s w ≠ 0 ∧ r.sourceId ∈ sids := by
  rw [step_removeCredentials]
  by_cases hSigned : SignedBy (adminOf s) env
  · rw [if_pos hSigned]
    by_cases hGuard : archiveIndex s w = 0
    · rw [if_pos hGuard]
      simp [hLive, hGuard]
    · rw [if_neg hGuard, getCredentials_pruneCredentials, if_pos rfl,
        mem_dropBy]
      simp [hLive, hSigned, hGuard]
  · rw [if_neg hSigned]
    simp [hLive, hSigned]

/-! ## The retry -/

/-- **Retried removal.**  After a successful removal and any calls in between,
the same removal deletes no record issued in between if and only if none is
left that it names, or it does not pass its checks. -/
theorem retry_deletes_nothing_new_iff (w : A) (sids : List HostString)
    (is between : List (Invocation A (Call A S))) (env env' : Env A)
    {reply : Reply}
    (hFirst : (machine.step (machine.run is)
      ⟨env, .removeCredentials w sids⟩).1 = .ok reply) :
    let s := machine.run (is ++ [⟨env, .removeCredentials w sids⟩])
    DeletesNothingNew w sids s between env' ↔
      NothingLeftToDelete w sids s between env' := by
  intro s
  have hPasses := passes_of_ok hFirst
  have hLive (r : CredentialRecord A S) (hNamed : r.sourceId ∈ sids) :
      r ∈ getCredentials (machine.runFrom s between) w ↔
        r ∈ survivingRecords w (machine.historyFrom s between) :=
    live_named_iff hPasses between hNamed
  have hIssued (r : CredentialRecord A S)
      (hr : r ∈ survivingRecords w (machine.historyFrom s between)) :
      r.id ∈ (acceptedRecords w (machine.historyFrom s between)).map
        CredentialRecord.id :=
    List.mem_map_of_mem ((survivors_sublist _ _).subset hr)
  constructor
  · intro h hSigned hGuard r hr hNamed
    have hLater := (hLive r hNamed).mpr hr
    have hDeleted := (deleted_iff env' hLater).mpr
      ⟨hSigned, hGuard, hNamed⟩
    exact h r hLater hDeleted (hIssued r hr)
  · intro h r hLater hDeleted
    obtain ⟨hSigned, hGuard, hNamed⟩ := (deleted_iff env' hLater).mp hDeleted
    exact absurd hNamed (h hSigned hGuard r ((hLive r hNamed).mp hLater))

/-- One credential of wallet 7 under administrator 0, archived. -/
def archivedOnce : List (Invocation Nat (Call Nat SignalType)) :=
  let env : Env Nat := ⟨{0}, 100⟩
  [⟨env, .initializeAdmin 0⟩,
    ⟨env, .addCredential 7 .githubPr [1] 10 [0xaa]⟩,
    ⟨env, .addArchiveRecord 7 (Vector.replicate 32 0) 1 12 [0xbb]⟩]

/-- A credential under another signal type and the given source id. -/
def hackathonCredential (sid : HostString) :
    Invocation Nat (Call Nat SignalType) :=
  ⟨⟨{0}, 100⟩, .addCredential 7 .hackathon sid 13 [0xcc]⟩

theorem retry_deletes_nothing_new_otherSource :
    DeletesNothingNew 7 [[1]]
      (machine.run (archivedOnce ++ [⟨⟨{0}, 100⟩, .removeCredentials 7 [[1]]⟩]))
      [hackathonCredential [2]] ⟨{0}, 100⟩ := by
  have hFirst : (machine.step (machine.run archivedOnce)
      ⟨⟨{0}, 100⟩, .removeCredentials 7 [[1]]⟩).1 = .ok .unit := by decide
  refine (retry_deletes_nothing_new_iff 7 [[1]] archivedOnce
    [hackathonCredential [2]] ⟨{0}, 100⟩ ⟨{0}, 100⟩ hFirst).mpr ?_
  intro hSigned hGuard
  decide

/-- With the same source id the retry deletes the new credential, whose pair
was never used before. -/
theorem retry_deletes_new_credential :
    ¬∀ (is between : List (Invocation Nat (Call Nat SignalType)))
        (env : Env Nat) (sids : List HostString),
      FreshPairs 7 (is ++ [⟨env, .removeCredentials 7 sids⟩] ++ between) →
      (machine.step (machine.run is) ⟨env, .removeCredentials 7 sids⟩).1 =
        .ok .unit →
      DeletesNothingNew 7 sids
        (machine.run (is ++ [⟨env, .removeCredentials 7 sids⟩])) between env := by
  intro h
  have hRetry := h archivedOnce [hackathonCredential [1]] ⟨{0}, 100⟩ [[1]]
    (by decide) (by decide)
  revert hRetry
  decide

end ForgePass.Contracts.CredentialStore

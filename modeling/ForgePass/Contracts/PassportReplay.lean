import ForgePass.Contracts.PassportSpec
import ForgePass.Verified.LastWriter

/-!
# A passport is a field-wise replay of the call history

Two principals rewrite one record.  The abstract passport keeps their writes
apart: it comes to life with the first accepted `create_passport`, keeps the
ledger clock of that call, and reads each of the two mutable fields as a
last-writer register over the accepted calls since then.  The stored record is
that abstract passport, in every run.
-/

namespace ForgePass.Contracts.Passport

open ForgePass.Verified

variable {A : Type} [DecidableEq A]

/-- A call with its answer. -/
abbrev Event (A : Type) := Invocation A (Call A) × Answer

/-! ## What one accepted call writes -/

/-- CID and ledger clock of an accepted `create_passport` on `w`. -/
def creation (w : A) : Event A → Option (HostString × UInt64)
  | (⟨env, .createPassport w' cid⟩, .ok _) =>
      if w' = w then some (cid, env.timestamp) else none
  | _ => none

/-- The CID an accepted `update_metadata_cid` on `w` writes. -/
def cidWrite (w : A) : Event A → Option HostString
  | (⟨_, .updateMetadataCid w' cid⟩, .ok _) => if w' = w then some cid else none
  | _ => none

/-- The flag an accepted `set_sybil_flag` on `w` writes. -/
def flagWrite (w : A) : Event A → Option Bool
  | (⟨_, .setSybilFlag w' flag⟩, .ok _) => if w' = w then some flag else none
  | _ => none

/-- The passport of `w` as the history tells it: given by the first accepted
creation, with the last CID and the last flag written since. -/
def replay (w : A) (history : List (Event A)) : Option (PassportRecord A) :=
  (since (creation w) history).map fun (c, later) =>
    { wallet := w
      ipfsCid := lastWrite (cidWrite w) c.1 later
      createdAt := c.2
      sybilFlagged := lastWrite (flagWrite w) false later }

/-- What one more event makes of a passport. -/
def rewritten (w : A) (e : Event A) :
    Option (PassportRecord A) → Option (PassportRecord A)
  | none => (creation w e).map fun c => ⟨w, c.1, c.2, false⟩
  | some r =>
      some { r with
        ipfsCid := (cidWrite w e).getD r.ipfsCid
        sybilFlagged := (flagWrite w e).getD r.sybilFlagged }

theorem replay_concat (w : A) (history : List (Event A)) (e : Event A) :
    replay w (history ++ [e]) = rewritten w e (replay w history) := by
  unfold replay
  rw [since_concat]
  cases since (creation w) history with
  | none =>
      cases hCreation : creation w e with
      | none => simp [rewritten, hCreation]
      | some c => simp [rewritten, hCreation]
  | some found =>
      obtain ⟨c, later⟩ := found
      simp only [Option.map_some, rewritten, lastWrite_concat]

/-! ## One call -/

/-- An event that writes no field of the passport leaves it as it was. -/
theorem rewritten_of_silent {w : A} {e : Event A} (hCreation : creation w e = none)
    (hCid : cidWrite w e = none) (hFlag : flagWrite w e = none)
    (p : Option (PassportRecord A)) : rewritten w e p = p := by
  cases p with
  | none => simp [rewritten, hCreation]
  | some r => simp [rewritten, hCid, hFlag]

theorem rewritten_refused (w : A) (i : Invocation A (Call A))
    (e : Failure ContractError) (p : Option (PassportRecord A)) :
    rewritten w (i, .error e) p = p := by
  obtain ⟨env, call⟩ := i
  cases call with
  | initializeAdmin a => exact rewritten_of_silent rfl rfl rfl p
  | createPassport v cid => exact rewritten_of_silent rfl rfl rfl p
  | updateMetadataCid v cid => exact rewritten_of_silent rfl rfl rfl p
  | setSybilFlag v flag => exact rewritten_of_silent rfl rfl rfl p

/-- The stored passport is rewritten by every call as its event says. -/
theorem getPassport_step (w : A) {s s' : Store A} {i : Invocation A (Call A)}
    {answer : Answer} (hStep : Transition s i answer s') :
    getPassport s' w = rewritten w (i, answer) (getPassport s w) := by
  cases hStep with
  | refused i e => rw [rewritten_refused]
  | initialized env a hAdmin =>
      rw [getPassport_setAdmin, rewritten_of_silent rfl rfl rfl]
  | created env v cid hSigned hNone =>
      rw [getPassport_putPassport]
      by_cases hv : w = v
      · subst hv
        rw [if_pos rfl, hNone]
        simp [rewritten, creation]
      · have hv' : ¬v = w := fun hEq => hv hEq.symm
        rw [if_neg hv]
        symm
        refine rewritten_of_silent ?_ rfl rfl _
        exact if_neg hv'
  | updated env v cid r hOwner hSome =>
      rw [getPassport_putPassport]
      by_cases hv : w = v
      · subst hv
        rw [if_pos rfl, hSome]
        simp [rewritten, cidWrite, flagWrite]
      · have hv' : ¬v = w := fun hEq => hv hEq.symm
        rw [if_neg hv]
        symm
        refine rewritten_of_silent rfl ?_ rfl _
        exact if_neg hv'
  | flagged env v flag r hSigned hSome =>
      rw [getPassport_putPassport]
      by_cases hv : w = v
      · subst hv
        rw [if_pos rfl, hSome]
        simp [rewritten, cidWrite, flagWrite]
      · have hv' : ¬v = w := fun hEq => hv hEq.symm
        rw [if_neg hv]
        symm
        refine rewritten_of_silent rfl rfl ?_ _
        exact if_neg hv'

/-! ## Whole runs -/

/-- The stored passport is the replayed one, after every run. The step rewrites
it as the new event says. -/
theorem getPassport_run (w : A) (is : List (Invocation A (Call A))) :
    getPassport (machine.run is) w = replay w (machine.history is) := by
  refine machine.history_invariant
    (R := fun s history => getPassport s w = replay w history) rfl ?_ is
  intro s history i h
  rw [getPassport_step w (step_transition s i), h, replay_concat]

/-- A passport exists exactly after a first accepted `create_passport`. -/
theorem getPassport_isSome_iff (w : A) (is : List (Invocation A (Call A))) :
    (getPassport (machine.run is) w).isSome = true ↔
      ∃ e ∈ machine.history is, (creation w e).isSome = true := by
  rw [getPassport_run, ← since_isSome_iff]
  unfold replay
  rw [Option.isSome_map]

/-- No call removes a passport or rewrites its wallet and creation time,
whoever signs it. -/
theorem getPassport_runFrom (w : A) {s : Store A} {r : PassportRecord A}
    (h : getPassport s w = some r) (is : List (Invocation A (Call A))) :
    ∃ r', getPassport (machine.runFrom s is) w = some r' ∧
      r'.wallet = r.wallet ∧ r'.createdAt = r.createdAt := by
  induction is generalizing s r with
  | nil => exact ⟨r, h, rfl, rfl⟩
  | cons i is ih =>
      have hNext := getPassport_step w (step_transition s i)
      rw [h] at hNext
      obtain ⟨r', hLater, hWallet, hCreated⟩ := ih hNext
      exact ⟨r', hLater, hWallet, hCreated⟩

/-! ## The three writers -/

/-- On an existing passport `create_passport` only fails. -/
theorem createPassport_again {s : Store A} {w : A}
    (h : (getPassport s w).isSome = true) (env : Env A) (cid : HostString) :
    machine.step s ⟨env, .createPassport w cid⟩ =
      (.error (if SignedBy (adminOf s) env then .error .passportAlreadyExists
        else refusal .notInitialized (adminOf s)), s) := by
  obtain ⟨r, hr⟩ := Option.isSome_iff_exists.mp h
  show createPassport w cid env s = _
  rw [createPassport_run, hr]
  by_cases hSigned : SignedBy (adminOf s) env
  · rw [if_pos hSigned, if_pos hSigned]
  · rw [if_neg hSigned, if_neg hSigned]

/-- The owner's call keeps every flag. -/
theorem sybilFlagged_updateMetadataCid (s : Store A) (env : Env A) (v w : A)
    (cid : HostString) :
    (getPassport (machine.step s ⟨env, .updateMetadataCid v cid⟩).2 w).map
        PassportRecord.sybilFlagged =
      (getPassport s w).map PassportRecord.sybilFlagged := by
  rcases ownerUpdate_step s env v cid with hSame | ⟨-, r, hr, hPut⟩
  · rw [hSame]
  · rw [hPut, getPassport_putPassport]
    by_cases hw : w = v
    · rw [if_pos hw, hw, hr]
      rfl
    · rw [if_neg hw]

/-- The administrator's flag keeps every CID. -/
theorem ipfsCid_setSybilFlag (s : Store A) (env : Env A) (v w : A)
    (flag : Bool) :
    (getPassport (machine.step s ⟨env, .setSybilFlag v flag⟩).2 w).map
        PassportRecord.ipfsCid =
      (getPassport s w).map PassportRecord.ipfsCid := by
  show (getPassport (setSybilFlag v flag env s).2 w).map _ = _
  rw [setSybilFlag_run]
  by_cases hSigned : SignedBy (adminOf s) env
  · rw [if_pos hSigned]
    cases hPassport : getPassport s v with
    | none => rfl
    | some r =>
        show (getPassport (putPassport s v _) w).map _ = _
        rw [getPassport_putPassport]
        by_cases hw : w = v
        · rw [if_pos hw, hw, hPassport]
          rfl
        · rw [if_neg hw]
  · rw [if_neg hSigned]

omit [DecidableEq A] in
theorem isValid_iff (s : Store A) (w : A) :
    isValid s w = true ↔
      ∃ r, getPassport s w = some r ∧ r.sybilFlagged = false := by
  unfold isValid getPassport
  cases s.persistentTier.get (.passport w) with
  | none => simp
  | some r => simp

/-- **Passport lifecycle.**  The passport of `w` is the replay of the accepted
calls on `w`; it exists exactly from the first accepted creation on and keeps
its wallet and creation time; another creation is rejected and changes
nothing; the owner's and the administrator's writes leave each other's field
alone; and validity is existence without the flag. -/
theorem passport_lifecycle (w : A) (is : List (Invocation A (Call A))) :
    getPassport (machine.run is) w = replay w (machine.history is) ∧
      ((getPassport (machine.run is) w).isSome = true ↔
        ∃ e ∈ machine.history is, (creation w e).isSome = true) ∧
      (∀ js r, getPassport (machine.run is) w = some r →
        ∃ r', getPassport (machine.run (is ++ js)) w = some r' ∧
          r'.wallet = r.wallet ∧ r'.createdAt = r.createdAt) ∧
      (∀ env cid, (getPassport (machine.run is) w).isSome = true →
        machine.step (machine.run is) ⟨env, .createPassport w cid⟩ =
          (.error (if SignedBy (adminOf (machine.run is)) env then
              .error .passportAlreadyExists
            else refusal .notInitialized (adminOf (machine.run is))),
            machine.run is)) ∧
      (∀ env v cid,
        (getPassport (machine.step (machine.run is)
            ⟨env, .updateMetadataCid v cid⟩).2 w).map
            PassportRecord.sybilFlagged =
          (getPassport (machine.run is) w).map PassportRecord.sybilFlagged) ∧
      (∀ env v flag,
        (getPassport (machine.step (machine.run is)
            ⟨env, .setSybilFlag v flag⟩).2 w).map PassportRecord.ipfsCid =
          (getPassport (machine.run is) w).map PassportRecord.ipfsCid) ∧
      (isValid (machine.run is) w = true ↔
        ∃ r, getPassport (machine.run is) w = some r ∧
          r.sybilFlagged = false) := by
  refine ⟨getPassport_run w is, getPassport_isSome_iff w is, ?_,
    fun env cid h => createPassport_again h env cid,
    fun env v cid => sybilFlagged_updateMetadataCid _ env v w cid,
    fun env v flag => ipfsCid_setSybilFlag _ env v w flag,
    isValid_iff _ w⟩
  intro js r hr
  rw [machine.run_append]
  exact getPassport_runFrom w hr js

/-- A passport is created, gets another CID from its owner and a flag from the
administrator, and is not created again. -/
theorem passport_lifecycle_flagged :
    let is : List (Invocation Nat (Call Nat)) :=
      [⟨⟨{0}, 100⟩, .initializeAdmin 0⟩, ⟨⟨{0}, 200⟩, .createPassport 7 [1]⟩,
        ⟨⟨{7}, 300⟩, .updateMetadataCid 7 [2]⟩,
        ⟨⟨{0}, 400⟩, .setSybilFlag 7 true⟩]
    getPassport (machine.run is) 7 = some ⟨7, [2], 200, true⟩ ∧
      isValid (machine.run is) 7 ≠ true ∧
      machine.step (machine.run is) ⟨⟨{0}, 500⟩, .createPassport 7 [3]⟩ =
        (.error (.error .passportAlreadyExists), machine.run is) := by
  intro is
  obtain ⟨hReplay, -, -, hAgain, -, -, hValid⟩ := passport_lifecycle 7 is
  have hPassport : getPassport (machine.run is) 7 =
      some ⟨7, [2], 200, true⟩ := by
    rw [hReplay]
    rfl
  refine ⟨hPassport, ?_, ?_⟩
  · rw [Ne, hValid, hPassport]
    simp
  · exact hAgain ⟨{0}, 500⟩ [3] (by rw [hPassport]; rfl)

end ForgePass.Contracts.Passport

import ForgePass.Contracts.PassportBook
import ForgePass.Verified.Refinement

/-!
# What the passport contract is for

The contract without its storage: once an administrator is installed there is a
book of profiles.  The administrator enters wallets into it and flags them, and
an owner replaces the CID of a profile that is there.
-/

namespace ForgePass.Contracts.Passport

open ForgePass.Verified
open ForgePass.Verified.Machine

variable {A : Type}

/-- The administrator that a call would install. -/
def install (i : Invocation A (Call A)) : Option A :=
  match i.call with
  | .initializeAdmin a => some a
  | _ => none

variable [DecidableEq A]

/-- Without an administrator an owner is still told that there is no
passport. -/
def early (i : Invocation A (Call A)) : Answer :=
  match i.call with
  | .updateMetadataCid w _ =>
      if w ∈ i.env.auths then .error (.error .passportNotFound)
      else .error .trap
  | _ => .error (.error .notInitialized)

/-- Change the profile of `w` if it has one. -/
def amend (book : Book A) (w : A) (f : Profile → Profile) : Answer × Book A :=
  match book w with
  | none => (.error (.error .passportNotFound), book)
  | some p => (.ok (), Function.update book w (some (f p)))

/-- What a call does to the book, under the eye of the administrator `a`. -/
def operate (a : A) (book : Book A) (i : Invocation A (Call A)) :
    Answer × Book A :=
  match i.call with
  | .initializeAdmin _ => (.error (.error .alreadyInitialized), book)
  | .createPassport w cid =>
      if a ∈ i.env.auths then
        if (book w).isSome then (.error (.error .passportAlreadyExists), book)
        else (.ok (), Function.update book w
          (some ⟨cid, i.env.timestamp, false⟩))
      else (.error .trap, book)
  | .updateMetadataCid w cid =>
      if w ∈ i.env.auths then amend book w fun p => { p with ipfsCid := cid }
      else (.error .trap, book)
  | .setSybilFlag w flag =>
      if a ∈ i.env.auths then
        amend book w fun p => { p with sybilFlagged := flag }
      else (.error .trap, book)

/-- The contract as a book of profiles. -/
def registry : Machine (Deployment A (Book A)) (Invocation A (Call A)) Answer :=
  bootstrapped install (.ok ()) early Book.blank operate

/-! ## The contract keeps the book -/

/-- A call in a written book does to storage what it does to the book. -/
theorem step_store (a : A) (book : Book A) (i : Invocation A (Call A)) :
    machine.step (store (.installed a book)) i =
      ((operate a book i).1, store (.installed a (operate a book i).2)) := by
  obtain ⟨env, call⟩ := i
  cases call with
  | initializeAdmin b => exact initializeAdmin_run b env _
  | createPassport w cid =>
      show createPassport w cid env _ = _
      rw [createPassport_run, adminOf_store, getPassport_store]
      by_cases hAuth : a ∈ env.auths
      · cases hGiven : book w with
        | none =>
            simp only [operate, hAuth, signedBy_some, if_true, hGiven]
            exact congrArg (Prod.mk _)
              (putPassport_store a book w ⟨cid, env.timestamp, false⟩)
        | some p => simp [operate, hAuth, hGiven]
      · simp [operate, hAuth, refusal]
  | updateMetadataCid w cid =>
      show updateMetadataCid w cid env _ = _
      rw [updateMetadataCid_run, getPassport_store]
      by_cases hOwner : w ∈ env.auths
      · cases hGiven : book w with
        | none => simp [operate, amend, hOwner, hGiven]
        | some p =>
            simp only [operate, amend, hOwner, if_true, hGiven]
            exact congrArg (Prod.mk _)
              (putPassport_store a book w { p with ipfsCid := cid })
      · simp [operate, hOwner]
  | setSybilFlag w flag =>
      show setSybilFlag w flag env _ = _
      rw [setSybilFlag_run, adminOf_store, getPassport_store]
      by_cases hAuth : a ∈ env.auths
      · cases hGiven : book w with
        | none => simp [operate, amend, hAuth, hGiven]
        | some p =>
            simp only [operate, amend, hAuth, signedBy_some, if_true, hGiven]
            exact congrArg (Prod.mk _)
              (putPassport_store a book w { p with sybilFlagged := flag })
      · simp [operate, hAuth, refusal]

theorem step_early (i : Invocation A (Call A)) (h : install i = none) :
    machine.step machine.init i = (early i, machine.init) := by
  obtain ⟨env, call⟩ := i
  cases call with
  | initializeAdmin b => cases h
  | createPassport w cid => exact createPassport_run w cid env _
  | updateMetadataCid w cid =>
      show updateMetadataCid w cid env _ = _
      rw [updateMetadataCid_run]
      by_cases hOwner : w ∈ env.auths
      · simp [early, hOwner, machine, guestMachine, getPassport]
      · simp [early, hOwner, machine, guestMachine]
  | setSybilFlag w flag => exact setSybilFlag_run w flag env _

theorem refines_registry : Refines machine (registry (A := A)) Any
    (Stands machine.init fun a s book => s = store (.installed a book)) := by
  apply Refines.bootstrapped step_early
  · rintro ⟨env, call⟩ a hBoot
    cases call with
    | initializeAdmin b =>
        obtain rfl : b = a := Option.some.inj hBoot
        exact ⟨rfl, setAdmin_empty b⟩
    | createPassport w cid => cases hBoot
    | updateMetadataCid w cid => cases hBoot
    | setSybilFlag w flag => cases hBoot
  · rintro a s book i - rfl
    rw [step_store]
    exact ⟨rfl, rfl⟩

/-- What readers return is read off the book. -/
structure Reads (s : Store A) (d : Deployment A (Book A)) : Prop where
  admin : adminOf s = d.admin?
  passport : ∀ w, getPassport s w =
    (d.content Book.blank w).map (Profile.record · w)
  valid : ∀ w, isValid s w = true ↔
    ∃ p, d.content Book.blank w = some p ∧ p.sybilFlagged = false

omit [DecidableEq A] in
theorem isValid_iff_profile {s : Store A} {w : A} {x : Option Profile}
    (h : getPassport s w = x.map (Profile.record · w)) :
    isValid s w = true ↔ ∃ p, x = some p ∧ p.sybilFlagged = false := by
  unfold isValid
  unfold getPassport at h
  rw [h]
  cases x with
  | none => simp
  | some p => simp [Profile.record]

theorem reads_of_stands {s : Store A} {d : Deployment A (Book A)}
    (h : Stands machine.init (fun a s book => s = store (.installed a book)) s
      d) : Reads s d := by
  cases d with
  | fresh =>
      obtain rfl : s = machine.init := h
      exact ⟨rfl, fun w => rfl, fun w => isValid_iff_profile rfl⟩
  | installed a book =>
      obtain rfl : s = store (.installed a book) := h
      exact ⟨rfl, fun w => rfl, fun w => isValid_iff_profile rfl⟩

end ForgePass.Contracts.Passport

import ForgePass.Contracts.PassportSpec

/-!
# The size of stored CIDs

The file header of the contract says that both CID-writing calls reject an
empty CID and one of more than 100 characters.  Neither looks at the length.
So stored CIDs are well-sized, and ill-sized ones rejected, exactly as long as
every call that passes its other checks carries a well-sized CID.
-/

namespace ForgePass.Contracts.Passport

open ForgePass.Verified

variable {A : Type}

/-- Of 1 to 100 bytes: the length of a host string counts the bytes of its UTF-8
form, which are its characters as long as it is plain ASCII. -/
def WellSized (cid : HostString) : Prop := cid ≠ [] ∧ cid.length ≤ 100

instance : DecidablePred WellSized := fun cid =>
  inferInstanceAs (Decidable (cid ≠ [] ∧ cid.length ≤ 100))

/-- The CID a call asks to store, if any. -/
def Call.cid? : Call A → Option HostString
  | .initializeAdmin _ => none
  | .createPassport _ cid => some cid
  | .updateMetadataCid _ cid => some cid
  | .setSybilFlag _ _ => none

/-- Every stored CID is well-sized. -/
def AllWellSized (s : Store A) : Prop :=
  ∀ w r, getPassport s w = some r → WellSized r.ipfsCid

variable [DecidableEq A]

/-- A call with an ill-sized CID fails and leaves storage as it was. This is
what the file header promises of both calls that write a CID. -/
def RejectsIllSized (s : Store A) (i : Invocation A (Call A)) : Prop :=
  ∀ cid ∈ i.call.cid?, ¬WellSized cid →
    (∃ e, (machine.step s i).1 = .error e) ∧ (machine.step s i).2 = s

/-- A call that passes the checks the contract does make, authorisation and
existence, carries a well-sized CID. -/
def CarriesWellSized (s : Store A) (i : Invocation A (Call A)) : Prop :=
  match i.call with
  | .initializeAdmin _ => True
  | .createPassport w cid =>
      SignedBy (adminOf s) i.env ∧ getPassport s w = none → WellSized cid
  | .updateMetadataCid w cid =>
      w ∈ i.env.auths ∧ getPassport s w ≠ none → WellSized cid
  | .setSybilFlag _ _ => True

/-! ## One call -/

/-- A call is rejected for its CID only if it does not pass the checks. -/
theorem rejectsIllSized_iff (s : Store A) (i : Invocation A (Call A)) :
    RejectsIllSized s i ↔ CarriesWellSized s i := by
  obtain ⟨env, call⟩ := i
  cases call with
  | initializeAdmin a =>
      constructor
      · intro h
        trivial
      · intro h cid hCid
        cases hCid
  | setSybilFlag w flag =>
      constructor
      · intro h
        trivial
      · intro h cid hCid
        cases hCid
  | createPassport w cid =>
      have hRun : machine.step s ⟨env, .createPassport w cid⟩ =
          createPassport w cid env s := rfl
      simp only [RejectsIllSized, CarriesWellSized, Call.cid?, hRun,
        createPassport_run, Option.mem_def, Option.some.injEq, forall_eq']
      by_cases hSigned : SignedBy (adminOf s) env
      · cases hPassport : getPassport s w with
        | none => simp [hSigned]
        | some r => simp [hSigned]
      · simp [hSigned]
  | updateMetadataCid w cid =>
      have hRun : machine.step s ⟨env, .updateMetadataCid w cid⟩ =
          updateMetadataCid w cid env s := rfl
      simp only [RejectsIllSized, CarriesWellSized, Call.cid?, hRun,
        updateMetadataCid_run, Option.mem_def, Option.some.injEq, forall_eq']
      by_cases hOwner : w ∈ env.auths
      · cases hPassport : getPassport s w with
        | none => simp [hOwner]
        | some r => simp [hOwner]
      · simp [hOwner]

/-- Writing a record with a well-sized CID keeps all CIDs well-sized. -/
theorem AllWellSized.putPassport {s : Store A} (h : AllWellSized s) (w : A)
    {r : PassportRecord A} (hCid : WellSized r.ipfsCid) :
    AllWellSized (putPassport s w r) := by
  intro v r' hr'
  rw [getPassport_putPassport] at hr'
  by_cases hv : v = w
  · rw [if_pos hv, Option.some.injEq] at hr'
    rw [← hr']
    exact hCid
  · rw [if_neg hv] at hr'
    exact h v r' hr'

/-- One call that carries a well-sized CID keeps all CIDs well-sized. -/
theorem allWellSized_step {s s' : Store A} {i : Invocation A (Call A)}
    {answer : Answer} (hStep : Transition s i answer s')
    (hCid : CarriesWellSized s i) (h : AllWellSized s) : AllWellSized s' := by
  cases hStep with
  | refused i e => exact h
  | initialized env a hAdmin =>
      intro w r hr
      rw [getPassport_setAdmin] at hr
      exact h w r hr
  | created env w cid hSigned hNone =>
      exact h.putPassport w (hCid ⟨hSigned, hNone⟩)
  | updated env w cid r hOwner hSome =>
      have hExists : getPassport s w ≠ none := by
        rw [hSome]
        exact Option.some_ne_none r
      exact h.putPassport w (hCid ⟨hOwner, hExists⟩)
  | flagged env w flag r hSigned hSome => exact h.putPassport w (h w r hSome)

/-! ## Whole runs -/

/-- **CID sizes.**  Along a run all stored CIDs are well-sized and every
ill-sized one is rejected, if and only if every call that passes the checks of
the contract carries a well-sized CID. -/
theorem cids_wellSized_iff (is : List (Invocation A (Call A))) :
    machine.Along AllWellSized is ∧ machine.Each RejectsIllSized is ↔
      machine.Each CarriesWellSized is := by
  constructor
  · rintro ⟨-, hRejects⟩
    exact hRejects.imp fun p i => (rejectsIllSized_iff _ i).mp
  · intro hCarries
    refine ⟨hCarries.along ?_ ?_, ?_⟩
    · intro w r hr
      cases hr
    · intro s i hCid h
      exact allWellSized_step (step_transition s i) hCid h
    · exact hCarries.imp fun p i => (rejectsIllSized_iff _ i).mpr

/-- An empty CID is stored. -/
theorem empty_cid_stored :
    ¬∀ is : List (Invocation Nat (Call Nat)),
      machine.Along AllWellSized is ∧ machine.Each RejectsIllSized is := by
  intro h
  have hSized := (h [⟨⟨{0}, 100⟩, .initializeAdmin 0⟩,
    ⟨⟨{0}, 100⟩, .createPassport 7 []⟩]).1.final
  have hEmpty := hSized 7 ⟨7, [], 100, false⟩ (by decide)
  exact hEmpty.1 rfl

end ForgePass.Contracts.Passport

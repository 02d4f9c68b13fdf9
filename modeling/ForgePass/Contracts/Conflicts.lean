import ForgePass.Contracts.MintBook
import ForgePass.Contracts.PassportRegistry
import ForgePass.Contracts.ScoreBook
import ForgePass.Verified.Cells

/-!
# Calls whose order matters

Two calls *clash* in a state if sending them in the other order would show,
in an answer or in storage.  Passports and scores are kept in one cell for each
wallet, so calls can clash only when both are let in and are about one wallet;
what happens in the cell is settled by the cases below.  Mints share one
counter, and clash whenever both would issue a badge.

The two calls are taken to be executed at one time.  A call that gives a passport
also writes the time of its ledger down, and what that does to its order with
others is said in `ForgePass.Contracts.Interleaving`.
-/

namespace ForgePass.Contracts

open ForgePass.Verified
open ForgePass.Verified.Machine

namespace Passport

variable {A : Type}

/-- What a call that is let in asks of the profile of its wallet. -/
inductive Operation where
  | create (ipfsCid : HostString) (createdAt : UInt64)
  | publish (newCid : HostString)
  | flag (flagged : Bool)

/-- The wallet a call is about. -/
def subject : Call A → A
  | .initializeAdmin a => a
  | .createPassport w _ => w
  | .updateMetadataCid w _ => w
  | .setSybilFlag w _ => w

/-- The operations on one profile. -/
def profileMachine : Machine (Option Profile) Operation Answer where
  init := none
  step
    | none, .create cid time => (.ok (), some ⟨cid, time, false⟩)
    | none, .publish _ => (.error (.error .passportNotFound), none)
    | none, .flag _ => (.error (.error .passportNotFound), none)
    | some p, .create _ _ => (.error (.error .passportAlreadyExists), some p)
    | some p, .publish cid => (.ok (), some { p with ipfsCid := cid })
    | some p, .flag flag => (.ok (), some { p with sybilFlagged := flag })

/-- Operations on one profile whose order matters; `given` says whether the
wallet has one. -/
def Operation.Clash (given : Bool) : Operation → Operation → Prop
  | .publish cid, .publish cid' => given = true ∧ cid ≠ cid'
  | .flag b, .flag b' => given = true ∧ b ≠ b'
  | .publish _, .flag _ => False
  | .flag _, .publish _ => False
  -- one of the two is a creation
  | _, _ => given = false

/-- The table of the passport: two operations on one profile commute exactly if
they do not clash, case by case. -/
theorem profile_commutes_iff (x : Option Profile) (o o' : Operation) :
    profileMachine.Commutes x o o' ↔ ¬o.Clash x.isSome o' := by
  rw [commutes_iff]
  -- the answers tell a creation from the other operation, the profile left
  -- behind tells two CIDs or two flags apart
  cases x <;> cases o <;> cases o' <;>
    simp [profileMachine, Operation.Clash, eq_comm]

variable [DecidableEq A]

/-- The operation of a call that administrator `a`, or for a CID the owner,
authorised. -/
def operation (a : A) (i : Invocation A (Call A)) : Option Operation :=
  match i.call with
  | .initializeAdmin _ => none
  | .createPassport _ cid =>
      if a ∈ i.env.auths then some (.create cid i.env.timestamp) else none
  | .updateMetadataCid w cid =>
      if w ∈ i.env.auths then some (.publish cid) else none
  | .setSybilFlag _ flag =>
      if a ∈ i.env.auths then some (.flag flag) else none

/-- The calls are let in, address one passport, and their order shows there.
Which pairs of operations show their order depends on whether the wallet has a
passport yet. -/
def Clash (s : Store A) (i j : Invocation A (Call A)) : Prop :=
  ∃ a o o', adminOf s = some a ∧ operation a i = some o ∧
    operation a j = some o' ∧ subject i.call = subject j.call ∧
    o.Clash (getPassport s (subject i.call)).isSome o'

/-- The operation in the ledger of another time. -/
def Operation.retimed (now : UInt64) : Operation → Operation
  | .create cid _ => .create cid now
  | .publish cid => .publish cid
  | .flag b => .flag b

/-- Executing a call at another time changes the date of the operation and no
more. -/
theorem operation_retimed (a : A) (i : Invocation A (Call A)) (now : UInt64) :
    operation a (i.retimed now) =
      (operation a i).map (Operation.retimed now) := by
  obtain ⟨env, call⟩ := i
  unfold operation Invocation.retimed
  cases call with
  | initializeAdmin b => rfl
  | createPassport w cid =>
      by_cases hAuth : a ∈ env.auths
      · simp [hAuth, Operation.retimed]
      · simp [hAuth]
  | updateMetadataCid w cid =>
      by_cases hAuth : w ∈ env.auths
      · simp [hAuth, Operation.retimed]
      · simp [hAuth]
  | setSybilFlag w b =>
      by_cases hAuth : a ∈ env.auths
      · simp [hAuth, Operation.retimed]
      · simp [hAuth]

omit [DecidableEq A] in
/-- Whether two operations clash does not depend on when they are executed. -/
theorem operation_clash_retimed (given : Bool) (o o' : Operation)
    (now : UInt64) :
    (o.retimed now).Clash given (o'.retimed now) ↔ o.Clash given o' := by
  cases o <;> cases o' <;> rfl

/-- When the calls are executed does not decide whether they clash. -/
theorem clash_retimed_iff (s : Store A) (i j : Invocation A (Call A))
    (now : UInt64) : Clash s (i.retimed now) (j.retimed now) ↔ Clash s i j := by
  unfold Clash
  simp only [operation_retimed, Option.map_eq_some_iff]
  constructor
  · rintro ⟨a, _, _, hAdmin, ⟨o, ho, rfl⟩, ⟨o', ho', rfl⟩, hSubject, hClash⟩
    exact ⟨a, o, o', hAdmin, ho, ho', hSubject,
      (operation_clash_retimed _ o o' now).mp hClash⟩
  · rintro ⟨a, o, o', hAdmin, ho, ho', hSubject, hClash⟩
    exact ⟨a, _, _, hAdmin, ⟨o, ho, rfl⟩, ⟨o', ho', rfl⟩, hSubject,
      (operation_clash_retimed _ o o' now).mpr hClash⟩

/-- A call that is not let in changes nothing, and is answered alike whatever
the book. -/
theorem step_idle {a : A} {i : Invocation A (Call A)}
    (hIdle : operation a i = none) : ∃ answer, ∀ book,
      machine.step (store (.installed a book)) i =
        (answer, store (.installed a book)) := by
  obtain ⟨env, call⟩ := i
  cases call with
  | initializeAdmin b => exact ⟨_, fun book => step_store a book _⟩
  | createPassport w cid =>
      have hNot : a ∉ env.auths := by simpa [operation] using hIdle
      refine ⟨.error .trap, fun book => ?_⟩
      rw [step_store]
      simp [operate, hNot]
  | updateMetadataCid w cid =>
      have hNot : w ∉ env.auths := by simpa [operation] using hIdle
      refine ⟨.error .trap, fun book => ?_⟩
      rw [step_store]
      simp [operate, hNot]
  | setSybilFlag w flag =>
      have hNot : a ∉ env.auths := by simpa [operation] using hIdle
      refine ⟨.error .trap, fun book => ?_⟩
      rw [step_store]
      simp [operate, hNot]

theorem update_of_get {book : Book A} {w : A} {x : Option Profile}
    (hGiven : book w = x) : Function.update book w x = book := by
  rw [← hGiven, Function.update_eq_self]

/-- A call that is let in does its operation on one profile. -/
theorem operate_operation {a : A} {i : Invocation A (Call A)} {o : Operation}
    (hActs : operation a i = some o) (book : Book A) :
    operate a book i =
      ((profileMachine.step (book (subject i.call)) o).1,
        Function.update book (subject i.call)
          (profileMachine.step (book (subject i.call)) o).2) := by
  obtain ⟨env, call⟩ := i
  cases call with
  | initializeAdmin b => cases hActs
  | createPassport w cid =>
      obtain ⟨hAuth, rfl⟩ : a ∈ env.auths ∧ .create cid env.timestamp = o := by
        simpa [operation] using hActs
      cases hGiven : book w with
      | none => simp [operate, hAuth, subject, profileMachine, hGiven]
      | some p =>
          simp [operate, hAuth, subject, profileMachine, hGiven,
            update_of_get hGiven]
  | updateMetadataCid w cid =>
      obtain ⟨hAuth, rfl⟩ : w ∈ env.auths ∧ .publish cid = o := by
        simpa [operation] using hActs
      cases hGiven : book w with
      | none =>
          simp [operate, amend, hAuth, subject, profileMachine, hGiven,
            update_of_get hGiven]
      | some p => simp [operate, amend, hAuth, subject, profileMachine, hGiven]
  | setSybilFlag w flag =>
      obtain ⟨hAuth, rfl⟩ : a ∈ env.auths ∧ .flag flag = o := by
        simpa [operation] using hActs
      cases hGiven : book w with
      | none =>
          simp [operate, amend, hAuth, subject, profileMachine, hGiven,
            update_of_get hGiven]
      | some p => simp [operate, amend, hAuth, subject, profileMachine, hGiven]

/-- The passport contract is a family of profiles, one for each wallet, each
moved by the calls on its wallet alone. -/
theorem celled (a : A) :
    Celled machine (fun i => subject i.call) (operation a) profileMachine
      (fun book => store (.installed a book)) where
  injective := by
    intro book book' h
    funext w
    exact Option.map_injective (record_injective w)
      (congrArg (getPassport · w) h)
  idle _ hIdle := step_idle hIdle
  acts _ _ hActs book := by
    rw [step_store, operate_operation hActs]

/-- **Passport calls that clash.** In a reachable state with an administrator
two calls, executed at the times they carry, can change places exactly if they
do not clash. -/
theorem commutes_iff_not_clash {is : List (Invocation A (Call A))} {a : A}
    (hAdmin : adminOf (machine.run is) = some a) (i j : Invocation A (Call A)) :
    machine.Commutes (machine.run is) i j ↔ ¬Clash (machine.run is) i j := by
  obtain ⟨c, hc⟩ := run_store is
  rw [hc] at hAdmin ⊢
  cases c with
  | fresh => cases hAdmin
  | installed b book =>
      obtain rfl : b = a := Option.some.inj hAdmin
      have hCells := (celled b).commutes_iff book i j
      simp only [profile_commutes_iff] at hCells
      rw [hCells]
      unfold Clash
      simp only [hAdmin, getPassport_store, Option.isSome_map]
      grind

end Passport

namespace TrustScore

variable {A : Type}

/-- A score that may be anchored. -/
abbrev ValidScore := {snap : ScoreSnapshot // snap.score ≤ 100}

/-- The wallet a call is about. -/
def subject : Call A → A
  | .initializeAdmin a => a
  | .anchorScore w _ _ _ _ => w

/-- Scores pushed into one window. -/
def windowMachine : Machine Window ValidScore Answer where
  init := .blank
  step x snap := (.ok (), x.push snap.1 snap.2)

/-- The score pushed last is last, so scores commute only with themselves. -/
theorem window_commutes_iff (x : Window) (snap snap' : ValidScore) :
    windowMachine.Commutes x snap snap' ↔ snap = snap' := by
  constructor
  · intro h
    have hScores : ((x.push _ snap.2).push _ snap'.2).scores.getLast? =
        ((x.push _ snap'.2).push _ snap.2).scores.getLast? :=
      congrArg (fun y : Window => y.scores.getLast?) h.state
    simp only [Window.push, pushCapped, List.getLast?_concat,
      Option.some.injEq] at hScores
    exact Subtype.ext hScores.symm
  · rintro rfl
    exact ⟨rfl, rfl, rfl⟩

variable [DecidableEq A]

/-- The score that a call authorised by administrator `a` pushes. -/
def operation (a : A) (i : Invocation A (Call A)) : Option ValidScore :=
  match i.call with
  | .initializeAdmin _ => none
  | .anchorScore _ score version hash time =>
      if h : a ∈ i.env.auths ∧ score ≤ 100 then
        some ⟨⟨score, version, hash, time⟩, h.2⟩
      else none

/-- Different valid scores are pushed for one wallet. Equal ones may change
places: the window holds the same snapshots either way. -/
def Clash (s : Store A) (i j : Invocation A (Call A)) : Prop :=
  ∃ a snap snap', adminOf s = some a ∧ operation a i = some snap ∧
    operation a j = some snap' ∧ subject i.call = subject j.call ∧
    snap ≠ snap'

/-- A call that is not let in is answered alike in every state of the windows
and moves none of them. -/
theorem step_idle {a : A} {i : Invocation A (Call A)}
    (hIdle : operation a i = none) : ∃ answer, ∀ book,
      machine.step (store (.installed a book)) i =
        (answer, store (.installed a book)) := by
  obtain ⟨env, call⟩ := i
  cases call with
  | initializeAdmin b =>
      exact ⟨_, fun book => initializeAdmin_run b env _⟩
  | anchorScore w score version hash time =>
      by_cases hAuth : a ∈ env.auths
      · have hScore : ¬score ≤ 100 := by
          simpa [operation, hAuth] using hIdle
        refine ⟨.error (.error .invalidScore), fun book => ?_⟩
        rw [step_anchorScore, if_pos hAuth, dif_neg hScore]
      · refine ⟨.error .trap, fun book => ?_⟩
        rw [step_anchorScore, if_neg hAuth]

/-- A call that is let in moves the window of its wallet as the window machine
does. -/
theorem step_operation {a : A} {i : Invocation A (Call A)}
    {snap : ValidScore} (hActs : operation a i = some snap) (book : Book A) :
    machine.step (store (.installed a book)) i =
      ((windowMachine.step (book (subject i.call)) snap).1,
        store (.installed a (Function.update book (subject i.call)
          (windowMachine.step (book (subject i.call)) snap).2))) := by
  obtain ⟨env, call⟩ := i
  cases call with
  | initializeAdmin b => cases hActs
  | anchorScore w score version hash time =>
      obtain ⟨⟨hAuth, hScore⟩, rfl⟩ : ∃ h : a ∈ env.auths ∧ score ≤ 100,
          ⟨⟨score, version, hash, time⟩, h.2⟩ = snap := by
        simpa [operation] using hActs
      rw [step_anchorScore, if_pos hAuth, dif_pos hScore]
      rfl

/-- The trust-score contract is a family of windows, one for each wallet. -/
theorem celled (a : A) :
    Celled machine (fun i => subject i.call) (operation a) windowMachine
      (fun book => store (.installed a book)) where
  injective := by
    intro book book' h
    funext w
    have hScores : getScoreHistory (store (.installed a book)) w =
        getScoreHistory (store (.installed a book')) w :=
      congrArg (getScoreHistory · w) h
    rw [getScoreHistory_store, getScoreHistory_store] at hScores
    exact Window.ext hScores
  idle _ hIdle := step_idle hIdle
  acts _ _ hActs book := step_operation hActs book

/-- **Score calls that clash.** Two calls can change places exactly if they do
not push different valid scores for one wallet. -/
theorem commutes_iff_not_clash {is : List (Invocation A (Call A))} {a : A}
    (hAdmin : adminOf (machine.run is) = some a) (i j : Invocation A (Call A)) :
    machine.Commutes (machine.run is) i j ↔ ¬Clash (machine.run is) i j := by
  obtain ⟨c, hc⟩ := run_store is
  rw [hc] at hAdmin ⊢
  cases c with
  | fresh => cases hAdmin
  | installed b book =>
      obtain rfl : b = a := Option.some.inj hAdmin
      have hCells := (celled b).commutes_iff book i j
      simp only [window_commutes_iff] at hCells
      rw [hCells]
      unfold Clash
      simp only [hAdmin]
      grind

end TrustScore

namespace SoulboundNft

variable {A M : Type} [DecidableEq A] [DecidableEq M]

/-- The badge, with the number it would get, that a call would issue in the
given state, if it would issue one. -/
def issues (s : Store A M) (i : Invocation A (Call A M)) :
    Option (BadgeRecord A M) :=
  match i.call with
  | .initializeAdmin _ => none
  | .mint w m cid time =>
      if SignedBy (adminOf s) i.env ∧ hasBadge s w m = false then
        some ⟨badgeCounter s + 1, w, m, cid, time⟩
      else none

/-- Both calls would issue a badge, to whichever wallets: the number that each
gets tells which of them came first. -/
def Clash (s : Store A M) (i j : Invocation A (Call A M)) : Prop :=
  (issues s i).isSome ∧ (issues s j).isSome

/-- No call takes a badge away. -/
theorem hasBadge_step {s : Store A M} {w : A} {m : M}
    (hHeld : hasBadge s w m = true) (j : Invocation A (Call A M)) :
    hasBadge (machine.step s j).2 w m = true := by
  have hStep := step_transition s j
  generalize (machine.step s j).1 = answer at hStep
  generalize (machine.step s j).2 = s' at hStep
  cases hStep with
  | refused i e => exact hHeld
  | initialized env b hAdmin => rw [hasBadge_setAdmin, hHeld]
  | minted env v n cid time hSigned hFresh =>
      rw [hasBadge_issueBadge, hHeld, Bool.or_true]

/-- A call that issues nothing fails, and fails alike after any other. -/
theorem step_idle {s : Store A M} {a : A} {i : Invocation A (Call A M)}
    (hAdmin : adminOf s = some a) (hIdle : issues s i = none)
    (j : Invocation A (Call A M)) :
    ∃ e, machine.step s i = (.error e, s) ∧
      machine.step (machine.step s j).2 i =
        (.error e, (machine.step s j).2) := by
  have hLater := adminGuarded.keeps hAdmin j
  obtain ⟨env, call⟩ := i
  cases call with
  | initializeAdmin b =>
      refine ⟨.error .alreadyInitialized, ?_, ?_⟩
      · rw [step_initializeAdmin, if_pos (by simp [hAdmin])]
      · rw [step_initializeAdmin, if_pos (by simp [hLater])]
  | mint w m cid time =>
      by_cases hAuth : a ∈ env.auths
      · have hHeld : hasBadge s w m = true := by
          simpa [issues, hAdmin, hAuth] using hIdle
        refine ⟨.error .badgeAlreadyMinted, ?_, ?_⟩
        · rw [step_mint, hAdmin, if_pos (by simpa using hAuth), if_pos hHeld]
        · rw [step_mint, hLater, if_pos (by simpa using hAuth),
            if_pos (hasBadge_step hHeld j)]
      · refine ⟨.trap, ?_, ?_⟩
        · rw [step_mint, hAdmin, if_neg (by simpa using hAuth)]
          rfl
        · rw [step_mint, hLater, if_neg (by simpa using hAuth)]
          rfl

/-- A badge is issued under the number after the counter, and only once. -/
theorem step_issues {s : Store A M} {i : Invocation A (Call A M)}
    {r : BadgeRecord A M} (hIssues : issues s i = some r) :
    machine.step s i = (.ok (.badgeId (badgeCounter s + 1)), issueBadge s r) ∧
      r.badgeId = badgeCounter s + 1 := by
  obtain ⟨env, call⟩ := i
  cases call with
  | initializeAdmin b => cases hIssues
  | mint w m cid time =>
      obtain ⟨⟨hSigned, hFresh⟩, rfl⟩ :
          (SignedBy (adminOf s) env ∧ hasBadge s w m = false) ∧
            ⟨badgeCounter s + 1, w, m, cid, time⟩ = r := by
        simpa [issues] using hIssues
      rw [step_mint, if_pos hSigned, hFresh]
      exact ⟨rfl, rfl⟩

/-- What a mint answers is the number after the counter, or no number. -/
theorem answer_eq_next {s : Store A M} {i : Invocation A (Call A M)}
    {id : UInt64} (h : (machine.step s i).1 = .ok (.badgeId id)) :
    id = badgeCounter s + 1 := by
  have hStep := step_transition s i
  rw [h] at hStep
  generalize (machine.step s i).2 = s' at hStep
  cases hStep with
  | minted env w m cid time hSigned hFresh => rfl

/-- **Mints that clash.** Two calls can change places exactly if not both would
issue a badge, whatever wallets they are about; the state need not be
reachable. -/
theorem commutes_iff_not_clash {s : Store A M} {a : A}
    (hAdmin : adminOf s = some a) (i j : Invocation A (Call A M)) :
    machine.Commutes s i j ↔ ¬Clash s i j := by
  unfold Clash
  cases hi : issues s i with
  | none =>
      obtain ⟨e, hNow, hLater⟩ := step_idle hAdmin hi j
      have hCommutes : machine.Commutes s i j :=
        .of_idle (by rw [hNow]) (by rw [hNow, hLater])
      simp [hCommutes]
  | some r =>
      cases hj : issues s j with
      | none =>
          obtain ⟨e, hNow, hLater⟩ := step_idle hAdmin hj i
          have hCommutes : machine.Commutes s j i :=
            .of_idle (by rw [hNow]) (by rw [hNow, hLater])
          simp [hCommutes.symm]
      | some r' =>
          -- after `j` the number that `i` would have got is taken
          simp only [Option.isSome_some, and_self, not_true_eq_false, iff_false]
          intro hCommutes
          have hFirst := hCommutes.first
          rw [(step_issues hi).1] at hFirst
          have hNext := answer_eq_next hFirst
          rw [(step_issues hj).1, badgeCounter_issueBadge,
            (step_issues hj).2] at hNext
          simp at hNext

end SoulboundNft

end ForgePass.Contracts

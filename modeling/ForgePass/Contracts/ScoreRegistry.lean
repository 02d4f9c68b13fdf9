import ForgePass.Contracts.ScoreBook
import ForgePass.Verified.Refinement

/-!
# What the trust-score contract is for

The contract without its storage, and without its cap: it is told scores and
forgets none.  What it stores of a wallet is the window of the last 50.
-/

namespace ForgePass.Contracts.TrustScore

open ForgePass.Verified
open ForgePass.Verified.Machine

variable {A : Type}

/-- Every score anchored, by wallet. Nothing is forgotten here; the contract
remembers the last fifty. -/
abbrev Log (A : Type) := A → List ScoreSnapshot

/-- The administrator that a call would install. -/
def install (i : Invocation A (Call A)) : Option A :=
  match i.call with
  | .initializeAdmin a => some a
  | _ => none

variable [DecidableEq A]

/-- What a call does to the log, under the eye of the administrator `a`. -/
def operate (a : A) (log : Log A) (i : Invocation A (Call A)) :
    Answer × Log A :=
  match i.call with
  | .initializeAdmin _ => (.error (.error .alreadyInitialized), log)
  | .anchorScore w score version hash time =>
      if a ∈ i.env.auths then
        if score ≤ 100 then
          (.ok (), Function.update log w
            (log w ++ [⟨score, version, hash, time⟩]))
        else (.error (.error .invalidScore), log)
      else (.error .trap, log)

/-- The contract as a log of scores. -/
def registry : Machine (Deployment A (Log A)) (Invocation A (Call A)) Answer :=
  bootstrapped install (.ok ()) (fun _ => .error (.error .notInitialized))
    (fun _ => []) operate

/-! ## The contract keeps the window -/

/-- The windows that are left of a log. -/
def Windows (log : Log A) (book : Book A) : Prop :=
  ∀ w, (book w).scores = lastN 50 (log w)

omit [DecidableEq A] in
theorem windows_blank : Windows (A := A) (fun _ => []) Book.blank :=
  fun _ => rfl

theorem Windows.push {log : Log A} {book : Book A} (h : Windows log book)
    (w : A) (snap : ScoreSnapshot) (hValid : snap.score ≤ 100) :
    Windows (Function.update log w (log w ++ [snap]))
      (Function.update book w ((book w).push snap hValid)) := by
  intro v
  by_cases hv : v = w
  · subst hv
    rw [Function.update_self, Function.update_self]
    show pushCapped 50 (book v).scores snap = lastN 50 (log v ++ [snap])
    rw [h v, pushCapped_lastN (by decide)]
  · rw [Function.update_of_ne hv, Function.update_of_ne hv]
    exact h v

theorem step_log {a : A} {log : Log A} {book : Book A}
    (h : Windows log book) (i : Invocation A (Call A)) :
    Related Eq
      (fun s log => ∃ book, Windows log book ∧ s = store (.installed a book))
      (machine.step (store (.installed a book)) i) (operate a log i) := by
  obtain ⟨env, call⟩ := i
  cases call with
  | initializeAdmin b => exact ⟨rfl, book, h, rfl⟩
  | anchorScore w score version hash time =>
      rw [step_anchorScore]
      refine .ite (fun _ => ?_) fun _ => ⟨rfl, book, h, rfl⟩
      by_cases hScore : score ≤ 100
      · rw [dif_pos hScore, if_pos hScore]
        exact ⟨rfl, _, h.push w _ hScore, rfl⟩
      · rw [dif_neg hScore, if_neg hScore]
        exact ⟨rfl, book, h, rfl⟩

theorem refines_registry : Refines machine (registry (A := A)) Any
    (Stands machine.init fun a s log =>
      ∃ book, Windows log book ∧ s = store (.installed a book)) := by
  apply Refines.bootstrapped
  · rintro ⟨env, call⟩ hBoot
    cases call with
    | initializeAdmin b => cases hBoot
    | anchorScore w score version hash time =>
        exact anchorScore_run w score version hash time env _
  · rintro ⟨env, call⟩ a hBoot
    cases call with
    | initializeAdmin b =>
        obtain rfl : b = a := Option.some.inj hBoot
        exact ⟨rfl, Book.blank, windows_blank, setAdmin_empty b⟩
    | anchorScore w score version hash time => cases hBoot
  · rintro a s log i - ⟨book, hWindows, rfl⟩
    exact step_log hWindows i

/-- What readers return is read off the log. -/
structure Reads (s : Store A) (d : Deployment A (Log A)) : Prop where
  admin : adminOf s = d.admin?
  history : ∀ w, getScoreHistory s w = lastN 50 (d.content (fun _ => []) w)
  score : ∀ w, getCurrentScore s w = (d.content (fun _ => []) w).getLast?

theorem reads_of_stands {s : Store A} {d : Deployment A (Log A)}
    (h : Stands machine.init (fun a s log =>
      ∃ book, Windows log book ∧ s = store (.installed a book)) s d) :
    Reads s d := by
  cases d with
  | fresh =>
      obtain rfl : s = machine.init := h
      exact ⟨rfl, fun w => rfl, fun w => rfl⟩
  | installed a log =>
      obtain ⟨book, hWindows, rfl⟩ := h
      refine ⟨rfl, fun w => ?_, fun w => ?_⟩
      · rw [getScoreHistory_store, hWindows w]
        rfl
      · rw [getCurrentScore_store, hWindows w, getLast?_lastN (by decide)]
        rfl

end ForgePass.Contracts.TrustScore

import ForgePass.Contracts.TrustScoreSpec
import ForgePass.Verified.Evolution

/-!
# The reachable score stores

The contract is for keeping, for each wallet, a window of its most recent
scores.  A `Window` cannot be built too long or with a score over 100, and
`store` writes the windows of all wallets into the keys of the contract: the
history, with its last entry and its length mirrored in the instance tier.
Every storage a run reaches is written so.  Which window can follow which is
settled by two cases: until it is full a window only grows at its end, and a
full window can be replaced by any other.
-/

namespace ForgePass.Contracts.TrustScore

open ForgePass.Verified
open ForgePass.Verified.Machine

variable {A : Type}

/-- The scores remembered of one wallet, oldest first: at most fifty, each of
them valid. Both bounds come with the list. -/
@[ext] structure Window where
  scores : List ScoreSnapshot
  capped : scores.length ≤ 50
  valid : ∀ snap ∈ scores, snap.score ≤ 100

namespace Window

/-- No score was anchored. -/
def blank : Window := ⟨[], by decide, by simp⟩

/-- Remember one more score; of fifty the oldest is forgotten. The date of the
score is not looked at. -/
def push (x : Window) (snap : ScoreSnapshot) (h : snap.score ≤ 100) : Window where
  scores := pushCapped 50 x.scores snap
  capped := length_pushCapped_le (by decide) x.capped snap
  valid := by
    intro other hMem
    rcases mem_pushCapped hMem with hOld | rfl
    · exact x.valid other hOld
    · exact h

/-- The window after further scores. -/
def after (x : Window) (snaps : List ScoreSnapshot)
    (h : ∀ snap ∈ snaps, snap.score ≤ 100) : Window where
  scores := lastN 50 (x.scores ++ snaps)
  capped := by
    rw [lastN_length]
    exact Nat.min_le_right _ _
  valid := by
    intro snap hSnap
    rcases List.mem_append.mp (mem_of_mem_lastN hSnap) with hOld | hNew
    · exact x.valid snap hOld
    · exact h snap hNew

/-- A window is extended, or a full one takes its place. Which full one does
not matter: fifty scores replace everything that was remembered. -/
def Slides (x y : Window) : Prop :=
  x.scores <+: y.scores ∨ y.scores.length = 50

theorem Slides.refl (x : Window) : x.Slides x := .inl (List.prefix_refl _)

theorem Slides.trans (x y z : Window) (hxy : x.Slides y) (hyz : y.Slides z) :
    x.Slides z := by
  rcases hyz with hPrefix | hFull
  · rcases hxy with hFirst | hFull
    · exact .inl (hFirst.trans hPrefix)
    · right
      have hLe := hPrefix.length_le
      have hCap := z.capped
      omega
  · exact .inr hFull

theorem slides_push (x : Window) (snap : ScoreSnapshot) (h : snap.score ≤ 100) :
    x.Slides (x.push snap h) :=
  prefix_pushCapped_or_full (by decide) x.scores snap

/-- Whatever a window slides to comes after it by some scores: the missing
ones, or all fifty of a full window. -/
theorem Slides.exists_after {x y : Window} (hxy : x.Slides y) :
    ∃ snaps h, x.after snaps h = y := by
  rcases hxy with ⟨snaps, hy⟩ | hFull
  · have hValid : ∀ snap ∈ snaps, snap.score ≤ 100 := by
      intro snap hSnap
      exact y.valid snap (hy ▸ List.mem_append_right _ hSnap)
    refine ⟨snaps, hValid, Window.ext ?_⟩
    show lastN 50 (x.scores ++ snaps) = y.scores
    rw [hy, lastN_of_length_le y.capped]
  · exact ⟨y.scores, y.valid, Window.ext (lastN_append_of_length_eq _ hFull)⟩

end Window

/-- The windows kept, by wallet. -/
abbrev Book (A : Type) := A → Window

/-- The book of a contract that anchored no score. -/
def Book.blank : Book A := fun _ => .blank

/-- The storage in which a book is written.  All three entries of a wallet
appear with its first score. -/
def store : Deployment A (Book A) → Store A
  | .fresh => Ledger.empty
  | .installed a book =>
      { instanceTier := fun
          | .admin => some a
          | .currentScore w => (book w).scores.getLast?
          | .scoreHistory _ => none
          | .snapshotCount w =>
              (book w).scores.getLast?.map fun _ => .ofNat (book w).scores.length
        persistentTier := fun
          | .admin => none
          | .currentScore _ => none
          | .scoreHistory w => (book w).scores.getLast?.map fun _ =>
              (book w).scores
          | .snapshotCount _ => none }

@[simp] theorem adminOf_store (a : A) (book : Book A) :
    adminOf (store (.installed a book)) = some a := rfl

@[simp] theorem getScoreHistory_store (a : A) (book : Book A) (w : A) :
    getScoreHistory (store (.installed a book)) w = (book w).scores := by
  show ((book w).scores.getLast?.map fun _ => (book w).scores).getD [] = _
  cases hLast : (book w).scores.getLast? with
  | none => exact (List.getLast?_eq_none_iff.mp hLast).symm
  | some snap => rfl

@[simp] theorem getCurrentScore_store (a : A) (book : Book A) (w : A) :
    getCurrentScore (store (.installed a book)) w =
      (book w).scores.getLast? := rfl

/-! ## Growth of a book -/

/-- Finitely many windows moved. -/
def Book.Grows (book book' : Book A) : Prop :=
  Pointwise (fun _ => Window.Slides) book book'

namespace Book.Grows

theorem refl (book : Book A) : book.Grows book :=
  Pointwise.refl (fun _ => Window.Slides.refl) book

theorem trans (x y z : Book A) (hxy : x.Grows y) (hyz : y.Grows z) :
    x.Grows z := Pointwise.trans (fun _ => Window.Slides.trans) hxy hyz

theorem update [DecidableEq A] {book : Book A} {w : A} {x : Window}
    (h : (book w).Slides x) : book.Grows (Function.update book w x) :=
  Pointwise.update (fun _ => Window.Slides.refl) h

end Book.Grows

variable [DecidableEq A]

theorem setAdmin_empty (a : A) :
    (Ledger.empty : Store A).setInstance .admin a =
      store (.installed a Book.blank) := by
  apply Ledger.ext
  · intro k
    cases k with
    | admin => rfl
    | currentScore w => rfl
    | scoreHistory w => rfl
    | snapshotCount w => rfl
  · intro k
    cases k with
    | admin => rfl
    | currentScore w => rfl
    | scoreHistory w => rfl
    | snapshotCount w => rfl

/-- Recording a score pushes it into the book. -/
theorem recordScore_store (a : A) (book : Book A) (w : A)
    (snap : ScoreSnapshot) (h : snap.score ≤ 100) :
    recordScore (store (.installed a book)) w snap =
      store (.installed a
        (Function.update book w ((book w).push snap h))) := by
  have hLast : ((book w).push snap h).scores.getLast? = some snap :=
    List.getLast?_concat
  have hHistory := getScoreHistory_store a book w
  apply Ledger.ext
  · intro k
    cases k with
    | admin => rfl
    | currentScore v =>
        show getCurrentScore (recordScore _ w snap) v =
          (Function.update book w ((book w).push snap h) v).scores.getLast?
        rw [getCurrentScore_recordScore]
        by_cases hv : v = w
        · subst hv
          rw [if_pos rfl, Function.update_self, hLast]
        · rw [if_neg hv, Function.update_of_ne hv, getCurrentScore_store]
    | scoreHistory v => rfl
    | snapshotCount v =>
        show snapshotCount? (recordScore _ w snap) v =
          (Function.update book w ((book w).push snap h) v).scores.getLast?.map
            fun _ => .ofNat (Function.update book w
              ((book w).push snap h) v).scores.length
        rw [snapshotCount?_recordScore]
        by_cases hv : v = w
        · subst hv
          rw [if_pos rfl, Function.update_self, hLast, hHistory]
          rfl
        · rw [if_neg hv, Function.update_of_ne hv]
          rfl
  · intro k
    cases k with
    | admin => rfl
    | currentScore v => rfl
    | scoreHistory v =>
        show (recordScore _ w snap).persistentTier.get (.scoreHistory v) =
          (Function.update book w ((book w).push snap h) v).scores.getLast?.map
            fun _ => (Function.update book w ((book w).push snap h) v).scores
        by_cases hv : v = w
        · subst hv
          rw [Function.update_self, hLast, recordScore, hHistory]
          simp [Window.push]
        · have hKey : (DataKey.scoreHistory v : DataKey A) ≠ .scoreHistory w :=
            fun hEq => hv (DataKey.scoreHistory.inj hEq)
          rw [Function.update_of_ne hv]
          exact Storage.get_set_of_ne _ hKey _
    | snapshotCount v => rfl

/-- Anchoring on a book: the cap is never met, and never in the way, because a
window holds at most fifty scores. -/
theorem step_anchorScore (a : A) (book : Book A) (env : Env A) (w : A)
    (score : UInt32) (version hash : HostString) (time : UInt64) :
    machine.step (store (.installed a book))
        ⟨env, .anchorScore w score version hash time⟩ =
      if a ∈ env.auths then
        if h : score ≤ 100 then
          (.ok (), store (.installed a (Function.update book w
            ((book w).push ⟨score, version, hash, time⟩ h))))
        else (.error (.error .invalidScore), store (.installed a book))
      else (.error .trap, store (.installed a book)) := by
  show anchorScore w score version hash time env _ = _
  rw [anchorScore_run, adminOf_store]
  simp only [signedBy_some]
  by_cases hAuth : a ∈ env.auths
  · rw [if_pos hAuth, if_pos hAuth]
    by_cases hScore : score ≤ 100
    · rw [dif_pos hScore, if_neg (UInt32.not_lt.mpr hScore),
        getScoreHistory_store, if_neg (Nat.not_lt.mpr (book w).capped)]
      exact congrArg (Prod.mk _) (recordScore_store a book w _ hScore)
    · rw [dif_neg hScore, if_pos (UInt32.not_le.mp hScore)]
  · rw [if_neg hAuth, if_neg hAuth]
    rfl

/-! ## Steps along the order -/

theorem step_fresh (i : Invocation A (Call A)) :
    (machine.step (store .fresh) i).2 = store .fresh ∨
      ∃ a, (machine.step (store .fresh) i).2 =
        store (.installed a Book.blank) := by
  have hStep := step_transition (store .fresh) i
  generalize (machine.step (store .fresh) i).1 = answer at hStep
  generalize (machine.step (store .fresh) i).2 = s' at hStep
  cases hStep with
  | refused i e => exact .inl rfl
  | initialized env a hAdmin => exact .inr ⟨a, setAdmin_empty a⟩
  | anchored env w score version hash time hSigned hScore =>
      exact absurd hSigned (not_signedBy_none _)

theorem step_installed (a : A) (book : Book A) (i : Invocation A (Call A)) :
    ∃ book', book.Grows book' ∧
      (machine.step (store (.installed a book)) i).2 =
        store (.installed a book') := by
  have hStep := step_transition (store (.installed a book)) i
  generalize (machine.step (store (.installed a book)) i).1 = answer at hStep
  generalize (machine.step (store (.installed a book)) i).2 = s' at hStep
  cases hStep with
  | refused i e => exact ⟨book, .refl book, rfl⟩
  | initialized env b hAdmin => cases hAdmin
  | anchored env w score version hash time hSigned hScore =>
      exact ⟨_, .update (Window.slides_push _ _ hScore),
        recordScore_store a book w ⟨score, version, hash, time⟩ hScore⟩

/-! ## Moves of one window -/

theorem follows_push (a : A) (book : Book A) (w : A) (snap : ScoreSnapshot)
    (h : snap.score ≤ 100) :
    machine.Follows Any (store (.installed a book))
      (store (.installed a
        (Function.update book w ((book w).push snap h)))) := by
  apply Follows.step (i := ⟨⟨{a}, 0⟩, .anchorScore w snap.score
    snap.algorithmVersion snap.signalHash snap.computedAt⟩) trivial
  rw [step_anchorScore, if_pos (by simp), dif_pos h]

/-- Anchoring scores one after the other. -/
theorem follows_after (a : A) (book : Book A) (w : A)
    (snaps : List ScoreSnapshot) (h : ∀ snap ∈ snaps, snap.score ≤ 100) :
    machine.Follows Any (store (.installed a book))
      (store (.installed a
        (Function.update book w ((book w).after snaps h)))) := by
  induction snaps using List.reverseRecOn with
  | nil =>
      have hSame : (book w).after [] h = book w := by
        apply Window.ext
        show lastN 50 ((book w).scores ++ []) = _
        rw [List.append_nil, lastN_of_length_le (book w).capped]
      rw [hSame, Function.update_eq_self]
      exact .refl _
  | append_singleton snaps snap ih =>
      have hSnaps : ∀ other ∈ snaps, other.score ≤ 100 := fun other hMem =>
        h other (List.mem_append_left _ hMem)
      have hPush := follows_push a
        (Function.update book w ((book w).after snaps hSnaps)) w snap
        (h snap (by simp))
      have hNext : ((book w).after snaps hSnaps).push snap (h snap (by simp)) =
          (book w).after (snaps ++ [snap]) h := by
        apply Window.ext
        show pushCapped 50 (lastN 50 _) snap = lastN 50 _
        rw [pushCapped_lastN (by decide), List.append_assoc]
      rw [Function.update_self, Function.update_idem, hNext] at hPush
      exact (ih hSnaps).trans hPush

theorem bookEncoding : Encoding machine Any (store (A := A))
    (Deployment.Evolves Book.blank fun _ => Book.Grows) := by
  apply Deployment.encoding
  · exact fun _ => Book.Grows.refl
  · exact fun _ => Book.Grows.trans
  · exact fun i _ => step_fresh i
  · exact fun a book i _ => step_installed a book i
  · exact fun a => Follows.step (i := ⟨⟨∅, 0⟩, .initializeAdmin a⟩) trivial
      (setAdmin_empty a)
  · intro a book book' hGrows
    apply hGrows.induction (P := fun book book' => machine.Follows Any
      (store (.installed a book)) (store (.installed a book')))
      fun _ => Window.Slides.refl
    · exact fun book => .refl _
    · exact fun _ _ _ => Follows.trans
    · intro book w y hSlides
      obtain ⟨snaps, h, rfl⟩ := hSlides.exists_after
      exact follows_after a book w snaps h

/-- Every run leaves a written book. -/
theorem run_store (is : List (Invocation A (Call A))) :
    ∃ c, machine.run is = store c := by
  obtain ⟨c, -, hc⟩ := bookEncoding.run (b := .fresh) (eachFrom_any _ is)
  exact ⟨c, hc⟩

/-- **The evolution of score histories.** From a written book exactly those
storages can be reached that hold a book in which finitely many windows moved,
each to an extension or to a full window. No window gets shorter, and below
fifty scores none is forgotten. -/
theorem scores_follow_iff (b : Deployment A (Book A)) (t : Store A) :
    (∃ is, machine.runFrom (store b) is = t) ↔
      ∃ c, b.Evolves Book.blank (fun _ => Book.Grows) c ∧ store c = t := by
  rw [← bookEncoding.follows_iff, follows_any_iff]

end ForgePass.Contracts.TrustScore

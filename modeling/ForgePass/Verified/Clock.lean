import ForgePass.Verified.Evolution
import Mathlib.Data.Finset.Max

/-!
# Runs under a clock

Inputs that carry the time of their execution come in the order of their times:
none is earlier than the one before it, nor than the clock when the run begins.
`FollowsOn` restricts reachability to runs of this kind.

A machine that does not look at the time can do all that it can do at once
(`Timeless.follows_at`).  What a run does at one time can be followed by
whatever begins at that time or later (`FollowsOn.after`).  So moves of single
entries, each due at a time of its own, make up a move of a family: they are
carried out in the order in which they are due (`Pointwise.induction_due`).
-/

namespace ForgePass.Verified

namespace Machine

variable {σ ι ρ T β : Type} {m : Machine σ ι ρ} {time : ι → T}
  {ok : σ → ι → Prop}

/-! ## Machines that do not look at the time -/

/-- `retime` gives an input the time `now`, which is all the same to the
machine. -/
structure Timeless (m : Machine σ ι ρ) (time : ι → T) (ok : σ → ι → Prop)
    (now : T) (retime : ι → ι) : Prop where
  time : ∀ i, time (retime i) = now
  step : ∀ s i, m.step s (retime i) = m.step s i
  allowed : ∀ s i, ok s i → ok s (retime i)

/-- Then all can be done at that time. -/
theorem Timeless.follows_at {now : T} {retime : ι → ι}
    (h : Timeless m time ok now retime) {s t : σ}
    (hFollows : m.Follows ok s t) :
    m.Follows (fun s i => ok s i ∧ time i = now) s t := by
  obtain ⟨is, hOk, rfl⟩ := hFollows
  induction is generalizing s with
  | nil => exact .refl s
  | cons i is ih =>
      have hFirst : m.Follows (fun s i => ok s i ∧ time i = now) s
          (m.step s i).2 :=
        .step (i := retime i) ⟨h.allowed s i hOk.1, h.time i⟩
          (congrArg Prod.snd (h.step s i))
      exact hFirst.trans (ih hOk.2)

/-! ## Runs in the order of time -/

variable [LinearOrder T]

/-- Nor does such a machine care for an earliest time. -/
theorem Encoding.timeless {encode : β → σ} {Evolves : β → β → Prop}
    (h : Encoding m ok encode Evolves) {now : T} {retime : ι → ι}
    (hTimeless : Timeless m time ok now retime) :
    Encoding m (fun s i => ok s i ∧ now ≤ time i) encode Evolves where
  refl := h.refl
  trans := h.trans
  step := fun b i hOk => h.step b i hOk.1
  carried b c hbc := (hTimeless.follows_at (h.carried b c hbc)).mono
    fun _ _ hOk => ⟨hOk.1, hOk.2.ge⟩

/-- Time does not run backwards, from `clock` on: each input is executed no
earlier than the one before it, and the first no earlier than `clock`. Several
may be executed at one time. -/
def Ticks (time : ι → T) (clock : T) (is : List ι) : Prop :=
  (clock :: is.map time).Pairwise (· ≤ ·)

/-- The machine gets from `s` to `t` by inputs that `ok` allows, none of them
earlier than `clock` or than the input before it. -/
def FollowsOn (m : Machine σ ι ρ) (time : ι → T) (ok : σ → ι → Prop)
    (clock : T) (s t : σ) : Prop :=
  ∃ is, Ticks time clock is ∧ m.EachFrom ok s is ∧ m.runFrom s is = t

theorem ticks_cons_iff {clock : T} {i : ι} {is : List ι} :
    Ticks time clock (i :: is) ↔ clock ≤ time i ∧ Ticks time (time i) is := by
  unfold Ticks
  rw [List.map_cons, List.pairwise_cons]
  constructor
  · exact fun h => ⟨h.1 _ (List.mem_cons_self ..), h.2⟩
  · rintro ⟨hFirst, hRest⟩
    refine ⟨fun t ht => ?_, hRest⟩
    rcases List.mem_cons.mp ht with rfl | ht
    · exact hFirst
    · exact hFirst.trans ((List.pairwise_cons.mp hRest).1 t ht)

theorem ticks_nil (clock : T) : Ticks time clock [] :=
  List.pairwise_singleton _ _

/-- A clock that is behind lets pass whatever one ahead of it does. -/
theorem Ticks.of_le {clock clock' : T} (hLe : clock' ≤ clock) {is : List ι}
    (h : Ticks time clock is) : Ticks time clock' is := by
  cases is with
  | nil => exact ticks_nil clock'
  | cons i is =>
      rw [ticks_cons_iff] at h ⊢
      exact ⟨hLe.trans h.1, h.2⟩

instance (clock : T) (is : List ι) : Decidable (Ticks time clock is) :=
  inferInstanceAs (Decidable (List.Pairwise _ _))

theorem followsOn_any_iff {clock : T} {s t : σ} :
    m.FollowsOn time Any clock s t ↔
      ∃ is, Ticks time clock is ∧ m.runFrom s is = t := by
  constructor
  · rintro ⟨is, hTicks, -, hRun⟩
    exact ⟨is, hTicks, hRun⟩
  · rintro ⟨is, hTicks, hRun⟩
    exact ⟨is, hTicks, eachFrom_any s is, hRun⟩

namespace FollowsOn

theorem refl (clock : T) (s : σ) : m.FollowsOn time ok clock s s :=
  ⟨[], ticks_nil clock, trivial, rfl⟩

/-- What happens at one time can be followed by what begins then. -/
theorem after {clock now : T} {s t u : σ} (hNow : clock ≤ now)
    (hst : m.Follows (fun s i => ok s i ∧ time i = now) s t)
    (htu : m.FollowsOn time ok now t u) : m.FollowsOn time ok clock s u := by
  obtain ⟨is, hIs, rfl⟩ := hst
  induction is generalizing s clock with
  | nil =>
      obtain ⟨js, hTicks, hOk, hRun⟩ := htu
      exact ⟨js, hTicks.of_le hNow, hOk, hRun⟩
  | cons i is ih =>
      obtain ⟨⟨hOk, hTime⟩, hRest⟩ := hIs
      obtain ⟨js, hTicks, hJs, hRun⟩ := ih (le_refl now) hRest htu
      refine ⟨i :: js, ticks_cons_iff.mpr ⟨?_, ?_⟩, ⟨hOk, hJs⟩, hRun⟩
      · rw [hTime]
        exact hNow
      · rw [hTime]
        exact hTicks

/-- What happens at one time happens under a clock. -/
theorem of_follows {clock now : T} {s t : σ} (hNow : clock ≤ now)
    (h : m.Follows (fun s i => ok s i ∧ time i = now) s t) :
    m.FollowsOn time ok clock s t :=
  .after hNow h (.refl now t)

/-- Under a clock nothing happens before it. -/
theorem follows {clock : T} {s t : σ} (h : m.FollowsOn time ok clock s t) :
    m.Follows (fun s i => ok s i ∧ clock ≤ time i) s t := by
  obtain ⟨is, hTicks, hOk, hRun⟩ := h
  refine ⟨is, ?_, hRun⟩
  clear hRun
  induction is generalizing s with
  | nil => trivial
  | cons i is ih =>
      rw [ticks_cons_iff] at hTicks
      exact ⟨⟨hOk.1, hTicks.1⟩, ih (hTicks.2.of_le hTicks.1) hOk.2⟩

end FollowsOn

/-- What one machine of a family can do under a clock, the family can. -/
theorem FollowsOn.family {κ : Type} [DecidableEq κ] {F In R : κ → Type}
    {ms : (k : κ) → Machine (F k) (In k) (R k)} {time : (k : κ) → In k → T}
    {ok : (k : κ) → F k → In k → Prop} {clock : T} {s : (k : κ) → F k} {k : κ}
    {x : F k} (h : (ms k).FollowsOn (time k) (ok k) clock (s k) x) :
    (Machine.family ms).FollowsOn (fun i => time i.1 i.2)
      (fun s i => ok i.1 (s i.1) i.2) clock s (Function.update s k x) := by
  obtain ⟨is, hTicks, hOk, rfl⟩ := h
  induction is generalizing s clock with
  | nil =>
      show FollowsOn _ _ _ _ s (Function.update s k (s k))
      rw [Function.update_eq_self]
      exact .refl clock s
  | cons i is ih =>
      rw [ticks_cons_iff] at hTicks
      have hRest := ih (s := Function.update s k ((ms k).step (s k) i).2)
        hTicks.2 (by rw [Function.update_self]; exact hOk.2)
      rw [Function.update_self, Function.update_idem] at hRest
      exact .after hTicks.1
        (.step (i := ⟨k, i⟩) ⟨hOk.1, rfl⟩ rfl) hRest

/-- An encoding says what follows under a clock if its moves can be carried out
under it. -/
theorem Encoding.followsOn_iff {encode : β → σ} {Evolves : β → β → Prop}
    {clock : T}
    (h : Encoding m (fun s i => ok s i ∧ clock ≤ time i) encode Evolves)
    (hCarried : ∀ b c, Evolves b c →
      m.FollowsOn time ok clock (encode b) (encode c)) (b : β) (t : σ) :
    m.FollowsOn time ok clock (encode b) t ↔
      ∃ c, Evolves b c ∧ encode c = t := by
  constructor
  · intro hFollows
    exact (h.follows_iff b t).mp hFollows.follows
  · rintro ⟨c, hbc, rfl⟩
    exact hCarried b c hbc

end Machine

/-! ## Families whose entries move when they are due -/

/-- The entry `k` may move from `f k` to `g k` at a time of its own, `c` or
later.  What holds of single moves that are carried out in the order of their
times holds of the family. -/
theorem Pointwise.induction_due {κ T : Type} {F : κ → Type} [DecidableEq κ]
    [LinearOrder T] {P : T → ((k : κ) → F k) → ((k : κ) → F k) → Prop}
    {R : (k : κ) → T → F k → F k → Prop}
    (hStill : ∀ c f, P c f f)
    (hFirst : ∀ c now f g k x, c ≤ now → R k now (f k) x →
      P now (Function.update f k x) g → P c f g)
    {c : T} {f g : (k : κ) → F k} (hFinite : {k | f k ≠ g k}.Finite)
    (hDue : ∀ k, ∃ now, c ≤ now ∧ R k now (f k) (g k)) : P c f g := by
  choose due hLe hMoves using hDue
  -- induction on the number of entries that are still to move
  have hAll : ∀ (n : Nat) (U : Finset κ) (c : T) (f : (k : κ) → F k),
      U.card = n → (∀ k, k ∉ U → f k = g k) →
        (∀ k ∈ U, c ≤ due k ∧ R k (due k) (f k) (g k)) → P c f g := by
    intro n
    induction n with
    | zero =>
        intro U c f hCard hSame _
        obtain rfl : U = ∅ := Finset.card_eq_zero.mp hCard
        have hEq : f = g := funext fun k => hSame k (Finset.notMem_empty k)
        exact hEq ▸ hStill c f
    | succ n ih =>
        intro U c f hCard hSame hLater
        have hNonempty : U.Nonempty := by
          rw [← Finset.card_pos, hCard]
          exact Nat.succ_pos n
        -- the entry that is due first
        obtain ⟨k, hk, hMin⟩ := U.exists_min_image due hNonempty
        obtain ⟨hNow, hMove⟩ := hLater k hk
        apply hFirst c (due k) f g k (g k) hNow hMove
        apply ih (U.erase k)
        · rw [Finset.card_erase_of_mem hk, hCard, Nat.succ_sub_one]
        · intro j hj
          by_cases hjk : j = k
          · subst hjk
            rw [Function.update_self]
          · rw [Function.update_of_ne hjk]
            exact hSame j fun hMem => hj (Finset.mem_erase.mpr ⟨hjk, hMem⟩)
        · intro j hj
          obtain ⟨hjk, hMem⟩ := Finset.mem_erase.mp hj
          rw [Function.update_of_ne hjk]
          exact ⟨hMin j hMem, (hLater j hMem).2⟩
  apply hAll _ hFinite.toFinset c f rfl
  · intro k hk
    by_contra hMoved
    exact hk (hFinite.mem_toFinset.mpr hMoved)
  · exact fun k _ => ⟨hLe k, hMoves k⟩

end ForgePass.Verified

import ForgePass.Verified.Machine
import Mathlib.Tactic.MkIffOfInductiveProp

/-!
# Orders of inputs that make no difference

Two inputs *commute* in a state if each gets the answer it would get without
the other before it, and both orders end in one state.  Given which inputs are
independent, `Reordered` relates the lists that differ by swaps of adjacent
independent inputs: the orders that one partially ordered set of inputs can be
sent in.  If independent inputs commute, all these orders lead to one state and
give every input the same answer (`Reordered.runFrom`).

Which lists are reorderings of each other is often known otherwise: inputs use
channels, and two are dependent if they share one.  Then lists are reorderings
exactly if they have the same inputs, in the same order, on every channel
(`reordered_iff_filter`).
-/

namespace ForgePass.Verified

/-! ## Reorderings -/

section Reorderings

variable {α β : Type}

/-- Lists that differ by swaps of adjacent independent entries. This is the
equivalence of traces, with independence as a parameter. -/
inductive Reordered (ind : α → α → Prop) : List α → List α → Prop
  | refl (l : List α) : Reordered ind l l
  | cons (a : α) {l l' : List α} (h : Reordered ind l l') :
      Reordered ind (a :: l) (a :: l')
  | swap (a b : α) (l : List α) (h : ind a b) :
      Reordered ind (a :: b :: l) (b :: a :: l)
  | trans {l l' l'' : List α} (h : Reordered ind l l')
      (h' : Reordered ind l' l'') : Reordered ind l l''

namespace Reordered

variable {ind : α → α → Prop} {l l' : List α}

/-- An entry moves to the front past entries it is independent of, one swap at
a time. -/
theorem move_to_front (a : α) (before after : List α)
    (h : ∀ b ∈ before, ind b a) :
    Reordered ind (before ++ a :: after) (a :: (before ++ after)) := by
  induction before with
  | nil => exact .refl _
  | cons b before ih =>
      have hRest := ih fun c hc => h c (List.mem_cons_of_mem b hc)
      exact (hRest.cons b).trans (.swap b a _ (h b List.mem_cons_self))

theorem symm (hSymm : ∀ a b, ind a b → ind b a) (h : Reordered ind l l') :
    Reordered ind l' l := by
  induction h with
  | refl l => exact .refl l
  | cons a _ ih => exact ih.cons a
  | swap a b l h => exact .swap b a l (hSymm a b h)
  | trans _ _ ih ih' => exact ih'.trans ih

/-- Entries among which none are independent keep their order. -/
theorem filter_eq {p : α → Bool}
    (hp : ∀ a b, p a = true → p b = true → ¬ind a b) (h : Reordered ind l l') :
    l.filter p = l'.filter p := by
  induction h with
  | refl l => rfl
  | cons a _ ih =>
      cases hpa : p a with
      | true => rw [List.filter_cons_of_pos hpa, List.filter_cons_of_pos hpa, ih]
      | false =>
          have hNot : ¬p a = true := Bool.eq_false_iff.mp hpa
          rw [List.filter_cons_of_neg hNot, List.filter_cons_of_neg hNot, ih]
  | swap a b l h =>
      cases hpa : p a with
      | true =>
          have hpb : p b = false := Bool.eq_false_iff.mpr fun hpb =>
            hp a b hpa hpb h
          simp [hpa, hpb]
      | false => simp [List.filter_cons, hpa]
  | trans _ _ ih ih' => exact ih.trans ih'

end Reordered

/-! ## Reorderings seen channel by channel -/

variable {κ : Type}

/-- Entries that share no channel. Only entries that share one have an order to
keep. -/
def Apart (on : κ → α → Bool) (a b : α) : Prop :=
  ∀ k, on k a = true → on k b = false

/-- If lists agree on every channel, the first entry of one can be brought to
the front of the other. -/
theorem exists_front {on : κ → α → Bool} (hOn : ∀ a, ∃ k, on k a = true)
    {a : α} {l l' : List α}
    (h : ∀ k, (a :: l).filter (on k) = l'.filter (on k)) :
    ∃ before after, l' = before ++ a :: after ∧
      ∀ b ∈ before, Apart on b a := by
  obtain ⟨k, hk⟩ := hOn a
  have hMem : a ∈ l' := by
    have hIn : a ∈ (a :: l).filter (on k) :=
      List.mem_filter.mpr ⟨List.mem_cons_self, hk⟩
    rw [h k] at hIn
    exact (List.mem_filter.mp hIn).1
  obtain ⟨before, after, rfl, hFirst⟩ := List.eq_append_cons_of_mem hMem
  refine ⟨before, after, rfl, ?_⟩
  -- an entry before `a` on a channel of `a` would come first on that channel
  intro b hb j hjb
  rw [← Bool.not_eq_true]
  intro hja
  have hHead := h j
  rw [List.filter_cons_of_pos hja, List.filter_append] at hHead
  cases hBefore : before.filter (on j) with
  | nil =>
      have hIn : b ∈ before.filter (on j) := List.mem_filter.mpr ⟨hb, hjb⟩
      rw [hBefore] at hIn
      cases hIn
  | cons c rest =>
      rw [hBefore, List.cons_append, List.cons.injEq] at hHead
      have hIn : c ∈ before.filter (on j) := hBefore ▸ List.mem_cons_self
      exact hFirst (hHead.1 ▸ (List.mem_filter.mp hIn).1)

/-- **Reorderings by channels.** Two lists are reorderings of one another
exactly if they have the same entries, in the same order, on every channel. -/
theorem reordered_iff_filter {on : κ → α → Bool}
    (hOn : ∀ a, ∃ k, on k a = true) {l l' : List α} :
    Reordered (Apart on) l l' ↔ ∀ k, l.filter (on k) = l'.filter (on k) := by
  constructor
  · intro h k
    apply h.filter_eq
    intro a b ha hb hApart
    rw [hApart k ha] at hb
    cases hb
  · intro h
    induction l generalizing l' with
    | nil =>
        have hNone : l' = [] := by
          rw [List.eq_nil_iff_forall_not_mem]
          intro a ha
          obtain ⟨k, hk⟩ := hOn a
          have hIn : a ∈ l'.filter (on k) := List.mem_filter.mpr ⟨ha, hk⟩
          rw [← h k] at hIn
          cases hIn
        rw [hNone]
        exact .refl []
    | cons a l ih =>
        obtain ⟨before, after, rfl, hBefore⟩ := exists_front hOn h
        have hSymm : ∀ b c, Apart on b c → Apart on c b := by
          intro b c hApart k hc
          rw [← Bool.not_eq_true]
          intro hb
          rw [hApart k hb] at hc
          cases hc
        have hFront := Reordered.move_to_front a before after hBefore
        refine .trans (.cons a (ih fun k => ?_)) (hFront.symm hSymm)
        have hk := h k
        rw [hFront.filter_eq (p := on k)] at hk
        · cases ha : on k a with
          | true =>
              rw [List.filter_cons_of_pos ha, List.filter_cons_of_pos ha,
                List.cons.injEq] at hk
              exact hk.2
          | false =>
              have hNot : ¬on k a = true := Bool.eq_false_iff.mp ha
              rw [List.filter_cons_of_neg hNot, List.filter_cons_of_neg hNot] at hk
              exact hk
        · intro b c hb hc hApart
          rw [hApart k hb] at hc
          cases hc

end Reorderings

/-! ## Inputs that commute -/

namespace Machine

variable {σ ι ρ : Type} {m : Machine σ ι ρ}

/-- In state `s` neither input notices the other before it, and their order
makes no difference to the state. -/
@[mk_iff]
structure Commutes (m : Machine σ ι ρ) (s : σ) (i j : ι) : Prop where
  first : (m.step (m.step s j).2 i).1 = (m.step s i).1
  second : (m.step (m.step s i).2 j).1 = (m.step s j).1
  state : (m.step (m.step s i).2 j).2 = (m.step (m.step s j).2 i).2

theorem Commutes.symm {s : σ} {i j : ι} (h : m.Commutes s i j) :
    m.Commutes s j i := ⟨h.second, h.first, h.state.symm⟩

theorem commutes_comm {s : σ} {i j : ι} :
    m.Commutes s i j ↔ m.Commutes s j i := ⟨Commutes.symm, Commutes.symm⟩

/-- An input that changes nothing before and after the other one, and is
answered alike. -/
theorem Commutes.of_idle {s : σ} {i j : ι} (hIdle : (m.step s i).2 = s)
    (hLater : m.step (m.step s j).2 i = ((m.step s i).1, (m.step s j).2)) :
    m.Commutes s i j where
  first := by rw [hLater]
  second := by rw [hIdle]
  state := by rw [hIdle, hLater]

/-- The place where an input stands may show in it: `first` puts it before the
other one, `second` after it.  In state `s` neither input is answered otherwise
for its place, and their order makes no difference to the state. -/
structure CommutesAt (m : Machine σ ι ρ) (first second : ι → ι) (s : σ)
    (i j : ι) : Prop where
  left : (m.step (m.step s (first j)).2 (second i)).1 = (m.step s (first i)).1
  right : (m.step (m.step s (first i)).2 (second j)).1 = (m.step s (first j)).1
  state : (m.step (m.step s (first i)).2 (second j)).2 =
    (m.step (m.step s (first j)).2 (second i)).2

theorem CommutesAt.symm {first second : ι → ι} {s : σ} {i j : ι}
    (h : m.CommutesAt first second s i j) : m.CommutesAt first second s j i :=
  ⟨h.right, h.left, h.state.symm⟩

/-- Where the place does not matter, they commute. -/
theorem commutesAt_iff {first second : ι → ι} {s : σ} {i j : ι}
    (hi : m.step (m.step s (first j)).2 (second i) =
      m.step (m.step s (first j)).2 (first i))
    (hj : m.step (m.step s (first i)).2 (second j) =
      m.step (m.step s (first i)).2 (first j)) :
    m.CommutesAt first second s i j ↔ m.Commutes s (first i) (first j) := by
  constructor
  · rintro ⟨hLeft, hRight, hState⟩
    rw [hi] at hLeft hState
    rw [hj] at hRight hState
    exact ⟨hLeft, hRight, hState⟩
  · rintro ⟨hFirst, hSecond, hState⟩
    constructor
    · rw [hi, hFirst]
    · rw [hj, hSecond]
    · rw [hi, hj, hState]

end Machine

open Machine

variable {σ ι ρ : Type} {m : Machine σ ι ρ} {ind : ι → ι → Prop}
  {P : σ → Prop}

/-- Reordering independent inputs leads to the same state, and answers each
input alike. -/
theorem Reordered.runFrom {cs ds : List ι} (h : Reordered ind cs ds)
    (hKeep : ∀ s i, P s → P (m.step s i).2)
    (hInd : ∀ i j, ind i j → ∀ s, P s → m.Commutes s i j) {s : σ} (hs : P s) :
    m.runFrom s cs = m.runFrom s ds ∧
      Reordered (fun e e' : ι × ρ => ind e.1 e'.1) (m.historyFrom s cs)
        (m.historyFrom s ds) := by
  induction h generalizing s with
  | refl cs => exact ⟨rfl, .refl _⟩
  | cons i _ ih =>
      obtain ⟨hRun, hHistory⟩ := ih (hKeep s i hs)
      exact ⟨hRun, hHistory.cons _⟩
  | swap i j cs h =>
      have hBoth := hInd i j h s hs
      constructor
      · show m.runFrom (m.step (m.step s i).2 j).2 cs =
          m.runFrom (m.step (m.step s j).2 i).2 cs
        rw [hBoth.state]
      · show Reordered _ ((i, (m.step s i).1) ::
            (j, (m.step (m.step s i).2 j).1) ::
              m.historyFrom (m.step (m.step s i).2 j).2 cs)
          ((j, (m.step s j).1) :: (i, (m.step (m.step s j).2 i).1) ::
            m.historyFrom (m.step (m.step s j).2 i).2 cs)
        rw [hBoth.first, hBoth.second, hBoth.state]
        exact .swap _ _ _ h
  | trans _ _ ih ih' =>
      obtain ⟨hRun, hHistory⟩ := ih hs
      obtain ⟨hRun', hHistory'⟩ := ih' hs
      exact ⟨hRun.trans hRun', hHistory.trans hHistory'⟩

end ForgePass.Verified

import ForgePass.Verified.Machine

/-!
# Indexes taken from counters

A call may take an index from a counter: the id it returns, or the slot it
writes.  `TakesSoundly` says what is expected of that: the counter grows, the
index was never taken before and nothing is stored under it.

An `Allocator` takes the number after the counter whenever a side condition
`ok` holds, typically that the counter is below its maximum, and its counter
does not grow otherwise.  Along a run indexes are then taken soundly exactly
if every call meets the condition (`soundly_iff`): numbers at or below the
counter are the ones already spent (`present_behind`, `taken_behind`).
-/

namespace ForgePass.Verified.Machine

variable {σ ι ρ X : Type}

/-- What the call `c` after the run `p` may expect of the index it takes: that
its counter grows, that no earlier call took it, and that nothing lies under it
yet. -/
structure TakesSoundly (m : Machine σ ι ρ) (takes : σ → ι → Option X)
    (counter : σ → X → Nat) (present : σ → X → Prop) (p : List ι) (c : ι) :
    Prop where
  grows : ∀ x, takes (m.run p) c = some x →
    counter (m.run p) x < counter (m.step (m.run p) c).2 x
  unused : ∀ x, takes (m.run p) c = some x →
    ∀ q d, q ++ [d] <+: p → takes (m.run q) d ≠ some x
  vacant : ∀ x, takes (m.run p) c = some x → ¬present (m.run p) x

/-- Indexes are numbered by the counter they are taken from, while `ok`
holds; where it fails, a counter fails to grow. -/
structure Allocator (m : Machine σ ι ρ) (takes : σ → ι → Option X)
    (number : X → Nat) (counter : σ → X → Nat) (present : σ → X → Prop)
    (ok : σ → ι → Prop) : Prop where
  start : ∀ x, ¬present m.init x
  next : ∀ s c x, ok s c → takes s c = some x →
    number x = counter s x + 1 ∧
      counter (m.step s c).2 x = counter s x + 1
  monotone : ∀ s c x, ok s c → counter s x ≤ counter (m.step s c).2 x
  writes : ∀ s c x, ok s c → present (m.step s c).2 x →
    present s x ∨ takes s c = some x
  needed : ∀ s c, (∀ x, takes s c = some x →
    counter s x < counter (m.step s c).2 x) → ok s c

namespace Allocator

variable {m : Machine σ ι ρ} {takes : σ → ι → Option X} {number : X → Nat}
  {counter : σ → X → Nat} {present : σ → X → Prop} {ok : σ → ι → Prop}

/-- Present indexes are behind their counter. -/
theorem present_behind (h : Allocator m takes number counter present ok)
    {cs : List ι} (hEach : m.Each ok cs) (x : X)
    (hPresent : present (m.run cs) x) : number x ≤ counter (m.run cs) x := by
  revert x
  refine hEach.history_invariant
    (R := fun s _ => ∀ x, present s x → number x ≤ counter s x) ?_ ?_
  · intro x hx
    exact absurd hx (h.start x)
  · intro s _ c hOk hBehind x hx
    rcases h.writes s c x hOk hx with hOld | hNew
    · exact (hBehind x hOld).trans (h.monotone s c x hOk)
    · have hNext := h.next s c x hOk hNew
      omega

/-- Indexes taken earlier are behind their counter. -/
theorem taken_behind (h : Allocator m takes number counter present ok)
    {cs : List ι} (hEach : m.Each ok cs) {q : List ι} {d : ι} {x : X}
    (hq : q ++ [d] <+: cs) (hTaken : takes (m.run q) d = some x) :
    number x ≤ counter (m.run cs) x := by
  induction cs using List.reverseRecOn with
  | nil => simp at hq
  | append_singleton cs c ih =>
      rw [m.each_concat] at hEach
      rw [m.run_concat]
      rcases concat_isPrefix_concat_iff.mp hq with ⟨rfl, rfl⟩ | hq
      · have hNext := h.next _ _ x hEach.2 hTaken
        omega
      · exact (ih hEach.1 hq).trans (h.monotone _ _ x hEach.2)

/-- **Soundness of taken indexes**, for all runs, in one condition: every input
finds room. An input that does not would not make its counter grow. -/
theorem soundly_iff (h : Allocator m takes number counter present ok)
    (cs : List ι) :
    (∀ p c, p ++ [c] <+: cs → TakesSoundly m takes counter present p c) ↔
      m.Each ok cs := by
  constructor
  · intro hSound
    rw [m.each_iff]
    intro p c hp
    exact h.needed _ c (hSound p c hp).grows
  · intro hEach p c hp
    have hPart := hEach.earlier hp
    rw [m.each_concat] at hPart
    obtain ⟨hBefore, hOk⟩ := hPart
    -- The number of the index is ahead of the counter, those spent are not.
    have hAhead {x : X} (hTakes : takes (m.run p) c = some x) :
        counter (m.run p) x < number x := by
      have hNext := h.next _ c x hOk hTakes
      omega
    refine ⟨?_, ?_, ?_⟩
    · intro x hTakes
      have hNext := h.next _ c x hOk hTakes
      omega
    · intro x hTakes q d hq hTaken
      have hBehind := h.taken_behind hBefore hq hTaken
      have hNumber := hAhead hTakes
      omega
    · intro x hTakes hPresent
      have hBehind := h.present_behind hBefore x hPresent
      have hNumber := hAhead hTakes
      omega

end Allocator

end ForgePass.Verified.Machine

import ForgePass.Verified.Coalition

/-!
# What can be taken back

A move is *revisable* if other moves lead back.  Which moves of an encoded
machine are can be read off the order on its contents: those that go along the
order both ways (`Encoding.both_ways_iff`).  The rest of the module says what
that means for families, for contents behind a bootstrap, and for those that
a coalition moves all or not at all.
-/

namespace ForgePass.Verified

open Machine

/-- Along the order both ways. For an order of moves these are the moves that
can be taken back. -/
def BothWays {X : Type} (R : X → X → Prop) (x y : X) : Prop := R x y ∧ R y x

theorem Machine.Encoding.both_ways_iff {σ ι ρ β : Type} {m : Machine σ ι ρ}
    {ok : σ → ι → Prop} {encode : β → σ} {Evolves : β → β → Prop}
    (h : Encoding m ok encode Evolves) (hInjective : Function.Injective encode)
    (b c : β) :
    BothWays (m.Follows ok) (encode b) (encode c) ↔ BothWays Evolves b c := by
  have hOne : ∀ b c, m.Follows ok (encode b) (encode c) ↔ Evolves b c := by
    intro b c
    rw [h.follows_iff]
    constructor
    · rintro ⟨d, hbd, hEq⟩
      exact hInjective hEq ▸ hbd
    · exact fun hbc => ⟨c, hbc, rfl⟩
  unfold BothWays
  rw [hOne, hOne]

theorem pointwise_congr {κ : Type} {F : κ → Type}
    {R R' : (k : κ) → F k → F k → Prop} (h : ∀ k x y, R k x y ↔ R' k x y)
    {f g : (k : κ) → F k} : Pointwise R f g ↔ Pointwise R' f g :=
  ⟨.mono fun k x y => (h k x y).mp, .mono fun k x y => (h k x y).mpr⟩

theorem Pointwise.both_ways_iff {κ : Type} {F : κ → Type}
    {R : (k : κ) → F k → F k → Prop} {f g : (k : κ) → F k} :
    BothWays (Pointwise R) f g ↔ Pointwise (fun k => BothWays (R k)) f g := by
  constructor
  · rintro ⟨hfg, hgf⟩
    exact ⟨hfg.finite, fun k => ⟨hfg.each k, hgf.each k⟩⟩
  · intro h
    have hFinite : {k | g k ≠ f k}.Finite := by
      simpa only [ne_comm] using h.finite
    exact ⟨⟨h.finite, fun k => (h.each k).1⟩, ⟨hFinite, fun k => (h.each k).2⟩⟩

namespace Deployment

variable {A X : Type}

/-- Both fresh, or of one administrator with related contents. -/
inductive Alike (R : A → X → X → Prop) : Deployment A X → Deployment A X → Prop
  | fresh : Alike R .fresh .fresh
  | installed (a : A) (x y : X) (h : R a x y) :
      Alike R (.installed a x) (.installed a y)

/-- A bootstrap is not taken back. -/
theorem both_ways_iff {start : X} {Grows : A → X → X → Prop}
    {b c : Deployment A X} :
    BothWays (Evolves start Grows) b c ↔
      Alike (fun a => BothWays (Grows a)) b c := by
  constructor
  · rintro ⟨hbc, hcb⟩
    cases hbc with
    | waiting => exact .fresh
    | bootstrapped a x h => cases hcb
    | grown a x y h =>
        cases hcb with
        | grown _ _ _ h' => exact .installed a x y ⟨h, h'⟩
  · intro h
    cases h with
    | fresh => exact ⟨.waiting, .waiting⟩
    | installed a x y h => exact ⟨.grown a x y h.1, .grown a y x h.2⟩

theorem alike_congr {R R' : A → X → X → Prop}
    (h : ∀ a x y, R a x y ↔ R' a x y) {b c : Deployment A X} :
    Alike R b c ↔ Alike R' b c := by
  have hSame : R = R' := funext fun a => funext fun x => funext fun y =>
    propext (h a x y)
  rw [hSame]

theorem alike_eq_iff {b c : Deployment A X} :
    Alike (fun _ => Eq) b c ↔ b = c := by
  constructor
  · intro h
    cases h with
    | fresh => rfl
    | installed a x y h => rw [h]
  · rintro rfl
    cases b with
    | fresh => exact .fresh
    | installed a x => exact .installed a x x rfl

end Deployment

theorem allOrNothing_both_ways_iff {A X : Type} {P : Set A}
    {Grows Revised : X → X → Prop} {a : A} {x y : X}
    (h : BothWays Grows x y ↔ Revised x y) :
    BothWays (AllOrNothing P Grows a) x y ↔ AllOrNothing P Revised a x y := by
  unfold AllOrNothing at *
  rw [← h]
  constructor
  · rintro ⟨⟨hMember, hxy⟩ | rfl, hyx⟩
    · rcases hyx with ⟨-, hyx⟩ | rfl
      · exact .inl ⟨hMember, hxy, hyx⟩
      · exact .inr rfl
    · exact .inr rfl
  · rintro (⟨hMember, hxy, hyx⟩ | rfl)
    · exact ⟨.inl ⟨hMember, hxy⟩, .inl ⟨hMember, hyx⟩⟩
    · exact ⟨.inr rfl, .inr rfl⟩

end ForgePass.Verified

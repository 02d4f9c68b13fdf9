import ForgePass.Verified.Clock
import ForgePass.Verified.Contract

/-!
# What a coalition can do

Nobody authorises a call for somebody else, so the calls that a *coalition* of
addresses can send are those that carry authorisations of its members only.
How much the coalition can do is which states it reaches by such calls.

A machine that one administrator guards is all or nothing.  Without the
administrator a coalition moves nothing.  With it, it reaches whatever can be
reached at all, as long as the machine looks for no other signature
(`SignatureOnly`): calls that the administrator did not sign are dropped, and
the others signed by the administrator alone.
-/

namespace ForgePass.Verified

open Machine

variable {A C σ ρ X : Type}

namespace Invocation

/-- All authorisations come from the coalition. An invocation without any is
within every coalition, the empty one included. -/
def Within (P : Set A) (i : Invocation A C) : Prop := ∀ a ∈ i.env.auths, a ∈ P

/-- The same call, authorised by `a` alone. -/
def signedOnly (a : A) (i : Invocation A C) : Invocation A C :=
  ⟨⟨{a}, i.env.timestamp⟩, i.call⟩

theorem within_singleton {P : Set A} {a : A} (h : a ∈ P) (time : UInt64)
    (call : C) : Within P ⟨⟨{a}, time⟩, call⟩ := by
  intro b hb
  rw [Finset.mem_singleton] at hb
  exact hb ▸ h

theorem within_empty (P : Set A) (time : UInt64) (call : C) :
    Within P ⟨⟨∅, time⟩, call⟩ := by
  intro b hb
  simp at hb

theorem within_univ (i : Invocation A C) : i.Within Set.univ := by
  intro a _
  trivial

end Invocation

/-- Of the environment of a call the machine looks at one thing: whether the
administrator signed. -/
structure SignatureOnly (m : Machine σ (Invocation A C) ρ)
    (admin : σ → Option A) (ok : σ → Invocation A C → Prop) : Prop where
  step : ∀ s env env' c,
    (SignedBy (admin s) env' ↔ SignedBy (admin s) env) →
      m.step s ⟨env', c⟩ = m.step s ⟨env, c⟩
  allowed : ∀ s env env' c,
    (SignedBy (admin s) env' ↔ SignedBy (admin s) env) →
      ok s ⟨env, c⟩ → ok s ⟨env', c⟩

namespace SignatureOnly

variable {m : Machine σ (Invocation A C) ρ} {admin : σ → Option A}
  {ok : σ → Invocation A C → Prop}

/-- The administrator alone is as good as with others. -/
theorem signedOnly (h : SignatureOnly m admin ok) {s : σ} {a : A}
    (ha : admin s = some a) {i : Invocation A C} (hAuth : a ∈ i.env.auths) :
    m.step s (i.signedOnly a) = m.step s i ∧
      (ok s i → ok s (i.signedOnly a)) := by
  have hSame : SignedBy (admin s) ⟨{a}, i.env.timestamp⟩ ↔
      SignedBy (admin s) i.env := by
    rw [ha, signedBy_some, signedBy_some]
    exact iff_of_true (Finset.mem_singleton_self a) hAuth
  exact ⟨h.step s i.env _ i.call hSame, h.allowed s i.env _ i.call hSame⟩

/-- The time does not matter either. -/
theorem timeless (h : SignatureOnly m admin ok) (P : Set A) (now : UInt64) :
    Timeless m Invocation.time (fun s i => ok s i ∧ i.Within P) now.toNat
      (Invocation.retimed now) where
  time i := i.time_retimed now
  step s i := h.step s i.env _ i.call Iff.rfl
  allowed s i hOk := ⟨h.allowed s i.env _ i.call Iff.rfl hOk.1, hOk.2⟩

end SignatureOnly

section Guarded

variable {m : Machine σ (Invocation A C) ρ} {admin : σ → Option A}
  {installs : Invocation A C × ρ → Option A} {ok : σ → Invocation A C → Prop}
  {P : Set A}

/-- A coalition with the administrator reaches what can be reached. -/
theorem follows_within (hGuarded : AdminGuarded m admin installs fun _ => False)
    (hOnly : SignatureOnly m admin ok) {s t : σ} {a : A}
    (ha : admin s = some a) (hMember : a ∈ P) (h : m.Follows ok s t) :
    m.Follows (fun s i => ok s i ∧ i.Within P) s t := by
  obtain ⟨is, hOk, rfl⟩ := h
  induction is generalizing s with
  | nil => exact .refl s
  | cons i is ih =>
      have hRest := ih (hGuarded.keeps ha i) hOk.2
      by_cases hAuth : a ∈ i.env.auths
      · have hFirst : m.Follows (fun s i => ok s i ∧ i.Within P) s
            (m.step s i).2 := by
          obtain ⟨hStep, hAllowed⟩ := hOnly.signedOnly ha hAuth
          apply Follows.step (i := i.signedOnly a)
          · exact ⟨hAllowed hOk.1, Invocation.within_singleton hMember _ _⟩
          · rw [hStep]
        exact hFirst.trans hRest
      · rw [hGuarded.frame ha hAuth not_false] at hRest
        show m.Follows _ s (m.runFrom (m.step s i).2 is)
        rw [hGuarded.frame ha hAuth not_false]
        exact hRest

/-- A coalition without the administrator moves nothing. -/
theorem step_without (hGuarded : AdminGuarded m admin installs fun _ => False)
    {s : σ} {a : A} (ha : admin s = some a) (hOutside : a ∉ P)
    {i : Invocation A C} (hWithin : i.Within P) : (m.step s i).2 = s :=
  hGuarded.frame ha (fun hAuth => hOutside (hWithin a hAuth)) not_false

/-- All or nothing, on contents: the administrator is a member and the content
grows as it can, or it stays as it is. -/
def AllOrNothing (P : Set A) (Grows : X → X → Prop) (a : A) (x y : X) : Prop :=
  (a ∈ P ∧ Grows x y) ∨ x = y

/-- Contents that all callers together can move from `x` to `y`, a coalition
can move so if and only if it has the administrator. -/
theorem Machine.Encoding.within {encode : Deployment A X → σ} {start : X}
    {Grows : X → X → Prop}
    (h : Encoding m ok encode (Deployment.Evolves start fun _ => Grows))
    (hTrans : ∀ x y z, Grows x y → Grows y z → Grows x z)
    (hGuarded : AdminGuarded m admin installs fun _ => False)
    (hOnly : SignatureOnly m admin ok)
    (hAdmin : ∀ a x, admin (encode (.installed a x)) = some a)
    (hFresh : ∀ i, (m.step (encode .fresh) i).2 = encode .fresh ∨
      ∃ a, (m.step (encode .fresh) i).2 = encode (.installed a start))
    (hInstall : ∀ a, m.Follows (fun s i => ok s i ∧ i.Within P)
      (encode .fresh) (encode (.installed a start))) :
    Encoding m (fun s i => ok s i ∧ i.Within P) encode
      (Deployment.Evolves start (AllOrNothing P Grows)) := by
  apply Deployment.encoding
  · exact fun a x => .inr rfl
  · rintro a x y z (⟨hMember, hxy⟩ | rfl) hyz
    · rcases hyz with ⟨-, hyz⟩ | rfl
      · exact .inl ⟨hMember, hTrans x y z hxy hyz⟩
      · exact .inl ⟨hMember, hxy⟩
    · exact hyz
  · exact fun i _ => hFresh i
  · intro a x i hOk
    by_cases hMember : a ∈ P
    · obtain ⟨c, hGrown, hStep⟩ := h.step (.installed a x) i hOk.1
      cases hGrown with
      | grown _ _ y hxy => exact ⟨y, .inl ⟨hMember, hxy⟩, hStep⟩
    · exact ⟨x, .inr rfl, step_without hGuarded (hAdmin a x) hMember hOk.2⟩
  · exact hInstall
  · rintro a x y (⟨hMember, hxy⟩ | rfl)
    · exact follows_within hGuarded hOnly (hAdmin a x) hMember
        (h.carried _ _ (.grown a x y hxy))
    · exact .refl _

end Guarded

end ForgePass.Verified

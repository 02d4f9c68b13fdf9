import ForgePass.Verified.Machine
import Mathlib.Data.Set.Finite.Basic

/-!
# Which states can follow which

An invariant bounds the reachable states from outside.  An *encoding* fits
them exactly: some states of a machine are written as images of abstract
contents, every allowed step moves along an order `Evolves` on contents, and
every move along the order can be carried out by allowed inputs.  Then the
order says which states follow a given one and which do not
(`Encoding.follows_iff`).

Contents are often families, one entry for each key, of which a run moves
finitely many.  `Pointwise` is the order on families, and
`Pointwise.induction` reduces a move of the family to moves of single entries.

`Deployment` adds the bootstrap: a contract is fresh, or installed by an
administrator and has contents from then on.
-/

namespace ForgePass.Verified

/-! ## Families that move in finitely many places -/

section Families

variable {κ : Type} {F : κ → Type}

/-- Finitely many entries of the family moved, each along its `R`. The others
did not move, so `R` must be reflexive there. -/
structure Pointwise (R : (k : κ) → F k → F k → Prop) (f g : (k : κ) → F k) :
    Prop where
  finite : {k | f k ≠ g k}.Finite
  each : ∀ k, R k (f k) (g k)

namespace Pointwise

variable {R : (k : κ) → F k → F k → Prop} {f g h : (k : κ) → F k}

theorem refl (hRefl : ∀ k x, R k x x) (f : (k : κ) → F k) :
    Pointwise R f f where
  finite := by simp
  each k := hRefl k (f k)

theorem trans (hTrans : ∀ k x y z, R k x y → R k y z → R k x z)
    (hfg : Pointwise R f g) (hgh : Pointwise R g h) : Pointwise R f h where
  finite := by
    apply (hfg.finite.union hgh.finite).subset
    intro k hk
    by_cases hMoved : f k = g k
    · exact .inr fun hEq => hk (hMoved.trans hEq)
    · exact .inl hMoved
  each k := hTrans k _ _ _ (hfg.each k) (hgh.each k)

theorem mono {R' : (k : κ) → F k → F k → Prop}
    (hImp : ∀ k x y, R k x y → R' k x y) (hMove : Pointwise R f g) :
    Pointwise R' f g where
  finite := hMove.finite
  each k := hImp k _ _ (hMove.each k)

variable [DecidableEq κ]

/-- One entry moved. -/
theorem update (hRefl : ∀ k x, R k x x) {k : κ} {x : F k} (hx : R k (f k) x) :
    Pointwise R f (Function.update f k x) where
  finite := by
    apply (Set.finite_singleton k).subset
    intro j hj
    by_contra hOther
    exact hj (Function.update_of_ne hOther x f).symm
  each := by
    intro j
    by_cases hj : j = k
    · subst hj
      rw [Function.update_self]
      exact hx
    · rw [Function.update_of_ne hj]
      exact hRefl j (f j)

/-- What holds of single moves, and of moves in sequence, holds of the
family. -/
theorem induction {P : ((k : κ) → F k) → ((k : κ) → F k) → Prop}
    (hRefl : ∀ k x, R k x x)
    (hStill : ∀ f, P f f) (hSeq : ∀ f g h, P f g → P g h → P f h)
    (hSingle : ∀ f k x, R k (f k) x → P f (Function.update f k x))
    (hMove : Pointwise R f g) : P f g := by
  -- induction on a finite set that contains the places not yet moved
  have hAll : ∀ (T : Finset κ) (f : (k : κ) → F k),
      (∀ k, k ∉ T → f k = g k) → (∀ k, R k (f k) (g k)) → P f g := by
    intro T
    induction T using Finset.induction_on with
    | empty =>
        intro f hSame _
        have hEq : f = g := funext fun k => hSame k (Finset.notMem_empty k)
        exact hEq ▸ hStill f
    | insert k T _ ih =>
        intro f hSame hEach
        apply hSeq _ _ _ (hSingle f k (g k) (hEach k))
        apply ih
        · intro j hj
          by_cases hjk : j = k
          · subst hjk
            rw [Function.update_self]
          · rw [Function.update_of_ne hjk]
            exact hSame j fun hMem =>
              (Finset.mem_insert.mp hMem).elim hjk hj
        · intro j
          by_cases hjk : j = k
          · subst hjk
            rw [Function.update_self]
            exact hRefl j (g j)
          · rw [Function.update_of_ne hjk]
            exact hEach j
  apply hAll hMove.finite.toFinset f _ hMove.each
  intro k hk
  by_contra hMoved
  exact hk (hMove.finite.mem_toFinset.mpr hMoved)

end Pointwise

/-- What the moved entry kept, no entry changed. -/
theorem update_agree [DecidableEq κ] {X G : Type} (view : X → G) {f : κ → X}
    {k : κ} {x : X} (h : view x = view (f k)) (j : κ) :
    view (Function.update f k x j) = view (f j) := by
  by_cases hj : j = k
  · subst hj
    rw [Function.update_self, h]
  · rw [Function.update_of_ne hj]

end Families

namespace Machine

variable {σ ι ρ β : Type} {m : Machine σ ι ρ} {ok : σ → ι → Prop}

/-! ## States that follow others -/

/-- The machine gets from `s` to `t` by inputs that `ok` allows, each in the
state it meets. -/
def Follows (m : Machine σ ι ρ) (ok : σ → ι → Prop) (s t : σ) : Prop :=
  ∃ cs, m.EachFrom ok s cs ∧ m.runFrom s cs = t

theorem Follows.refl (s : σ) : m.Follows ok s s := ⟨[], trivial, rfl⟩

theorem Follows.trans {s t u : σ} (hst : m.Follows ok s t)
    (htu : m.Follows ok t u) : m.Follows ok s u := by
  obtain ⟨cs, hcs, rfl⟩ := hst
  obtain ⟨ds, hds, rfl⟩ := htu
  exact ⟨cs ++ ds, (m.eachFrom_append s cs ds).mpr ⟨hcs, hds⟩,
    m.runFrom_append s cs ds⟩

/-- More inputs may be allowed. -/
theorem Follows.mono {ok' : σ → ι → Prop} {s t : σ} (h : m.Follows ok s t)
    (hImp : ∀ s i, ok s i → ok' s i) : m.Follows ok' s t := by
  obtain ⟨cs, hcs, hRun⟩ := h
  refine ⟨cs, ?_, hRun⟩
  clear hRun
  induction cs generalizing s with
  | nil => trivial
  | cons c cs ih => exact ⟨hImp s c hcs.1, ih hcs.2⟩

theorem Follows.step {s t : σ} {i : ι} (hOk : ok s i)
    (hStep : (m.step s i).2 = t) : m.Follows ok s t :=
  ⟨[i], ⟨hOk, trivial⟩, hStep⟩

/-- Nothing restricts the inputs. -/
abbrev Any (_ : σ) (_ : ι) : Prop := True

theorem eachFrom_any (s : σ) (cs : List ι) : m.EachFrom Any s cs := by
  induction cs generalizing s with
  | nil => trivial
  | cons c cs ih => exact ⟨trivial, ih _⟩

theorem follows_any_iff {s t : σ} :
    m.Follows Any s t ↔ ∃ cs, m.runFrom s cs = t := by
  constructor
  · rintro ⟨cs, -, hRun⟩
    exact ⟨cs, hRun⟩
  · rintro ⟨cs, hRun⟩
    exact ⟨cs, eachFrom_any s cs, hRun⟩

/-- Contents and an order on them that says exactly how encoded states
evolve. -/
structure Encoding (m : Machine σ ι ρ) (ok : σ → ι → Prop) (encode : β → σ)
    (Evolves : β → β → Prop) : Prop where
  refl : ∀ b, Evolves b b
  trans : ∀ b c d, Evolves b c → Evolves c d → Evolves b d
  step : ∀ b i, ok (encode b) i →
    ∃ c, Evolves b c ∧ (m.step (encode b) i).2 = encode c
  carried : ∀ b c, Evolves b c → m.Follows ok (encode b) (encode c)

namespace Encoding

variable {encode : β → σ} {Evolves : β → β → Prop}

/-- A run from an encoded state stays among them. -/
theorem run (h : Encoding m ok encode Evolves) {b : β} {cs : List ι}
    (hcs : m.EachFrom ok (encode b) cs) :
    ∃ c, Evolves b c ∧ m.runFrom (encode b) cs = encode c := by
  induction cs generalizing b with
  | nil => exact ⟨b, h.refl b, rfl⟩
  | cons i cs ih =>
      obtain ⟨c, hbc, hStep⟩ := h.step b i hcs.1
      have hRest := hcs.2
      rw [hStep] at hRest
      obtain ⟨d, hcd, hRun⟩ := ih hRest
      refine ⟨d, h.trans b c d hbc hcd, ?_⟩
      show m.runFrom (m.step (encode b) i).2 cs = encode d
      rw [hStep, hRun]

/-- The states that follow an encoded one are the encodings of what its
content evolves to. -/
theorem follows_iff (h : Encoding m ok encode Evolves) (b : β) (t : σ) :
    m.Follows ok (encode b) t ↔ ∃ c, Evolves b c ∧ encode c = t := by
  constructor
  · rintro ⟨cs, hcs, rfl⟩
    obtain ⟨c, hbc, hRun⟩ := h.run hcs
    exact ⟨c, hbc, hRun.symm⟩
  · rintro ⟨c, hbc, rfl⟩
    exact h.carried b c hbc

end Encoding

/-! ## Encodings side by side -/

section Family

variable {κ : Type} [DecidableEq κ] {F I P B : κ → Type}
  {ms : (k : κ) → Machine (F k) (I k) (P k)}
  {ok : (k : κ) → F k → I k → Prop} {encode : (k : κ) → B k → F k}
  {Evolves : (k : κ) → B k → B k → Prop}

/-- What one machine of a family can do, the family can. -/
theorem Follows.family {s : (k : κ) → F k} {k : κ} {x : F k}
    (h : (ms k).Follows (ok k) (s k) x) :
    (Machine.family ms).Follows (fun s i => ok i.1 (s i.1) i.2) s
      (Function.update s k x) := by
  obtain ⟨cs, hOk, rfl⟩ := h
  induction cs generalizing s with
  | nil =>
      show Follows _ _ s (Function.update s k (s k))
      rw [Function.update_eq_self]
      exact .refl s
  | cons c cs ih =>
      have hFirst : (Machine.family ms).Follows (fun s i => ok i.1 (s i.1) i.2)
          s (Function.update s k ((ms k).step (s k) c).2) :=
        Follows.step (i := ⟨k, c⟩) hOk.1 rfl
      have hRest := ih (s := Function.update s k ((ms k).step (s k) c).2)
        (by rw [Function.update_self]; exact hOk.2)
      rw [Function.update_self, Function.update_idem] at hRest
      exact hFirst.trans hRest

/-- Families are encoded entry by entry. -/
theorem Encoding.family
    (h : ∀ k, Encoding (ms k) (ok k) (encode k) (Evolves k)) :
    Encoding (Machine.family ms) (fun s i => ok i.1 (s i.1) i.2)
      (fun b k => encode k (b k)) (Pointwise Evolves) where
  refl := Pointwise.refl fun k => (h k).refl
  trans := fun _ _ _ => Pointwise.trans fun k => (h k).trans
  step := by
    rintro b ⟨k, i⟩ hOk
    obtain ⟨c, hbc, hStep⟩ := (h k).step (b k) i hOk
    refine ⟨Function.update b k c, .update (fun k => (h k).refl) hbc, ?_⟩
    funext j
    rw [Function.apply_update (fun j => encode j) b k c j, ← hStep]
    rfl
  carried := by
    intro b c hbc
    apply hbc.induction (P := fun b c => (Machine.family ms).Follows
      (fun s i => ok i.1 (s i.1) i.2) (fun k => encode k (b k))
      (fun k => encode k (c k))) fun k => (h k).refl
    · exact fun b => .refl _
    · exact fun _ _ _ => Follows.trans
    · intro b k x hx
      have hFollows := Follows.family (s := fun k => encode k (b k))
        ((h k).carried (b k) x hx)
      have hSame : (fun j => encode j (Function.update b k x j)) =
          Function.update (fun j => encode j (b j)) k (encode k x) := by
        funext j
        exact Function.apply_update (fun j => encode j) b k x j
      rw [hSame]
      exact hFollows

end Family

end Machine

/-! ## Contents behind a bootstrap -/

/-- A contract before its bootstrap call, or with the administrator it
installed and contents. -/
inductive Deployment (A X : Type) where
  | fresh
  | installed (admin : A) (content : X)

namespace Deployment

variable {A X σ ι ρ : Type}

/-- The administrator, once there is one. -/
def admin? : Deployment A X → Option A
  | .fresh => none
  | .installed a _ => some a

/-- The contents, `blank` before the bootstrap. -/
def content (blank : X) : Deployment A X → X
  | .fresh => blank
  | .installed _ x => x

/-- The bootstrap happens once and starts with the content `start`; from then
on the administrator stays and the content grows. -/
inductive Evolves (start : X) (Grows : A → X → X → Prop) :
    Deployment A X → Deployment A X → Prop
  | waiting : Evolves start Grows .fresh .fresh
  | bootstrapped (a : A) (x : X) (h : Grows a start x) :
      Evolves start Grows .fresh (.installed a x)
  | grown (a : A) (x y : X) (h : Grows a x y) :
      Evolves start Grows (.installed a x) (.installed a y)

/-- An encoding from what the bootstrap and the calls after it do. -/
theorem encoding {m : Machine σ ι ρ} {ok : σ → ι → Prop}
    {encode : Deployment A X → σ} {start : X} {Grows : A → X → X → Prop}
    (hRefl : ∀ a x, Grows a x x)
    (hTrans : ∀ a x y z, Grows a x y → Grows a y z → Grows a x z)
    (hFresh : ∀ i, ok (encode .fresh) i →
      (m.step (encode .fresh) i).2 = encode .fresh ∨
        ∃ a, (m.step (encode .fresh) i).2 = encode (.installed a start))
    (hInstalled : ∀ a x i, ok (encode (.installed a x)) i → ∃ y, Grows a x y ∧
      (m.step (encode (.installed a x)) i).2 = encode (.installed a y))
    (hInstall : ∀ a,
      m.Follows ok (encode .fresh) (encode (.installed a start)))
    (hCarried : ∀ a x y, Grows a x y → m.Follows ok (encode (.installed a x))
      (encode (.installed a y))) :
    m.Encoding ok encode (Evolves start Grows) where
  refl := by
    intro b
    cases b with
    | fresh => exact .waiting
    | installed a x => exact .grown a x x (hRefl a x)
  trans := by
    intro b c d hbc hcd
    cases hbc with
    | waiting => exact hcd
    | bootstrapped a x h =>
        cases hcd with
        | grown _ _ y hxy => exact .bootstrapped a y (hTrans a _ _ _ h hxy)
    | grown a x y h =>
        cases hcd with
        | grown _ _ z hyz => exact .grown a x z (hTrans a _ _ _ h hyz)
  step := by
    intro b i hOk
    cases b with
    | fresh =>
        rcases hFresh i hOk with hSame | ⟨a, hInst⟩
        · exact ⟨.fresh, .waiting, hSame⟩
        · exact ⟨.installed a start, .bootstrapped a start (hRefl a start),
            hInst⟩
    | installed a x =>
        obtain ⟨y, hxy, hStep⟩ := hInstalled a x i hOk
        exact ⟨.installed a y, .grown a x y hxy, hStep⟩
  carried := by
    intro b c hbc
    cases hbc with
    | waiting => exact .refl _
    | bootstrapped a x h => exact (hInstall a).trans (hCarried a start x h)
    | grown a x y h => exact hCarried a x y h

end Deployment

end ForgePass.Verified

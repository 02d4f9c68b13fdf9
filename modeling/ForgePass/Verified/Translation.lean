import ForgePass.Verified.Refinement
import Mathlib.Data.Set.Operations

/-!
# Machines on translated inputs

A machine is given the inputs of another one in translation.  Where contents
are kept by key and keys are only compared, an injective renaming of the keys
carries the contents over (`Carried`), write by write.  A bootstrap and a
family of machines are followed in translation as soon as their parts are.
-/

namespace ForgePass.Verified

/-! ## Contents under renamed keys -/

section Carried

variable {κ κ' X X' : Type} {f : κ → κ'} {value : X → X'} {rest : X'}
  {g : κ → X} {g' : κ' → X'}

/-- `g'` has the values of `g`, each translated, at the renamed keys and `rest`
at all other keys. -/
structure Carried (f : κ → κ') (value : X → X') (rest : X') (g : κ → X)
    (g' : κ' → X') : Prop where
  image : ∀ k, g' (f k) = value (g k)
  nothingElse : ∀ k', k' ∉ Set.range f → g' k' = rest

theorem Carried.const {x : X} (h : rest = value x) :
    Carried f value rest (fun _ => x) fun _ => rest where
  image _ := h
  nothingElse _ _ := rfl

theorem Carried.update [DecidableEq κ] [DecidableEq κ']
    (h : Carried f value rest g g') (hf : Function.Injective f) (k : κ)
    {x : X} {x' : X'} (hx : x' = value x) :
    Carried f value rest (Function.update g k x)
      (Function.update g' (f k) x') where
  image j := by
    by_cases hj : j = k
    · subst hj
      rw [Function.update_self, Function.update_self, hx]
    · have hImage : f j ≠ f k := fun hEq => hj (hf hEq)
      rw [Function.update_of_ne hj, Function.update_of_ne hImage, h.image]
  nothingElse k' hk' := by
    have hNew : k' ≠ f k := by
      rintro rfl
      exact hk' (Set.mem_range_self k)
    rw [Function.update_of_ne hNew, h.nothingElse k' hk']

end Carried

/-! ## Bootstraps and families -/

namespace Machine

variable {ι ι' ρ A A' X X' : Type}

/-- Both are fresh, or installed with the administrator renamed and related
contents. -/
inductive Translates (f : A → A') (R : X → X' → Prop) :
    Deployment A X → Deployment A' X' → Prop
  | fresh : Translates f R .fresh .fresh
  | installed (a : A) (x : X) (x' : X') (h : R x x') :
      Translates f R (.installed a x) (.installed (f a) x')

namespace Translates

variable {f : A → A'} {R : X → X' → Prop} {d : Deployment A X}
  {d' : Deployment A' X'}

theorem admin? (h : Translates f R d d') : d'.admin? = d.admin?.map f := by
  cases h with
  | fresh => rfl
  | installed a x x' h => rfl

theorem content {blank : X} {blank' : X'} (h : Translates f R d d')
    (hBlank : R blank blank') : R (d.content blank) (d'.content blank') := by
  cases h with
  | fresh => exact hBlank
  | installed a x x' h => exact h

/-- A bootstrap follows in translation what its operations follow. -/
theorem bootstrapped {install : ι → Option A} {install' : ι' → Option A'}
    {welcome : ρ} {early : ι → ρ} {early' : ι' → ρ} {blank : X} {blank' : X'}
    {operate : A → X → ι → ρ × X} {operate' : A' → X' → ι' → ρ × X'}
    {image : ι → ι'} (hInstall : ∀ i, install' (image i) = (install i).map f)
    (hEarly : ∀ i, early' (image i) = early i) (hBlank : R blank blank')
    (hOperate : ∀ a x x' i, R x x' →
      Related Eq R (operate a x i) (operate' (f a) x' (image i)))
    (h : Translates f R d d') (i : ι) :
    Related Eq (Translates f R)
      ((Machine.bootstrapped install welcome early blank operate).step d i)
      ((Machine.bootstrapped install' welcome early' blank' operate').step d'
        (image i)) := by
  cases h with
  | fresh =>
      have hImage := hInstall i
      cases hBoot : install i with
      | none =>
          rw [hBoot] at hImage
          rw [bootstrapped_early hBoot, bootstrapped_early hImage]
          exact ⟨(hEarly i).symm, .fresh⟩
      | some a =>
          rw [hBoot] at hImage
          rw [bootstrapped_install hBoot, bootstrapped_install hImage]
          exact ⟨rfl, .installed a _ _ hBlank⟩
  | installed a x x' h =>
      have hNext := hOperate a x x' i h
      exact ⟨hNext.answer, .installed a _ _ hNext.state⟩

end Translates

end Machine

end ForgePass.Verified

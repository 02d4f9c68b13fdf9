import ForgePass.Verified.Machine
import ForgePass.Verified.Storage
import Mathlib.Data.Fintype.EquivFin
import Mathlib.Data.Set.Card

/-!
# How many keys a run leaves behind

The footprint of a tier is its set of keys.  A machine whose steps add keys of
finitely many kinds, each for the owner the step served, has a footprint
linear in the number of owners and independent of the length of the run.  A
machine that can add a key of its own for every owner has no bound that holds
for all runs.
-/

namespace ForgePass.Verified

namespace Storage

variable {K : Type} {V : K → Type}

/-- The keys under which the tier holds a value. -/
def keys (s : Storage K V) : Set K := {k | (s.get k).isSome}

@[simp] theorem keys_empty : (empty : Storage K V).keys = ∅ := by
  ext k
  simp [keys]

@[simp] theorem keys_set [DecidableEq K] (s : Storage K V) (k : K) (v : V k) :
    (s.set k v).keys = insert k s.keys := by
  ext k'
  by_cases hk : k' = k
  · subst hk
    simp [keys]
  · simp [keys, hk]

end Storage

namespace Ledger

variable {K : Type} {V : K → Type}

/-- The keys of the instance tier. -/
def instanceKeys (s : Ledger K V) : Set K := s.instanceTier.keys

@[simp] theorem instanceKeys_empty : (empty : Ledger K V).instanceKeys = ∅ :=
  Storage.keys_empty

variable [DecidableEq K]

@[simp] theorem instanceKeys_setInstance (s : Ledger K V) (k : K) (v : V k) :
    (s.setInstance k v).instanceKeys = insert k s.instanceKeys :=
  Storage.keys_set s.instanceTier k v

@[simp] theorem instanceKeys_setPersistent (s : Ledger K V) (k : K) (v : V k) :
    (s.setPersistent k v).instanceKeys = s.instanceKeys := rfl

end Ledger

/-! ## Counting keys -/

section Counting

variable {K O J : Type}

/-- Fixed keys, and keys of each kind `j` for each owner. Their number is
linear in that of the owners. -/
def ownedKeys (fixed : Finset K) (kind : J → O → K) (owners : Finset O) :
    Set K := {k | k ∈ fixed ∨ ∃ j, ∃ o ∈ owners, kind j o = k}

theorem ownedKeys_mono {fixed : Finset K} {kind : J → O → K}
    {owners owners' : Finset O} (h : owners ⊆ owners') :
    ownedKeys fixed kind owners ⊆ ownedKeys fixed kind owners' := by
  rintro k (hFixed | ⟨j, o, ho, rfl⟩)
  · exact .inl hFixed
  · exact .inr ⟨j, o, h ho, rfl⟩

theorem encard_ownedKeys_le [Fintype J] (fixed : Finset K) (kind : J → O → K)
    (owners : Finset O) :
    (ownedKeys fixed kind owners).encard ≤
      (fixed.card + Fintype.card J * owners.card : ℕ) := by
  classical
  let pairs : Finset K :=
    (Finset.univ ×ˢ owners).image fun p => kind p.1 p.2
  have hSub : ownedKeys fixed kind owners ⊆ (fixed ∪ pairs : Finset K) := by
    rintro k (hFixed | ⟨j, o, ho, rfl⟩)
    · exact Finset.mem_union_left _ hFixed
    · refine Finset.mem_union_right _ (Finset.mem_image.mpr ⟨(j, o), ?_, rfl⟩)
      exact Finset.mem_product.mpr ⟨Finset.mem_univ j, ho⟩
  have hPairs : pairs.card ≤ Fintype.card J * owners.card := by
    rw [← Finset.card_univ, ← Finset.card_product]
    exact Finset.card_image_le
  calc (ownedKeys fixed kind owners).encard
      ≤ ((fixed ∪ pairs : Finset K) : Set K).encard :=
        Set.encard_le_encard hSub
    _ = ((fixed ∪ pairs).card : ℕ) := Set.encard_coe_eq_coe_finsetCard _
    _ ≤ (fixed.card + Fintype.card J * owners.card : ℕ) := by
        have hUnion := Finset.card_union_le fixed pairs
        exact_mod_cast hUnion.trans (Nat.add_le_add_left hPairs _)

/-- Distinct owners have distinct keys of one kind. -/
theorem length_le_encard {key : O → K} (hKey : Function.Injective key)
    {os : List O} (hDistinct : os.Nodup) {keys : Set K}
    (hMem : ∀ o ∈ os, key o ∈ keys) : (os.length : ℕ∞) ≤ keys.encard := by
  classical
  have hSub : (((os.map key).toFinset : Finset K) : Set K) ⊆ keys := by
    intro k hk
    rw [Finset.mem_coe, List.mem_toFinset, List.mem_map] at hk
    obtain ⟨o, ho, rfl⟩ := hk
    exact hMem o ho
  have hCard : (os.map key).toFinset.card = os.length := by
    rw [List.toFinset_card_of_nodup (hDistinct.map hKey), List.length_map]
  rw [← hCard, ← Set.encard_coe_eq_coe_finsetCard]
  exact Set.encard_le_encard hSub

end Counting

/-! ## Runs -/

namespace Machine

variable {σ ι ρ K O J : Type} {m : Machine σ ι ρ}

/-- The owners that the entries of a history served. -/
def served [DecidableEq O] (owner : ι × ρ → Option O)
    (history : List (ι × ρ)) : Finset O := (history.filterMap owner).toFinset

theorem served_mono [DecidableEq O] {owner : ι × ρ → Option O}
    (history : List (ι × ρ)) (e : ι × ρ) :
    served owner history ⊆ served owner (history ++ [e]) := by
  intro o ho
  unfold served at *
  rw [List.mem_toFinset] at ho ⊢
  rw [List.filterMap_append]
  exact List.mem_append_left _ ho

theorem mem_served_concat [DecidableEq O] {owner : ι × ρ → Option O}
    (history : List (ι × ρ)) {e : ι × ρ} {o : O} (ho : owner e = some o) :
    o ∈ served owner (history ++ [e]) := by
  unfold served
  rw [List.mem_toFinset, filterMap_concat, ho]
  exact List.mem_append_right _ (List.mem_singleton_self o)

/-- If every step adds fixed keys and keys of the owner it serves only, the
footprint of a run is linear in the owners it served. -/
theorem footprint_le [DecidableEq O] [Fintype J] (keys : σ → Set K)
    (fixed : Finset K) (kind : J → O → K) (owner : ι × ρ → Option O)
    (hInit : keys m.init = ∅)
    (hStep : ∀ s c, keys (m.step s c).2 ⊆ keys s ∪
      ownedKeys fixed kind (owner (c, (m.step s c).1)).toFinset)
    (cs : List ι) :
    (keys (m.run cs)).encard ≤ (fixed.card +
      Fintype.card J * (served owner (m.history cs)).card : ℕ) := by
  have hOwned : keys (m.run cs) ⊆
      ownedKeys fixed kind (served owner (m.history cs)) := by
    refine m.history_invariant (R := fun s history =>
      keys s ⊆ ownedKeys fixed kind (served owner history)) ?_ ?_ cs
    · rw [hInit]
      exact Set.empty_subset _
    · intro s history c h
      refine (hStep s c).trans (Set.union_subset ?_ ?_)
      · exact h.trans (ownedKeys_mono (served_mono history _))
      · apply ownedKeys_mono
        intro o ho
        rw [Option.mem_toFinset] at ho
        exact mem_served_concat history ho
  exact (Set.encard_le_encard hOwned).trans (encard_ownedKeys_le _ _ _)

/-- If steps keep keys, and serving an owner leaves a key of its own, then
serving distinct owners leaves as many keys. -/
theorem le_footprint {keys : σ → Set K} {key : O → K}
    (hKey : Function.Injective key) (serve : O → ι) (I : σ → Prop)
    (hGrow : ∀ s c, keys s ⊆ keys (m.step s c).2)
    (hKeep : ∀ s o, I s → I (m.step s (serve o)).2)
    (hServe : ∀ cs o, I (m.run cs) →
      key o ∈ keys (m.step (m.run cs) (serve o)).2)
    {start : List ι} (hStart : I (m.run start)) {os : List O}
    (hDistinct : os.Nodup) :
    (os.length : ℕ∞) ≤ (keys (m.run (start ++ os.map serve))).encard := by
  apply length_le_encard hKey hDistinct
  have hRun : I (m.run (start ++ os.map serve)) ∧
      ∀ o ∈ os, key o ∈ keys (m.run (start ++ os.map serve)) := by
    clear hDistinct
    induction os using List.reverseRecOn with
    | nil =>
        rw [List.map_nil, List.append_nil]
        refine ⟨hStart, ?_⟩
        intro o ho
        cases ho
    | append_singleton os o ih =>
        rw [List.map_append, List.map_singleton, ← List.append_assoc,
          m.run_concat]
        refine ⟨hKeep _ o ih.1, ?_⟩
        intro o' ho'
        rw [List.mem_append, List.mem_singleton] at ho'
        rcases ho' with ho' | rfl
        · exact hGrow _ _ (ih.2 o' ho')
        · exact hServe _ o' ih.1
  exact hRun.2

/-- No bound holds for all runs that serve infinitely many owners between
them. -/
theorem footprint_unbounded [Infinite O] (keys : σ → Set K)
    (runOf : List O → List ι)
    (hMany : ∀ os : List O, os.Nodup →
      (os.length : ℕ∞) ≤ (keys (m.run (runOf os))).encard) :
    ¬∃ B : ℕ, ∀ cs, (keys (m.run cs)).encard ≤ B := by
  rintro ⟨B, hBound⟩
  obtain ⟨os, hCard⟩ := Infinite.exists_subset_card_eq O (B + 1)
  have hLong := (hMany os.toList os.nodup_toList).trans (hBound _)
  rw [Finset.length_toList, hCard] at hLong
  have hAbsurd : B + 1 ≤ B := by exact_mod_cast hLong
  exact absurd hAbsurd (Nat.not_succ_le_self B)

end Machine

end ForgePass.Verified

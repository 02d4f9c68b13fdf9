import Mathlib.Data.List.Basic
import Mathlib.Data.List.Nodup

/-!
# A log read through two indexes

A log of uniquely numbered entries, each with an owner, is stored redundantly:
`lookup` finds an entry by number, `index` lists the numbers of an owner.
`Registry` says that both speak of one log.  Then scanning an owner's index
and looking every number up returns the owner's entries and skips none, and a
number occurs once in the index of its owner and in no other.
-/

namespace ForgePass.Verified

variable {α ι κ : Type} [DecidableEq κ]

/-- `lookup` and `index` are indexes of `log` by number and by owner. Nothing
is under a number that is not in the log. -/
structure Registry (number : α → ι) (owner : α → κ) (lookup : ι → Option α)
    (index : κ → List ι) (log : List α) : Prop where
  distinct : (log.map number).Nodup
  found : ∀ k a, lookup k = some a ↔ a ∈ log ∧ number a = k
  indexed : ∀ o, index o = (log.filter fun a => owner a = o).map number

namespace Registry

variable {number : α → ι} {owner : α → κ} {lookup lookup' : ι → Option α}
  {index index' : κ → List ι} {log : List α}

/-- Entering one entry under a new number in both indexes keeps them indexes of
the longer log. -/
theorem concat [DecidableEq ι]
    (h : Registry number owner lookup index log) {a : α}
    (hNew : number a ∉ log.map number)
    (hLookup : ∀ k, lookup' k = if k = number a then some a else lookup k)
    (hIndex : ∀ o, index' o =
      if o = owner a then index o ++ [number a] else index o) :
    Registry number owner lookup' index' (log ++ [a]) where
  distinct := by
    rw [List.map_append, List.map_singleton, ← List.concat_eq_append]
    exact h.distinct.concat hNew
  found := by
    intro k b
    rw [hLookup]
    by_cases hk : k = number a
    · subst hk
      have hOld : ¬(b ∈ log ∧ number b = number a) := fun hb =>
        hNew (List.mem_map.mpr ⟨b, hb⟩)
      rw [if_pos rfl, List.mem_append, List.mem_singleton, or_and_right]
      constructor
      · intro hEq
        rw [Option.some.injEq] at hEq
        exact .inr ⟨hEq.symm, by rw [hEq]⟩
      · rintro (hb | ⟨rfl, -⟩)
        · exact absurd hb hOld
        · rfl
    · rw [if_neg hk, h.found, List.mem_append, List.mem_singleton]
      constructor
      · exact fun hb => ⟨.inl hb.1, hb.2⟩
      · rintro ⟨hb | rfl, hNum⟩
        · exact ⟨hb, hNum⟩
        · exact absurd hNum.symm hk
  indexed := by
    intro o
    rw [hIndex, h.indexed, List.filter_append, List.map_append]
    by_cases ho : o = owner a
    · simp [ho]
    · have ho' : ¬owner a = o := fun hEq => ho hEq.symm
      simp [ho, ho']

/-- Every number finds its entry. -/
theorem lookup_number (h : Registry number owner lookup index log) {a : α}
    (ha : a ∈ log) : lookup (number a) = some a :=
  (h.found _ a).mpr ⟨ha, rfl⟩

/-- Scanning the index of an owner returns the owner's entries. -/
theorem scan (h : Registry number owner lookup index log) (o : κ) :
    (index o).filterMap lookup = log.filter fun a => owner a = o := by
  rw [h.indexed, List.filterMap_map]
  have hFound : ∀ a ∈ log.filter (fun a => owner a = o),
      (lookup ∘ number) a = some a := fun a ha =>
    h.lookup_number (List.mem_filter.mp ha).1
  rw [List.filterMap_congr hFound, List.filterMap_some]

/-- The scan skips no number. -/
theorem scan_number (h : Registry number owner lookup index log) (o : κ) :
    ((index o).filterMap lookup).map number = index o := by
  rw [h.scan, h.indexed]

theorem mem_index (h : Registry number owner lookup index log) {o : κ} {k : ι} :
    k ∈ index o ↔ ∃ a, lookup k = some a ∧ owner a = o := by
  rw [h.indexed, List.mem_map]
  simp only [List.mem_filter, decide_eq_true_eq, h.found]
  constructor
  · rintro ⟨a, ⟨ha, ho⟩, hk⟩
    exact ⟨a, ⟨ha, hk⟩, ho⟩
  · rintro ⟨a, ⟨ha, hk⟩, ho⟩
    exact ⟨a, ⟨ha, ho⟩, hk⟩

theorem index_nodup (h : Registry number owner lookup index log) (o : κ) :
    (index o).Nodup := by
  rw [h.indexed]
  exact h.distinct.sublist (List.filter_sublist.map number)

/-- A number occurs once in the index of its owner and in no other index. -/
theorem count_index [DecidableEq ι]
    (h : Registry number owner lookup index log) (o : κ) (k : ι) :
    (index o).count k = if (lookup k).map owner = some o then 1 else 0 := by
  rw [(h.index_nodup o).count]
  simp only [h.mem_index, Option.map_eq_some_iff]

end Registry

end ForgePass.Verified

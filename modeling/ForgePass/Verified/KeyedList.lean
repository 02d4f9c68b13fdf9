import Mathlib.Data.List.Basic
import Mathlib.Data.List.Nodup

/-!
# Removal by tag from a list with unique keys

A list whose entries carry a unique *key* is pruned by listing *tags*, where
the tag is a coarser label: entries with one key share their tag, but one tag
may cover several keys.  Pruning by the tags of a batch then removes at least
the batch, and it removes exactly the batch when no outsider shares a tag with
it (`dropBy_tags_eq_iff`).
-/

namespace ForgePass.Verified

variable {α κ γ : Type} [DecidableEq γ]

/-- The entries of `l` whose label under `f` is not listed, in their old order.
Entries that share a label go or stay together. -/
def dropBy (f : α → γ) (labels : List γ) (l : List α) : List α :=
  l.filter fun a => f a ∉ labels

@[simp] theorem mem_dropBy {f : α → γ} {labels : List γ} {l : List α} {a : α} :
    a ∈ dropBy f labels l ↔ a ∈ l ∧ f a ∉ labels := by
  simp [dropBy]

theorem dropBy_sublist (f : α → γ) (labels : List γ) (l : List α) :
    List.Sublist (dropBy f labels l) l := List.filter_sublist

/-- Dropping twice drops the labels of both lists. -/
theorem dropBy_dropBy (f : α → γ) (labels labels' : List γ) (l : List α) :
    dropBy f labels' (dropBy f labels l) = dropBy f (labels ++ labels') l := by
  unfold dropBy
  rw [List.filter_filter]
  apply List.filter_congr
  intro a ha
  simp only [List.mem_append, not_or, Bool.decide_and]
  exact Bool.and_comm _ _

theorem dropBy_append (f : α → γ) (labels : List γ) (l l' : List α) :
    dropBy f labels (l ++ l') = dropBy f labels l ++ dropBy f labels l' :=
  List.filter_append ..

theorem dropBy_eq_self {f : α → γ} {labels : List γ} {l : List α}
    (h : ∀ a ∈ l, f a ∉ labels) : dropBy f labels l = l := by
  unfold dropBy
  rw [List.filter_eq_self]
  intro a ha
  simpa using h a ha

/-- Only which entries are labelled counts. -/
theorem dropBy_congr {f : α → γ} {labels labels' : List γ} {l : List α}
    (h : ∀ a ∈ l, f a ∈ labels ↔ f a ∈ labels') :
    dropBy f labels l = dropBy f labels' l := by
  unfold dropBy
  apply List.filter_congr
  intro a ha
  rw [decide_eq_decide]
  exact not_congr (h a ha)

/-- Dropping commutes with appending an unlabelled entry. -/
theorem dropBy_concat {f : α → γ} {labels : List γ} (l : List α) {a : α}
    (h : f a ∉ labels) :
    dropBy f labels (l ++ [a]) = dropBy f labels l ++ [a] := by
  unfold dropBy
  rw [List.filter_append, List.filter_cons_of_pos (by simpa using h)]
  rfl

/-- Dropping commutes with a map that keeps labels. -/
theorem map_dropBy {β : Type} (g : α → β) (f : α → γ) (f' : β → γ)
    (h : ∀ a, f' (g a) = f a) (labels : List γ) (l : List α) :
    (dropBy f labels l).map g = dropBy f' labels (l.map g) := by
  unfold dropBy
  rw [List.filter_map]
  refine congrArg _ (List.filter_congr ?_)
  intro a ha
  rw [Function.comp_apply, h]

/-- Two filters of one list agree exactly when their tests agree on it. -/
theorem filter_eq_filter_iff {p q : α → Bool} {l : List α} :
    l.filter p = l.filter q ↔ ∀ a ∈ l, p a = q a := by
  constructor
  · intro hEq a ha
    have hMem : a ∈ l.filter p ↔ a ∈ l.filter q := by rw [hEq]
    simp only [List.mem_filter, ha, true_and] at hMem
    exact Bool.eq_iff_iff.mpr hMem
  · intro h
    exact List.filter_congr h

/-- With unique keys, the entries listed by key in a batch taken from the list
are the entries of the batch. -/
theorem key_mem_batch_iff {key : α → κ} {l batch : List α}
    (hKeys : (l.map key).Nodup) (hBatch : batch ⊆ l) {a : α} (ha : a ∈ l) :
    key a ∈ batch.map key ↔ a ∈ batch := by
  constructor
  · intro h
    obtain ⟨b, hb, hKey⟩ := List.mem_map.mp h
    have hEq : b = a :=
      List.inj_on_of_nodup_map hKeys (hBatch hb) ha hKey
    exact hEq ▸ hb
  · exact List.mem_map_of_mem

/-- Pruning by the tags of a batch removes exactly the batch iff no entry
outside the batch carries one of its tags. -/
theorem dropBy_tags_eq_iff [DecidableEq κ] {key : α → κ} {tag : α → γ}
    {l batch : List α} (hKeys : (l.map key).Nodup) (hBatch : batch ⊆ l) :
    dropBy tag (batch.map tag) l = dropBy key (batch.map key) l ↔
      ∀ a ∈ l, tag a ∈ batch.map tag → a ∈ batch := by
  unfold dropBy
  rw [filter_eq_filter_iff]
  constructor
  · intro h a ha hTag
    have hEq := h a ha
    have hKey : key a ∈ batch.map key := by
      by_contra hKey
      simp [hTag, hKey] at hEq
    exact (key_mem_batch_iff hKeys hBatch ha).mp hKey
  · intro h a ha
    have hIff : tag a ∈ batch.map tag ↔ key a ∈ batch.map key := by
      rw [key_mem_batch_iff hKeys hBatch ha]
      exact ⟨h a ha, List.mem_map_of_mem⟩
    simp only [hIff]

/-! ## Lookup by key -/

/-- Under unique keys, looking an entry up finds it wherever it is. -/
theorem find?_key_eq_some_iff [DecidableEq κ] {key : α → κ} {l : List α}
    (hUnique : (l.map key).Nodup) {k : κ} {a : α} :
    l.find? (fun b => key b = k) = some a ↔ a ∈ l ∧ key a = k := by
  constructor
  · intro hFound
    have hKey := List.find?_some hFound
    rw [decide_eq_true_eq] at hKey
    exact ⟨List.mem_of_find?_eq_some hFound, hKey⟩
  · rintro ⟨ha, rfl⟩
    cases hFound : l.find? fun b => key b = key a with
    | none =>
        rw [List.find?_eq_none] at hFound
        exact absurd (decide_eq_true rfl) (hFound a ha)
    | some b =>
        have hb := List.mem_of_find?_eq_some hFound
        have hKey := List.find?_some hFound
        rw [decide_eq_true_eq] at hKey
        rw [List.inj_on_of_nodup_map hUnique hb ha hKey]

/-- Keys are unique exactly where looking up from either end finds the same. -/
theorem find?_reverse_iff [DecidableEq κ] {key : α → κ} {l : List α}
    (hNodup : l.Nodup) :
    (∀ k, l.reverse.find? (fun a => key a = k) =
        l.find? fun a => key a = k) ↔ (l.map key).Nodup := by
  constructor
  · intro h
    induction l with
    | nil => exact List.nodup_nil
    | cons a l ih =>
        obtain ⟨hNew, hRest⟩ := List.nodup_cons.mp hNodup
        -- from the end, `a` is what is found last
        have hHead : key a ∉ l.map key := by
          intro hMem
          obtain ⟨b, hb, hKey⟩ := List.mem_map.mp hMem
          have hSame := h (key a)
          rw [List.reverse_cons, List.find?_append,
            List.find?_cons_of_pos (by simp),
            List.find?_cons_of_pos (by simp)] at hSame
          cases hFound : l.reverse.find? fun c => key c = key a with
          | none =>
              rw [List.find?_eq_none] at hFound
              exact hFound b (List.mem_reverse.mpr hb) (by simp [hKey])
          | some c =>
              rw [hFound, Option.some_or, Option.some.injEq] at hSame
              have hc := List.mem_of_find?_eq_some hFound
              rw [List.mem_reverse, hSame] at hc
              exact hNew hc
        have hTail : ∀ k, l.reverse.find? (fun b => key b = k) =
            l.find? fun b => key b = k := by
          intro k
          by_cases hk : key a = k
          · subst hk
            have hNone : ∀ b ∈ l, ¬decide (key b = key a) = true := by
              intro b hb hEq
              rw [decide_eq_true_eq] at hEq
              exact hHead (List.mem_map.mpr ⟨b, hb, hEq⟩)
            rw [List.find?_eq_none.mpr hNone, List.find?_eq_none]
            exact fun b hb => hNone b (List.mem_reverse.mp hb)
          · simpa [List.find?_append, hk] using h k
        rw [List.map_cons, List.nodup_cons]
        exact ⟨hHead, ih hRest hTail⟩
  · intro hUnique k
    have hReversed : (l.reverse.map key).Nodup := by
      rw [List.map_reverse, List.nodup_reverse]
      exact hUnique
    ext a
    rw [find?_key_eq_some_iff hReversed, List.mem_reverse,
      find?_key_eq_some_iff hUnique]

end ForgePass.Verified

import Mathlib.Data.List.Basic
import Mathlib.Data.List.Count
import Mathlib.Data.List.Infix
import Mathlib.Data.List.Sort

/-!
# Sliding windows over a growing sequence

`lastN n l` is the window of the last `n` entries.  A bounded queue that pops
its front when full and then pushes maintains exactly that window
(`pushCapped_lastN`), whatever the sequence.

The second half is about order.  A bounded queue never reorders, so its
content is sorted at every moment only if the pushed sequence is: with room for
two entries, each push meets its predecessor in the window
(`last_rel_of_pairwise_lastN`).
-/

namespace ForgePass.Verified

variable {α : Type}

/-- The last `n` entries of `l`, all of them when `l` is shorter. Order is
kept. -/
def lastN (n : Nat) (l : List α) : List α := l.drop (l.length - n)

/-- Push into a queue with room for `n` entries, popping the front first when
it is full. -/
def pushCapped (n : Nat) (l : List α) (a : α) : List α :=
  (if l.length = n then l.tail else l) ++ [a]

@[simp] theorem lastN_nil (n : Nat) : lastN n ([] : List α) = [] := by
  simp [lastN]

@[simp] theorem lastN_length (n : Nat) (l : List α) :
    (lastN n l).length = min l.length n := by
  simp only [lastN, List.length_drop]
  omega

theorem lastN_map {β : Type} (f : α → β) (n : Nat) (l : List α) :
    lastN n (l.map f) = (lastN n l).map f := by
  unfold lastN
  rw [List.length_map, List.map_drop]

/-- A short sequence is its own window. -/
theorem lastN_of_length_le {n : Nat} {l : List α} (h : l.length ≤ n) :
    lastN n l = l := by
  unfold lastN
  rw [Nat.sub_eq_zero_of_le h, List.drop_zero]

/-- Once `n` entries follow, nothing before them is in the window. -/
theorem lastN_append_of_length_eq {n : Nat} (l : List α) {l' : List α}
    (h : l'.length = n) : lastN n (l ++ l') = l' := by
  unfold lastN
  rw [List.length_append, h, Nat.add_sub_cancel, List.drop_left]

theorem lastN_suffix (n : Nat) (l : List α) : lastN n l <:+ l :=
  List.drop_suffix _ _

theorem mem_of_mem_lastN {n : Nat} {l : List α} {a : α}
    (h : a ∈ lastN n l) : a ∈ l := (lastN_suffix n l).subset h

theorem length_pushCapped_le {n : Nat} (hn : 0 < n) {l : List α}
    (h : l.length ≤ n) (a : α) : (pushCapped n l a).length ≤ n := by
  unfold pushCapped
  by_cases hFull : l.length = n
  · rw [if_pos hFull, List.length_append, List.length_tail,
      List.length_singleton]
    omega
  · rw [if_neg hFull, List.length_append, List.length_singleton]
    omega

theorem mem_pushCapped {n : Nat} {l : List α} {a b : α}
    (h : b ∈ pushCapped n l a) : b ∈ l ∨ b = a := by
  unfold pushCapped at h
  rw [List.mem_append, List.mem_singleton] at h
  refine h.imp_left fun hb => ?_
  split at hb
  · exact List.mem_of_mem_tail hb
  · exact hb

/-- A push extends the queue or leaves it full. -/
theorem prefix_pushCapped_or_full {n : Nat} (hn : 0 < n) (l : List α)
    (a : α) : l <+: pushCapped n l a ∨ (pushCapped n l a).length = n := by
  unfold pushCapped
  by_cases hFull : l.length = n
  · right
    rw [if_pos hFull, List.length_append, List.length_tail,
      List.length_singleton]
    omega
  · left
    rw [if_neg hFull]
    exact List.prefix_append l [a]

/-- The queue keeps the window: popping the front of a full window is what
sliding it by one entry does. -/
theorem pushCapped_lastN {n : Nat} (hn : 0 < n) (l : List α) (a : α) :
    pushCapped n (lastN n l) a = lastN n (l ++ [a]) := by
  unfold pushCapped
  by_cases hFull : n ≤ l.length
  · have hLen : (lastN n l).length = n := by
      rw [lastN_length]
      omega
    rw [if_pos hLen]
    unfold lastN
    rw [List.tail_drop, List.length_append, List.length_singleton,
      List.drop_append_of_le_length (by omega),
      show l.length + 1 - n = l.length - n + 1 by omega]
  · have hLen : (lastN n l).length ≠ n := by
      rw [lastN_length]
      omega
    rw [if_neg hLen]
    unfold lastN
    rw [List.length_append, List.length_singleton,
      show l.length + 1 - n = 0 by omega, show l.length - n = 0 by omega]
    rfl

/-- The newest entry of a nonempty window is the newest of the sequence. -/
theorem getLast?_lastN {n : Nat} (hn : 0 < n) (l : List α) :
    (lastN n l).getLast? = l.getLast? := by
  induction l using List.reverseRecOn with
  | nil => simp
  | append_singleton l a _ =>
      rw [← pushCapped_lastN hn l a]
      simp [pushCapped]

/-- A list that starts with `b` and is its own rotation by `a` has no other
entry. -/
theorem rotation_constant {l : List α} {a b : α} (h : l ++ [a] = b :: l) :
    ∀ c ∈ b :: l, c = a := by
  induction l generalizing b with
  | nil =>
      rw [List.nil_append, List.singleton_inj] at h
      simp [h]
  | cons d l ih =>
      rw [List.cons_append, List.cons.injEq] at h
      obtain ⟨rfl, hRest⟩ := h
      have hAll := ih hRest
      intro c hc
      rcases List.mem_cons.mp hc with rfl | hc
      · exact hAll c List.mem_cons_self
      · exact hAll c hc

/-- A push changes the queue unless it is full of the pushed entry. -/
theorem pushCapped_eq_self_iff {n : Nat} (hn : 0 < n) {l : List α} (a : α) :
    pushCapped n l a = l ↔ l = List.replicate n a := by
  constructor
  · intro hSame
    unfold pushCapped at hSame
    by_cases hFull : l.length = n
    · rw [if_pos hFull] at hSame
      cases l with
      | nil =>
          rw [← hFull] at hn
          exact absurd hn (Nat.lt_irrefl 0)
      | cons b l => exact List.eq_replicate_iff.mpr ⟨hFull, rotation_constant hSame⟩
    · rw [if_neg hFull] at hSame
      have hLength := congrArg List.length hSame
      rw [List.length_append, List.length_singleton] at hLength
      omega
  · rintro rfl
    obtain ⟨n, rfl⟩ := Nat.exists_eq_succ_of_ne_zero (Nat.ne_of_gt hn)
    unfold pushCapped
    rw [if_pos List.length_replicate, List.tail_replicate, Nat.succ_sub_one,
      ← List.replicate_succ']

/-! ## Order inside windows -/

variable {r : α → α → Prop}

theorem pairwise_lastN {l : List α} (h : l.Pairwise r) (n : Nat) :
    (lastN n l).Pairwise r := h.sublist (lastN_suffix n l).sublist

/-- A transitive order survives an append exactly when it holds between the old
last entry and the new one. -/
theorem pairwise_concat_iff [IsTrans α r] {l : List α} {a : α} :
    (l ++ [a]).Pairwise r ↔ l.Pairwise r ∧ ∀ b ∈ l.getLast?, r b a := by
  rcases List.eq_nil_or_concat' l with rfl | ⟨front, b, rfl⟩
  · simp
  · rw [List.pairwise_append]
    constructor
    · rintro ⟨hSorted, -, hLast⟩
      exact ⟨hSorted, fun c hc => hLast c (List.mem_of_getLast? hc) a (by simp)⟩
    · rintro ⟨hSorted, hLast⟩
      have hb : r b a := hLast b (by simp)
      refine ⟨hSorted, by simp, ?_⟩
      intro x hx y hy
      rw [List.mem_singleton] at hy
      subst hy
      rcases List.mem_append.mp hx with hx | hx
      · have hxb : r x b :=
          (List.pairwise_append.mp hSorted).2.2 x hx b (by simp)
        exact IsTrans.trans x b y hxb hb
      · rw [List.mem_singleton] at hx
        exact hx ▸ hb

/-- The last two entries of a sequence are in every window with room for
two. -/
theorem lastN_last_two {n : Nat} (hn : 2 ≤ n) (front : List α) (b a : α) :
    [b, a] <:+ lastN n (front ++ [b] ++ [a]) := by
  rw [← pushCapped_lastN (by omega), ← pushCapped_lastN (by omega)]
  unfold pushCapped
  generalize (if (lastN n front).length = n then (lastN n front).tail
    else lastN n front) = w
  by_cases hFull : (w ++ [b]).length = n
  · cases w with
    | nil =>
        simp at hFull
        omega
    | cons x w =>
        rw [if_pos hFull]
        exact ⟨w, by simp⟩
  · rw [if_neg hFull]
    exact ⟨w, by simp⟩

/-- A sorted window with room for two entries shows that the last append was in
order. -/
theorem last_rel_of_pairwise_lastN {n : Nat} (hn : 2 ≤ n) {l : List α} {a : α}
    (h : (lastN n (l ++ [a])).Pairwise r) : ∀ b ∈ l.getLast?, r b a := by
  intro b hb
  obtain ⟨front, rfl⟩ := List.getLast?_eq_some_iff.mp hb
  have hPair := h.sublist (lastN_last_two hn front b a).sublist
  exact (List.pairwise_cons.mp hPair).1 a (by simp)

/-- The last entry of a sorted list is a greatest one. -/
theorem rel_getLast_of_pairwise (hRefl : ∀ a, r a a) {l : List α}
    (h : l.Pairwise r) {c : α} (hc : c ∈ l.getLast?) : ∀ a ∈ l, r a c := by
  obtain ⟨front, rfl⟩ := List.getLast?_eq_some_iff.mp hc
  intro a ha
  rcases List.mem_append.mp ha with ha | ha
  · exact (List.pairwise_append.mp h).2.2 a ha c (by simp)
  · rw [List.mem_singleton] at ha
    exact ha ▸ hRefl a

/-! ## What a push drops -/

/-- A copy of `b` is missing from `l'` if it has fewer copies there. -/
theorem mem_diff_iff_count [DecidableEq α] {l l' : List α} {b : α} :
    b ∈ l.diff l' ↔ l'.count b < l.count b := by
  rw [← List.count_pos_iff, List.count_diff]
  omega

/-- Only the front of a full queue is ever dropped. Copies of it further back
stay. -/
theorem mem_diff_pushCapped [DecidableEq α] {n : Nat} {l : List α} {a b : α}
    (h : b ∈ l.diff (pushCapped n l a)) :
    ∃ rest, l = b :: rest ∧ l.length = n ∧ pushCapped n l a = rest ++ [a] := by
  rw [mem_diff_iff_count] at h
  unfold pushCapped at h ⊢
  by_cases hFull : l.length = n
  · rw [if_pos hFull] at h ⊢
    cases l with
    | nil => simp at h
    | cons x rest =>
        rw [List.tail_cons, List.count_append] at h
        have hFront : x = b := by
          by_contra hNe
          rw [List.count_cons_of_ne hNe] at h
          omega
        exact ⟨rest, by rw [hFront], hFull, rfl⟩
  · rw [if_neg hFull, List.count_append] at h
    omega

/-- The entry popped from the front of a sorted queue that stays sorted is a
least one among the entries before and after. -/
theorem rel_of_popped [IsTrans α r] (hRefl : ∀ a, r a a) {old new : α}
    {rest : List α} (hRest : rest ≠ []) (hBefore : (old :: rest).Pairwise r)
    (hAfter : (rest ++ [new]).Pairwise r) :
    ∀ a ∈ (old :: rest) ++ (rest ++ [new]), r old a := by
  have hOld := (List.pairwise_cons.mp hBefore).1
  intro a ha
  rw [List.mem_append, List.mem_cons, List.mem_append, List.mem_singleton] at ha
  rcases ha with (rfl | ha) | (ha | rfl)
  · exact hRefl a
  · exact hOld a ha
  · exact hOld a ha
  · obtain ⟨x, hx⟩ := List.exists_mem_of_ne_nil rest hRest
    have hxNew : r x a := (List.pairwise_append.mp hAfter).2.2 x hx a (by simp)
    exact IsTrans.trans old x a (hOld x hx) hxNew

end ForgePass.Verified

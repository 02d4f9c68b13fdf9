import ForgePass.Verified.Guest

/-!
# Closed forms of `for` loops

The loops of a guest are linear scans over a host vector.  Each shape has one
closed form here: a scan that stops at the first hit, a rebuild that keeps or
drops entries, a rebuild that skips missing entries, and a scan that fails.
The statements are about the terms `for` elaborates to, so a function written
with a loop is rewritten by them without unfolding the iteration.
-/

namespace ForgePass.Verified

section Pure

variable {α β : Type}

/-- `for a in l do if p a then return r`: the loop returns early exactly if
some entry satisfies `p`. -/
theorem forIn_search (l : List α) (p : α → Prop) [DecidablePred p] (r : β) :
    (forIn (m := Id) l (none, ()) fun a _ =>
        if p a then pure (ForInStep.done (some r, ()))
        else pure (ForInStep.yield (none, ()))) =
      pure (if ∃ a ∈ l, p a then some r else none, ()) := by
  induction l with
  | nil => simp
  | cons a l ih =>
      by_cases hp : p a
      · simp [hp]
      · simp [hp, ih]

/-- `for a in l do if p a then flag := true; break`: the flag tells whether
some entry satisfies `p`. -/
theorem forIn_flag (l : List α) (p : α → Prop) [DecidablePred p] :
    (forIn (m := Id) l false fun a flag =>
        if p a then pure (ForInStep.done true)
        else pure (ForInStep.yield flag)) =
      pure (decide (∃ a ∈ l, p a)) := by
  induction l with
  | nil => simp
  | cons a l ih =>
      by_cases hp : p a
      · simp [hp]
      · simp [hp, ih]

/-- `for a in l do if keep a then out := out ++ [a]`: the loop is a filter, and
keeps the order. -/
theorem forIn_rebuild (l : List α) (keep : α → Bool) :
    ∀ out : List α,
      (forIn (m := Id) l out fun a out =>
        if keep a = true then pure (ForInStep.yield (out ++ [a]))
        else pure (ForInStep.yield out)) =
      pure (out ++ l.filter keep) := by
  induction l with
  | nil => simp
  | cons a l ih =>
      intro out
      cases hk : keep a with
      | true => simp [hk, ih]
      | false => simp [hk, ih]

/-- `for a in l do if let some b := f a then out := out ++ [b]`, for any body
that appends what `f` finds. -/
theorem forIn_collect {l : List α} {f : α → Option β}
    {body : α → List β → Id (ForInStep (List β))}
    (hBody : ∀ a out, body a out =
      pure (ForInStep.yield (out ++ (f a).toList))) :
    ∀ out : List β, forIn l out body = pure (out ++ l.filterMap f) := by
  induction l with
  | nil => simp
  | cons a l ih =>
      intro out
      rw [List.forIn_cons, hBody]
      cases hf : f a with
      | none => simp [hf, ih]
      | some b => simp [hf, ih]

end Pure

namespace Guest

variable {A K : Type} {V : K → Type} {E α β : Type}

/-- `for a in l do if p a then fail e`, then `f`: fails exactly when some
entry satisfies `p`, and touches no storage itself. -/
theorem forIn_fail_bind (l : List α) (p : α → Prop) [DecidablePred p] (e : E)
    (f : PUnit → Guest A K V E β) (env : Env A) (s : Ledger K V) :
    ((forIn l PUnit.unit fun a _ =>
        if p a then do
          fail e
          pure (ForInStep.yield PUnit.unit)
        else pure (ForInStep.yield PUnit.unit)) >>= f) env s =
      if ∃ a ∈ l, p a then (.error (.error e), s) else f PUnit.unit env s := by
  induction l with
  | nil => simp [bind_run]
  | cons a l ih =>
      rw [bind_run] at ih
      rw [List.forIn_cons]
      by_cases hp : p a
      · simp [hp, bind_run]
      · simp [hp, bind_run, ih]

end Guest

end ForgePass.Verified

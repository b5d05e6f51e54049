import Mathlib.Data.List.Basic

/-! # Runs of a partial machine

    A machine that answers an input with a new state and an output, or not at all.  Some
    steps are good.  A condition on an input and the state before it is exact when the
    step is good under it and only then (`Exact`); then the steps of a whole run are all
    good exactly when all its inputs meet the condition.

    * **`alwaysGood_iff`** — by induction on the inputs, with an invariant of the states
      that may also speak of the inputs to come. -/

namespace PartialRun

variable {σ κ ε : Type}

/-- Every step of a run succeeds and is good; an input that stops the run ends it. -/
def AlwaysGood (step : σ → κ → Option (σ × ε)) (stops : κ → Prop) (good : σ → ε → Prop) :
    σ → List κ → Prop
  | _, [] => True
  | s, k :: ks =>
      stops k ∨
        match step s k with
        | some (s', out) => good s' out ∧ AlwaysGood step stops good s' ks
        | none => False

instance decidableAlwaysGood {step : σ → κ → Option (σ × ε)} {stops : κ → Prop}
    {good : σ → ε → Prop} [DecidablePred stops] [∀ s out, Decidable (good s out)] :
    ∀ s ks, Decidable (AlwaysGood step stops good s ks)
  | _, [] => .isTrue trivial
  | s, k :: ks =>
      match hr : step s k with
      | none => decidable_of_iff (stops k) (by rw [AlwaysGood, hr, or_false])
      | some (s', out) =>
          have := @decidableAlwaysGood step stops good _ _ s' ks
          decidable_of_iff (stops k ∨ (good s' out ∧ AlwaysGood step stops good s' ks))
            (by rw [AlwaysGood, hr])

/-- Every input of a run meets a condition on it and the state before it. -/
def AllFit (step : σ → κ → Option (σ × ε)) (stops : κ → Prop) (fits : σ → κ → Prop) :
    σ → List κ → Prop
  | _, [] => True
  | s, k :: ks =>
      stops k ∨ (fits s k ∧ ∀ s' out, step s k = some (s', out) → AllFit step stops fits s' ks)

instance decidableAllFit {step : σ → κ → Option (σ × ε)} {stops : κ → Prop}
    {fits : σ → κ → Prop} [DecidablePred stops] [∀ s k, Decidable (fits s k)] :
    ∀ s ks, Decidable (AllFit step stops fits s ks)
  | _, [] => .isTrue trivial
  | s, k :: ks =>
      match hr : step s k with
      | none => decidable_of_iff (stops k ∨ fits s k) (by rw [AllFit, hr]; simp)
      | some (s', out) =>
          have := @decidableAllFit step stops fits _ _ s' ks
          decidable_of_iff (stops k ∨ (fits s k ∧ AllFit step stops fits s' ks))
            (by rw [AllFit, hr]; simp)

/-- The answer `r` is good, with the invariant after it, exactly when `fits`. -/
structure Exact (good : σ → ε → Prop) (inv : σ → Prop) (r : Option (σ × ε)) (fits : Prop) :
    Prop where
  sound : fits → ∃ s out, r = some (s, out) ∧ good s out ∧ inv s
  tight : ¬ fits → ∀ s out, r = some (s, out) → ¬ good s out

section Exact

variable {good : σ → ε → Prop} {inv : σ → Prop} {r : Option (σ × ε)} {fits : Prop} {s : σ} {out : ε}

/-- An answer, from what it is. -/
theorem Exact.of_eq (hr : r = some (s, out)) (hgood : fits → good s out ∧ inv s)
    (hfits : good s out → fits) : Exact good inv r fits := by
  refine ⟨fun h => ⟨s, out, hr, hgood h⟩, ?_⟩
  intro hno s' out' hr' hgood'
  obtain ⟨rfl, rfl⟩ := Prod.mk.inj (Option.some.inj (hr.symm.trans hr'))
  exact hno (hfits hgood')

/-- An answer that is good whatever the input. -/
theorem Exact.of_good (h : fits) (hr : r = some (s, out)) (hgood : good s out) (hinv : inv s) :
    Exact good inv r fits :=
  .of_eq hr (fun _ => ⟨hgood, hinv⟩) (fun _ => h)

/-- No answer. -/
theorem Exact.of_none (hr : r = none) (h : ¬ fits) : Exact good inv r fits := by
  refine ⟨fun hfits => absurd hfits h, ?_⟩
  intro _ s' out' hr'
  cases hr.symm.trans hr'

end Exact

/-- **All steps of a run are good exactly when all its inputs fit.** -/
theorem alwaysGood_iff {step : σ → κ → Option (σ × ε)} {stops : κ → Prop} {good : σ → ε → Prop}
    {fits : σ → κ → Prop} {inv : σ → List κ → Prop}
    (hstep : ∀ s k ks, inv s (k :: ks) → ¬ stops k →
      Exact good (fun s' => inv s' ks) (step s k) (fits s k)) :
    ∀ ks s, inv s ks → (AlwaysGood step stops good s ks ↔ AllFit step stops fits s ks) := by
  intro ks
  induction ks with
  | nil =>
      intro s _
      exact Iff.rfl
  | cons k ks ih =>
      intro s hinv
      by_cases hstop : stops k
      · exact iff_of_true (.inl hstop) (.inl hstop)
      obtain ⟨hsound, htight⟩ := hstep s k ks hinv hstop
      refine or_congr Iff.rfl ?_
      constructor
      · intro hrun
        have hfits : fits s k := by
          by_contra hno
          cases hr : step s k with
          | none => rw [hr] at hrun; exact hrun
          | some r =>
              obtain ⟨s', out⟩ := r
              rw [hr] at hrun
              exact htight hno s' out hr hrun.1
        obtain ⟨s1, out1, hr, -, hnext⟩ := hsound hfits
        rw [hr] at hrun
        refine ⟨hfits, fun s' out hr' => ?_⟩
        obtain ⟨rfl, -⟩ := Prod.mk.inj (Option.some.inj (hr.symm.trans hr'))
        exact (ih s1 hnext).mp hrun.2
      · rintro ⟨hfits, hrest⟩
        obtain ⟨s1, out1, hr, hout, hnext⟩ := hsound hfits
        rw [hr]
        exact ⟨hout, (ih s1 hnext).mpr (hrest s1 out1 hr)⟩

end PartialRun

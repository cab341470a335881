import Mathlib.Data.List.Basic

/-!
# Runs of a partial step function

A system is a partial step function: `step s a` is the state after action `a`,
or `none` where the action cannot be taken. `exec` runs a list of actions, and
`Along` says that every step of a run meets a condition in the state before it.

* `exec_inv`: what every step keeps, every run keeps.
* `exec_inv_along`: the same for the runs whose steps all meet a condition.
* `along_iff`: a condition that each step meets exactly when it leads to a good
  state is met along a run exactly when the run passes through good states only.
-/

namespace AudioPlayer.Runs

open List Option

variable {σ ε : Type*} (step : σ → ε → Option σ)

/-- The state after a run, `none` if one of its actions cannot be taken. -/
def exec : σ → List ε → Option σ
  | s, [] => some s
  | s, a :: as => (step s a).bind fun s' => exec s' as

/-- Every step of the run meets `P` in the state before it. -/
def Along (P : σ → ε → Prop) : σ → List ε → Prop
  | _, [] => True
  | s, a :: as => P s a ∧ ∀ s', step s a = some s' → Along P s' as

/-- Running the steps decides whether they all meet a decidable condition. -/
instance (P : σ → ε → Prop) [∀ s a, Decidable (P s a)] :
    ∀ (s : σ) (as : List ε), Decidable (Along step P s as)
  | _, [] => isTrue trivial
  | s, a :: as =>
    match h : step s a with
    | none => decidable_of_iff (P s a) ⟨fun hP => ⟨hP, by simp [h]⟩, And.left⟩
    | some t =>
      have : Decidable (Along step P t as) := instDecidableAlong P t as
      decidable_of_iff (P s a ∧ Along step P t as)
        ⟨fun hP => ⟨hP.1, by simpa [h] using hP.2⟩, fun hP => ⟨hP.1, hP.2 t h⟩⟩

variable {step}

@[simp] theorem exec_nil (s : σ) : exec step s [] = some s := rfl

theorem exec_cons {s s' : σ} {a : ε} {as : List ε} (h : exec step s (a :: as) = some s') :
    ∃ t, step s a = some t ∧ exec step t as = some s' :=
  bind_eq_some_iff.1 h

theorem exec_append {s : σ} (as bs : List ε) :
    exec step s (as ++ bs) = (exec step s as).bind fun t => exec step t bs := by
  induction as generalizing s with
  | nil => rfl
  | cons a as ih =>
    simp only [cons_append, exec]
    cases step s a with
    | none => rfl
    | some t => exact ih

theorem exec_snoc {s t s' : σ} {as : List ε} {a : ε} (h : exec step s as = some t)
    (ha : step t a = some s') : exec step s (as ++ [a]) = some s' := by
  rw [exec_append, h]
  simp [exec, ha]

/-- **The invariant rule for guarded runs.** -/
theorem exec_inv_along {Inv : σ → Prop} {P : σ → ε → Prop}
    (hstep : ∀ s a s', Inv s → P s a → step s a = some s' → Inv s') :
    ∀ {as : List ε} {s s' : σ}, Inv s → Along step P s as → exec step s as = some s' → Inv s' := by
  intro as
  induction as with
  | nil =>
    intro s s' hs _ h
    simp only [exec_nil, some.injEq] at h
    subst h; exact hs
  | cons a as ih =>
    intro s s' hs hP h
    obtain ⟨t, ht, h⟩ := exec_cons h
    exact ih (hstep s a t hs hP.1 ht) (hP.2 t ht) h

/-- A condition on the actions alone. -/
theorem along_of_forall {P : ε → Prop} {as : List ε} (h : ∀ a ∈ as, P a) (s : σ) :
    Along step (fun _ a => P a) s as := by
  induction as generalizing s with
  | nil => trivial
  | cons a as ih =>
    refine ⟨h a mem_cons_self, ?_⟩
    intro t _
    exact ih (fun b hb => h b (mem_cons_of_mem _ hb)) t

/-- **The invariant rule.** -/
theorem exec_inv {Inv : σ → Prop} (hstep : ∀ s a s', Inv s → step s a = some s' → Inv s')
    {as : List ε} {s s' : σ} (hs : Inv s) (h : exec step s as = some s') : Inv s' := by
  have hT : Along step (fun _ _ => True) s as := along_of_forall (fun _ _ => trivial) s
  exact exec_inv_along (fun s a s' hi _ => hstep s a s' hi) hs hT h

/-- **The exact rule.** Where the condition on a step decides whether the step
leads from a good state to a good state, a run passes through good states only
if and only if its steps all meet the condition. -/
theorem along_iff {Inv Good : σ → Prop} {P : σ → ε → Prop}
    (hkeep : ∀ s a s', Inv s → P s a → step s a = some s' → Inv s')
    (hgood : ∀ s, Inv s → Good s)
    (hbad : ∀ s a s', Inv s → ¬ P s a → step s a = some s' → ¬ Good s') :
    ∀ {as : List ε} {s s' : σ}, Inv s → exec step s as = some s' →
      (Along step P s as ↔ ∀ bs cs t, as = bs ++ cs → exec step s bs = some t → Good t) := by
  intro as
  induction as with
  | nil =>
    intro s s' hs _
    refine ⟨fun _ bs cs t hb ht => ?_, fun _ => trivial⟩
    obtain ⟨rfl, -⟩ := append_eq_nil_iff.1 hb.symm
    simp only [exec_nil, some.injEq] at ht
    subst ht; exact hgood _ hs
  | cons a as ih =>
    intro s s' hs h
    obtain ⟨t, ht, h⟩ := exec_cons h
    constructor
    · intro hP bs cs u hb hu
      rcases bs with _ | ⟨b, bs⟩
      · simp only [exec_nil, some.injEq] at hu
        subst hu; exact hgood _ hs
      · simp only [cons_append, List.cons.injEq] at hb
        obtain ⟨rfl, hb⟩ := hb
        obtain ⟨v, hv, hu⟩ := exec_cons hu
        rw [ht, some.injEq] at hv; subst hv
        exact (ih (hkeep s a t hs hP.1 ht) h).1 (hP.2 t ht) bs cs u hb hu
    · intro hall
      have hPa : P s a := by
        by_contra hn
        exact hbad s a t hs hn ht (hall [a] as t rfl (by simp [exec, ht]))
      refine ⟨hPa, fun t' ht' => ?_⟩
      rw [ht, some.injEq] at ht'; subst ht'
      refine (ih (hkeep s a t hs hPa ht) h).2 fun bs cs u hb hu => ?_
      exact hall (a :: bs) cs u (by rw [hb]; rfl) (by simp [exec, ht, hu])

end AudioPlayer.Runs

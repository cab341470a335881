import Mathlib.Logic.Function.Basic
import Mathlib.Logic.ExistsUnique

/-!
# Resources with one owner

A resource is in use when some place refers to it. `Exact v M` says that the places `v` and
the resources in use `M` fit together: each resource in use has one place that refers to it,
and nothing else is referred to.

* `Exact.take`: a resource that is not in use is put into an empty place;
* `Exact.release`: a place is emptied and its resource given back.
-/

namespace AudioPlayer.Owners

open Function

variable {σ β : Type*} {v : σ → Option β} {M : β → Prop} {s : σ} {b : β}

structure Exact (v : σ → Option β) (M : β → Prop) : Prop where
  mem : ∀ s b, v s = some b → M b
  inj : ∀ s s' b, v s = some b → v s' = some b → s = s'
  cover : ∀ b, M b → ∃ s, v s = some b

theorem Exact.congr {M' : β → Prop} (h : Exact v M) (hM : ∀ b, M' b ↔ M b) : Exact v M' :=
  ⟨fun s b hs => (hM b).2 (h.mem s b hs), h.inj, fun b hb => h.cover b ((hM b).1 hb)⟩

/-- The place of a resource in use. -/
theorem Exact.existsUnique (h : Exact v M) (hb : M b) : ∃! s, v s = some b := by
  obtain ⟨s, hs⟩ := h.cover b hb
  exact ⟨s, hs, fun s' hs' => h.inj s' s b hs' hs⟩

variable [DecidableEq σ]

theorem Exact.take (h : Exact v M) (hs : v s = none) (hb : ¬ M b) :
    Exact (update v s (some b)) fun b' => M b' ∨ b' = b := by
  have hold : ∀ s' b', update v s (some b) s' = some b' → s' = s ∧ b' = b ∨ v s' = some b' := by
    intro s' b' hv
    by_cases heq : s' = s
    · subst heq
      rw [update_self] at hv
      exact Or.inl ⟨rfl, (Option.some.inj hv).symm⟩
    · rw [update_of_ne heq] at hv
      exact Or.inr hv
  refine ⟨?_, ?_, ?_⟩
  · intro s' b' hv
    rcases hold s' b' hv with ⟨-, rfl⟩ | hv
    · exact Or.inr rfl
    · exact Or.inl (h.mem s' b' hv)
  · intro s1 s2 b' h1 h2
    rcases hold s1 b' h1 with ⟨rfl, rfl⟩ | hv1
    · rcases hold s2 b' h2 with ⟨rfl, -⟩ | hv2
      · rfl
      · exact absurd (h.mem s2 b' hv2) hb
    · rcases hold s2 b' h2 with ⟨-, rfl⟩ | hv2
      · exact absurd (h.mem s1 b' hv1) hb
      · exact h.inj s1 s2 b' hv1 hv2
  · intro b' hb'
    rcases hb' with hb' | rfl
    · obtain ⟨s', hs'⟩ := h.cover b' hb'
      have hne : s' ≠ s := fun heq => by rw [heq, hs] at hs'; exact absurd hs' (by simp)
      exact ⟨s', by rw [update_of_ne hne, hs']⟩
    · exact ⟨s, update_self _ _ _⟩

theorem Exact.release (h : Exact v M) (hs : v s = some b) :
    Exact (update v s none) fun b' => M b' ∧ b' ≠ b := by
  have hold : ∀ s' b', update v s none s' = some b' → s' ≠ s ∧ v s' = some b' := by
    intro s' b' hv
    by_cases heq : s' = s
    · subst heq
      rw [update_self] at hv
      cases hv
    · rw [update_of_ne heq] at hv
      exact ⟨heq, hv⟩
  refine ⟨?_, ?_, ?_⟩
  · intro s' b' hv
    obtain ⟨hne, hv⟩ := hold s' b' hv
    exact ⟨h.mem s' b' hv, fun heq => hne (h.inj s' s b (heq ▸ hv) hs)⟩
  · intro s1 s2 b' h1 h2
    exact h.inj s1 s2 b' (hold s1 b' h1).2 (hold s2 b' h2).2
  · rintro b' ⟨hb', hne⟩
    obtain ⟨s', hs'⟩ := h.cover b' hb'
    have hss : s' ≠ s := fun heq => by
      rw [heq, hs] at hs'
      exact hne (Option.some.inj hs').symm
    exact ⟨s', by rw [update_of_ne hss, hs']⟩

end AudioPlayer.Owners

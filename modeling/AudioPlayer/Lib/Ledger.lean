import Mathlib.Data.List.Basic
import Mathlib.Logic.Function.Basic

/-!
# Ledgers

Calls are numbered as they begin, and a log has the number of a call with each item. `Ledger` says
that the items of a call in the log are those that the call itself has counted, while it runs
(`live`) and after it has returned (`done`), and that all items belong to calls.
-/

namespace AudioPlayer

open Function List

namespace Ledger

variable {α : Type*} {n k : ℕ} {log : List (ℕ × α)}

/-- The items of the call `k`, in order. -/
def part (log : List (ℕ × α)) (k : ℕ) : List α := (log.filter (·.1 = k)).map Prod.snd

theorem part_append_self (log : List (ℕ × α)) (k : ℕ) (a : α) :
    part (log ++ [(k, a)]) k = part log k ++ [a] := by
  simp [part]

theorem part_append_of_ne {j : ℕ} (h : k ≠ j) (a : α) : part (log ++ [(k, a)]) j = part log j := by
  simp [part, h]

/-- A call that has not begun has no items. -/
theorem part_eq_nil (h : ∀ x ∈ log, x.1 < n) : part log n = [] := by
  rw [part, map_eq_nil_iff, filter_eq_nil_iff]
  intro x hx heq
  exact Nat.ne_of_lt (h x hx) (of_decide_eq_true heq)

end Ledger

/-- `n` calls have begun. `live p` is the call that `p` is in, with the items that it has counted, and
`done` are the calls that have returned, with theirs. -/
structure Ledger {ι α : Type*} (n : ℕ) (log : List (ℕ × α)) (live : ι → Option (ℕ × List α))
    (done : List (ℕ × List α)) : Prop where
  lt : ∀ x ∈ log, x.1 < n
  running : ∀ p k xs, live p = some (k, xs) → k < n ∧ Ledger.part log k = xs
  inj : ∀ p q k xs ys, live p = some (k, xs) → live q = some (k, ys) → p = q
  returned : ∀ x ∈ done, x.1 < n ∧ Ledger.part log x.1 = x.2 ∧ ∀ p xs, live p ≠ some (x.1, xs)
  nodup : (done.map Prod.fst).Nodup
  all : ∀ x ∈ log, (∃ p xs, live p = some (x.1, xs)) ∨ x.1 ∈ done.map Prod.fst

namespace Ledger

variable {ι α : Type*} {n k : ℕ} {log : List (ℕ × α)} {live : ι → Option (ℕ × List α)}
  {done : List (ℕ × List α)} {p : ι} {xs : List α}

theorem empty : Ledger 0 ([] : List (ℕ × α)) (fun _ : ι => none) [] :=
  ⟨by simp, by simp, by simp, by simp, .nil, by simp⟩

/-- A call begins that counts elsewhere. -/
theorem skip (h : Ledger n log live done) : Ledger (n + 1) log live done := by
  refine ⟨fun x hx => Nat.lt_succ_of_lt (h.lt x hx), ?_, h.inj, ?_, h.nodup, h.all⟩
  · intro p k xs hp
    exact (h.running p k xs hp).imp_left Nat.lt_succ_of_lt
  · intro x hx
    exact (h.returned x hx).imp_left Nat.lt_succ_of_lt

variable [DecidableEq ι]

/-- A process moves on and its call counts nothing. -/
theorem stay {κ : Type*} {f : κ → Option (ℕ × List α)} {calls : ι → κ} {c : κ}
    (h : Ledger n log (f ∘ calls) done) (hc : f c = f (calls p)) :
    Ledger n log (f ∘ update calls p c) done := by
  rw [comp_update, hc]
  exact (update_eq_self p (f ∘ calls)).symm ▸ h

/-- A call begins. -/
theorem start (h : Ledger n log live done) (hp : live p = none) :
    Ledger (n + 1) log (update live p (some (n, []))) done := by
  have hold : ∀ q k xs, k ≠ n → update live p (some (n, [])) q = some (k, xs) →
      live q = some (k, xs) := by
    grind
  have hnil := part_eq_nil h.lt
  have hs := h.skip
  refine ⟨hs.lt, ?_, ?_, ?_, h.nodup, ?_⟩
  · intro q k xs hq
    by_cases hk : k = n
    · have := h.running q k xs
      grind
    · exact hs.running q k xs (hold q k xs hk hq)
  · intro q r k xs ys hq hr
    have := h.inj q r k xs ys
    have := h.running q k xs
    have := h.running r k ys
    grind
  · intro x hx
    obtain ⟨hlt, hpart, hout⟩ := h.returned x hx
    exact ⟨Nat.lt_succ_of_lt hlt, hpart, fun q ys hq => hout q ys (hold q _ _ (Nat.ne_of_lt hlt) hq)⟩
  · intro x hx
    have := h.all x hx
    have := h.lt x hx
    grind

/-- A call puts an item into the log. -/
theorem put (h : Ledger n log live done) (hp : live p = some (k, xs)) (a : α) :
    Ledger n (log ++ [(k, a)]) (update live p (some (k, xs ++ [a]))) done := by
  obtain ⟨hk, hpart⟩ := h.running p k xs hp
  have hself := part_append_self log k a
  refine ⟨?_, ?_, ?_, ?_, h.nodup, ?_⟩
  · have := h.lt
    grind
  · intro q j ys hq
    by_cases hj : k = j
    · have := h.inj q p j
      grind
    · rw [part_append_of_ne hj]
      have := h.running q j ys
      grind
  · intro q r j ys zs hq hr
    have := h.inj q r j
    grind
  · intro x hx
    obtain ⟨hlt, hpart, hout⟩ := h.returned x hx
    have hne : k ≠ x.1 := by
      rintro rfl
      exact hout p xs hp
    refine ⟨hlt, by rw [part_append_of_ne hne, hpart], ?_⟩
    grind
  · intro x hx
    by_cases hx' : x.1 = k
    · exact Or.inl ⟨p, xs ++ [a], by rw [update_self, hx']⟩
    · have hmem : x ∈ log := by grind
      refine (h.all x hmem).imp_left fun ⟨q, ys, hq⟩ => ⟨q, ys, ?_⟩
      grind

/-- A call returns. -/
theorem finish (h : Ledger n log live done) (hp : live p = some (k, xs)) :
    Ledger n log (update live p none) ((k, xs) :: done) := by
  have hold : ∀ q j ys, update live p none q = some (j, ys) → q ≠ p ∧ live q = some (j, ys) := by
    grind
  refine ⟨h.lt, fun q j ys hq => h.running q j ys (hold q j ys hq).2, ?_, ?_, ?_, ?_⟩
  · intro q r j ys zs hq hr
    exact h.inj q r j ys zs (hold q j ys hq).2 (hold r j zs hr).2
  · rintro x (_ | ⟨_, hx⟩)
    · obtain ⟨hk, hpart⟩ := h.running p k xs hp
      refine ⟨hk, hpart, fun q ys hq => ?_⟩
      exact (hold q k ys hq).1 (h.inj q p k ys xs (hold q k ys hq).2 hp)
    · obtain ⟨hlt, hpart, hout⟩ := h.returned x hx
      exact ⟨hlt, hpart, fun q ys hq => hout q ys (hold q _ ys hq).2⟩
  · refine nodup_cons.2 ⟨fun hk => ?_, h.nodup⟩
    obtain ⟨x, hx, rfl⟩ := mem_map.1 hk
    exact (h.returned x hx).2.2 p xs hp
  · intro x hx
    have := h.all x hx
    grind

/-- A call puts its last item into the log and returns. -/
theorem put_finish (h : Ledger n log live done) (hp : live p = some (k, xs)) (a : α) :
    Ledger n (log ++ [(k, a)]) (update live p none) ((k, xs ++ [a]) :: done) := by
  have hput := (h.put hp a).finish (update_self p _ live)
  rwa [update_idem] at hput

end Ledger

end AudioPlayer

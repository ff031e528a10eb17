import Mathlib.Data.Multiset.AddSub
import Mathlib.Algebra.Order.Group.Unbundled.Int

/-!
# The counting semaphore

A counting semaphore as what it is for: a number of available units, and the processes that wait for
one. A unit that is posted goes to a process that waits, if there is one; a wait may also be given
up. In every state that can be reached (`Counting.Ideal.balanced_of_reachable`) no unit is lost or
made up, and nobody waits while a unit is available. So one integer, `Counting.Ideal.count`,
determines both numbers.
-/

namespace GreenboneFeeder.Counting

variable {τ : Type*}

/-- **A counting semaphore**, with the number of units posted to it and acquired from it
so far. -/
structure Ideal (τ : Type*) where
  available : ℕ
  waiting : Multiset τ
  posts : ℕ
  acquisitions : ℕ

namespace Ideal

/-- A semaphore with `n` units that nobody has used yet. -/
def fresh (n : ℕ) : Ideal τ := ⟨n, 0, 0, 0⟩

/-- The available units less the processes that wait. -/
def count (s : Ideal τ) : ℤ := s.available - s.waiting.card

/-- What can happen to a semaphore. -/
inductive Step [DecidableEq τ] (s : Ideal τ) : Ideal τ → Prop
  | take {n : ℕ} (h : s.available = n + 1) :
      Step s { s with available := n, acquisitions := s.acquisitions + 1 }
  | block (t : τ) (h : s.available = 0) : Step s { s with waiting := t ::ₘ s.waiting }
  | post (h : s.waiting = 0) :
      Step s { s with available := s.available + 1, posts := s.posts + 1 }
  | grant (t : τ) (h : t ∈ s.waiting) :
      Step s { s with
        waiting := s.waiting.erase t
        posts := s.posts + 1
        acquisitions := s.acquisitions + 1 }
  | cancel (t : τ) (h : t ∈ s.waiting) : Step s { s with waiting := s.waiting.erase t }

/-- Every unit is accounted for, and nobody waits while one is available. -/
structure Balanced (n : ℕ) (s : Ideal τ) : Prop where
  units : s.available + s.acquisitions = n + s.posts
  busy : s.available = 0 ∨ s.waiting = 0

variable {n : ℕ} {s s' : Ideal τ}

theorem available_eq_zero_of_mem {t : τ} (h : Balanced n s) (ht : t ∈ s.waiting) :
    s.available = 0 := by
  refine h.busy.resolve_right fun hc => ?_
  rw [hc] at ht
  exact absurd ht (Multiset.notMem_zero t)

theorem max_count (h : Balanced n s) : max s.count 0 = s.available := by
  rw [count]
  rcases h.busy with ha | hw
  · omega
  · rw [hw, Multiset.card_zero]
    omega

theorem neg_min_count (h : Balanced n s) : -min s.count 0 = s.waiting.card := by
  rw [count]
  rcases h.busy with ha | hw
  · omega
  · rw [hw, Multiset.card_zero]
    omega

variable [DecidableEq τ]

theorem Step.balanced (hs : Step s s') (h : Balanced n s) : Balanced n s' := by
  have hunits := h.units
  cases hs with
  | take ha =>
    refine ⟨?_, .inr (h.busy.resolve_left (by omega))⟩
    dsimp only
    omega
  | block t ha => exact ⟨hunits, .inl ha⟩
  | post hw =>
    refine ⟨?_, .inr hw⟩
    dsimp only
    omega
  | grant t ht =>
    have hzero := available_eq_zero_of_mem h ht
    refine ⟨?_, .inl hzero⟩
    dsimp only
    omega
  | cancel t ht =>
    have hzero := available_eq_zero_of_mem h ht
    exact ⟨hunits, .inl hzero⟩

/-- **Every state that a semaphore can reach is balanced.** -/
theorem balanced_of_reachable (h : Relation.ReflTransGen Step (fresh n) s) : Balanced n s := by
  induction h with
  | refl => exact ⟨rfl, .inr rfl⟩
  | tail _ hs ih => exact hs.balanced ih

end Ideal

end GreenboneFeeder.Counting

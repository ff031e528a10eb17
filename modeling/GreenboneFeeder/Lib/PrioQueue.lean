import GreenboneFeeder.Lib.PrioList
import Mathlib.Data.List.Induction

/-!
# Priority queues

A priority queue is said by its history, a list of sends and receives. The elements sent and not yet
received stand in the order of their sending (`PrioQueue.outstanding`), and a receive has to return
the first one of the highest priority (`PrioQueue.First`). A history whose receives all do so is
`PrioQueue.Legal`. Taking the head of the list built by inserting the outstanding elements does so
(`PrioQueue.first_of_insertAll`).
-/

namespace GreenboneFeeder.PrioQueue

open List PrioList

variable {α : Type*}

/-- What is done with a queue. -/
inductive Op (α : Type*) where
  | send (a : α)
  | receive (a : α)
  deriving DecidableEq

/-- **What a receive has to return**: an element of the highest priority, and of these the
one sent first. -/
def First (prio : α → ℕ) (l : List α) (a : α) : Prop :=
  ∃ l₁ l₂, l = l₁ ++ a :: l₂ ∧ (∀ b ∈ l₁, prio b < prio a) ∧ ∀ b ∈ l₂, prio b ≤ prio a

/-- The elements sent, in the order of their sending. -/
def sent : List (Op α) → List α
  | [] => []
  | .send a :: ops => a :: sent ops
  | .receive _ :: ops => sent ops

/-- The elements received. -/
def received : List (Op α) → List α
  | [] => []
  | .send _ :: ops => received ops
  | .receive a :: ops => a :: received ops

section Basic

variable {prio : α → ℕ} {l : List α} {ops ops' : List (Op α)} {a : α}

@[simp] theorem sent_append : sent (ops ++ ops') = sent ops ++ sent ops' := by
  induction ops with
  | nil => rfl
  | cons op ops ih =>
    cases op with
    | send a => exact congrArg (a :: ·) ih
    | receive a => exact ih

@[simp] theorem received_append : received (ops ++ ops') = received ops ++ received ops' := by
  induction ops with
  | nil => rfl
  | cons op ops ih =>
    cases op with
    | send a => exact ih
    | receive a => exact congrArg (a :: ·) ih

theorem First.mem (h : First prio l a) : a ∈ l := by
  obtain ⟨l₁, l₂, rfl, -, -⟩ := h
  simp

end Basic

section Outstanding

variable [DecidableEq α] {prio : α → ℕ} {ops : List (Op α)} {a : α}

/-- The outstanding elements after an operation. -/
def after (l : List α) : Op α → List α
  | .send a => l ++ [a]
  | .receive a => l.erase a

/-- **The elements sent and not yet received**, in the order of their sending. -/
def outstanding (ops : List (Op α)) : List α := ops.foldl after []

@[simp] theorem outstanding_nil : outstanding ([] : List (Op α)) = [] := rfl

@[simp] theorem outstanding_append_send :
    outstanding (ops ++ [.send a]) = outstanding ops ++ [a] := by
  rw [outstanding, foldl_append]
  rfl

@[simp] theorem outstanding_append_receive :
    outstanding (ops ++ [.receive a]) = (outstanding ops).erase a := by
  rw [outstanding, foldl_append]
  rfl

/-- **A history of a priority queue**: each receive returned what it had to. -/
def Legal (prio : α → ℕ) (ops : List (Op α)) : Prop :=
  ∀ pre a post, ops = pre ++ .receive a :: post → First prio (outstanding pre) a

theorem legal_nil : Legal prio ([] : List (Op α)) := by
  intro pre a post h
  exact absurd h (by simp)

theorem Legal.append_singleton {op : Op α} (h : Legal prio ops)
    (hop : ∀ a, op = .receive a → First prio (outstanding ops) a) : Legal prio (ops ++ [op]) := by
  intro pre a post hsplit
  rcases eq_nil_or_concat post with rfl | ⟨post, x, rfl⟩
  · obtain ⟨rfl, ha⟩ := append_inj' hsplit rfl
    exact hop a (cons.inj ha).1
  · rw [concat_eq_append, ← cons_append, ← append_assoc] at hsplit
    exact h pre a post (append_inj' hsplit rfl).1

theorem Legal.send (h : Legal prio ops) : Legal prio (ops ++ [.send a]) :=
  h.append_singleton fun _ hc => by cases hc

theorem Legal.receive (h : Legal prio ops) (ha : First prio (outstanding ops) a) :
    Legal prio (ops ++ [.receive a]) := by
  refine h.append_singleton ?_
  rintro b ⟨⟩
  exact ha

/-- **Nothing is lost and nothing is returned twice**: what was sent is what was received
and what is outstanding. -/
theorem Legal.sent_perm (h : Legal prio ops) :
    (sent ops).Perm (received ops ++ outstanding ops) := by
  induction ops using reverseRecOn with
  | nil => exact .refl _
  | append_singleton ops op ih =>
    have hops : Legal prio ops := fun pre a post hsplit =>
      h pre a (post ++ [op]) (by rw [hsplit, append_assoc, cons_append])
    have ih := ih hops
    cases op with
    | send a =>
      rw [sent_append, received_append, outstanding_append_send]
      change (sent ops ++ [a]).Perm (received ops ++ [] ++ (outstanding ops ++ [a]))
      rw [append_nil, ← append_assoc]
      exact ih.append_right [a]
    | receive a =>
      have hmem : a ∈ outstanding ops := (h ops a [] rfl).mem
      rw [sent_append, received_append, outstanding_append_receive]
      change (sent ops ++ []).Perm (received ops ++ [a] ++ (outstanding ops).erase a)
      rw [append_nil, append_assoc]
      exact ih.trans ((perm_cons_erase hmem).append_left _)

end Outstanding

/-! ### The sorted list of the outstanding elements -/

section Sorted

variable {prio : α → ℕ} {l : List α} {a b c : α}

theorem insert_cons : insert prio b (c :: l) =
    if prio b ≤ prio c then c :: insert prio b l else b :: c :: l := by
  split
  · have hc : ∀ u ∈ [c], prio b ≤ prio u := fun u hu => by rwa [mem_singleton.mp hu]
    exact insert_append hc
  · exact insert_of_ahead_eq_nil (ahead_eq_nil_iff.mpr (by omega))

/-- **The head of the sorted list is what a receive has to return**, and its tail is the
sorted list of the others. -/
theorem first_of_insertAll [DecidableEq α] {r : List α} (h : insertAll prio l [] = a :: r) :
    First prio l a ∧ insertAll prio (l.erase a) [] = r := by
  -- over the elements in the order of their sending, the last one apart
  induction l using reverseRecOn generalizing a r with
  | nil => exact absurd h (by simp)
  | append_singleton l b ih =>
    rw [insertAll_append] at h
    change insert prio b (insertAll prio l []) = a :: r at h
    have hperm := insertAll_perm prio l []
    have hsorted : PrioList.Sorted prio (insertAll prio l []) :=
      sorted_insertAll Pairwise.nil
    rw [append_nil] at hperm
    rcases hX : insertAll prio l [] with _ | ⟨c, X⟩
    · obtain rfl : l = [] := by simpa [hX] using hperm.symm
      cases h
      refine ⟨⟨[], [], rfl, by simp, by simp⟩, ?_⟩
      rw [nil_append, erase_cons_head]
      rfl
    · rw [hX, insert_cons] at h
      rw [hX] at hsorted hperm
      split at h
      · -- the new element stands behind the head
        cases h
        obtain ⟨hfirst, hrest⟩ := ih hX
        obtain ⟨l₁, l₂, hl, h₁, h₂⟩ := hfirst
        refine ⟨⟨l₁, l₂ ++ [b], by rw [hl]; simp, h₁, fun u hu => ?_⟩, ?_⟩
        · rcases mem_append.mp hu with hu | hu
          · exact h₂ u hu
          · rwa [mem_singleton.mp hu]
        · rw [erase_append_left _ (by rw [hl]; simp), insertAll_append, hrest]
          rfl
      · -- the new element outranks all others
        cases h
        have hlt : ∀ u ∈ l, prio u < prio b := by
          intro u hu
          rcases mem_cons.mp (hperm.mem_iff.mpr hu) with rfl | hu
          · omega
          · have := (pairwise_cons.mp hsorted).1 u hu
            omega
        have hb : b ∉ l := fun hc => absurd (hlt b hc) (lt_irrefl _)
        refine ⟨⟨l, [], rfl, hlt, by simp⟩, ?_⟩
        rw [erase_append_right _ hb, erase_cons_head, append_nil, hX]

end Sorted

end GreenboneFeeder.PrioQueue

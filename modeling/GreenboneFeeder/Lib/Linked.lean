import Mathlib.Data.List.Chain

/-!
# Doubly linked lists

A doubly linked list is given by two functions, `next` and `prev`, and a value `null` for its end.
`Linked` says that they link the nodes of a list in their order. `Linked.unlink` and `Linked.insert`
ask for no more than what the changed functions are on the nodes of the list, so they apply wherever
the links are kept.
-/

namespace GreenboneFeeder

open List

variable {α : Type*} {next prev next' prev' : α → α} {null p a : α} {l l₁ l₂ : List α}

/-- **The nodes are linked** in the order of the list, and the last one has no successor. -/
structure Linked (next prev : α → α) (null : α) (l : List α) : Prop where
  chain : l.IsChain fun a b => next a = b ∧ prev b = a
  last : ∀ a ∈ l.getLast?, next a = null

namespace Linked

theorem congr (h : Linked next prev null l) (hnext : ∀ x ∈ l, next' x = next x)
    (hprev : ∀ x ∈ l, prev' x = prev x) : Linked next' prev' null l := by
  refine ⟨h.chain.imp_of_mem_imp fun x y hx hy hxy => ?_, fun x hx => ?_⟩
  · rw [hnext x hx, hprev y hy]
    exact hxy
  · rw [hnext x (mem_of_getLast? hx)]
    exact h.last x hx

theorem next_eq (h : Linked next prev null (l₁ ++ a :: l₂)) : next a = l₂.head?.getD null := by
  cases l₂ with
  | nil => exact h.last a (by simp)
  | cons b l₂ => exact (isChain_append_cons_cons.mp h.chain).2.1.1

theorem prev_eq (h : Linked next prev null (l₁ ++ p :: a :: l₂)) : prev a = p :=
  (isChain_append_cons_cons.mp h.chain).2.1.2

theorem of_append (h : Linked next prev null (l₁ ++ a :: l₂)) :
    Linked next prev null (a :: l₂) := by
  refine ⟨h.chain.right_of_append, fun x hx => h.last x ?_⟩
  rw [getLast?_append, hx]
  rfl

theorem append_cons (hl : (l₁ ++ [p]).IsChain fun a b => next a = b ∧ prev b = a)
    (hr : Linked next prev null (p :: l₂)) : Linked next prev null (l₁ ++ p :: l₂) := by
  refine ⟨isChain_split.mpr ⟨hl, hr.chain⟩, fun x hx => hr.last x ?_⟩
  rw [getLast?_append_cons] at hx
  exact hx

theorem cons (hl : Linked next prev null l) (hnext : next p = l.head?.getD null)
    (hprev : ∀ b ∈ l.head?, prev b = p) : Linked next prev null (p :: l) := by
  cases l with
  | nil =>
    refine ⟨isChain_singleton p, fun x hx => ?_⟩
    obtain rfl : p = x := by simpa using hx
    exact hnext
  | cons b l =>
    refine ⟨isChain_cons_cons.mpr ⟨⟨hnext, hprev b rfl⟩, hl.chain⟩, fun x hx => ?_⟩
    exact hl.last x hx

theorem tail_congr (h : Linked next prev null (a :: l)) (hnext : ∀ x ∈ l, next' x = next x)
    (hprev : ∀ x ∈ l.tail, prev' x = prev x) : Linked next' prev' null l := by
  have hchain : l.IsChain fun a b => next a = b ∧ prev b = a := h.chain.tail
  refine ⟨hchain.imp_of_mem_tail_imp fun x y hx hy hxy => ?_, fun x hx => ?_⟩
  · rw [hnext x hx, hprev y hy]
    exact hxy
  · rw [hnext x (mem_of_getLast? hx)]
    refine h.last x ?_
    rw [getLast?_cons, hx]
    rfl

theorem init_congr (h : (l₁ ++ [p]).IsChain fun a b => next a = b ∧ prev b = a)
    (hnext : ∀ x ∈ l₁, next' x = next x) (hprev : ∀ x ∈ l₁ ++ [p], prev' x = prev x) :
    (l₁ ++ [p]).IsChain fun a b => next' a = b ∧ prev' b = a := by
  rw [isChain_append] at h ⊢
  refine ⟨h.1.imp_of_mem_imp fun x y hx hy hxy => ?_, isChain_singleton p,
    fun x hx y hy => ?_⟩
  · rw [hnext x hx, hprev y (mem_append_left _ hy)]
    exact hxy
  · obtain rfl : p = y := by simpa using hy
    rw [hnext x (mem_of_getLast? hx), hprev p (by simp)]
    exact h.2.2 x hx p rfl

variable [DecidableEq α] {q r : α}

/-- Both sides of a place in the list stay linked when the link across it is changed in
both directions. -/
theorem sides (hl : (l₁ ++ [p]).IsChain fun a b => next a = b ∧ prev b = a)
    (hr : Linked next prev null (a :: l₂)) (hnodup : (l₁ ++ p :: l₂).Nodup)
    (hnext : ∀ x ∈ l₁ ++ p :: l₂, next' x = if x = p then q else next x)
    (hprev : ∀ x ∈ l₁ ++ p :: l₂, prev' x = if l₂.head? = some x then r else prev x) :
    ((l₁ ++ [p]).IsChain fun a b => next' a = b ∧ prev' b = a) ∧ Linked next' prev' null l₂ := by
  obtain ⟨-, hnodup₂, hdisjoint⟩ := nodup_append.mp hnodup
  obtain ⟨hp, hnodup₃⟩ := nodup_cons.mp hnodup₂
  refine ⟨init_congr hl (fun x hx => ?_) fun x hx => ?_,
    hr.tail_congr (fun x hx => ?_) fun x hx => ?_⟩
  · have hne : x ≠ p := hdisjoint x hx p mem_cons_self
    rw [hnext x (mem_append_left _ hx), if_neg hne]
  · have hhead : l₂.head? ≠ some x := by
      intro hc
      have hx₂ := mem_of_head? hc
      rcases mem_append.mp hx with hx | hx
      · exact hdisjoint x hx x (mem_cons_of_mem _ hx₂) rfl
      · exact hp (mem_singleton.mp hx ▸ hx₂)
    have hmem : x ∈ l₁ ++ p :: l₂ := by
      rw [List.append_cons]
      exact mem_append_left _ hx
    rw [hprev x hmem, if_neg hhead]
  · have hne : x ≠ p := by
      rintro rfl
      exact hp hx
    rw [hnext x (by simp [hx]), if_neg hne]
  · have hhead : l₂.head? ≠ some x := by
      intro hc
      obtain ⟨l₃, rfl⟩ := head?_eq_some_iff.mp hc
      exact (nodup_cons.mp hnodup₃).1 hx
    rw [hprev x (by simp [mem_of_mem_tail hx]), if_neg hhead]

/-- **A node is taken out**: the link from its predecessor and the link back from its
successor are changed. -/
theorem unlink (h : Linked next prev null (l₁ ++ p :: a :: l₂)) (hnodup : (l₁ ++ p :: l₂).Nodup)
    (hnext : ∀ x ∈ l₁ ++ p :: l₂, next' x = if x = p then next a else next x)
    (hprev : ∀ x ∈ l₁ ++ p :: l₂, prev' x = if l₂.head? = some x then p else prev x) :
    Linked next' prev' null (l₁ ++ p :: l₂) := by
  have hright : Linked next prev null (a :: l₂) := by
    rw [List.append_cons] at h
    exact h.of_append
  obtain ⟨hl, hr⟩ := sides (isChain_split.mp h.chain).1 hright hnodup hnext hprev
  refine append_cons hl (cons hr ?_ fun b hb => ?_)
  · rw [hnext p (by simp), if_pos rfl]
    rw [← nil_append (a :: l₂)] at hright
    exact hright.next_eq
  · rw [hprev b (by simp [mem_of_head? hb]), if_pos (Option.mem_def.mp hb)]

/-- **A node is put in** behind another one. -/
theorem insert (h : Linked next prev null (l₁ ++ p :: l₂)) (hnodup : (l₁ ++ p :: l₂).Nodup)
    (hnexta : next' a = l₂.head?.getD null) (hpreva : prev' a = p)
    (hnext : ∀ x ∈ l₁ ++ p :: l₂, next' x = if x = p then a else next x)
    (hprev : ∀ x ∈ l₁ ++ p :: l₂, prev' x = if l₂.head? = some x then a else prev x) :
    Linked next' prev' null (l₁ ++ p :: a :: l₂) := by
  obtain ⟨hl, hr⟩ := sides (isChain_split.mp h.chain).1 h.of_append hnodup hnext hprev
  refine append_cons hl (cons (cons hr hnexta fun b hb => ?_) ?_ fun b hb => ?_)
  · rw [hprev b (by simp [mem_of_head? hb]), if_pos (Option.mem_def.mp hb)]
  · rw [hnext p (by simp), if_pos rfl]
    rfl
  · obtain rfl : a = b := by simpa using hb
    exact hpreva

end Linked

end GreenboneFeeder

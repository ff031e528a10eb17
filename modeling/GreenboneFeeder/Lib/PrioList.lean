import Mathlib.Data.List.TakeWhile

/-!
# Priority-ordered lists

A list ordered by non-increasing priority, with elements of one priority in the order of their
arrival. The only way in is `PrioList.insert`: walk past every element whose priority is not below
the new one's. What that position means is said in `PrioList.insert_split`; everything else is read
off it. The priorities are a function on the elements, so an element can change its priority
(`PrioList.sorted_congr`).
-/

namespace GreenboneFeeder.PrioList

open List

variable {τ : Type*}

section

variable (prio : τ → ℕ)

/-- The elements stand by non-increasing priority. -/
def Sorted (l : List τ) : Prop := l.Pairwise fun a b => prio b ≤ prio a

/-- The elements that a new one of priority `p` is put behind. -/
def ahead (p : ℕ) (l : List τ) : List τ := l.takeWhile fun n => p ≤ prio n

/-- The elements that a new one of priority `p` is put in front of. -/
def behind (p : ℕ) (l : List τ) : List τ := l.dropWhile fun n => p ≤ prio n

/-- **Insertion behind every element of the same priority.** -/
def insert (t : τ) (l : List τ) : List τ :=
  ahead prio (prio t) l ++ t :: behind prio (prio t) l

section Basic

variable {prio prio' : τ → ℕ} {l l' : List τ} {t u : τ} {p : ℕ}

theorem ahead_append_behind (prio : τ → ℕ) (p : ℕ) (l : List τ) :
    ahead prio p l ++ behind prio p l = l :=
  takeWhile_append_dropWhile

theorem le_of_mem_ahead (h : u ∈ ahead prio p l) : p ≤ prio u := by
  simpa using mem_takeWhile_imp h

/-- In an ordered list, everything from the insertion point on has a lower
priority. -/
theorem lt_of_mem_behind (hl : Sorted prio l) (h : u ∈ behind prio p l) : prio u < p := by
  rcases hb : behind prio p l with _ | ⟨r, rs⟩
  · rw [hb] at h
    exact absurd h (by simp)
  · have hr : ¬p ≤ prio r := by
      have := head?_dropWhile_not (fun n => decide (p ≤ prio n)) l
      unfold behind at hb
      rw [hb] at this
      simpa using this
    have hsuffix : Sorted prio (r :: rs) := by
      have := hl
      rw [Sorted, ← ahead_append_behind prio p l, hb, pairwise_append] at this
      exact this.2.1
    rw [hb] at h
    rcases mem_cons.mp h with rfl | hu
    · omega
    · have := (pairwise_cons.mp hsuffix).1 u hu
      omega

/-- **Where an element is inserted**: behind everything of at least its priority, and
in front of everything of a lower one. -/
theorem insert_split (prio : τ → ℕ) (t : τ) (hl : Sorted prio l) :
    ∃ l₁ l₂, l = l₁ ++ l₂ ∧ insert prio t l = l₁ ++ t :: l₂ ∧
      (∀ u ∈ l₁, prio t ≤ prio u) ∧ ∀ u ∈ l₂, prio u < prio t :=
  ⟨ahead prio (prio t) l, behind prio (prio t) l, (ahead_append_behind _ _ _).symm, rfl,
    fun _ => le_of_mem_ahead, fun _ => lt_of_mem_behind hl⟩

theorem insert_perm (prio : τ → ℕ) (t : τ) (l : List τ) : (insert prio t l).Perm (t :: l) := by
  refine perm_middle.trans ?_
  rw [ahead_append_behind]

@[simp] theorem mem_insert : u ∈ insert prio t l ↔ u = t ∨ u ∈ l := by
  rw [(insert_perm prio t l).mem_iff, mem_cons]

/-- A relation holds along an ordered list after an insertion, if it relates the new element to
those in front of it and to those behind it. -/
theorem pairwise_insert {R : τ → τ → Prop} (hl : Sorted prio l) (hR : l.Pairwise R)
    (hfront : ∀ u ∈ l, prio t ≤ prio u → R u t) (hback : ∀ u ∈ l, prio u < prio t → R t u) :
    (insert prio t l).Pairwise R := by
  obtain ⟨l₁, l₂, rfl, hins, h₁, h₂⟩ := insert_split prio t hl
  rw [hins]
  rw [pairwise_append] at hR ⊢
  refine ⟨hR.1, pairwise_cons.mpr ⟨fun u hu => ?_, hR.2.1⟩, fun a ha b hb => ?_⟩
  · exact hback u (mem_append_right _ hu) (h₂ u hu)
  rcases mem_cons.mp hb with rfl | hb
  · exact hfront a (mem_append_left _ ha) (h₁ a ha)
  · exact hR.2.2 a ha b hb

theorem sorted_insert (hl : Sorted prio l) : Sorted prio (insert prio t l) :=
  pairwise_insert hl hl (fun _ _ => id) fun _ _ => Nat.le_of_lt

theorem sorted_congr (h : ∀ u ∈ l, prio' u = prio u) : Sorted prio' l ↔ Sorted prio l := by
  refine Pairwise.iff_of_mem fun {a b} ha hb => ?_
  rw [h a ha, h b hb]

theorem getLast?_insert (hlast : l.getLast? = some u) (hlt : prio u < prio t) :
    (insert prio t l).getLast? = some u := by
  rcases hb : behind prio (prio t) l with _ | ⟨r, rs⟩
  · -- then everything, the last element included, has at least the priority of `t`
    have hall := ahead_append_behind prio (prio t) l
    rw [hb, append_nil] at hall
    have hmem : u ∈ ahead prio (prio t) l := by
      rw [hall]
      exact mem_of_getLast? hlast
    have := le_of_mem_ahead hmem
    omega
  · rw [← ahead_append_behind prio (prio t) l, hb] at hlast
    rw [insert, hb]
    simpa [getLast?_append] using hlast

theorem insert_of_ahead_eq_nil (h : ahead prio (prio t) l = []) : insert prio t l = t :: l := by
  have hall := ahead_append_behind prio (prio t) l
  rw [h, nil_append] at hall
  rw [insert, h, hall, nil_append]

theorem head?_insert_of_ahead_ne_nil (h : ahead prio (prio t) l ≠ []) :
    (insert prio t l).head? = l.head? := by
  obtain ⟨a, as, hahead⟩ := exists_cons_of_ne_nil h
  have hall := ahead_append_behind prio (prio t) l
  rw [hahead] at hall
  rw [insert, hahead, ← hall]
  rfl

theorem ahead_eq_nil_iff {r : τ} : ahead prio p (r :: l) = [] ↔ prio r < p := by
  rw [ahead, takeWhile_cons]
  split <;> simp_all

theorem ahead_append (h : ∀ u ∈ l', p ≤ prio u) :
    ahead prio p (l' ++ l) = l' ++ ahead prio p l :=
  takeWhile_append_of_pos fun u hu => decide_eq_true (h u hu)

theorem insert_append (h : ∀ u ∈ l', prio t ≤ prio u) :
    insert prio t (l' ++ l) = l' ++ insert prio t l := by
  have hbehind : behind prio (prio t) (l' ++ l) = behind prio (prio t) l :=
    dropWhile_append_of_pos fun u hu => decide_eq_true (h u hu)
  rw [insert, ahead_append h, hbehind, append_assoc]
  rfl

end Basic

/-! ### Taking an element out -/

section Erase

variable [DecidableEq τ] {l : List τ} {t u : τ}

theorem head?_erase (h : l.head? ≠ some t) : (l.erase t).head? = l.head? := by
  rcases l with _ | ⟨a, l⟩
  · rfl
  · have hne : a ≠ t := fun hc => h (congrArg some hc)
    rw [erase_cons_tail (by simpa using hne)]
    rfl

theorem getLast?_erase (h : l.getLast? = some u) (hne : u ≠ t) :
    (l.erase t).getLast? = some u := by
  obtain ⟨ys, rfl⟩ := getLast?_eq_some_iff.mp h
  by_cases hmem : t ∈ ys
  · rw [erase_append_left _ hmem]
    simp
  · rw [erase_append_right _ hmem, erase_cons_tail (by simpa using hne)]
    simp

end Erase

/-! ### Several insertions -/

/-- The elements `qs`, inserted one after another. -/
def insertAll (qs l : List τ) : List τ := qs.foldl (fun l q => insert prio q l) l

end

section InsertAll

variable {prio : τ → ℕ} {qs qs' l : List τ} {q t u : τ}

@[simp] theorem insertAll_nil : insertAll prio [] l = l := rfl

@[simp] theorem insertAll_cons : insertAll prio (q :: qs) l = insertAll prio qs (insert prio q l) :=
  rfl

theorem insertAll_append :
    insertAll prio (qs ++ qs') l = insertAll prio qs' (insertAll prio qs l) :=
  foldl_append

theorem insertAll_perm (prio : τ → ℕ) (qs l : List τ) :
    (insertAll prio qs l).Perm (qs ++ l) := by
  induction qs generalizing l with
  | nil => exact .refl l
  | cons q qs ih => exact (ih _).trans ((Perm.append_left qs (insert_perm prio q l)).trans
      perm_middle)

@[simp] theorem mem_insertAll : u ∈ insertAll prio qs l ↔ u ∈ qs ∨ u ∈ l := by
  rw [(insertAll_perm prio qs l).mem_iff, mem_append]

theorem sorted_insertAll (hl : Sorted prio l) : Sorted prio (insertAll prio qs l) := by
  induction qs generalizing l with
  | nil => exact hl
  | cons q qs ih => exact ih (sorted_insert hl)

theorem head?_insertAll (hl : l.head? = some u) (h : ∀ q ∈ qs, prio q ≤ prio u) :
    (insertAll prio qs l).head? = some u := by
  induction qs generalizing l with
  | nil => exact hl
  | cons q qs ih =>
    obtain ⟨hq, h⟩ := forall_mem_cons.mp h
    refine ih ?_ h
    rw [head?_insert_of_ahead_ne_nil, hl]
    obtain ⟨l, rfl⟩ := head?_eq_some_iff.mp hl
    rwa [Ne, ahead_eq_nil_iff, Nat.not_lt]

theorem getLast?_insertAll (hl : l.getLast? = some u) (h : ∀ q ∈ qs, prio u < prio q) :
    (insertAll prio qs l).getLast? = some u := by
  induction qs generalizing l with
  | nil => exact hl
  | cons q qs ih =>
    obtain ⟨hq, h⟩ := forall_mem_cons.mp h
    exact ih (getLast?_insert hl hq) h

end InsertAll

/-! ### The order of arrival -/

/-- In the list `l`, the element `u` stands somewhere behind `t`. -/
def Follows (l : List τ) (t u : τ) : Prop := [t, u].Sublist l

section Arrival

variable {prio : τ → ℕ} {qs qs' l : List τ} {q t u : τ}

theorem follows_append_cons {l₁ l₂ : List τ} (ht : t ∉ l₁) (h : Follows (l₁ ++ t :: l₂) t u) :
    u ∈ l₂ := by
  induction l₁ with
  | nil => exact singleton_sublist.mp (cons_sublist_cons.mp h)
  | cons a l₁ ih =>
    have hne : t ≠ a := fun hc => ht (hc ▸ mem_cons_self)
    rcases sublist_cons_iff.mp h with h | ⟨r, hr, -⟩
    · exact ih (fun hc => ht (mem_cons_of_mem a hc)) h
    · exact absurd (cons.inj hr).1 hne

theorem lt_of_follows_insert (hl : Sorted prio l) (ht : t ∉ l)
    (h : Follows (insert prio t l) t u) : prio u < prio t := by
  obtain ⟨l₁, l₂, rfl, hins, -, h₂⟩ := insert_split prio t hl
  rw [hins] at h
  exact h₂ u (follows_append_cons (fun hc => ht (mem_append_left _ hc)) h)

theorem follows_of_insert [DecidableEq τ] (hq : q ∉ l) (hqt : q ≠ t) (hqu : q ≠ u)
    (h : Follows (insert prio q l) t u) : Follows l t u := by
  have herase := Sublist.erase q h
  have hall := ahead_append_behind prio (prio q) l
  have hq₁ : q ∉ ahead prio (prio q) l := fun hc => hq (hall ▸ mem_append_left _ hc)
  rw [insert, erase_append_right _ hq₁, erase_cons_head, hall,
    erase_of_not_mem (by simp [hqt, hqu])] at herase
  exact herase

theorem follows_of_insertAll [DecidableEq τ] (hnodup : (qs ++ l).Nodup) (ht : t ∉ qs)
    (hu : u ∉ qs) (h : Follows (insertAll prio qs l) t u) : Follows l t u := by
  induction qs generalizing l with
  | nil => exact h
  | cons q qs ih =>
    have hperm : (qs ++ insert prio q l).Perm (q :: qs ++ l) :=
      (Perm.append_left qs (insert_perm prio q l)).trans perm_middle
    have hq : q ∉ l := by
      rw [cons_append, nodup_cons, mem_append, not_or] at hnodup
      exact hnodup.1.2
    rw [mem_cons, not_or] at ht hu
    exact follows_of_insert hq (Ne.symm ht.1) (Ne.symm hu.1)
      (ih (hperm.nodup_iff.mpr hnodup) ht.2 hu.2 h)

/-- **Each element is inserted behind those of its priority**: whatever stands behind
it and did not arrive later has a lower priority. -/
theorem lt_of_follows_insertAll [DecidableEq τ] (hl : Sorted prio l)
    (hnodup : (qs ++ t :: qs' ++ l).Nodup) (hu : u ∉ qs')
    (h : Follows (insertAll prio (qs ++ t :: qs') l) t u) : prio u < prio t := by
  rw [insertAll_append] at h
  have hperm : (qs' ++ insert prio t (insertAll prio qs l)).Perm (qs ++ t :: qs' ++ l) :=
    calc (qs' ++ insert prio t (insertAll prio qs l)).Perm _ :=
          Perm.append_left qs' ((insert_perm prio t _).trans
            (Perm.cons t (insertAll_perm prio qs l)))
      List.Perm _ (t :: (qs ++ l) ++ qs') := perm_append_comm
      List.Perm _ (qs ++ t :: qs' ++ l) := by
        rw [cons_append, append_assoc, append_assoc]
        exact (perm_middle.trans
          (Perm.cons t (Perm.append_left qs perm_append_comm))).symm
  have hnodup' := hperm.nodup_iff.mpr hnodup
  rw [append_assoc, nodup_append] at hnodup
  have ht : t ∉ insertAll prio qs l := by
    rw [(insertAll_perm prio qs l).mem_iff, mem_append, not_or]
    refine ⟨fun hc => hnodup.2.2 t hc t (by simp) rfl, fun hc => ?_⟩
    exact (nodup_cons.mp hnodup.2.1).1 (mem_append_right _ hc)
  have htq : t ∉ qs' := fun hc =>
    (nodup_cons.mp hnodup.2.1).1 (mem_append_left _ hc)
  exact lt_of_follows_insert (sorted_insertAll hl) ht (follows_of_insertAll hnodup' htq hu h)

end Arrival

end GreenboneFeeder.PrioList

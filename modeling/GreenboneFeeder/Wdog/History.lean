import GreenboneFeeder.Wdog.Model

/-!
# Histories of watchdogs

`Wdog.status` is what a history says about a watchdog: whether it is active, with which delay and
when it was started last, and how many ticks have passed since. A history, with the latest entry
first, is lawful when every watchdog expires at the tick at which it has to, after those that have
to at the same tick and were started before (`Wdog.Lawful`).
-/

namespace GreenboneFeeder.Wdog

open List

variable {W : Type} [DecidableEq W]

/-- What is known of an active watchdog: its delay, the ticks since it was started, and the
number of entries before that. -/
structure Since where
  delay : ℤ
  ticks : ℕ
  start : ℕ

/-- The ticks that are left. -/
def Since.left (st : Since) : ℤ := st.delay + 1 - st.ticks

/-- A tick passes. -/
def Since.tick (st : Since) : Since := { st with ticks := st.ticks + 1 }

/-- **What the history says about a watchdog**, if it is active. -/
def status (w : W) : List (Entry W) → Option Since
  | [] => none
  | .start w' delay :: past => if w' = w then some ⟨delay, 0, past.length⟩ else status w past
  | .cancel w' :: past => if w' = w then none else status w past
  | .tick :: past => (status w past).map Since.tick
  | .fire w' :: past => if w' = w then none else status w past

/-- **Watchdogs fire when they have to**: with no tick left, in the order of their start, and before
the next tick. No delay is negative. -/
def Lawful : List (Entry W) → Prop
  | [] => True
  | .start _ delay :: past => Lawful past ∧ 0 ≤ delay
  | .cancel _ :: past => Lawful past
  | .tick :: past => Lawful past ∧ ∀ w st, status w past = some st → 0 < st.left
  | .fire w :: past => Lawful past ∧ ∃ st, status w past = some st ∧ st.left = 0 ∧
      ∀ w' st', w' ≠ w → status w' past = some st' → st'.left = 0 → st.start < st'.start

/-- The number of ticks. -/
def ticks (history : List (Entry W)) : ℕ := history.count .tick

/-- The entry starts or cancels the watchdog. -/
def Entry.Resets (w : W) : Entry W → Prop
  | .start w' _ | .cancel w' => w' = w
  | .tick | .fire _ => False

variable {w : W} {past : List (Entry W)}

theorem start_lt_length {st : Since} (h : status w past = some st) : st.start < past.length := by
  induction past generalizing st with
  | nil => exact nomatch h
  | cons e past ih =>
    have hpast {st : Since} (h : status w past = some st) : st.start < past.length + 1 :=
      Nat.lt_succ_of_lt (ih h)
    cases e with
    | start w' delay =>
      rw [status] at h
      split at h
      · rw [← Option.some.inj h]
        exact Nat.lt_succ_self _
      · exact hpast h
    | cancel w' | fire w' =>
      rw [status] at h
      split at h
      · exact nomatch h
      · exact hpast h
    | tick =>
      obtain ⟨st', hst, rfl⟩ := Option.map_eq_some_iff.mp h
      show st'.start < past.length + 1
      exact hpast hst

theorem Lawful.of_cons {e : Entry W} (h : Lawful (e :: past)) : Lawful past := by
  cases e with
  | cancel => exact h
  | start | tick | fire => exact h.1

theorem Lawful.of_append {later : List (Entry W)} (h : Lawful (later ++ past)) : Lawful past := by
  induction later with
  | nil => exact h
  | cons e later ih => exact ih h.of_cons

theorem Lawful.delay_nonneg {delay : ℤ} (h : Lawful past) (hmem : .start w delay ∈ past) :
    0 ≤ delay := by
  obtain ⟨later, before, rfl⟩ := append_of_mem hmem
  exact h.of_append.2

/-! ### A watchdog that is left alone -/

section Alone

variable {since before : List (Entry W)} {delay : ℤ}

theorem status_since (hfree : ∀ e ∈ since, ¬ e.Resets w) :
    status w (since ++ .start w delay :: before) =
      if .fire w ∈ since then none else some ⟨delay, ticks since, before.length⟩ := by
  induction since with
  | nil => simp [status, ticks]
  | cons e since ih =>
    have ih := ih fun e he => hfree e (mem_cons_of_mem _ he)
    have he := hfree e mem_cons_self
    rw [cons_append]
    cases e with
    | start w' delay' | cancel w' =>
      rw [status, if_neg (show ¬ w' = w from he), ih]
      simp [ticks]
    | tick =>
      rw [status, ih]
      split
      · rw [if_pos (mem_cons_of_mem _ ‹_›)]
        rfl
      · rw [if_neg (by simpa using ‹_›)]
        simp [ticks, Since.tick]
    | fire w' =>
      rw [status]
      rcases eq_or_ne w' w with rfl | hne
      · simp
      · rw [if_neg hne, ih]
        simp [ticks, hne.symm]

variable {later : List (Entry W)}

/-- **It fires at the tick after its delay.** -/
theorem Lawful.ticks_of_fire {after till : List (Entry W)}
    (h : Lawful (later ++ (after ++ .fire w :: till) ++ .start w delay :: before))
    (hfree : ∀ e ∈ till, ¬ e.Resets w) : .fire w ∉ till ∧ (ticks till : ℤ) = delay + 1 := by
  rw [append_assoc, append_assoc, cons_append] at h
  obtain ⟨-, st, hst, hleft, -⟩ := h.of_append.of_append
  rw [status_since hfree] at hst
  split at hst
  · exact nomatch hst
  · rename_i hfire
    rw [← Option.some.inj hst, Since.left] at hleft
    dsimp only at hleft
    exact ⟨hfire, by omega⟩

/-- **It does not fire twice.** -/
theorem Lawful.count_fire (h : Lawful (later ++ since ++ .start w delay :: before))
    (hfree : ∀ e ∈ since, ¬ e.Resets w) :
    since.count (.fire w) = if .fire w ∈ since then 1 else 0 := by
  induction since generalizing later with
  | nil => rfl
  | cons e since ih =>
    have hrest : Lawful (later ++ [e] ++ since ++ .start w delay :: before) := by simpa using h
    have ih := ih hrest fun e he => hfree e (mem_cons_of_mem _ he)
    rcases eq_or_ne e (.fire w) with rfl | hne
    · have hnow : Lawful (later ++ ([] ++ .fire w :: since) ++ .start w delay :: before) := h
      have hfire := (hnow.ticks_of_fire fun e he => hfree e (mem_cons_of_mem _ he)).1
      rw [count_cons_self, ih, if_neg hfire, if_pos mem_cons_self]
    · rw [count_cons_of_ne hne, ih]
      simp [hne.symm]

/-- **It fires before the tick after the one at which it has to.** -/
theorem Lawful.ticks_le (h : Lawful (later ++ since ++ .start w delay :: before))
    (hfree : ∀ e ∈ since, ¬ e.Resets w) (hfire : .fire w ∉ since) :
    (ticks since : ℤ) ≤ delay + 1 := by
  induction since generalizing later with
  | nil =>
    have hdelay := h.delay_nonneg (mem_append_right _ mem_cons_self)
    rw [ticks, count_nil]
    omega
  | cons e since ih =>
    have hfree' : ∀ e ∈ since, ¬ e.Resets w := fun e he => hfree e (mem_cons_of_mem _ he)
    have hfire' : .fire w ∉ since := fun hc => hfire (mem_cons_of_mem _ hc)
    have hrest : Lawful (later ++ [e] ++ since ++ .start w delay :: before) := by simpa using h
    rcases eq_or_ne e .tick with rfl | hne
    · -- the tick found it with a tick left
      rw [append_assoc] at h
      have hleft := h.of_append.2 w _ ((status_since hfree').trans (if_neg hfire'))
      rw [Since.left] at hleft
      rw [ticks, count_cons_self]
      dsimp only [ticks] at hleft
      omega
    · rw [ticks, count_cons_of_ne hne]
      exact ih hrest hfree' hfire'

end Alone

/-! ### Watchdogs that fire at the same tick -/

theorem status_of_left_eq_zero {mid : List (Entry W)} {st : Since} (hmid : .tick ∉ mid)
    (hvalid : ∀ w delay, .start w delay ∈ mid → 0 ≤ delay)
    (h : status w (mid ++ past) = some st) (hleft : st.left = 0) :
    status w past = some st := by
  induction mid with
  | nil => exact h
  | cons e mid ih =>
    have ih := ih (fun hc => hmid (mem_cons_of_mem _ hc))
      fun w delay hw => hvalid w delay (mem_cons_of_mem _ hw)
    rw [cons_append] at h
    cases e with
    | start w' delay =>
      rw [status] at h
      split at h
      · have hdelay := hvalid w' delay mem_cons_self
        rw [← Option.some.inj h, Since.left] at hleft
        dsimp only at hleft
        omega
      · exact ih h
    | cancel w' | fire w' =>
      rw [status] at h
      split at h
      · exact nomatch h
      · exact ih h
    | tick => exact absurd mem_cons_self hmid

/-- **Watchdogs that fire at the same tick do so in the order in which they were started.** -/
theorem Lawful.start_lt {w' : W} {later mid before : List (Entry W)}
    (h : Lawful (later ++ .fire w' :: (mid ++ .fire w :: before))) (hmid : .tick ∉ mid) :
    ∃ st st', status w before = some st ∧
      status w' (mid ++ .fire w :: before) = some st' ∧ st.start < st'.start := by
  obtain ⟨hrest, st', hst', hleft', -⟩ := h.of_append
  obtain ⟨-, st, hst, -, horder⟩ := hrest.of_append
  have hbefore := status_of_left_eq_zero hmid
    (fun _ _ hm => hrest.delay_nonneg (mem_append_left _ hm)) hst' hleft'
  rw [status] at hbefore
  split at hbefore
  · exact nomatch hbefore
  · rename_i hne
    exact ⟨st, st', hst, hst', horder w' st' (Ne.symm hne) hbefore hleft'⟩

end GreenboneFeeder.Wdog

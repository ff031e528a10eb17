import GreenboneFeeder.Wdog.Specs

/-!
# Tickless time

With `CONFIG_SCHED_TICKLESS`, `wd_timer` counts the ticks that have gone by off the lags of the
watchdogs that expire meanwhile. If the functions that are called leave the watchdogs alone, that is
the same as one call for each tick (`Wdog.Sys.wdTimerTickless_eq_ticks`): both are what time does to
a delta list (`Delta.advance`).
-/

namespace GreenboneFeeder.Wdog.Sys

open Delta List

variable {W F : Type} [DecidableEq W]

/-- The loop of `wd_timer`, with a bound on its rounds. -/
def countOff (handler : Handler W F) : ℕ → Sys W F → ℤ → Option (Sys W F)
  | 0, _, _ => none
  | fuel + 1, s, ticks =>
    match s.wdogs.activelist with
    | [] => some s
    | (w, lag) :: l =>
      if 0 < ticks then do
        let decr := min lag ticks
        let s ← wdExpiration handler (l.length + 2)
          { s with wdogs := { s.wdogs with activelist := (w, int (lag - decr)) :: l } }
        countOff handler fuel s (int (ticks - decr))
      else some s

/-- **`wd_timer`** with `CONFIG_SCHED_TICKLESS`; it returns the lag of the first watchdog, or
`0`. -/
def wdTimerTickless (handler : Handler W F) (s : Sys W F) (ticks : ℤ) : Option (Sys W F × ℤ) := do
  let s ← countOff handler (s.wdogs.activelist.length + 2) s ticks
  return (s, (s.wdogs.activelist.head?.map Prod.snd).getD 0)

/-- The watchdogs of the first list have expired, and those of the second are left. -/
def expired (s : Sys W F) (r : List W × List (W × ℤ)) : Sys W F where
  wdogs := { s.wdogs with
    activelist := r.2
    active := r.1.foldl (Function.update · · false) s.wdogs.active }
  history := r.1.foldl (fun h w => .fire w :: h) s.history

variable {s : Sys W F} {l : List (W × ℤ)} {n : ℤ} {fuel : ℕ}

theorem expired_expired (r r' : List W × List (W × ℤ)) :
    (s.expired r).expired r' = s.expired (r.1 ++ r'.1, r'.2) := by
  simp [expired]

/-- The functions that leave the watchdogs alone. -/
def idle : Handler W F := fun _ _ => []

omit [DecidableEq W] in
theorem carryLag_zero (hl : ∀ a ∈ l, 0 ≤ a.2 ∧ a.2 ≤ intMax) : carryLag 0 l = l := by
  rcases l with - | ⟨⟨next, lag⟩, l⟩
  · rfl
  · obtain ⟨⟨hlag, hmax⟩, -⟩ := forall_mem_cons.mp hl
    rw [carryLag, Int.add_zero, int_eq (by omega) hmax]

theorem wdExpiration_idle (hfuel : l.length < fuel) (hl : ∀ a ∈ l, 0 ≤ a.2 ∧ a.2 ≤ intMax) :
    wdExpiration idle fuel (s.expired ([], l)) = some (s.expired (advance 0 l)) := by
  induction l generalizing s fuel with
  | nil =>
    obtain ⟨fuel, rfl⟩ := Nat.exists_eq_add_one.mpr hfuel
    rfl
  | cons a l ih =>
    obtain ⟨w, lag⟩ := a
    obtain ⟨⟨hlag, -⟩, hl'⟩ := forall_mem_cons.mp hl
    obtain ⟨fuel, rfl⟩ := Nat.exists_eq_add_one.mpr (Nat.zero_lt_of_lt hfuel)
    simp only [wdExpiration, expired, advance]
    split_ifs with hle hlt
    · omega
    · obtain rfl : lag = 0 := by omega
      simp only [fire, carryLag_zero hl', idle, Run.run_nil, Option.bind_some, Int.sub_zero]
      exact ih (s := s.expired ([w], l)) (Nat.lt_of_succ_lt_succ hfuel) hl'
    · simp
    · omega

theorem countOff_idle (hfuel : l.length < fuel) (hl : ∀ a ∈ l, 0 ≤ a.2 ∧ a.2 ≤ intMax)
    (hn : 0 ≤ n) (hmax : n ≤ intMax) (hhead : ∀ a ∈ l.head?, 0 < a.2) :
    countOff idle fuel (s.expired ([], l)) n = some (s.expired (advance n l)) := by
  induction fuel generalizing s l n with
  | zero => exact absurd hfuel (Nat.not_lt_zero _)
  | succ fuel ih =>
    rcases l with - | ⟨⟨w, lag⟩, l⟩
    · rfl
    have hlag : 0 < lag := hhead _ rfl
    have hl' := (forall_mem_cons.mp hl).2
    have hint : ∀ m : ℤ, 0 ≤ m → m ≤ intMax → int m = m := fun m h =>
      int_eq (by omega)
    have hlmax : lag ≤ intMax := (hl _ mem_cons_self).2
    have hround :
        wdExpiration idle (l.length + 2) (s.expired ([], (w, lag - min lag n) :: l)) = _ :=
      wdExpiration_idle (Nat.lt_succ_self _)
        (forall_mem_cons.mpr ⟨by omega, hl'⟩)
    rw [countOff]
    dsimp only [expired] at hround ⊢
    rw [hint _ (by omega) (by omega), hint _ (by omega) (by omega), hround]
    rcases Int.lt_or_le n lag with hlt | hle
    · -- the ticks are used up
      obtain ⟨fuel, rfl⟩ := Nat.exists_eq_add_one.mpr (Nat.lt_of_le_of_lt (Nat.zero_le _)
        (Nat.lt_of_succ_lt_succ hfuel))
      rw [Int.min_eq_right hlt.le, advance, advance]
      simp only [countOff, Int.sub_self, Int.lt_irrefl, if_false, Int.sub_zero]
      split_ifs <;> grind
    · obtain ⟨hlength, hrest, hpos⟩ := advance_left le_rfl hl'
      have hnext := ih (s := s.expired (w :: (advance 0 l).1, (advance 0 l).2))
        (Nat.lt_of_le_of_lt hlength (Nat.lt_of_succ_lt_succ hfuel)) hrest (n := n - lag)
        (by omega) (by omega) hpos
      rw [expired_expired, expired_expired] at hnext
      rw [Int.min_eq_left hle, Int.sub_self, advance, advance, if_neg (Int.not_lt.mpr hle),
        if_pos (Int.lt_of_lt_of_le hlag hle)]
      have hadd := advance_add (m := 0) (n := n - lag) (l := l) (by omega)
      rw [Int.zero_add] at hadd
      rw [hadd]
      simp only [append_nil, cons_append] at hnext
      exact hnext

/-- The list can be counted in: no lag is longer than `INT_MAX`, and nothing is due. -/
def Counts (s : Sys W F) : Prop :=
  (∀ a ∈ s.wdogs.activelist, 0 ≤ a.2 ∧ a.2 ≤ intMax) ∧ ∀ a ∈ s.wdogs.activelist.head?, 0 < a.2

theorem wdTimerTickless_idle (hs : s.Counts) (hn : 0 ≤ n) (hmax : n ≤ intMax) :
    (s.expired (advance n s.wdogs.activelist)).Counts ∧
      wdTimerTickless idle s n = some (s.expired (advance n s.wdogs.activelist),
        ((advance n s.wdogs.activelist).2.head?.map Prod.snd).getD 0) := by
  refine ⟨(advance_left hn hs.1).2, ?_⟩
  have hcount :=
      countOff_idle (s := s) (Nat.lt_add_of_pos_right (k := 2) (by decide)) hs.1 hn hmax hs.2
  rw [wdTimerTickless]
  exact congrArg (Option.bind · _) hcount

theorem run_ticks (hs : s.Counts) (n : ℕ) :
    Run.run (fun s _ => (wdTimerTickless idle s 1).map Prod.fst) s (replicate n ()) =
      some (s.expired (advance n s.wdogs.activelist)) := by
  induction n generalizing s with
  | zero =>
    obtain ⟨⟨l, active, func⟩, history⟩ := s
    rcases l with - | ⟨⟨w, lag⟩, l⟩
    · rfl
    · have hlag : 0 < lag := hs.2 _ rfl
      simp [expired, advance, hlag]
  | succ n ih =>
    obtain ⟨hs', hcall⟩ := wdTimerTickless_idle hs (n := 1) (by decide) (by decide)
    rw [replicate_succ, Run.run_cons, hcall]
    refine (ih hs').trans ?_
    rw [expired_expired, show ((n + 1 : ℕ) : ℤ) = 1 + n by omega,
      advance_add (Int.natCast_nonneg n)]
    rfl

/-- **Tickless time is ticking time**: if the functions that are called leave the watchdogs alone,
`wd_timer` called with `n` ticks has the effect of `n` calls with one tick. It returns the lag of
the first watchdog that is left, or `0`. -/
theorem wdTimerTickless_eq_ticks (s : Sys W F)
    (hl : ∀ a ∈ s.wdogs.activelist, 0 < a.2 ∧ a.2 ≤ intMax) (n : ℕ) (hn : n ≤ intMax) :
    ∃ s', wdTimerTickless idle s n =
        some (s', (s'.wdogs.activelist.head?.map Prod.snd).getD 0) ∧
      Run.run (fun s _ => (wdTimerTickless idle s 1).map Prod.fst) s (replicate n ()) =
        some s' := by
  have hs : s.Counts := ⟨fun a ha => ⟨(hl a ha).1.le, (hl a ha).2⟩,
    fun a ha => (hl a (mem_of_mem_head? ha)).1⟩
  exact ⟨_, (wdTimerTickless_idle hs (Int.natCast_nonneg n) hn).2, run_ticks hs n⟩

/-- Three watchdogs that expire after 2, 3 and 7 ticks. -/
def threeLags : Sys ℕ Unit where
  wdogs := ⟨[(1, 2), (2, 1), (3, 4)], fun _ => true, fun _ => ()⟩

theorem wdTimerTickless_eq_ticks_five :
    ∃ s', wdTimerTickless idle threeLags 5 =
        some (s', (s'.wdogs.activelist.head?.map Prod.snd).getD 0) ∧
      Run.run (fun s _ => (wdTimerTickless idle s 1).map Prod.fst) threeLags
        (replicate 5 ()) = some s' :=
  wdTimerTickless_eq_ticks threeLags (by decide) 5 (by decide)

end GreenboneFeeder.Wdog.Sys

import GreenboneFeeder.Wdog.Model
import Mathlib.Data.List.Nodup

/-!
# What the watchdog functions do

The active list stands for the watchdogs with the ticks that are left for each (`Wdog.Wdogs.dues`),
and each function has one effect on that: it takes a watchdog out, puts one in behind those that do
not expire later, or counts a tick. As long as no lag is negative and the last watchdog expires
within `INT_MAX` ticks, no number overflows.
-/

namespace GreenboneFeeder.Wdog

open List Prod

open Delta

variable {W F : Type}

theorem int_eq {x : ℤ} (h : -intMax ≤ x) (h' : x ≤ intMax) : int x = x := by
  rw [intMax] at h h'
  rw [int, Int.bmod_eq_of_le] <;> omega

/-- The list can be counted in: no lag is negative, and the numbers fit. -/
structure Fits (l : List (W × ℤ)) : Prop where
  nonneg : Nonneg l
  span : span l ≤ intMax

theorem Fits.of_cons {a : W × ℤ} {l : List (W × ℤ)} (h : Fits (a :: l)) : 0 ≤ a.2 ∧ Fits l := by
  obtain ⟨ha, hl⟩ := h.nonneg.of_cons
  have hspan := h.span
  rw [span_cons] at hspan
  exact ⟨ha, hl, by omega⟩

/-- The watchdogs other than `w`. -/
def without [DecidableEq W] (w : W) (l : List (W × ℤ)) : List (W × ℤ) :=
  l.filter fun a => a.1 ≠ w

section Lists

variable {l before behind : List (W × ℤ)} {w : W} {delay : ℤ}

/-! ### Cancelling -/

theorem carryLag_eq {lag : ℤ} (hlag : 0 ≤ lag) (hl : Nonneg l) (hspan : lag + span l ≤ intMax) :
    carryLag lag l = carry lag l := by
  rcases l with - | ⟨⟨next, nextlag⟩, l⟩
  · rfl
  · obtain ⟨hnext, hl⟩ := hl.of_cons
    have hpos := hl.span_nonneg
    rw [span_cons] at hspan
    rw [carryLag, carry, int_eq (by omega) (by omega)]

theorem Nonneg.carry {lag : ℤ} (hlag : 0 ≤ lag) (hl : Nonneg l) : Nonneg (carry lag l) := by
  rcases l with - | ⟨⟨next, nextlag⟩, l⟩
  · exact hl
  · obtain ⟨hnext, hl⟩ := hl.of_cons
    exact hl.cons (Int.add_nonneg hnext hlag)

theorem span_carry_le {lag : ℤ} (hlag : 0 ≤ lag) : span (carry lag l) ≤ lag + span l := by
  rcases l with - | ⟨⟨next, nextlag⟩, l⟩
  · rw [Delta.carry]
    omega
  · rw [Delta.carry, span_cons, span_cons]
    omega

theorem without_eq_self [DecidableEq W] (h : w ∉ l.map fst) : without w l = l := by
  refine filter_eq_self.mpr fun a ha => ?_
  have hne : a.1 ≠ w := by
    rintro rfl
    exact h (mem_map_of_mem ha)
  exact decide_eq_true hne

theorem without_dues_middle [DecidableEq W] {t lag : ℤ}
    (h : ((before ++ (w, lag) :: behind).map fst).Nodup) :
    without w (dues t (before ++ (w, lag) :: behind)) =
      dues t before ++ dues (t + span before + lag) behind := by
  rw [map_append, map_cons, nodup_middle, nodup_cons, mem_append, not_or] at h
  have hbefore := without_eq_self (l := dues t before) (map_fst_dues ▸ h.1.1)
  have hbehind := without_eq_self (l := dues (t + span before + lag) behind)
    (map_fst_dues ▸ h.1.2)
  rw [without] at hbefore hbehind
  rw [dues_append, dues_cons, without, filter_append, filter_cons_of_neg (by simp),
    hbefore, hbehind]

variable [DecidableEq W]

theorem remove_eq (hl : Fits l) (hw : w ∈ l.map fst) :
    ∃ before lag behind, l = before ++ (w, lag) :: behind ∧
      remove w l = some (before ++ carry lag behind) := by
  induction l with
  | nil => exact absurd hw not_mem_nil
  | cons a l ih =>
    obtain ⟨curr, lag⟩ := a
    have hspan := hl.span
    obtain ⟨hlag, hl⟩ := hl.of_cons
    rw [remove]
    rcases eq_or_ne curr w with rfl | hne
    · refine ⟨[], lag, l, rfl, ?_⟩
      rw [if_pos rfl, carryLag_eq hlag hl.nonneg hspan, nil_append]
    · have hw : w ∈ l.map fst := (mem_cons.mp hw).resolve_left hne.symm
      obtain ⟨before, lag', behind, rfl, hrem⟩ := ih hl hw
      refine ⟨(curr, lag) :: before, lag', behind, rfl, ?_⟩
      rw [if_neg hne, hrem]
      rfl

theorem timeLeft_eq {t x : ℤ} (ht : 0 ≤ t) (hl : Nonneg l) (hspan : t + span l ≤ intMax)
    (hnodup : (l.map fst).Nodup) (hw : (w, x) ∈ dues t l) : timeLeft w t l = x := by
  induction l generalizing t with
  | nil => exact absurd hw not_mem_nil
  | cons a l ih =>
    obtain ⟨curr, lag⟩ := a
    obtain ⟨hlag, hl⟩ := hl.of_cons
    have hpos := hl.span_nonneg
    rw [span_cons] at hspan
    obtain ⟨hcurr, hnodup⟩ := nodup_cons.mp hnodup
    rw [timeLeft, int_eq (by omega) (by omega)]
    rcases mem_cons.mp hw with heq | hw
    · cases heq
      exact if_pos rfl
    · have hne : curr ≠ w := by
        rintro rfl
        have hmem := mem_map_of_mem (f := fst) hw
        rw [map_fst_dues] at hmem
        exact hcurr hmem
      rw [if_neg hne]
      exact ih (by omega) hl (by omega) hnodup hw

/-! ### Starting -/

/-- **The place that is looked for**: what is in front does not expire later than the new
watchdog; what stands there does, or is the last. -/
structure Place.Found (p : Place W) (delay : ℤ) (l : List (W × ℤ)) : Prop where
  list : l = p.before ++ p.curr :: p.behind
  now : p.now = span p.before + p.curr.2
  before : span p.before ≤ delay
  curr : delay < p.now ∨ p.behind = [] ∧ p.now ≤ delay

omit [DecidableEq W] in
theorem skipOverdue_eq {curr : W × ℤ} (h : 0 ≤ curr.2) (h' : curr.2 ≤ intMax) :
    skipOverdue [] 0 curr behind = ⟨[], curr, behind, curr.2⟩ := by
  have hnow : int (0 + curr.2) = curr.2 := by
    rw [int_eq] <;> rw [intMax] at * <;> omega
  rcases behind with - | ⟨next, behind⟩
  · rw [skipOverdue, hnow]
  · rw [skipOverdue, hnow, if_neg (Int.not_lt.mpr h)]

omit [DecidableEq W] in
theorem skipSooner_found {curr : W × ℤ} (hl : Fits (before ++ curr :: behind))
    (hbefore : span before ≤ delay) :
    (skipSooner delay before (span before + curr.2) curr behind).Found delay
      (before ++ curr :: behind) := by
  induction behind generalizing before curr with
  | nil =>
    refine ⟨rfl, rfl, hbefore, ?_⟩
    rcases lt_or_ge delay (span before + curr.2) with hlt | hle
    · exact .inl hlt
    · exact .inr ⟨rfl, hle⟩
  | cons next behind ih =>
    rw [skipSooner]
    split
    · have happend : before ++ curr :: next :: behind = (before ++ [curr]) ++ next :: behind := by
        simp
      have hnow : int (span before + curr.2 + next.2) = span (before ++ [curr]) + next.2 := by
        have hspan := hl.span
        obtain ⟨hn, hn'⟩ := hl.nonneg.of_append
        have hb := hn.span_nonneg
        obtain ⟨hcurr, hn'⟩ := hn'.of_cons
        obtain ⟨hnext, hn'⟩ := hn'.of_cons
        have hr := hn'.span_nonneg
        rw [span_append, span_cons, span_cons] at hspan
        rw [int_eq (by omega) (by omega), span_append, span_cons, span_nil]
        omega
      rw [hnow, happend]
      refine ih (happend ▸ hl) ?_
      rw [span_append, span_cons, span_nil]
      omega
    · rename_i hlt
      exact ⟨rfl, rfl, hbefore, .inl (Int.not_le.mp hlt)⟩

omit [DecidableEq W] in
/-- **The watchdog is put behind those that do not expire later.** -/
theorem Place.Found.put {p : Place W} (h : p.Found delay l) (hl : Fits l) (hdelay : delay ≤ intMax)
    (hpos : 0 ≤ delay) :
    dues 0 (p.put w delay) = insertDue (w, delay) (dues 0 l) ∧ Fits (p.put w delay) := by
  obtain ⟨hnonneg, hspan⟩ := hl
  rw [h.list] at hnonneg hspan
  have hb := hnonneg.of_append.1
  obtain ⟨hcurr, hbehind⟩ := hnonneg.of_append.2.of_cons
  have hspanb := hb.span_nonneg
  have hspanr := hbehind.span_nonneg
  have hnow := h.now
  have hle := h.before
  rw [span_append, span_cons] at hspan
  have hfront : ∀ b ∈ dues 0 p.before, b.2 ≤ delay := fun b hb' => by
    have hm := (hb.dues_mem hb').2
    omega
  rw [Place.put]
  split
  · rename_i hlt
    -- in front of `curr`, which gives up its lag
    have hlag : int (delay - int (p.now - p.curr.2)) = delay - span p.before := by
      rw [int_eq (x := p.now - p.curr.2) (by omega) (by omega), int_eq (by omega) (by omega)]
      omega
    have hcurrlag : int (p.curr.2 - (delay - span p.before)) =
        p.curr.2 + -(delay - span p.before) := by
      rw [int_eq (by omega) (by omega)]
      omega
    have hput : p.before ++ (w, delay - span p.before) ::
          (p.curr.1, p.curr.2 + -(delay - span p.before)) :: p.behind =
        p.before ++ (w, delay - span p.before) ::
          carry (-(delay - span p.before)) (p.curr :: p.behind) := rfl
    dsimp only
    rw [hlag, hcurrlag]
    refine ⟨?_, ?_, ?_⟩
    · rw [hput, dues_insert, h.list, dues_append, Int.zero_add, insertDue_append hfront]
      · congr 3
        omega
      · have hcons : dues (span p.before) (p.curr :: p.behind) =
            (p.curr.1, p.now) :: dues p.now p.behind := by
          rw [hnow]
          rfl
        intro b hb'
        rw [hcons] at hb'
        rcases mem_cons.mp hb' with rfl | hb'
        · exact hlt
        · exact Int.lt_of_lt_of_le hlt (hbehind.dues_mem hb').1
    · refine hb.append (Nonneg.cons ?_ (Nonneg.cons ?_ hbehind)) <;> dsimp only <;> omega
    · rw [span_append, span_cons, span_cons]
      omega
  · rename_i hge
    obtain ⟨hnil, hle'⟩ := h.curr.resolve_left hge
    have hlag : int (delay - p.now) = delay - p.now := int_eq (by omega) (by omega)
    rw [hlag, hnil]
    dsimp only
    refine ⟨?_, ?_, ?_⟩
    · rw [h.list, hnil, show p.before ++ [p.curr, (w, delay - p.now)] =
        (p.before ++ [p.curr]) ++ [(w, delay - p.now)] by simp, dues_append,
        ← append_nil (dues 0 (p.before ++ [p.curr])), insertDue_append, append_nil]
      · rw [dues_cons, span_append, span_cons, span_nil]
        congr 3
        omega
      · intro b hb'
        have hm := ((hb.append (Nonneg.cons hcurr (fun _ h => absurd h not_mem_nil))).dues_mem
          hb').2
        rw [span_append, span_cons, span_nil] at hm
        omega
      · exact fun b hb' => absurd hb' not_mem_nil
    · refine hb.append (Nonneg.cons hcurr (Nonneg.cons ?_ fun _ h => absurd h not_mem_nil))
      omega
    · rw [span_append, span_cons, span_cons, span_nil]
      omega

omit [DecidableEq W] in
/-- **Putting a watchdog in.** -/
theorem insert_spec (w : W) (hl : Fits l) (hdelay : delay ≤ intMax) (hpos : 0 ≤ delay) :
    dues 0 (insert w delay l) = insertDue (w, delay) (dues 0 l) ∧ Fits (insert w delay l) := by
  rcases l with - | ⟨head, l⟩
  · refine ⟨?_, Nonneg.cons hpos hl.nonneg, ?_⟩
    · rw [insert, dues_cons, Int.zero_add]
      rfl
    · rw [insert, span_cons, span_nil]
      omega
  · have hspan := hl.span
    obtain ⟨hhead, htail⟩ := hl.of_cons
    have hr := htail.nonneg.span_nonneg
    rw [span_cons] at hspan
    rw [insert, skipOverdue_eq hhead (by omega)]
    have hfound : (skipSooner delay [] (span [] + head.2) head l).Found delay (head :: l) :=
      skipSooner_found hl hpos
    rw [span_nil, Int.zero_add] at hfound
    exact hfound.put hl hdelay hpos

end Lists

/-! ### The functions -/

/-- **The watchdogs are in order**: the list can be counted in, and holds each active
watchdog once. -/
structure Wdogs.Ok (s : Wdogs W F) : Prop where
  fits : Fits s.activelist
  nodup : (s.activelist.map fst).Nodup
  active : ∀ w, s.active w = true ↔ w ∈ s.activelist.map fst

/-- The active watchdogs with the ticks that are left for each. -/
def Wdogs.dues (s : Wdogs W F) : List (W × ℤ) := Delta.dues 0 s.activelist

namespace Wdogs.Ok

variable {s : Wdogs W F} {w : W}

theorem map_fst_dues (s : Wdogs W F) : s.dues.map fst = s.activelist.map fst :=
  Delta.map_fst_dues

theorem active_iff (h : s.Ok) : s.active w = true ↔ ∃ x, (w, x) ∈ s.dues := by
  rw [h.active, ← map_fst_dues, mem_map]
  constructor
  · rintro ⟨⟨w, x⟩, hmem, rfl⟩
    exact ⟨x, hmem⟩
  · rintro ⟨x, hmem⟩
    exact ⟨(w, x), hmem, rfl⟩

variable [DecidableEq W]

/-- **`wd_cancel`** takes the watchdog out. -/
theorem wdCancel (h : s.Ok) (w : W) :
    ∃ s' ret, Wdog.wdCancel s w = some (s', ret) ∧ s'.Ok ∧ s'.dues = without w s.dues ∧
      w ∉ s'.activelist.map fst := by
  rw [Wdog.wdCancel]
  split
  · rename_i hactive
    obtain ⟨before, lag, behind, hl, hrem⟩ := remove_eq h.fits ((h.active w).mp hactive)
    obtain ⟨hnonneg, hspan⟩ := h.fits
    have hnodup := h.nodup
    have hdues : Delta.dues 0 (before ++ carry lag behind) = without w s.dues := by
      rw [Wdogs.dues, hl, without_dues_middle (hl ▸ hnodup), dues_remove]
    rw [hl] at hnonneg hspan hnodup
    obtain ⟨hlag, hbehind⟩ := hnonneg.of_append.2.of_cons
    have hcarry := span_carry_le (l := behind) hlag
    rw [span_append, span_cons] at hspan
    rw [map_append, map_cons, nodup_middle, nodup_cons] at hnodup
    have hkeys : (before ++ carry lag behind).map fst =
        before.map fst ++ behind.map fst := by
      rw [map_append, map_fst_carry]
    refine ⟨{ s with
        activelist := before ++ carry lag behind, active := Function.update s.active w false },
      ok, by rw [hrem]; rfl, ⟨⟨?_, ?_⟩, ?_, fun w' => ?_⟩, hdues, ?_⟩
    · exact hnonneg.of_append.1.append (Wdog.Nonneg.carry hlag hbehind)
    · rw [span_append]
      dsimp only at hspan hcarry
      omega
    · exact hkeys ▸ hnodup.2
    · dsimp only
      rw [hkeys, Function.update_apply]
      split
      · rename_i heq
        rw [heq]
        exact iff_of_false Bool.false_ne_true hnodup.1
      · rename_i hne
        rw [h.active, hl, map_append, map_cons, mem_append, mem_append, mem_cons]
        exact or_congr_right (or_iff_right hne)
    · exact hkeys ▸ hnodup.1
  · rename_i hactive
    have hnot : w ∉ s.activelist.map fst := fun hc => hactive ((h.active w).mpr hc)
    refine ⟨s, error, rfl, h, (without_eq_self ?_).symm, hnot⟩
    rw [map_fst_dues]
    exact hnot

theorem adjust_eq {delay : ℤ} (h : 0 ≤ delay) (h' : delay < intMax) : adjust delay = delay + 1 := by
  rw [adjust]
  split
  · omega
  · have hint : int (delay + 1) = delay + 1 := int_eq (by omega) (by omega)
    rw [hint]
    rw [if_neg (by omega)]

/-- **`wd_start`** puts the watchdog in with one tick more than its delay, behind those that
do not expire later. -/
theorem wdStart (h : s.Ok) (w : W) {delay : ℤ} (func : F) (hd : 0 ≤ delay) (hd' : delay < intMax) :
    ∃ s' ret, Wdog.wdStart s w delay func = some (s', ret) ∧ s'.Ok ∧
      s'.dues = insertDue (w, delay + 1) (without w s.dues) := by
  obtain ⟨mid, ret, hcancel, hmid, hdues, hw⟩ := h.wdCancel w
  have hmax : delay + 1 ≤ intMax := by omega
  obtain ⟨hins, hfits⟩ := insert_spec w hmid.fits hmax (by omega)
  have hkeys : ((insert w (delay + 1) mid.activelist).map fst).Perm
      (w :: mid.activelist.map fst) := by
    have hperm := (insertDue_perm (w, delay + 1) mid.dues).map fst
    rw [Wdogs.dues, ← hins, Delta.map_fst_dues, map_cons, Delta.map_fst_dues] at hperm
    exact hperm
  refine ⟨{
      activelist := insert w (delay + 1) mid.activelist
      active := Function.update mid.active w true
      func := Function.update mid.func w func },
    ok, ?_, ⟨hfits, hkeys.nodup_iff.mpr (nodup_cons.mpr ⟨hw, hmid.nodup⟩), fun w' => ?_⟩, ?_⟩
  · rw [Wdog.wdStart, if_neg (by omega), hcancel, ← adjust_eq hd hd']
    rfl
  · dsimp only
    rw [hkeys.mem_iff, mem_cons, Function.update_apply]
    split
    · rename_i heq
      exact iff_of_true rfl (.inl heq)
    · rename_i hne
      rw [hmid.active]
      exact (or_iff_right hne).symm
  · rw [← hdues]
    exact hins

/-- **`wd_gettime`** gives the ticks that are left. -/
theorem wdGettime_of_mem (h : s.Ok) {x : ℤ} (hx : (w, x) ∈ s.dues) : wdGettime s w = x := by
  rw [wdGettime, if_pos (h.active_iff.mpr ⟨x, hx⟩)]
  exact timeLeft_eq (Int.le_refl 0) h.fits.nonneg (by rw [Int.zero_add]; exact h.fits.span)
    h.nodup hx

theorem wdGettime_of_not_mem (h : s.Ok) (hw : ∀ x, (w, x) ∉ s.dues) : wdGettime s w = 0 := by
  rw [wdGettime, if_neg fun hc => ?_]
  obtain ⟨x, hx⟩ := h.active_iff.mp hc
  exact hw x hx

end Wdogs.Ok

end GreenboneFeeder.Wdog

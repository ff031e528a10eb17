import GreenboneFeeder.Wdog.Specs
import GreenboneFeeder.Wdog.History

/-!
# Watchdogs fire at the right tick

The active list agrees with the history at all times (`Wdog.Sys.Tracks`): it holds the active
watchdogs with the ticks that are left for each, in the order in which they were started if these
are the same. So the one at its head may fire exactly when it has to. As what is started takes at
least a tick, a tick comes to an end however many watchdogs are started in its course.
-/

namespace GreenboneFeeder.Wdog

open List

open Delta

variable {W F : Type} [DecidableEq W] {l : List (W × ℤ)}

namespace Sys

/-- **The active list agrees with the history.** -/
structure Tracks (s : Sys W F) : Prop where
  ok : s.wdogs.Ok
  lawful : Lawful s.history
  dues : ∀ w x, (w, x) ∈ s.wdogs.dues ↔ ∃ st, status w s.history = some st ∧ st.left = x
  order : s.wdogs.dues.Pairwise fun a b => ∀ st st', status a.1 s.history = some st →
    status b.1 s.history = some st' → a.2 = b.2 → st.start < st'.start

/-- No watchdog has to fire. -/
def AtRest (s : Sys W F) : Prop := ∀ a ∈ s.wdogs.dues, 0 < a.2

/-- The watchdogs that have to fire. -/
def pending (s : Sys W F) : List (W × ℤ) := s.wdogs.dues.filter fun a => a.2 ≤ 0

variable {s : Sys W F} {w : W}

theorem mem_without {a : W × ℤ} : a ∈ without w l ↔ a ∈ l ∧ a.1 ≠ w := by
  rw [without, mem_filter, decide_eq_true_eq]

theorem Tracks.without_order (h : s.Tracks) {history : List (Entry W)}
    (hstatus : ∀ w', w' ≠ w → status w' history = status w' s.history) :
    (without w s.wdogs.dues).Pairwise fun a b => ∀ st st', status a.1 history = some st →
      status b.1 history = some st' → a.2 = b.2 → st.start < st'.start := by
  refine (h.order.filter _).imp_of_mem fun {a b} ha hb hab => ?_
  rw [hstatus a.1 (mem_without.mp ha).2, hstatus b.1 (mem_without.mp hb).2]
  exact hab

/-- A command that is carried out keeps the list in agreement, and makes no watchdog due. -/
structure Exec (s s' : Sys W F) : Prop where
  tracks : s'.Tracks
  dues : ∀ a ∈ s'.wdogs.dues, a ∈ s.wdogs.dues ∨ 0 < a.2
  pending : s'.pending.length ≤ s.pending.length

/-- **`wd_start`** in agreement with the history. -/
theorem Tracks.start (h : s.Tracks) (w : W) {delay : ℤ} (func : F) (hd : 0 ≤ delay)
    (hd' : delay < intMax) :
    ∃ s', s.exec (.start w delay func) = some s' ∧
      s'.history = .start w delay :: s.history ∧ s.Exec s' := by
  obtain ⟨wdogs, ret, hstart, hok, hdues⟩ := h.ok.wdStart w func hd hd'
  have hself : status w (.start w delay :: s.history) = some ⟨delay, 0, s.history.length⟩ := by
    rw [status, if_pos rfl]
  have hother : ∀ w', w' ≠ w → status w' (.start w delay :: s.history) = status w' s.history :=
    fun w' hne => by rw [status, if_neg hne.symm]
  refine ⟨⟨wdogs, .start w delay :: s.history⟩, ?_, rfl, ⟨hok, ⟨h.lawful, hd⟩, ?_, ?_⟩, ?_, ?_⟩
  · rw [exec, hstart]
    rfl
  · intro w' x
    rw [hdues, mem_insertDue, mem_without, h.dues]
    rcases eq_or_ne w' w with rfl | hne
    · rw [hself]
      simp [Since.left, eq_comm]
    · rw [hother w' hne]
      simp [hne]
  · rw [hdues]
    refine pairwise_insertDue ?_ (h.without_order hother) ?_ ?_
    · exact h.ok.fits.nonneg.sorted_dues.filter _
    · rintro b hb - st st' hst hst' -
      rw [hother b.1 (mem_without.mp hb).2] at hst
      rw [hself] at hst'
      rw [← Option.some.inj hst']
      exact start_lt_length hst
    · rintro b - hlt st st' - - heq
      exact absurd heq (Int.ne_of_lt hlt)
  · intro a ha
    rw [hdues, mem_insertDue, mem_without] at ha
    rcases ha with rfl | ⟨ha, -⟩
    · exact .inr (by omega)
    · exact .inl ha
  · have hperm := (insertDue_perm (w, delay + 1) (without w s.wdogs.dues)).filter
      fun a => decide (a.2 ≤ 0)
    rw [pending, hdues, hperm.length_eq, filter_cons_of_neg (by simp; omega)]
    exact (filter_sublist.filter _).length_le

/-- **`wd_cancel`** in agreement with the history. -/
theorem Tracks.cancel (h : s.Tracks) (w : W) :
    ∃ s', s.exec (.cancel w) = some s' ∧ s'.history = .cancel w :: s.history ∧ s.Exec s' := by
  obtain ⟨wdogs, ret, hcancel, hok, hdues, -⟩ := h.ok.wdCancel w
  have hself : status w (.cancel w :: s.history) = none := by
    rw [status, if_pos rfl]
  have hother : ∀ w', w' ≠ w → status w' (.cancel w :: s.history) = status w' s.history :=
    fun w' hne => by rw [status, if_neg hne.symm]
  refine ⟨⟨wdogs, .cancel w :: s.history⟩, ?_, rfl, ⟨hok, h.lawful, ?_, ?_⟩, ?_, ?_⟩
  · rw [exec, hcancel]
    rfl
  · intro w' x
    rw [hdues, mem_without, h.dues]
    rcases eq_or_ne w' w with rfl | hne
    · rw [hself]
      simp
    · rw [hother w' hne]
      simp [hne]
  · rw [hdues]
    exact h.without_order hother
  · intro a ha
    rw [hdues, mem_without] at ha
    exact .inl ha.1
  · rw [pending, hdues]
    exact (filter_sublist.filter _).length_le

theorem Tracks.exec (h : s.Tracks) {c : Cmd W F} (hc : c.Valid) :
    ∃ s', s.exec c = some s' ∧ s.Exec s' := by
  cases c with
  | start w delay func =>
    obtain ⟨s', hs, -, he⟩ := h.start w func hc.1 hc.2
    exact ⟨s', hs, he⟩
  | cancel w =>
    obtain ⟨s', hs, -, he⟩ := h.cancel w
    exact ⟨s', hs, he⟩

theorem Tracks.execAll (h : s.Tracks) {cs : List (Cmd W F)} (hcs : ∀ c ∈ cs, c.Valid) :
    ∃ s', Run.run Sys.exec s cs = some s' ∧ s'.Tracks ∧
      s'.pending.length ≤ s.pending.length := by
  refine Run.progress (fun s' c hs hc => ?_) cs ⟨h, Nat.le_refl _⟩
    (Run.allSteps_of_forall_mem cs s fun c hc _ => hcs c hc)
  obtain ⟨s'', hexec, he⟩ := hs.1.exec hc
  exact ⟨s'', hexec, he.tracks, Nat.le_trans he.pending hs.2⟩

/-! ### A tick -/

section Tick

variable {handler : Handler W F} (hhandler : ∀ f s, ∀ c ∈ handler f s, c.Valid)

include hhandler in
/-- **The watchdog at the head may fire when it is due.** -/
theorem Tracks.fire (h : s.Tracks) {lag : ℤ}
    (hl : s.wdogs.activelist = (w, lag) :: l) (hlag : lag ≤ 0) :
    ∃ s', s.fire handler w lag l = some s' ∧ s'.Tracks ∧
      s'.pending.length < s.pending.length := by
  obtain ⟨hfits, hnodup, hactive⟩ := h.ok
  rw [hl] at hfits hnodup
  obtain ⟨hnonneg, htail⟩ := hfits.of_cons
  obtain rfl : lag = 0 := by
    omega
  obtain ⟨hw, hnodup⟩ := nodup_cons.mp hnodup
  have hspan := htail.span
  have hcarry : carryLag 0 l = l := by
    rw [carryLag_eq (Int.le_refl 0) htail.nonneg (by omega)]
    rcases l with - | ⟨⟨next, nextlag⟩, l⟩
    · rfl
    · rw [carry, Int.add_zero]
  have hdues : s.wdogs.dues = (w, 0) :: Delta.dues 0 l := by
    rw [Wdogs.dues, hl]
    rfl
  have hwdues : ∀ a ∈ Delta.dues 0 l, a.1 ≠ w := by
    rintro a ha rfl
    have hmem := mem_map_of_mem (f := Prod.fst) ha
    rw [map_fst_dues] at hmem
    exact hw hmem
  have horder := h.order
  rw [hdues, pairwise_cons] at horder
  obtain ⟨st, hst, hleft⟩ := (h.dues w 0).mp (by rw [hdues]; exact mem_cons_self)
  have hself : status w (.fire w :: s.history) = none := by
    rw [status, if_pos rfl]
  have hother : ∀ w', w' ≠ w → status w' (.fire w :: s.history) = status w' s.history :=
    fun w' hne => by rw [status, if_neg hne.symm]
  -- the state in which the function is called
  have htracks : Tracks {
      wdogs := { s.wdogs with
        activelist := carryLag 0 l
        active := Function.update s.wdogs.active w false }
      history := .fire w :: s.history } := by
    rw [hcarry]
    refine ⟨⟨htail, hnodup, fun w' => ?_⟩, ⟨h.lawful, st, hst, hleft, ?_⟩, ?_, ?_⟩
    · dsimp only
      rw [Function.update_apply]
      split
      · rename_i heq
        rw [heq]
        exact iff_of_false Bool.false_ne_true hw
      · rename_i hne
        rw [hactive, hl, map_cons, mem_cons]
        exact or_iff_right hne
    · intro w' st' hne hst' hleft'
      have hmem := (h.dues w' 0).mpr ⟨st', hst', hleft'⟩
      rw [hdues] at hmem
      rcases mem_cons.mp hmem with heq | hmem
      · exact absurd (congrArg Prod.fst heq) hne
      · exact horder.1 _ hmem st st' hst hst' rfl
    · intro w' x
      rcases eq_or_ne w' w with rfl | hne
      · rw [hself]
        exact iff_of_false (fun hc => hwdues _ hc rfl) (by simp)
      · rw [hother w' hne, ← h.dues, hdues, mem_cons]
        exact (or_iff_right fun hc => hne (congrArg Prod.fst hc)).symm
    · refine horder.2.imp_of_mem fun {a b} ha hb hab => ?_
      rw [hother a.1 (hwdues a ha), hother b.1 (hwdues b hb)]
      exact hab
  obtain ⟨s', hrun, htracks', hle⟩ := htracks.execAll (hhandler _ _)
  refine ⟨s', hrun, htracks', Nat.lt_of_le_of_lt hle ?_⟩
  rw [pending, pending, hdues, hcarry]
  exact Nat.lt_succ_self _

include hhandler in
/-- **`wd_expiration` comes to an end**, and leaves nothing that has to fire. -/
theorem Tracks.wdExpiration :
    ∀ (fuel : ℕ) {s : Sys W F}, s.Tracks → s.pending.length < fuel →
      ∃ s', Sys.wdExpiration handler fuel s = some s' ∧ s'.Tracks ∧ s'.AtRest
  | 0, _, _, hfuel => absurd hfuel (Nat.not_lt_zero _)
  | fuel + 1, s, h, hfuel => by
    rw [Sys.wdExpiration]
    split
    · rename_i hl
      refine ⟨s, rfl, h, ?_⟩
      rw [AtRest, Wdogs.dues, hl]
      exact fun a ha => absurd ha not_mem_nil
    · rename_i w lag l hl
      split
      · rename_i hlag
        obtain ⟨mid, hfire, hmid, hlt⟩ := h.fire hhandler hl hlag
        rw [hfire]
        exact Tracks.wdExpiration fuel hmid (by omega)
      · refine ⟨s, rfl, h, ?_⟩
        have hnonneg := h.ok.fits.nonneg
        rw [hl] at hnonneg
        rw [AtRest, Wdogs.dues, hl]
        rintro a ha
        rcases mem_cons.mp ha with rfl | ha
        · omega
        · have hm := (hnonneg.of_cons.2.dues_mem ha).1
          omega

/-- **A tick is counted.** -/
theorem Tracks.count (h : s.Tracks) (hrest : s.AtRest) {lag : ℤ}
    (hl : s.wdogs.activelist = (w, lag) :: l) :
    Tracks {
      wdogs := { s.wdogs with activelist := (w, int (lag - 1)) :: l }
      history := .tick :: s.history } := by
  obtain ⟨hfits, hnodup, hactive⟩ := h.ok
  rw [hl] at hfits hnodup hactive
  have hspan := hfits.span
  rw [span_cons] at hspan
  obtain ⟨hnonneg, htail⟩ := hfits.of_cons
  have hspanl := htail.nonneg.span_nonneg
  have hlag : 0 < lag := by
    have hm := hrest (w, 0 + lag) (by rw [Wdogs.dues, hl]; exact mem_cons_self)
    omega
  have hint : int (lag - 1) = lag + -1 := int_eq (by omega) (by omega)
  have hdues : Delta.dues 0 ((w, lag + -1) :: l) = s.wdogs.dues.map fun a => (a.1, a.2 + -1) := by
    rw [Wdogs.dues, hl, ← dues_add, ← dues_carry]
    rfl
  rw [hint]
  refine ⟨⟨⟨htail.nonneg.cons ?_, ?_⟩, hnodup, hactive⟩, ⟨h.lawful, ?_⟩, ?_, ?_⟩
  · omega
  · rw [span_cons]
    omega
  · intro w' st hst
    exact hrest (w', st.left) ((h.dues w' st.left).mpr ⟨st, hst, rfl⟩)
  · intro w' x
    show (w', x) ∈ Delta.dues 0 ((w, lag + -1) :: l) ↔ _
    rw [hdues, mem_map]
    constructor
    · rintro ⟨⟨w'', y⟩, hmem, heq⟩
      cases heq
      obtain ⟨st, hst, hleft⟩ := (h.dues w'' y).mp hmem
      refine ⟨st.tick, by rw [status, hst]; rfl, ?_⟩
      rw [Since.left] at hleft ⊢
      dsimp only [Since.tick]
      omega
    · rintro ⟨st, hst, hleft⟩
      obtain ⟨st', hst', rfl⟩ := Option.map_eq_some_iff.mp hst
      refine ⟨(w', st'.left), (h.dues w' st'.left).mpr ⟨st', hst', rfl⟩, ?_⟩
      dsimp only [Since.tick, Since.left] at hleft ⊢
      congr 1
      omega
  · show (Delta.dues 0 ((w, lag + -1) :: l)).Pairwise _
    rw [hdues, pairwise_map]
    refine h.order.imp fun {a b} hab st st' hst hst' heq => ?_
    obtain ⟨st₀, hst₀, rfl⟩ := Option.map_eq_some_iff.mp hst
    obtain ⟨st₀', hst₀', rfl⟩ := Option.map_eq_some_iff.mp hst'
    exact hab st₀ st₀' hst₀ hst₀' (by omega)

include hhandler in
/-- **A tick** fires all watchdogs that have to. -/
theorem Tracks.tick (h : s.Tracks) (hrest : s.AtRest) :
    ∃ s', s.step handler .tick = some s' ∧ s'.Tracks ∧ s'.AtRest := by
  rw [step, wdTimer]
  split
  · rename_i hl
    -- no watchdog is active
    have hnone : ∀ w, status w s.history = none := by
      intro w
      rcases hst : status w s.history with - | st
      · rfl
      · have hmem := (h.dues w st.left).mpr ⟨st, hst, rfl⟩
        rw [Wdogs.dues, hl] at hmem
        exact absurd hmem not_mem_nil
    refine ⟨_, rfl, ⟨h.ok, ⟨h.lawful, fun w st hst => ?_⟩, fun w x => ?_, ?_⟩, hrest⟩
    · rw [hnone w] at hst
      cases hst
    · rw [h.dues, status, hnone w]
      simp
    · refine h.order.imp fun {a b} _ st st' hst _ _ => ?_
      rw [status, hnone a.1] at hst
      cases hst
  · rename_i w lag l hl
    refine (h.count hrest hl).wdExpiration hhandler _ ?_
    calc _ ≤ (Delta.dues 0 ((w, int (lag - 1)) :: l)).length := length_filter_le _ _
      _ = l.length + 1 := by
        rw [← length_map, map_fst_dues, length_map, length_cons]
      _ < l.length + 2 := Nat.lt_succ_self _

end Tick

/-! ### Runs -/

section Runs

variable {handler : Handler W F}

theorem tracks_init (func : W → F) : (init func).Tracks ∧ (init func).AtRest := by
  refine ⟨⟨⟨⟨fun _ ha => absurd ha not_mem_nil, (by decide : (0 : ℤ) ≤ intMax)⟩, nodup_nil, fun w =>
    ?_⟩,
    trivial, fun w x => ?_, Pairwise.nil⟩, fun _ ha => absurd ha not_mem_nil⟩
  · exact iff_of_false Bool.false_ne_true not_mem_nil
  · exact iff_of_false not_mem_nil (by rintro ⟨st, hst, -⟩; exact nomatch hst)

/-- **Every event can be taken**, and keeps the list in agreement with the history. -/
theorem Tracks.step (hhandler : ∀ f s, ∀ c ∈ handler f s, c.Valid) (h : s.Tracks ∧ s.AtRest)
    {e : Event W F} (he : e.Valid) :
    ∃ s', s.step handler e = some s' ∧ s'.Tracks ∧ s'.AtRest := by
  cases e with
  | cmd c =>
    obtain ⟨s', hs, hexec⟩ := h.1.exec he
    exact ⟨s', hs, hexec.tracks, fun a ha => (hexec.dues a ha).elim (h.2 a) id⟩
  | tick => exact h.1.tick hhandler h.2

theorem Tracks.wdGettime_eq (h : s.Tracks) (w : W) :
    wdGettime s.wdogs w = (status w s.history).elim 0 Since.left := by
  rcases hst : status w s.history with - | st
  · refine h.ok.wdGettime_of_not_mem fun x hx => ?_
    obtain ⟨st, hst', -⟩ := (h.dues w x).mp hx
    rw [hst] at hst'
    exact nomatch hst'
  · exact h.ok.wdGettime_of_mem ((h.dues w st.left).mpr ⟨st, hst, rfl⟩)

/-- **Watchdogs fire at the right tick.** Every sequence of commands and ticks can be carried out. A
watchdog that is started with the delay `d` and is neither started nor cancelled again fires at the
tick `d + 1`, at no other, and not twice; those of the same tick fire in the order in which they
were started. `wd_gettime` returns the ticks that are left, and starting or cancelling a watchdog
leaves those of the others alone. -/
theorem watchdogs_fire (handler : Handler W F) (hhandler : ∀ f s, ∀ c ∈ handler f s, c.Valid)
    (func : W → F) (es : List (Event W F)) (hes : ∀ e ∈ es, e.Valid) :
    ∃ s, Run.run (Sys.step handler) (init func) es = some s ∧
      (∀ w d later since before, s.history = later ++ since ++ .start w d :: before →
        (∀ e ∈ since, ¬ e.Resets w) →
        (∀ after till, since = after ++ .fire w :: till → (ticks till : ℤ) = d + 1) ∧
        since.count (.fire w) ≤ 1 ∧
        (d + 1 < ticks since ∨ d + 1 = ticks since ∧ later = [] →
          since.count (.fire w) = 1)) ∧
      (∀ w w' later mid before,
        s.history = later ++ .fire w' :: (mid ++ .fire w :: before) → .tick ∉ mid →
        ∃ st st', status w before = some st ∧
          status w' (mid ++ .fire w :: before) = some st' ∧ st.start < st'.start) ∧
      (∀ w, wdGettime s.wdogs w = (status w s.history).elim 0 Since.left) ∧
      ∀ c : Cmd W F, c.Valid → ∃ s', s.step handler (.cmd c) = some s' ∧
        ∀ w, ¬ c.Concerns w → wdGettime s'.wdogs w = wdGettime s.wdogs w := by
  obtain ⟨s, hrun, h, hrest⟩ := Run.progress
    (fun s e (hs : s.Tracks ∧ s.AtRest) (he : e.Valid) => Tracks.step hhandler hs he) es
    (tracks_init func) (Run.allSteps_of_forall_mem es _ fun e he _ => hes e he)
  refine ⟨s, hrun, ?_, ?_, h.wdGettime_eq, ?_⟩
  · intro w d later since before hist hfree
    have hlaw := h.lawful
    rw [hist] at hlaw
    refine ⟨?_, ?_, ?_⟩
    · rintro after till rfl
      exact (hlaw.ticks_of_fire fun e he =>
        hfree e (mem_append_right _ (mem_cons_of_mem _ he))).2
    · rw [hlaw.count_fire hfree]
      split <;> omega
    · intro hlate
      rw [hlaw.count_fire hfree, if_pos]
      by_contra hfire
      have hle := hlaw.ticks_le hfree hfire
      rcases hlate with hlate | ⟨hlate, rfl⟩
      · omega
      · -- at rest, a watchdog that has not fired has a tick left
        have hst : status w s.history = some ⟨d, ticks since, before.length⟩ := by
          rw [hist, nil_append, status_since hfree, if_neg hfire]
        have hleft := hrest _ ((h.dues w _).mpr ⟨_, hst, rfl⟩)
        rw [Since.left] at hleft
        dsimp only at hleft
        omega
  · intro w w' later mid before hist hmid
    have hlaw := h.lawful
    rw [hist] at hlaw
    exact hlaw.start_lt hmid
  · intro c hc
    cases c with
    | start w' delay func' =>
      obtain ⟨s', hs, hhist, hexec⟩ := h.start w' func' hc.1 hc.2
      refine ⟨s', hs, fun w hw => ?_⟩
      rw [hexec.tracks.wdGettime_eq, h.wdGettime_eq, hhist, status, if_neg (show ¬ w' = w from hw)]
    | cancel w' =>
      obtain ⟨s', hs, hhist, hexec⟩ := h.cancel w'
      refine ⟨s', hs, fun w hw => ?_⟩
      rw [hexec.tracks.wdGettime_eq, h.wdGettime_eq, hhist, status, if_neg (show ¬ w' = w from hw)]

end Runs

/-- The watchdogs are numbered; one of them starts the next when it fires. -/
def chain : Handler ℕ Bool := fun again s =>
  if again then [.start s.history.length 0 false] else []

/-- Two watchdogs for the third tick, and one that is cancelled. -/
def threeTicks : List (Event ℕ Bool) :=
  [.cmd (.start 0 2 true), .cmd (.start 1 5 false), .cmd (.start 2 2 false), .cmd (.cancel 1),
    .tick, .tick, .tick, .tick]

theorem watchdogs_fire_chain :
    ∃ s, Run.run (Sys.step chain) (init fun _ => false) threeTicks = some s ∧
      s.history = [.fire 8, .tick, .fire 2, .start 8 0, .fire 0, .tick, .tick, .tick,
        .cancel 1, .start 2 2, .start 1 5, .start 0 2] ∧
      ∀ w, wdGettime s.wdogs w = (status w s.history).elim 0 Since.left := by
  obtain ⟨s, hrun, -, -, htime, -⟩ := watchdogs_fire chain (fun f s c hc => by
      rw [chain] at hc
      split at hc
      · rw [mem_singleton.mp hc]
        exact ⟨Int.le_refl 0, by decide⟩
      · exact absurd hc not_mem_nil)
    (fun _ => false) threeTicks (by simp [threeTicks, Event.Valid, Cmd.Valid, intMax])
  refine ⟨s, hrun, ?_, htime⟩
  have hhist : (Run.run (Sys.step chain) (init fun _ => false) threeTicks).map Sys.history =
      some [.fire 8, .tick, .fire 2, .start 8 0, .fire 0, .tick, .tick, .tick,
        .cancel 1, .start 2 2, .start 1 5, .start 0 2] := by decide
  rw [hrun] at hhist
  exact Option.some.inj hhist

end Sys

end GreenboneFeeder.Wdog

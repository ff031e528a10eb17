import GreenboneFeeder.Signal.Model

/-!
# Blocked signals are not lost

Every signal that was dispatched while it was masked is somewhere, and only once (`Signal.Sound`):
it is pending, or was handed to a `sigtimedwait` that returns it, or was dispatched when it was
unmasked, or its information was replaced by that of another dispatch.

The dispatches are numbered, so that each is told from the others. A step of the system puts one
more dispatch into a place, or moves one from a place to another (`Signal.Accounted.put`,
`Signal.Accounted.move`). What a sender and the task are in the middle of is kept with them
(`Signal.SenderReady`, `Signal.TaskReady`).
-/

namespace GreenboneFeeder.Signal

open List Sys

variable {α : Type} {signo : ℕ} {set : BitVec 32}

/-! ### Sets and lists of signals -/

theorem sigismember_sigdelset {n : ℕ}
    (h : sigismember (sigdelset set signo) n = true) : sigismember set n = true := by
  unfold sigismember sigdelset at *
  rw [BitVec.getLsbD_and, Bool.and_eq_true] at h
  exact h.1

theorem sigismember_of_and {set' : BitVec 32} {n : ℕ}
    (h : sigismember (set &&& set') n = true) : sigismember set n = true := by
  unfold sigismember at *
  rw [BitVec.getLsbD_and, Bool.and_eq_true] at h
  exact h.1

theorem sigismember_not {n : ℕ} (h : sigismember (~~~set) n = true) :
    sigismember set n = false := by
  unfold sigismember at *
  rw [BitVec.getLsbD_not, Bool.and_eq_true, Bool.not_eq_true'] at h
  exact h.2

theorem sigismember_of_sigLowest (h : sigLowest set = some signo) :
    sigismember set signo = true := by
  have := find?_some h
  exact this

theorem sigRemovependingsignal_spec {sig : Sig α} :
    ∀ {l rest : List (Sig α)}, sigRemovependingsignal signo l = some (sig, rest) →
      sig.signo = signo ∧ l.Perm (sig :: rest) ∧ rest.Sublist l
  | [], rest, h => by cases h
  | x :: l, rest, h => by
    rw [sigRemovependingsignal] at h
    split at h
    · rename_i hx
      cases h
      exact ⟨hx, .refl _, sublist_cons_self _ _⟩
    · obtain ⟨⟨y, l'⟩, hr, heq⟩ := Option.map_eq_some_iff.mp h
      cases heq
      obtain ⟨hsigno, hperm, hsub⟩ := sigRemovependingsignal_spec hr
      exact ⟨hsigno, (hperm.cons x).trans (List.Perm.swap ..), hsub.cons_cons x⟩

theorem perm_set {β : Type} {l : List β} {i : ℕ} {old x : β} (h : l[i]? = some old) :
    (old :: l.set i x).Perm (x :: l) := by
  induction l generalizing i with
  | nil => cases h
  | cons y l ih =>
    cases i with
    | zero =>
      cases h
      exact List.Perm.swap ..
    | succ i =>
      have hperm := ih h
      exact (List.Perm.swap ..).trans ((hperm.cons y).trans (List.Perm.swap ..))

/-! ### What the calls rely on -/

/-- A signal that was not dispatched before. -/
structure Fresh (s : Sys α) (sig : Sig α) : Prop where
  bound : sig.no < s.count
  new : ∀ x ∈ s.log.masked, x.no ≠ sig.no

/-- **What a dispatch relies on**: its signal is a new one, and when it is about to copy, there
is a pending signal of the same number. -/
structure SenderReady (s : Sys α) : Prop where
  sender : ∀ sig stage, s.sender = some (sig, stage) →
    Fresh s sig ∧ (sig.blocked = true ↔ stage ≠ .unmasked)
  copying : ∀ sig i, s.sender = some (sig, .copy i) →
    ∃ old, s.sigpendingq[i]? = some old ∧ old.signo = sig.signo

/-- **What the task relies on**: a masked signal that it is woken with, or finds pending, is one
that it waits for, and what it takes from the pending ones to dispatch it is not masked. -/
structure TaskReady (s : Sys α) : Prop where
  waiting : ∀ set, s.state = .waitSig set → s.sigwaitmask = set
  woken : ∀ set, s.state = .woken set → ∀ sig, s.sigunbinfo = some sig → sig.blocked = true →
    sigismember set sig.signo = true
  unmasking : ∀ set, s.state = .unmasking set →
    ∀ n, sigismember set n = true → sigismember s.sigprocmask n = false
  dispatching : ∀ set sig, s.state = .dispatching set sig →
    sigismember s.sigprocmask sig.signo = false ∧
      ∀ n, sigismember set n = true → sigismember s.sigprocmask n = false
  returning : ∀ set sig, s.state = .returning set sig → sigismember set sig.signo = true
  returned : ∀ sig set, (sig, set) ∈ s.log.returned → sigismember set sig.signo = true

variable {s s' : Sys α} {sig : Sig α} {i : ℕ} {old : Sig α} {set : BitVec 32} {e : Event α}
  {value : α} {x : Sig α}

namespace Sys

theorem wake_of_waitSig (h : s.state = .waitSig set) :
    s.wake sig = { s with sigunbinfo := some sig, sigwaitmask := 0#32, state := .woken set } := by
  rw [wake, h]

theorem wake_of_ne (h : ∀ set, s.state ≠ .waitSig set) : s.wake sig = s := by
  unfold wake
  split
  · rename_i set hstate
    exact absurd hstate (h set)
  · rfl

theorem find_spec (h : s.find signo = some i) :
    ∃ old, s.sigpendingq[i]? = some old ∧ old.signo = signo := by
  obtain ⟨hi, hsigno, -⟩ := findIdx?_eq_some_iff_getElem.mp h
  exact ⟨_, getElem?_eq_getElem hi, of_decide_eq_true hsigno⟩

/-- A task that waits for a signal is blocked, with a set that holds the signal. -/
theorem WaitsFor.exists (h : s.WaitsFor signo) :
    (∃ set, s.state = .waitSig set) ∧ sigismember s.sigwaitmask signo = true := by
  unfold WaitsFor at h
  split at h
  · rename_i set hstate
    exact ⟨⟨set, hstate⟩, h⟩
  · exact h.elim

end Sys

theorem SenderReady.of_none (h : s.sender = none) : SenderReady s where
  sender sig stage hsender := by
    rw [h] at hsender
    cases hsender
  copying sig i hsender := by
    rw [h] at hsender
    cases hsender

theorem SenderReady.of_some {stage : Stage} (hsender : s.sender = some (sig, stage))
    (hfresh : Fresh s sig) (hblocked : sig.blocked = true ↔ stage ≠ .unmasked)
    (hcopy : ∀ i, stage = .copy i → ∃ old, s.sigpendingq[i]? = some old ∧ old.signo = sig.signo) :
    SenderReady s where
  sender sig' stage' h := by
    obtain ⟨rfl, rfl⟩ := Prod.mk.inj (Option.some.inj (hsender.symm.trans h))
    exact ⟨hfresh, hblocked⟩
  copying sig' i h := by
    obtain ⟨rfl, rfl⟩ := Prod.mk.inj (Option.some.inj (hsender.symm.trans h))
    exact hcopy i rfl

theorem TaskReady.of_eq (h : TaskReady s) (hstate : s'.state = s.state)
    (hwaitmask : s'.sigwaitmask = s.sigwaitmask) (hunbinfo : s'.sigunbinfo = s.sigunbinfo)
    (hmask : s'.sigprocmask = s.sigprocmask) (hreturned : s'.log.returned = s.log.returned) :
    TaskReady s' where
  waiting := by
    rw [hstate, hwaitmask]
    exact h.waiting
  woken := by
    rw [hstate, hunbinfo]
    exact h.woken
  unmasking := by
    rw [hstate, hmask]
    exact h.unmasking
  dispatching := by
    rw [hstate, hmask]
    exact h.dispatching
  returning := by
    rw [hstate]
    exact h.returning
  returned := by
    rw [hreturned]
    exact h.returned

theorem TaskReady.of_running (hstate : s.state = .running ∨ s.state = .masking)
    (hreturned : ∀ sig set, (sig, set) ∈ s.log.returned → sigismember set sig.signo = true) :
    TaskReady s := by
  refine ⟨?_, ?_, ?_, ?_, ?_, hreturned⟩ <;> rcases hstate with hstate | hstate <;> rw [hstate]
  all_goals intros; contradiction

theorem TaskReady.of_unmasking (hstate : s.state = .unmasking set)
    (hkept : ∀ n, sigismember set n = true → sigismember s.sigprocmask n = false)
    (hreturned : ∀ sig set, (sig, set) ∈ s.log.returned → sigismember set sig.signo = true) :
    TaskReady s := by
  refine ⟨?_, ?_, fun set' hset => ?_, ?_, ?_, hreturned⟩
  · intro set' hset
    rw [hstate] at hset
    cases hset
  · intro set' hset
    rw [hstate] at hset
    cases hset
  · obtain rfl := TaskState.unmasking.inj (hstate.symm.trans hset)
    exact hkept
  · intro set' sig hset
    rw [hstate] at hset
    cases hset
  · intro set' sig hset
    rw [hstate] at hset
    cases hset

theorem TaskReady.sigAddpendingsignal (h : TaskReady s) :
    TaskReady (s.sigAddpendingsignal sig) := by
  unfold Sys.sigAddpendingsignal
  split
  · exact h.of_eq rfl rfl rfl rfl rfl
  · exact h.of_eq rfl rfl rfl rfl rfl

/-- The task is woken with an unmasked signal, or with one that it waits for. -/
theorem TaskReady.wake (h : TaskReady s) (hsig : sig.blocked = true → s.WaitsFor sig.signo) :
    TaskReady (s.wake sig) := by
  by_cases hwait : ∃ set, s.state = .waitSig set
  · obtain ⟨set, hstate⟩ := hwait
    rw [wake_of_waitSig hstate]
    refine ⟨fun _ hset => (by cases hset), ?_, fun _ hset => (by cases hset),
      fun _ _ hset => (by cases hset), fun _ _ hset => (by cases hset), h.returned⟩
    intro set' hset x hx hblocked
    obtain rfl := TaskState.woken.inj hset
    cases hx
    rw [← h.waiting set hstate]
    exact (hsig hblocked).exists.2
  · rw [wake_of_ne fun set hset => hwait ⟨set, hset⟩]
    exact h

theorem TaskReady.sigTcbdispatch (h : TaskReady s)
    (hsig : sig.blocked = true → sigismember s.sigprocmask sig.signo = true) :
    TaskReady (s.sigTcbdispatch sig) := by
  unfold Sys.sigTcbdispatch
  split_ifs with hmask hwait
  · have hwake := h.wake fun _ => hwait
    exact hwake.of_eq rfl rfl rfl rfl rfl
  · exact h.sigAddpendingsignal
  · have hdeliver : TaskReady (s.deliver sig) :=
      h.of_eq rfl rfl rfl rfl rfl
    exact hdeliver.wake fun hblocked => absurd (hsig hblocked) hmask

namespace Sys

/-- What a dispatch leaves alone: the other sender, the number of the dispatches, the numbers of the
pending signals, and, but for the signal itself, the log of the masked ones. -/
structure Keeps (s s' : Sys α) (sig : Sig α) : Prop where
  sender : s'.sender = s.sender
  count : s'.count = s.count
  masked : ∀ x ∈ s'.log.masked, x ∈ s.log.masked ∨ x = sig
  pending : ∀ (i : ℕ) (old : Sig α), s.sigpendingq[i]? = some old →
    ∃ old', s'.sigpendingq[i]? = some old' ∧ old'.signo = old.signo

theorem keeps_copy (hold : s.sigpendingq[i]? = some old) (hsigno : old.signo = sig.signo) :
    Keeps s (s.copy i sig) sig where
  sender := rfl
  count := rfl
  masked x hx := (mem_cons.mp hx).symm
  pending j x hx := by
    by_cases hij : i = j
    · subst hij
      obtain rfl := Option.some.inj (hold.symm.trans hx)
      obtain ⟨hi, -⟩ := List.getElem?_eq_some_iff.mp hold
      exact ⟨sig, getElem?_set_self hi, hsigno.symm⟩
    · exact ⟨x, (getElem?_set_ne hij).trans hx, rfl⟩

theorem keeps_add : Keeps s (s.add sig) sig where
  sender := rfl
  count := rfl
  masked x hx := (mem_cons.mp hx).symm
  pending j x hx := by
    obtain ⟨hj, -⟩ := List.getElem?_eq_some_iff.mp hx
    exact ⟨x, (getElem?_append_left hj).trans hx, rfl⟩

theorem keeps_sigAddpendingsignal : Keeps s (s.sigAddpendingsignal sig) sig := by
  unfold sigAddpendingsignal
  split
  · rename_i i hi
    obtain ⟨old, hold, hsigno⟩ := find_spec hi
    exact keeps_copy hold hsigno
  · exact keeps_add

theorem keeps_wake : Keeps s (s.wake sig) sig := by
  unfold wake
  split
  · exact ⟨rfl, rfl, fun x hx => .inl hx, fun j x hx => ⟨x, hx, rfl⟩⟩
  · exact ⟨rfl, rfl, fun x hx => .inl hx, fun j x hx => ⟨x, hx, rfl⟩⟩

theorem keeps_sigTcbdispatch : Keeps s (s.sigTcbdispatch sig) sig := by
  unfold sigTcbdispatch
  split_ifs
  · have hwake : Keeps s (s.wake sig) sig := keeps_wake
    refine { hwake with masked := fun x hx => ?_ }
    rcases mem_cons.mp hx with rfl | hx
    · exact .inr rfl
    · exact hwake.masked x hx
  · exact keeps_sigAddpendingsignal
  · have hwake : Keeps (s.deliver sig) ((s.deliver sig).wake sig) sig := keeps_wake
    exact { hwake with }

end Sys

/-- A dispatch by an interrupt handler keeps what an unfinished dispatch relies on. -/
theorem SenderReady.irq (h : SenderReady s)
    (hk : Sys.Keeps { s with count := s.count + 1 } s' (s.next signo value)) : SenderReady s' where
  sender sig stage hsender := by
    obtain ⟨hfresh, hblocked⟩ := h.sender sig stage (hk.sender ▸ hsender)
    refine ⟨⟨?_, fun x hx => ?_⟩, hblocked⟩
    · rw [hk.count]
      exact Nat.lt_succ_of_lt hfresh.bound
    · rcases hk.masked x hx with hx | rfl
      · exact hfresh.new x hx
      · exact (Nat.ne_of_lt hfresh.bound).symm
  copying sig i hsender := by
    obtain ⟨old, hold, hsigno⟩ := h.copying sig i (hk.sender ▸ hsender)
    obtain ⟨old', hold', hsigno'⟩ := hk.pending i old hold
    exact ⟨old', hold', hsigno'.trans hsigno⟩

/-! ### Where the masked signals are -/

namespace Sys

/-- The signals on their way: the one that a `sigtimedwait` was woken with, and the one removed from
the pending ones to be dispatched or returned. -/
def hand (s : Sys α) : List (Sig α) :=
  match s.state with
  | .woken _ => s.sigunbinfo.toList
  | .dispatching _ sig => [sig]
  | .returning _ sig => [sig]
  | _ => []

theorem hand_of_waitSig (h : s.state = .waitSig set) : s.hand = [] := by rw [hand, h]

variable [DecidableEq α]

/-- In how many places a signal is, with the lists of the signals that are pending and on their
way. -/
def placesIn (pending hand : List (Sig α)) (log : Log α) (sig : Sig α) : ℕ :=
  pending.count sig + hand.count sig + (log.returned.map Prod.fst).count sig +
    log.delivered.count sig + log.replaced.count sig

/-- In how many places a signal is. -/
def places (s : Sys α) : Sig α → ℕ := placesIn s.sigpendingq s.hand s.log

theorem places_add : (s.add sig).places x = s.places x + [sig].count x := by
  change placesIn (s.sigpendingq ++ [sig]) s.hand (s.masked sig).log x =
    placesIn s.sigpendingq s.hand s.log x + _
  simp only [placesIn, masked, count_append]
  omega

theorem places_copy (h : s.sigpendingq[i]? = some old) :
    (s.copy i sig).places x = s.places x + [sig].count x := by
  have hcount := (perm_set (x := sig) h).count_eq x
  change placesIn (s.sigpendingq.set i sig) s.hand
    { (s.masked sig).log with replaced := s.sigpendingq[i]?.toList ++ s.log.replaced } x =
    placesIn s.sigpendingq s.hand s.log x + _
  simp only [placesIn, masked, h, Option.toList_some, count_append, count_cons,
    count_nil] at hcount ⊢
  omega

theorem places_deliver : (s.deliver sig).places x = s.places x + [sig].count x := by
  change placesIn s.sigpendingq s.hand (s.deliver sig).log x =
    placesIn s.sigpendingq s.hand s.log x + _
  simp only [placesIn, deliver, count_cons, count_nil]
  omega

theorem places_wake (h : s.state = .waitSig set) :
    (s.wake sig).places x = s.places x + [sig].count x := by
  rw [wake_of_waitSig h, places, places, hand_of_waitSig h]
  change placesIn s.sigpendingq [sig] s.log x = placesIn s.sigpendingq [] s.log x + _
  simp only [placesIn, count_nil]
  omega

end Sys

variable [DecidableEq α]

/-- **The signals that were masked are accounted for**: each of them is in one place. -/
structure Accounted (s : Sys α) : Prop where
  account : ∀ x, x.blocked = true → s.log.masked.count x = s.places x
  pending : ∀ sig ∈ s.sigpendingq, sig.blocked = true
  masked : ∀ sig ∈ s.log.masked, sig.blocked = true
  numbers : (s.log.masked.map Sig.no).Nodup
  bound : ∀ sig ∈ s.log.masked, sig.no < s.count

theorem Accounted.put (h : Accounted s) (hsig : sig.blocked = true) (hfresh : Fresh s sig)
    (hmasked : s'.log.masked = sig :: s.log.masked) (hcount : s.count ≤ s'.count)
    (hplaces : ∀ x, s'.places x = s.places x + [sig].count x)
    (hpending : ∀ x ∈ s'.sigpendingq, x ∈ s.sigpendingq ∨ x = sig) : Accounted s' where
  account x hx := by
    rw [hmasked, hplaces, count_cons, ← count_singleton, h.account x hx]
  pending x hx := by
    rcases hpending x hx with hx | rfl
    · exact h.pending x hx
    · exact hsig
  masked x hx := by
    rw [hmasked] at hx
    rcases mem_cons.mp hx with rfl | hx
    · exact hsig
    · exact h.masked x hx
  numbers := by
    rw [hmasked, map_cons, nodup_cons]
    refine ⟨fun hmem => ?_, h.numbers⟩
    obtain ⟨x, hx, hno⟩ := mem_map.mp hmem
    exact hfresh.new x hx hno
  bound x hx := by
    rw [hmasked] at hx
    rcases mem_cons.mp hx with rfl | hx
    · exact Nat.lt_of_lt_of_le hfresh.bound hcount
    · exact Nat.lt_of_lt_of_le (h.bound x hx) hcount

theorem Accounted.move (h : Accounted s) (hmasked : s'.log.masked = s.log.masked)
    (hcount : s.count ≤ s'.count) (hplaces : ∀ x, x.blocked = true → s'.places x = s.places x)
    (hpending : ∀ x ∈ s'.sigpendingq, x ∈ s.sigpendingq) : Accounted s' where
  account x hx := by rw [hmasked, hplaces x hx, h.account x hx]
  pending x hx := h.pending x (hpending x hx)
  masked x hx := h.masked x (hmasked ▸ hx)
  numbers := hmasked ▸ h.numbers
  bound x hx := Nat.lt_of_lt_of_le (h.bound x (hmasked ▸ hx)) hcount

theorem count_of_unblocked (hsig : sig.blocked = false) (hx : x.blocked = true) :
    [sig].count x = 0 := by
  refine count_eq_zero_of_not_mem fun hmem => ?_
  rw [mem_singleton.mp hmem, hsig] at hx
  cases hx

/-! ### The parts of the calls keep the account -/

section

variable (h : Accounted s)

include h

theorem Accounted.wake_masked (hsig : sig.blocked = true)
    (hfresh : Fresh s sig) (hstate : s.state = .waitSig set) :
    Accounted ((s.wake sig).masked sig) := by
  have hplaces : ∀ x, (s.wake sig).places x = s.places x + [sig].count x :=
    fun _ => places_wake hstate
  rw [wake_of_waitSig hstate] at hplaces ⊢
  exact h.put hsig hfresh rfl (Nat.le_refl _) hplaces fun x hx => .inl hx

theorem Accounted.wake (hsig : sig.blocked = false) :
    Accounted (s.wake sig) := by
  by_cases hwait : ∃ set, s.state = .waitSig set
  · obtain ⟨set, hstate⟩ := hwait
    have hplaces : ∀ x, x.blocked = true → (s.wake sig).places x = s.places x := fun x hx => by
      rw [places_wake hstate, count_of_unblocked hsig hx, Nat.add_zero]
    rw [wake_of_waitSig hstate] at hplaces ⊢
    exact h.move rfl (Nat.le_refl _) hplaces fun x hx => hx
  · rw [wake_of_ne fun set hset => hwait ⟨set, hset⟩]
    exact h

theorem Accounted.deliver (hsig : sig.blocked = false) :
    Accounted (s.deliver sig) := by
  refine h.move rfl (Nat.le_refl _) (fun x hx => ?_) fun x hx => hx
  rw [places_deliver, count_of_unblocked hsig hx, Nat.add_zero]

theorem Accounted.add (hsig : sig.blocked = true) (hfresh : Fresh s sig) :
    Accounted (s.add sig) := by
  refine h.put hsig hfresh rfl (Nat.le_refl _) (fun x => places_add) fun x hx => ?_
  rcases mem_append.mp hx with hx | hx
  · exact .inl hx
  · exact .inr (mem_singleton.mp hx)

theorem Accounted.copy (hsig : sig.blocked = true) (hfresh : Fresh s sig)
    (hold : s.sigpendingq[i]? = some old) : Accounted (s.copy i sig) :=
  h.put hsig hfresh rfl (Nat.le_refl _) (fun _ => places_copy hold) fun _ hx =>
    mem_or_eq_of_mem_set hx

theorem Accounted.sigAddpendingsignal (hsig : sig.blocked = true)
    (hfresh : Fresh s sig) : Accounted (s.sigAddpendingsignal sig) := by
  unfold Sys.sigAddpendingsignal
  split
  · rename_i i hi
    obtain ⟨old, hold, -⟩ := find_spec hi
    exact h.copy hsig hfresh hold
  · exact h.add hsig hfresh

theorem Accounted.sigTcbdispatch
    (hsig : sig.blocked = sigismember s.sigprocmask sig.signo) (hfresh : Fresh s sig) :
    Accounted (s.sigTcbdispatch sig) := by
  unfold Sys.sigTcbdispatch
  split_ifs with hmask hwait
  · obtain ⟨⟨set, hstate⟩, -⟩ := hwait.exists
    exact h.wake_masked (hsig.trans hmask) hfresh hstate
  · exact h.sigAddpendingsignal (hsig.trans hmask) hfresh
  · have hunblocked : sig.blocked = false := hsig.trans (Bool.eq_false_iff.mpr hmask)
    exact (h.deliver hunblocked).wake hunblocked

/-- **The invariant of every interleaving.** -/
structure Sound (s : Sys α) : Prop where
  accounted : Accounted s
  senderReady : SenderReady s
  taskReady : TaskReady s

/-! ### Each step -/

theorem Accounted.fresh_next :
    Fresh { s with count := s.count + 1 } (s.next signo value) where
  bound := Nat.lt_succ_self s.count
  new x hx := Nat.ne_of_lt (h.bound x hx)

theorem Accounted.counted : Accounted { s with count := s.count + 1 } :=
  h.move rfl (Nat.le_succ _) (fun _ _ => rfl) fun _ hx => hx

theorem Accounted.withSender {sender : Option (Sig α × Stage)} :
    Accounted { s with sender := sender } :=
  h.move rfl (Nat.le_refl _) (fun _ _ => rfl) fun _ hx => hx

end

variable (h : Sound s)

include h

theorem Sound.send (hs : step s (.send signo value) = some s') : Sound s' := by
  have hfresh : Fresh { s with count := s.count + 1 } (s.next signo value) :=
    h.accounted.fresh_next
  unfold step at hs
  dsimp only at hs
  split_ifs at hs with hready hblocked
  · cases hs
    exact ⟨h.accounted.counted.withSender,
      .of_some rfl ⟨hfresh.bound, hfresh.new⟩ ⟨fun _ => by decide, fun _ => hblocked⟩
        (fun i hi => by cases hi),
      h.taskReady.of_eq rfl rfl rfl rfl rfl⟩
  · cases hs
    have hunblocked : (s.next signo value).blocked = false := Bool.eq_false_iff.mpr hblocked
    exact ⟨(h.accounted.counted.deliver hunblocked).withSender,
      .of_some rfl ⟨hfresh.bound, hfresh.new⟩
        ⟨fun hb => absurd hb hblocked, fun hne => absurd rfl hne⟩ (fun i hi => by cases hi),
      h.taskReady.of_eq rfl rfl rfl rfl rfl⟩

theorem Sound.irq (hs : step s (.irq signo value) = some s') : Sound s' := by
  rw [step] at hs
  split_ifs at hs
  cases hs
  have hcounted : TaskReady { s with count := s.count + 1 } :=
    h.taskReady.of_eq rfl rfl rfl rfl rfl
  exact ⟨h.accounted.counted.sigTcbdispatch rfl h.accounted.fresh_next,
    h.senderReady.irq keeps_sigTcbdispatch, hcounted.sigTcbdispatch fun hb => hb⟩

theorem Sound.proceed (hs : step s .proceed = some s') : Sound s' := by
  obtain ⟨⟨sig, stage⟩, hsender, rfl⟩ := Option.map_eq_some_iff.mp hs
  obtain ⟨hfresh, hblocked⟩ := h.senderReady.sender sig stage hsender
  have hfresh' : ∀ stage', Fresh { s with sender := some (sig, stage') } sig :=
    fun _ => ⟨hfresh.bound, hfresh.new⟩
  cases stage with
  | masked =>
    have hsig : sig.blocked = true := hblocked.mpr (by decide)
    rw [proceed]
    split_ifs with hwait
    · obtain ⟨⟨set, hstate⟩, -⟩ := hwait.exists
      have hwake := h.taskReady.wake fun _ => hwait
      exact ⟨(h.accounted.wake_masked hsig hfresh hstate).withSender, .of_none rfl,
        hwake.of_eq rfl rfl rfl rfl rfl⟩
    · exact ⟨h.accounted.withSender,
        .of_some rfl (hfresh' _) ⟨fun _ => by decide, fun _ => hsig⟩ (fun i hi => by cases hi),
        h.taskReady.of_eq rfl rfl rfl rfl rfl⟩
  | find =>
    have hsig : sig.blocked = true := hblocked.mpr (by decide)
    rw [proceed]
    split
    · rename_i i hi
      refine ⟨h.accounted.withSender,
        .of_some rfl (hfresh' _) ⟨fun _ => by simp, fun _ => hsig⟩ fun i' hi' => ?_,
        h.taskReady.of_eq rfl rfl rfl rfl rfl⟩
      obtain rfl := Stage.copy.inj hi'
      exact find_spec hi
    · exact ⟨h.accounted.withSender,
        .of_some rfl (hfresh' _) ⟨fun _ => by decide, fun _ => hsig⟩ (fun i hi => by cases hi),
        h.taskReady.of_eq rfl rfl rfl rfl rfl⟩
  | copy i =>
    obtain ⟨old, hold, -⟩ := h.senderReady.copying sig i hsender
    have hsig : sig.blocked = true := hblocked.mpr (by simp)
    exact ⟨(h.accounted.copy hsig hfresh hold).withSender, .of_none rfl,
      h.taskReady.of_eq rfl rfl rfl rfl rfl⟩
  | add =>
    have hsig : sig.blocked = true := hblocked.mpr (by decide)
    exact ⟨(h.accounted.add hsig hfresh).withSender, .of_none rfl,
      h.taskReady.of_eq rfl rfl rfl rfl rfl⟩
  | unmasked =>
    have hsig : sig.blocked = false := Bool.eq_false_iff.mpr fun hb => hblocked.mp hb rfl
    exact ⟨(h.accounted.wake hsig).withSender, .of_none rfl,
      (h.taskReady.wake fun hb => absurd rfl (hblocked.mp hb)).of_eq rfl rfl rfl rfl rfl⟩

theorem Sound.timeout (hs : step s .timeout = some s') : Sound s' := by
  rw [step] at hs
  split at hs
  · rename_i set hstate
    cases hs
    refine ⟨h.accounted.move rfl (Nat.le_refl _) (fun x _ => ?_) fun _ hx => hx, ⟨?_, ?_⟩, ?_⟩
    · rw [places, places, hand_of_waitSig hstate]
      rfl
    · intro sig stage hsender
      obtain ⟨hfresh, hblocked⟩ := h.senderReady.sender sig stage hsender
      exact ⟨⟨hfresh.bound, hfresh.new⟩, hblocked⟩
    · exact h.senderReady.copying
    · exact ⟨fun _ hset => (by cases hset), fun _ _ _ hsig => (by cases hsig),
        fun _ hset => (by cases hset), fun _ _ hset => (by cases hset),
        fun _ _ hset => (by cases hset), h.taskReady.returned⟩
  · cases hs
    exact h

/-- The task goes on, with the same signals in its hand. -/
theorem Sound.goOn {mask wait : BitVec 32} {state : TaskState α} (hsender : s.sender = none)
    (hhand : ({ s with state } : Sys α).hand = s.hand)
    (htask : TaskReady { s with sigprocmask := mask, sigwaitmask := wait, state }) :
    Sound { s with sigprocmask := mask, sigwaitmask := wait, state } := by
  refine ⟨h.accounted.move rfl (Nat.le_refl _) (fun x _ => ?_) fun _ hx => hx, .of_none hsender,
    htask⟩
  rw [places, places, ← hhand]
  rfl

theorem Sound.procmask {how : Sys.How}
    (hs : step s (.procmask how set) = some s') : Sound s' := by
  rw [step] at hs
  split at hs
  · rename_i hsender hstate
    cases hs
    exact h.goOn hsender (by rw [hand, hand, hstate]) (.of_running (.inr rfl) h.taskReady.returned)
  · cases hs

omit h in
/-- A pending signal is removed from the list and put into the hand of the task. -/
theorem Sys.places_remove {rest : List (Sig α)} {state : TaskState α} (hhand : s.hand = [])
    (hnew : ({ s with state } : Sys α).hand = [sig])
    (hr : sigRemovependingsignal signo s.sigpendingq = some (sig, rest)) :
    ({ s with sigpendingq := rest, state } : Sys α).places x = s.places x := by
  have hcount := (sigRemovependingsignal_spec hr).2.1.count_eq x
  change placesIn rest ({ s with state } : Sys α).hand s.log x = placesIn s.sigpendingq s.hand
    s.log x
  rw [hhand, hnew]
  simp only [placesIn, count_cons, count_nil] at hcount ⊢
  omega

omit h in
theorem Sys.places_dispatch {set' : BitVec 32} (hstate : s.state = .dispatching set sig) :
    ({ s.deliver sig with state := .unmasking set' } : Sys α).places x = s.places x := by
  have hhand : s.hand = [sig] := by rw [hand, hstate]
  rw [places, places, hhand]
  change placesIn s.sigpendingq [] (s.deliver sig).log x = placesIn s.sigpendingq [sig] s.log x
  simp only [placesIn, deliver, count_cons, count_nil]
  omega

theorem Sound.unmasking (hsender : s.sender = none)
    (hstate : s.state = .unmasking set) (hs : s.unmask (.unmasking set) = some s') :
    Sound s' := by
  have hunmasked := h.taskReady.unmasking set hstate
  rw [unmask] at hs
  split at hs
  · cases hs
    exact h.goOn hsender (by rw [hand, hand, hstate]) (.of_running (.inl rfl) h.taskReady.returned)
  · rename_i signo hlowest
    have hkept : ∀ n, sigismember (sigdelset set signo) n = true →
        sigismember s.sigprocmask n = false :=
      fun n hn => hunmasked n (sigismember_sigdelset hn)
    split at hs
    · rename_i sig rest hr
      obtain ⟨hsigno, -, hsub⟩ := sigRemovependingsignal_spec hr
      cases hs
      refine ⟨h.accounted.move rfl (Nat.le_refl _)
        (fun x _ => places_remove (by rw [hand, hstate]) rfl hr) fun _ hx => hsub.subset hx,
        .of_none hsender, ?_⟩
      refine ⟨fun _ hset => (by cases hset), fun _ hset => (by cases hset),
        fun _ hset => (by cases hset), fun set' sig' hset => ?_, fun _ _ hset => (by cases hset),
        h.taskReady.returned⟩
      cases hset
      exact ⟨hsigno ▸ hunmasked signo (sigismember_of_sigLowest hlowest), hkept⟩
    · cases hs
      exact h.goOn hsender (by rw [hand, hand, hstate])
        (.of_unmasking rfl hkept h.taskReady.returned)

theorem Sound.dispatching (hsender : s.sender = none)
    (hstate : s.state = .dispatching set sig) :
    Sound { s.sigTcbdispatch sig with state := .unmasking set } := by
  obtain ⟨hmask, hkept⟩ := h.taskReady.dispatching set sig hstate
  have hdispatch : s.sigTcbdispatch sig = s.deliver sig := by
    rw [sigTcbdispatch, hmask]
    exact wake_of_ne fun set' hset' => by
      rw [show (s.deliver sig).state = s.state from rfl, hstate] at hset'
      cases hset'
  rw [hdispatch]
  refine ⟨h.accounted.move rfl (Nat.le_refl _) (fun x _ => places_dispatch hstate)
    fun _ hx => hx, .of_none hsender, .of_unmasking rfl hkept h.taskReady.returned⟩

theorem Sound.unmask (hs : step s .unmask = some s') : Sound s' := by
  rw [step] at hs
  split_ifs at hs with hnone
  have hsender : s.sender = none := Option.isNone_iff_eq_none.mp hnone
  cases hstate : s.state with
  | masking =>
    rw [hstate] at hs
    cases hs
    exact h.goOn hsender (by rw [hand, hand, hstate]) (.of_unmasking rfl
      (fun n hn => sigismember_not (sigismember_of_and hn)) h.taskReady.returned)
  | unmasking set =>
    rw [hstate] at hs
    exact h.unmasking hsender hstate hs
  | dispatching set sig =>
    rw [hstate] at hs
    cases hs
    exact h.dispatching hsender hstate
  | running | waitSig set | woken set | returning set sig =>
    rw [hstate] at hs
    cases hs

theorem Sound.timedwait (hs : step s (.timedwait set) = some s') : Sound s' := by
  rw [step] at hs
  split at hs
  · rename_i hsender hstate
    have hhand : s.hand = [] := by rw [hand, hstate]
    unfold sigtimedwait at hs
    split at hs
    · rename_i signo hlowest
      obtain ⟨⟨sig, rest⟩, hr, rfl⟩ := Option.map_eq_some_iff.mp hs
      obtain ⟨hsigno, -, hsub⟩ := sigRemovependingsignal_spec hr
      refine ⟨h.accounted.move rfl (Nat.le_refl _) (fun x _ => places_remove hhand rfl hr)
        fun _ hx => hsub.subset hx, .of_none hsender, ?_⟩
      refine ⟨fun _ hset => (by cases hset), fun _ hset => (by cases hset),
        fun _ hset => (by cases hset), fun _ _ hset => (by cases hset), fun set' sig' hset => ?_,
        h.taskReady.returned⟩
      cases hset
      exact hsigno ▸ sigismember_of_and (sigismember_of_sigLowest hlowest)
    · cases hs
      exact h.goOn hsender (by rw [hhand]; rfl)
        ⟨fun _ hset => TaskState.waitSig.inj hset, fun _ hset => (by cases hset),
          fun _ hset => (by cases hset), fun _ _ hset => (by cases hset),
          fun _ _ hset => (by cases hset), h.taskReady.returned⟩
  · cases hs

/-- The signal in the hand of the task is returned. -/
theorem Sound.returns {wait : BitVec 32} (hsender : s.sender = none) (hhand : s.hand = [sig])
    (hmem : sigismember set sig.signo = true) :
    Sound ({ s with sigwaitmask := wait }.returns set sig) := by
  refine ⟨h.accounted.move rfl (Nat.le_refl _) (fun x _ => ?_) fun _ hx => hx, .of_none hsender,
    .of_running (.inl rfl) fun sig' set' hm => ?_⟩
  · rw [places, places, hhand]
    change placesIn s.sigpendingq [] { s.log with returned := (sig, set) :: s.log.returned } x =
      placesIn s.sigpendingq [sig] s.log x
    simp only [placesIn, map_cons, count_cons, count_nil]
    omega
  · rcases mem_cons.mp hm with heq | hm
    · cases heq
      exact hmem
    · exact h.taskReady.returned sig' set' hm

omit h [DecidableEq α] in
/-- How a `sigtimedwait` goes on: after it was blocked, or with what the released structure
holds. -/
theorem step_resume (hs : step s .resume = some s') : s.sender = none ∧
    ((∃ set, s.state = .woken set ∧ s' = s.endWait set) ∨
      ∃ set sig, s.state = .returning set sig ∧ s' = s.returns set sig) := by
  rw [step] at hs
  split at hs
  · rename_i set hsender hstate
    exact ⟨hsender, .inl ⟨set, hstate, (Option.some.inj hs).symm⟩⟩
  · rename_i set sig hsender hstate
    exact ⟨hsender, .inr ⟨set, sig, hstate, (Option.some.inj hs).symm⟩⟩
  · cases hs

theorem Sound.resume (hs : step s .resume = some s') : Sound s' := by
  obtain ⟨hsender, ⟨set, hstate, rfl⟩ | ⟨set, sig, hstate, rfl⟩⟩ := step_resume hs
  · have hhand : s.hand = s.sigunbinfo.toList := by rw [hand, hstate]
    unfold endWait
    dsimp only
    split
    · rename_i sig hsig
      rw [hsig] at hhand
      split_ifs with hmem
      · exact h.returns hsender hhand hmem
      · -- the signal that interrupted the wait was not masked
        have hunblocked : sig.blocked = false := Bool.eq_false_iff.mpr fun hb =>
          hmem (h.taskReady.woken set hstate sig hsig hb)
        refine ⟨h.accounted.move rfl (Nat.le_refl _) (fun x hx => ?_) fun _ hx => hx,
          .of_none hsender, ?_⟩
        · have hcount := count_of_unblocked hunblocked hx
          rw [places, places, hhand]
          change placesIn s.sigpendingq [] s.log x = placesIn s.sigpendingq [sig] s.log x
          rw [placesIn, placesIn, hcount, count_nil]
        · exact .of_running (.inl rfl) h.taskReady.returned
    · rename_i hnone
      rw [hnone] at hhand
      exact h.goOn hsender (by rw [hhand]; rfl) (.of_running (.inl rfl) h.taskReady.returned)
  · exact h.returns hsender (by rw [hand, hstate]) (h.taskReady.returning set sig hstate)

omit h [DecidableEq α] in
/-- No interrupt handler is given the structure that `sigtimedwait` has yet to read. -/
def Event.Leaves : Event α → Prop
  | .irqReuse _ _ => False
  | _ => True

/-- **Every step keeps the invariant**, if it leaves the released structure alone. -/
theorem Sound.step (hleaves : e.Leaves) (hs : Signal.step s e = some s') : Sound s' := by
  cases e with
  | send signo value => exact h.send hs
  | proceed => exact h.proceed hs
  | irq signo value => exact h.irq hs
  | irqReuse signo value => exact hleaves.elim
  | timeout => exact h.timeout hs
  | procmask how set => exact h.procmask hs
  | unmask => exact h.unmask hs
  | timedwait set => exact h.timedwait hs
  | resume => exact h.resume hs

omit h

theorem sound_init (mask : BitVec 32) : Sound (init mask : Sys α) where
  accounted := ⟨fun _ _ => rfl, fun _ h => (by cases h), fun _ h => (by cases h), nodup_nil,
    fun _ h => (by cases h)⟩
  senderReady := .of_none rfl
  taskReady := .of_running (.inl rfl) fun _ _ h => (by cases h)

end GreenboneFeeder.Signal

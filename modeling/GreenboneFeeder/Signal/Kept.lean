import Mathlib.Data.List.Nodup
import GreenboneFeeder.Signal.Pending

/-!
# What becomes of a blocked signal

`Signal.Sound` says where the signals are that were dispatched while they were masked; here it is
read off at the end of every interleaving (`Signal.masked_signals_kept`), unless an interrupt
handler writes to the structure that `sigtimedwait` has yet to read. The list of the pending signals
holds one signal of a number at most, unless an interrupt handler dispatches one while a task is
about to add one of the same number. Both go wrong in `Signal.pending_twice_number_lost`.
-/

namespace GreenboneFeeder.Signal

open List Sys

variable {α : Type} {s s' : Sys α} {sig : Sig α} {e : Event α} {i : ℕ} {old : Sig α} {signo : ℕ}

/-! ### One pending signal of a number -/

/-- A task is about to add a signal of this number. -/
def Sys.adding (s : Sys α) (signo : ℕ) : Bool :=
  s.sender.any fun p => p.2 = .add && p.1.signo = signo

/-- **The condition on the interrupts**: none dispatches a signal of a number that a task is about
to add, and none writes to a structure that is yet to be read. -/
def Apart (s : Sys α) : Event α → Prop
  | .irq signo _ => s.adding signo = false
  | .irqReuse _ _ => False
  | _ => True

instance (s : Sys α) : ∀ e : Event α, Decidable (Apart s e)
  | .irq signo _ => inferInstanceAs (Decidable (s.adding signo = false))
  | .irqReuse .. => isFalse id
  | .send .. | .proceed | .timeout | .procmask .. | .unmask | .timedwait _ | .resume =>
    isTrue trivial

theorem Apart.leaves (h : Apart s e) : e.Leaves := by
  cases e with
  | irqReuse signo value => exact h
  | _ => trivial

/-- The numbers of the pending signals. -/
def Sys.numbers (s : Sys α) : List ℕ := s.sigpendingq.map Sig.signo

/-- **One pending signal of a number**, and none of the number that a task is about to add. -/
structure Single (s : Sys α) : Prop where
  nodup : s.numbers.Nodup
  adding : ∀ sig, s.sender = some (sig, .add) → sig.signo ∉ s.numbers

theorem Sys.adding_of_sender (h : s.sender = some (sig, .add)) : s.adding sig.signo = true := by
  rw [adding, h]
  simp

theorem Sys.numbers_copy (hold : s.sigpendingq[i]? = some old) (hsigno : old.signo = sig.signo) :
    (s.copy i sig).numbers = s.numbers := by
  change (s.sigpendingq.set i sig).map Sig.signo = s.numbers
  obtain ⟨hi, rfl⟩ := List.getElem?_eq_some_iff.mp hold
  rw [map_set, ← hsigno, ← getElem_map Sig.signo (h := by simpa using hi)]
  exact set_getElem_self _

theorem Sys.numbers_add : (s.add sig).numbers = s.numbers ++ [sig.signo] := by
  change (s.sigpendingq ++ [sig]).map Sig.signo = _
  rw [map_append]
  rfl

theorem Sys.not_mem_of_find (h : s.find signo = none) : signo ∉ s.numbers := by
  intro hmem
  obtain ⟨x, hx, hsigno⟩ := mem_map.mp hmem
  have := findIdx?_eq_none_iff.mp h x hx
  exact absurd hsigno (of_decide_eq_false this)

theorem Sys.nodup_add (h : s.numbers.Nodup) (hnew : sig.signo ∉ s.numbers) :
    (s.add sig).numbers.Nodup := by
  rw [numbers_add, nodup_append]
  refine ⟨h, pairwise_singleton _ _, fun n hn m hm hnm => ?_⟩
  rw [mem_singleton.mp hm] at hnm
  exact hnew (hnm ▸ hn)

theorem Sys.numbers_sigTcbdispatch (s : Sys α) (sig : Sig α) :
    (s.sigTcbdispatch sig).numbers = s.numbers ∨
      (s.sigTcbdispatch sig).numbers = s.numbers ++ [sig.signo] ∧ sig.signo ∉ s.numbers := by
  unfold sigTcbdispatch sigAddpendingsignal
  split_ifs
  · left
    unfold wake
    split <;> rfl
  · split
    · rename_i i hi
      obtain ⟨old, hold, hsigno⟩ := find_spec hi
      exact .inl (numbers_copy hold hsigno)
    · rename_i hnone
      exact .inr ⟨numbers_add, not_mem_of_find hnone⟩
  · left
    unfold wake
    split <;> rfl

theorem Sys.nodup_sigTcbdispatch (h : s.numbers.Nodup) : (s.sigTcbdispatch sig).numbers.Nodup := by
  rcases numbers_sigTcbdispatch s sig with heq | ⟨heq, hnew⟩
  · rw [heq]
    exact h
  · rw [heq, ← numbers_add]
    exact nodup_add h hnew

theorem Single.of_none (h : s.numbers.Nodup) (hsender : s.sender = none) : Single s where
  nodup := h
  adding sig hsig := by
    rw [hsender] at hsig
    cases hsig

/-- A dispatch comes to a stage that is not the one where it adds its signal. -/
theorem Single.of_ne {stage : Stage} (h : s.numbers.Nodup) (hsender : s.sender = some (sig, stage))
    (hne : stage ≠ .add) : Single s where
  nodup := h
  adding sig' hsig := by
    obtain ⟨rfl, rfl⟩ := Prod.mk.inj (Option.some.inj (hsender.symm.trans hsig))
    exact absurd rfl hne

theorem Single.send {value : α} (h : Single s)
    (hs : step s (.send signo value) = some s') : Single s' := by
  unfold step at hs
  dsimp only at hs
  split_ifs at hs
  · cases hs
    exact .of_ne h.nodup rfl (by decide)
  · cases hs
    exact .of_ne h.nodup rfl (by decide)

theorem Single.proceed (h : Single s) (hready : SenderReady s) (hs : step s .proceed = some s') :
    Single s' := by
  obtain ⟨⟨sig, stage⟩, hsender, rfl⟩ := Option.map_eq_some_iff.mp hs
  have hwake : (s.wake sig).numbers = s.numbers := by
    unfold wake
    split <;> rfl
  cases stage with
  | masked =>
    rw [proceed]
    split_ifs
    · exact .of_none (hwake ▸ h.nodup) rfl
    · exact .of_ne h.nodup rfl (by decide)
  | find =>
    rw [proceed]
    split
    · exact .of_ne h.nodup rfl (by simp)
    · rename_i hnone
      refine ⟨h.nodup, fun sig' hsig => ?_⟩
      obtain ⟨rfl, -⟩ := Prod.mk.inj (Option.some.inj hsig)
      exact not_mem_of_find hnone
  | copy i =>
    obtain ⟨old, hold, hsigno⟩ := hready.copying sig i hsender
    have hnumbers := numbers_copy hold hsigno
    exact .of_none (hnumbers ▸ h.nodup) rfl
  | add => exact .of_none (nodup_add h.nodup (h.adding sig hsender)) rfl
  | unmasked => exact .of_none (hwake ▸ h.nodup) rfl

/-- An interrupt handler adds a signal, of another number than the one that a task is about to
add. -/
theorem Single.irq {value : α} (h : Single s) (hapart : s.adding signo = false)
    (hs : step s (.irq signo value) = some s') : Single s' := by
  rw [step] at hs
  split_ifs at hs
  cases hs
  refine ⟨nodup_sigTcbdispatch h.nodup, fun sig hsig => ?_⟩
  rw [keeps_sigTcbdispatch.sender] at hsig
  replace hsig : s.sender = some (sig, .add) := hsig
  have hold : sig.signo ∉ s.numbers := h.adding sig hsig
  rcases numbers_sigTcbdispatch { s with count := s.count + 1 }
    (s.next signo value) with heq | ⟨heq, -⟩
  · rw [heq]
    exact hold
  · rw [heq]
    intro hmem
    rcases mem_append.mp hmem with hmem | hmem
    · exact hold hmem
    · have hsigno : sig.signo = signo := mem_singleton.mp hmem
      have hadding := adding_of_sender hsig
      rw [hsigno, hapart] at hadding
      cases hadding

theorem Single.timeout (h : Single s) (hs : step s .timeout = some s') : Single s' := by
  rw [step] at hs
  split at hs
  · cases hs
    exact ⟨h.nodup, h.adding⟩
  · cases hs
    exact h

theorem Sys.nodup_remove {rest : List (Sig α)} (h : s.numbers.Nodup)
    (hr : sigRemovependingsignal signo s.sigpendingq = some (sig, rest)) :
    (rest.map Sig.signo).Nodup :=
  h.sublist ((sigRemovependingsignal_spec hr).2.2.map Sig.signo)

theorem Single.unmask (h : Single s) (hs : step s .unmask = some s') : Single s' := by
  rw [step] at hs
  split_ifs at hs with hnone
  have hsender : s.sender = none := Option.isNone_iff_eq_none.mp hnone
  unfold Sys.unmask at hs
  split at hs
  · cases hs
    exact .of_none h.nodup hsender
  · split at hs
    · cases hs
      exact .of_none h.nodup hsender
    · split at hs
      · rename_i hr
        cases hs
        exact .of_none (nodup_remove h.nodup hr) hsender
      · cases hs
        exact .of_none h.nodup hsender
  · cases hs
    exact .of_none (nodup_sigTcbdispatch h.nodup)
      (keeps_sigTcbdispatch.sender.trans hsender)
  · cases hs

theorem Single.timedwait {set : BitVec 32} (h : Single s)
    (hs : step s (.timedwait set) = some s') : Single s' := by
  rw [step] at hs
  split at hs
  · rename_i hsender hstate
    unfold sigtimedwait at hs
    split at hs
    · obtain ⟨⟨sig, rest⟩, hr, rfl⟩ := Option.map_eq_some_iff.mp hs
      exact .of_none (nodup_remove h.nodup hr) hsender
    · cases hs
      exact .of_none h.nodup hsender
  · cases hs

theorem Single.resume (h : Single s) (hs : step s .resume = some s') : Single s' := by
  obtain ⟨hsender, ⟨set, -, rfl⟩ | ⟨set, sig, -, rfl⟩⟩ := step_resume hs
  · unfold endWait
    dsimp only
    split
    · split_ifs
      · exact .of_none h.nodup hsender
      · exact .of_none h.nodup hsender
    · exact .of_none h.nodup hsender
  · exact .of_none h.nodup hsender

/-- **Every step that meets the condition keeps one pending signal of a number.** -/
theorem Single.step (h : Single s) (hready : SenderReady s) (hapart : Apart s e)
    (hs : Signal.step s e = some s') : Single s' := by
  cases e with
  | send signo value => exact h.send hs
  | proceed => exact h.proceed hready hs
  | irq signo value => exact h.irq hapart hs
  | irqReuse signo value => exact hapart.elim
  | timeout => exact h.timeout hs
  | procmask how set =>
    rw [Signal.step] at hs
    split at hs
    · rename_i hsender hstate
      cases hs
      exact .of_none h.nodup hsender
    · cases hs
  | unmask => exact h.unmask hs
  | timedwait set => exact h.timedwait hs
  | resume => exact h.resume hs

/-! ### Every interleaving -/

section Runs

variable [DecidableEq α]

theorem sound_of_run {mask : BitVec 32} {events : List (Event α)}
    (hall : Run.AllSteps step (fun _ e => e.Leaves) (init mask) events)
    (hr : Run.run step (init mask) events = some s) : Sound s :=
  Run.invariant_of_allSteps (fun _ _ _ h hleaves hs => h.step hleaves hs) events (sound_init mask)
    hall hr

/-- A signal that is on its way is returned or dispatched when the task goes on. -/
theorem Sound.hand_goes_on (h : Sound s) (hblocked : sig.blocked = true) (hsig : sig ∈ s.hand)
    (he : e = .resume ∨ e = .unmask) (hs : Signal.step s e = some s') :
    sig ∈ s'.log.returned.map Prod.fst ∨ sig ∈ s'.log.delivered := by
  rcases he with rfl | rfl
  · left
    obtain ⟨-, ⟨set, hstate, rfl⟩ | ⟨set, sig', hstate, rfl⟩⟩ := step_resume hs
    · rw [hand, hstate] at hsig
      have hunbinfo : s.sigunbinfo = some sig := Option.mem_toList.mp hsig
      unfold endWait
      rw [hunbinfo]
      dsimp only
      rw [if_pos (h.taskReady.woken set hstate sig hunbinfo hblocked)]
      exact mem_cons_self
    · rw [hand, hstate] at hsig
      rw [mem_singleton.mp hsig]
      exact mem_cons_self
  · right
    rw [Signal.step] at hs
    split_ifs at hs
    unfold Sys.unmask at hs
    unfold hand at hsig
    cases hstate : s.state with
    | dispatching set sig' =>
      rw [hstate] at hs hsig
      obtain rfl := mem_singleton.mp hsig
      cases hs
      rw [sigTcbdispatch, (h.taskReady.dispatching set sig hstate).1, if_neg Bool.false_ne_true]
      unfold wake
      split <;> exact mem_cons_self
    | woken set | returning set sig' =>
      rw [hstate] at hs
      cases hs
    | running | masking | unmasking set | waitSig set =>
      rw [hstate] at hsig
      cases hsig

end Runs

end GreenboneFeeder.Signal

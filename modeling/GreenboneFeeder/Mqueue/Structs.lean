import GreenboneFeeder.Lib.Places
import GreenboneFeeder.Mqueue.Model

/-!
# Where a message structure is

Every message structure is in one list, or in the hands of a sender or receiver
(`Mqueue.Store.Owned`). So filling a structure changes none that is queued, and the list of a queue,
read as messages, is the sorted list of those sent and not yet received (`Mqueue.Store.Ordered`).
Each function that moves a structure has one lemma. The hands are a list: an interrupt handler can
hold a structure while a task holds another one.
-/

namespace GreenboneFeeder.Mqueue

open Function List PrioList

open PrioQueue (Op outstanding Legal)

variable {maxBytes : ℕ} {τ κ : Type} {o : Outgoing maxBytes κ}

/-- Where a message structure can be. -/
inductive Place (κ : Type) where
  | free
  | freeirq
  | queue (q : κ)
  | hand
  deriving DecidableEq

/-- A message that has passed `mq_verifysend` fits in the fields of a structure. -/
theorem Msg.entry_fill (m : Msg) (o : Outgoing maxBytes κ) :
    (m.fill o).entry = o.entry := by
  have hp : o.prio % 256 = o.prio := Nat.mod_eq_of_lt (Nat.lt_succ_of_le o.prio_le)
  have hl : o.msg.length % lenRange maxBytes = o.msg.length := Nat.mod_eq_of_lt o.len_lt
  simp only [Msg.entry, Msg.fill, Outgoing.entry, hp, hl, take_left]

namespace Store

/-- What is in each place, with the given structures in the hands of someone. -/
def places (σ : Store maxBytes τ κ) (hand : List ℕ) : Place κ → List ℕ
  | .free => σ.msgfree
  | .freeirq => σ.msgfreeirq
  | .queue q => (σ.queues q).msglist
  | .hand => hand

/-- **Every message structure is in one place**, and the free lists hold those of their own
type. -/
structure Owned (σ : Store maxBytes τ κ) (hand : List ℕ) : Prop where
  apart : Places.Apart (σ.places hand)
  mem_structs : ∀ a, a ∈ σ.structs ↔ ∃ p, a ∈ σ.places hand p
  nodup : σ.structs.Nodup
  fixed : ∀ a ∈ σ.places hand .free, (σ.msgs a).type = .fixed
  irq : ∀ a ∈ σ.places hand .freeirq, (σ.msgs a).type = .irq

/-- **The list of each queue is the sorted list of its outstanding messages**, and `nmsgs`
counts it as far as an `int16_t` can. -/
structure Ordered (σ : Store maxBytes τ κ) : Prop where
  contents : ∀ q, (σ.queues q).msglist.map (fun a => (σ.msgs a).entry) =
    insertAll Entry.prio (outstanding (σ.ops q)) []
  legal : ∀ q, Legal Entry.prio (σ.ops q)
  nmsgs : ∀ q, (σ.queues q).nmsgs = int16 (σ.queues q).msglist.length

structure Ok (σ : Store maxBytes τ κ) (hand : List ℕ) : Prop where
  owned : σ.Owned hand
  ordered : σ.Ordered

variable {σ σ' : Store maxBytes τ κ} {hand hand' : List ℕ} {a b : ℕ} {q : κ}

namespace Owned

theorem move [DecidableEq κ] (h : σ.Owned hand) (p p' : Place κ) (hne : p ≠ p')
    (hp : (σ.places hand p).Perm (a :: σ'.places hand' p))
    (hp' : (σ'.places hand' p').Perm (a :: σ.places hand p'))
    (hrest : ∀ r, r ≠ p → r ≠ p' → σ'.places hand' r = σ.places hand r)
    (hstructs : σ'.structs = σ.structs) (htype : ∀ b, (σ'.msgs b).type = (σ.msgs b).type)
    (hfixed : p' = .free → (σ.msgs a).type = .fixed)
    (hirq : p' = .freeirq → (σ.msgs a).type = .irq) : σ'.Owned hand' where
  apart := h.apart.move hne hp hp' hrest
  mem_structs b := by
    rw [hstructs, h.mem_structs b]
    exact Places.exists_mem_of_move hp hp' hrest
  nodup := hstructs ▸ h.nodup
  fixed b hb := by
    rw [htype]
    rcases Places.mem_of_move hp hp' hrest hb with ⟨rfl, hr⟩ | hb
    · exact hfixed hr.symm
    · exact h.fixed b hb
  irq b hb := by
    rw [htype]
    rcases Places.mem_of_move hp hp' hrest hb with ⟨rfl, hr⟩ | hb
    · exact hirq hr.symm
    · exact h.irq b hb

theorem not_mem_msglist (h : σ.Owned hand) (ha : a ∈ hand) (q : κ) :
    a ∉ (σ.queues q).msglist := by
  intro hc
  have hplace : a ∈ σ.places hand (.queue q) := hc
  cases h.apart.place (p := .hand) ha hplace

end Owned

/-- The queues are in order if they and the messages in their lists have not changed. -/
theorem Ordered.congr (h : σ.Ordered) (hlist : ∀ q, (σ'.queues q).msglist = (σ.queues q).msglist)
    (hnmsgs : ∀ q, (σ'.queues q).nmsgs = (σ.queues q).nmsgs) (hops : σ'.ops = σ.ops)
    (hmsgs : ∀ q, ∀ a ∈ (σ.queues q).msglist, (σ'.msgs a).entry = (σ.msgs a).entry) :
    σ'.Ordered where
  contents q := by
    rw [hlist, hops, ← h.contents q]
    exact map_congr_left (hmsgs q)
  legal q := hops ▸ h.legal q
  nmsgs q := by rw [hnmsgs, hlist, h.nmsgs q]

/-! ### The functions -/

/-- What allocating and freeing structures leaves alone: the queues, their histories, and the
messages in all other structures. -/
structure Frame (σ σ' : Store maxBytes τ κ) : Prop where
  queues : σ'.queues = σ.queues
  ops : σ'.ops = σ.ops
  returned : σ'.returned = σ.returned
  entry : ∀ a ∈ σ.structs, (σ'.msgs a).entry = (σ.msgs a).entry

theorem Ordered.frame (h : σ.Ordered) (ho : σ.Owned hand) (hf : Frame σ σ') : σ'.Ordered :=
  h.congr (fun q => by rw [hf.queues]) (fun q => by rw [hf.queues]) hf.ops
    fun q a ha => hf.entry a ((ho.mem_structs a).mpr ⟨.queue q, ha⟩)

variable [DecidableEq κ]

theorem Ok.takeFree (h : σ.Ok hand) {l : List ℕ} (hl : σ.msgfree = a :: l) :
    Ok { σ with msgfree := l } (a :: hand) ∧ Frame σ { σ with msgfree := l } := by
  have hf : Frame σ { σ with msgfree := l } := ⟨rfl, rfl, rfl, fun _ _ => rfl⟩
  refine ⟨⟨h.owned.move .free .hand (by rintro ⟨⟩) ?_ (.refl _) ?_ rfl
    (fun _ => rfl) (by rintro ⟨⟩) (by rintro ⟨⟩), h.ordered.frame h.owned hf⟩, hf⟩
  · exact hl ▸ .refl _
  · rintro (_ | _ | q | _) hr hr'
    · exact absurd rfl hr
    · rfl
    · rfl
    · exact absurd rfl hr'

theorem Owned.takeFreeirq (h : σ.Owned hand) {l : List ℕ} (hl : σ.msgfreeirq = a :: l) :
    Owned { σ with msgfreeirq := l } (a :: hand) := by
  refine h.move .freeirq .hand (by rintro ⟨⟩) ?_ (.refl _) ?_
    rfl (fun _ => rfl) (by rintro ⟨⟩) (by rintro ⟨⟩)
  · exact hl ▸ .refl _
  · rintro (_ | _ | q | _) hr hr'
    · rfl
    · exact absurd rfl hr
    · rfl
    · exact absurd rfl hr'

omit [DecidableEq κ] in
theorem Ok.malloced (h : σ.Ok hand) {malloc : Option ℕ}
    (hs : σ.malloced malloc = some (a, σ')) : σ'.Ok (a :: hand) ∧ Frame σ σ' := by
  unfold Store.malloced at hs
  split at hs
  · cases hs
  split at hs
  · cases hs
  -- a structure from the heap, which was in no place before
  rename_i _ b hb
  obtain ⟨rfl, rfl⟩ := Prod.mk.inj (Option.some.inj hs)
  have hnew : ∀ r, b ∉ σ.places hand r := fun r hr => hb ((h.owned.mem_structs b).mpr ⟨r, hr⟩)
  have hmsg : ∀ {c}, c ∈ σ.structs →
      update σ.msgs b { σ.msgs b with type := .dyn } c = σ.msgs c :=
    fun hc => update_of_ne (ne_of_mem_of_not_mem hc hb) _ _
  have hf : Frame σ { σ with
      structs := b :: σ.structs
      msgs := update σ.msgs b { σ.msgs b with type := .dyn } } :=
    ⟨rfl, rfl, rfl, fun c hc => congrArg Msg.entry (hmsg hc)⟩
  refine ⟨⟨⟨?_, fun c => ?_, nodup_cons.mpr ⟨hb, h.owned.nodup⟩, fun c hc => ?_,
    fun c hc => ?_⟩, h.ordered.frame h.owned hf⟩, hf⟩
  · refine h.owned.apart.enter hnew (p := .hand) (.refl _) ?_
    rintro (_ | _ | q | _) hr
    · rfl
    · rfl
    · rfl
    · exact absurd rfl hr
  · rw [mem_cons, h.owned.mem_structs c]
    constructor
    · rintro (rfl | ⟨p, hp⟩)
      · exact ⟨.hand, mem_cons_self⟩
      · rcases p with _ | _ | q | _
        · exact ⟨.free, hp⟩
        · exact ⟨.freeirq, hp⟩
        · exact ⟨.queue q, hp⟩
        · exact ⟨.hand, mem_cons_of_mem b hp⟩
    · rintro ⟨_ | _ | q | _, hp⟩
      · exact .inr ⟨.free, hp⟩
      · exact .inr ⟨.freeirq, hp⟩
      · exact .inr ⟨.queue q, hp⟩
      · rcases mem_cons.mp hp with rfl | hp
        · exact .inl rfl
        · exact .inr ⟨.hand, hp⟩
  · have hc' : c ∈ σ.structs := (h.owned.mem_structs c).mpr ⟨.free, hc⟩
    exact (congrArg Msg.type (hmsg hc')).trans (h.owned.fixed c hc)
  · have hc' : c ∈ σ.structs := (h.owned.mem_structs c).mpr ⟨.freeirq, hc⟩
    exact (congrArg Msg.type (hmsg hc')).trans (h.owned.irq c hc)

/-- **`mq_msgalloc` puts a structure in the hands of its caller.** -/
theorem Ok.mqMsgalloc (h : σ.Ok hand) {malloc : Option ℕ}
    (hs : σ.mqMsgalloc malloc = some (a, σ')) : σ'.Ok (a :: hand) ∧ Frame σ σ' := by
  unfold Store.mqMsgalloc at hs
  split at hs
  · rename_i b l hl
    cases hs
    exact h.takeFree hl
  · exact h.malloced hs

theorem Ok.mqMsgallocIrq (h : σ.Ok hand) (hs : σ.mqMsgallocIrq = some (a, σ')) :
    σ'.Ok (a :: hand) ∧ Frame σ σ' := by
  rw [Store.mqMsgallocIrq] at hs
  split at hs
  · rename_i b l hl
    cases hs
    exact h.takeFree hl
  split at hs
  · rename_i b l hl
    cases hs
    have hf : Frame σ { σ with msgfreeirq := l } := ⟨rfl, rfl, rfl, fun _ _ => rfl⟩
    exact ⟨⟨h.owned.takeFreeirq hl, h.ordered.frame h.owned hf⟩, hf⟩
  · cases hs

/-- **`mq_msgfree` takes a structure from the hands of its caller.** -/
theorem Ok.mqMsgfree (h : σ.Ok (a :: hand)) :
    (σ.mqMsgfree a).Ok hand ∧ Frame σ (σ.mqMsgfree a) := by
  rw [Store.mqMsgfree]
  cases ht : (σ.msgs a).type with
  | fixed =>
    have hf : Frame σ { σ with msgfree := σ.msgfree ++ [a] } := ⟨rfl, rfl, rfl, fun _ _ => rfl⟩
    refine ⟨⟨h.owned.move .hand .free (by rintro ⟨⟩) (.refl _)
      perm_append_comm ?_ rfl (fun _ => rfl) (fun _ => ht) (by rintro ⟨⟩),
      h.ordered.frame h.owned hf⟩, hf⟩
    rintro (_ | _ | q | _) hr hr'
    · exact absurd rfl hr'
    · rfl
    · rfl
    · exact absurd rfl hr
  | irq =>
    have hf : Frame σ { σ with msgfreeirq := σ.msgfreeirq ++ [a] } :=
      ⟨rfl, rfl, rfl, fun _ _ => rfl⟩
    refine ⟨⟨h.owned.move .hand .freeirq (by rintro ⟨⟩)
      (.refl _) perm_append_comm ?_ rfl (fun _ => rfl) (by rintro ⟨⟩) (fun _ => ht),
      h.ordered.frame h.owned hf⟩, hf⟩
    rintro (_ | _ | q | _) hr hr'
    · rfl
    · exact absurd rfl hr'
    · rfl
    · exact absurd rfl hr
  | dyn =>
    -- the structure is in no place any more
    have hf : Frame σ { σ with structs := σ.structs.erase a } := ⟨rfl, rfl, rfl, fun _ _ => rfl⟩
    have hrest : ∀ r : Place κ, r ≠ .hand →
        Store.places { σ with structs := σ.structs.erase a } hand r = σ.places (a :: hand) r := by
      rintro (_ | _ | q | _) hr
      · rfl
      · rfl
      · rfl
      · exact absurd rfl hr
    obtain ⟨hapart, hnone⟩ := h.owned.apart.leave (.refl _) hrest
    refine ⟨⟨⟨hapart, fun b => ?_, h.owned.nodup.erase a, h.owned.fixed, h.owned.irq⟩,
      h.ordered.frame h.owned hf⟩, hf⟩
    rw [h.owned.nodup.mem_erase_iff, h.owned.mem_structs b]
    constructor
    · rintro ⟨hne, _ | _ | q | _, hp⟩
      · exact ⟨.free, hp⟩
      · exact ⟨.freeirq, hp⟩
      · exact ⟨.queue q, hp⟩
      · exact ⟨.hand, (mem_cons.mp hp).resolve_left hne⟩
    · rintro ⟨p, hp⟩
      refine ⟨fun hba => hnone p (hba ▸ hp), ?_⟩
      rcases p with _ | _ | q | _
      · exact ⟨.free, hp⟩
      · exact ⟨.freeirq, hp⟩
      · exact ⟨.queue q, hp⟩
      · exact ⟨.hand, mem_cons_of_mem a hp⟩

/-! ### Into a queue and out of it -/

theorem int16_int16_add (z d : ℤ) : int16 (int16 z + d) = int16 (z + d) := by
  simp only [int16]
  omega

theorem queues_insert (o : Outgoing maxBytes κ) : ((σ.insert a o).queues o.msgq).msglist =
    ahead (fun b => (σ.msgs b).priority) o.prio (σ.queues o.msgq).msglist ++
      a :: behind (fun b => (σ.msgs b).priority) o.prio (σ.queues o.msgq).msglist := by
  simp only [Store.insert, update_self]

theorem queues_insert_of_ne (hq : q ≠ o.msgq) :
    (σ.insert a o).queues q = σ.queues q :=
  update_of_ne hq _ _

theorem perm_insert :
    ((σ.insert a o).queues o.msgq).msglist.Perm (a :: (σ.queues o.msgq).msglist) := by
  rw [queues_insert]
  refine perm_middle.trans ?_
  rw [ahead_append_behind]

theorem nmsgs_insert (o : Outgoing maxBytes κ) :
    ((σ.insert a o).queues o.msgq).nmsgs = int16 ((σ.queues o.msgq).nmsgs + 1) := by
  simp only [Store.insert, update_self]

theorem ops_insert (o : Outgoing maxBytes κ) :
    (σ.insert a o).ops o.msgq = σ.ops o.msgq ++ [.send o.entry] :=
  update_self _ _ _

theorem ops_insert_of_ne (hq : q ≠ o.msgq) :
    (σ.insert a o).ops q = σ.ops q :=
  update_of_ne hq _ _

theorem msgs_insert_self (o : Outgoing maxBytes κ) :
    (σ.insert a o).msgs a = (σ.msgs a).fill o :=
  update_self _ _ _

theorem msgs_insert_of_ne (o : Outgoing maxBytes κ) (hb : b ≠ a) :
    (σ.insert a o).msgs b = σ.msgs b :=
  update_of_ne hb _ _

theorem map_entry_insert (o : Outgoing maxBytes κ) (ha : a ∉ (σ.queues o.msgq).msglist) :
    ((σ.insert a o).queues o.msgq).msglist.map (fun b => ((σ.insert a o).msgs b).entry) =
      PrioList.insert Entry.prio o.entry
        ((σ.queues o.msgq).msglist.map fun b => (σ.msgs b).entry) := by
  have hother : ∀ {l : List ℕ}, (∀ b ∈ l, b ∈ (σ.queues o.msgq).msglist) →
      l.map (fun b => ((σ.insert a o).msgs b).entry) = l.map fun b => (σ.msgs b).entry := by
    intro l hl
    refine map_congr_left fun b hb => ?_
    rw [msgs_insert_of_ne o (ne_of_mem_of_not_mem (hl b hb) ha)]
  have hnew : ((σ.insert a o).msgs a).entry = o.entry := by
    rw [msgs_insert_self, Msg.entry_fill]
  have hall := ahead_append_behind (fun b => (σ.msgs b).priority) o.prio
    (σ.queues o.msgq).msglist
  rw [queues_insert, map_append, map_cons, hnew, hother fun b hb => hall ▸ mem_append_left _ hb,
    hother fun b hb => hall ▸ mem_append_right _ hb, PrioList.insert]
  simp only [ahead, behind, takeWhile_map, dropWhile_map]
  rfl

/-- **The first part of `mq_dosend`** puts the structure from the hands in the list. -/
theorem Ok.insert (h : σ.Ok (a :: hand)) (o : Outgoing maxBytes κ) : (σ.insert a o).Ok hand := by
  have ha : ∀ q, a ∉ (σ.queues q).msglist := h.owned.not_mem_msglist mem_cons_self
  constructor
  · refine h.owned.move .hand (.queue o.msgq) (by rintro ⟨⟩)
      (.refl _) perm_insert ?_ rfl (fun b => ?_) (by rintro ⟨⟩) (by rintro ⟨⟩)
    · rintro (_ | _ | q | _) hr hr'
      · rfl
      · rfl
      · exact congrArg Msgq.msglist (queues_insert_of_ne fun hq => hr' (congrArg Place.queue hq))
      · exact absurd rfl hr
    · rcases eq_or_ne b a with rfl | hb
      · rw [msgs_insert_self]
        rfl
      · rw [msgs_insert_of_ne o hb]
  · refine ⟨fun q => ?_, fun q => ?_, fun q => ?_⟩
    · rcases eq_or_ne q o.msgq with rfl | hq
      · rw [map_entry_insert o (ha _), h.ordered.contents, ops_insert,
          PrioQueue.outstanding_append_send, insertAll_append]
        rfl
      · rw [queues_insert_of_ne hq, ops_insert_of_ne hq, ← h.ordered.contents q]
        refine map_congr_left fun b hb => ?_
        rw [msgs_insert_of_ne o (ne_of_mem_of_not_mem hb (ha q))]
    · rcases eq_or_ne q o.msgq with rfl | hq
      · rw [ops_insert]
        exact (h.ordered.legal _).send
      · rw [ops_insert_of_ne hq]
        exact h.ordered.legal q
    · rcases eq_or_ne q o.msgq with rfl | hq
      · rw [nmsgs_insert, h.ordered.nmsgs, perm_insert.length_eq, int16_int16_add]
        rfl
      · rw [queues_insert_of_ne hq]
        exact h.ordered.nmsgs q

theorem exists_of_remfirst (hs : σ.remfirst q = some (a, σ')) :
    ∃ l, (σ.queues q).msglist = a :: l ∧ σ' = { σ with
      queues := update σ.queues q { σ.queues q with
        msglist := l
        nmsgs := int16 ((σ.queues q).nmsgs - 1) }
      ops := update σ.ops q (σ.ops q ++ [.receive (σ.msgs a).entry]) } := by
  rw [Store.remfirst] at hs
  split at hs
  · cases hs
  · rename_i b l hl
    cases hs
    exact ⟨l, hl, rfl⟩

/-- **`mq_waitreceive` takes the message that a receive has to return.** -/
theorem Ok.remfirst (h : σ.Ok hand) (hs : σ.remfirst q = some (a, σ')) : σ'.Ok (a :: hand) := by
  obtain ⟨l, hl, rfl⟩ := exists_of_remfirst hs
  have hcontents := h.ordered.contents q
  rw [hl] at hcontents
  obtain ⟨hfirst, hrest⟩ := PrioQueue.first_of_insertAll hcontents.symm
  constructor
  · refine h.owned.move (.queue q) .hand (by rintro ⟨⟩) ?_
      (.refl _) ?_ rfl (fun _ => rfl) (by rintro ⟨⟩) (by rintro ⟨⟩)
    · simp only [Store.places, hl, update_self]
      exact .refl _
    · rintro (_ | _ | q' | _) hr hr'
      · rfl
      · rfl
      · exact congrArg Msgq.msglist
          (update_of_ne (fun hq => hr (congrArg Place.queue hq)) _ _)
      · exact absurd rfl hr'
  · refine ⟨fun q' => ?_, fun q' => ?_, fun q' => ?_⟩
    · rcases eq_or_ne q' q with rfl | hq
      · simp only [update_self, PrioQueue.outstanding_append_receive, hrest]
      · simp only [update_of_ne hq]
        exact h.ordered.contents q'
    · rcases eq_or_ne q' q with rfl | hq
      · simp only [update_self]
        exact (h.ordered.legal _).receive hfirst
      · simp only [update_of_ne hq]
        exact h.ordered.legal q'
    · rcases eq_or_ne q' q with rfl | hq
      · simp only [update_self]
        rw [h.ordered.nmsgs, hl, length_cons, Int.sub_eq_add_neg, int16_int16_add]
        congr 1
        omega
      · simp only [update_of_ne hq]
        exact h.ordered.nmsgs q'

/-- **The first part of `mq_doreceive`** frees the structure in the hands. -/
theorem Ok.deliver (h : σ.Ok (a :: hand)) :
    (σ.deliver q a).Ok hand ∧ (σ.deliver q a).queues = σ.queues ∧
      (σ.deliver q a).ops = σ.ops ∧
      (σ.deliver q a).returned =
        update σ.returned q (σ.returned q ++ [(σ.msgs a).entry]) := by
  have h' : Ok { σ with
      returned := update σ.returned q (σ.returned q ++ [(σ.msgs a).entry]) }
      (a :: hand) := by
    refine ⟨{ h.owned with apart := ?_, mem_structs := ?_ },
      { h.ordered with }⟩
    · exact h.owned.apart
    · exact h.owned.mem_structs
  obtain ⟨hok, hf⟩ := h'.mqMsgfree
  exact ⟨hok, hf.queues, hf.ops, hf.returned⟩

theorem queues_setNotification (q q' : κ) (n : Option (Notification τ)) :
    ((σ.setNotification q n).queues q').nmsgs = (σ.queues q').nmsgs ∧
      ((σ.setNotification q n).queues q').maxmsgs = (σ.queues q').maxmsgs ∧
      ((σ.setNotification q n).queues q').msglist = (σ.queues q').msglist := by
  rcases eq_or_ne q' q with rfl | hq
  · simp only [Store.setNotification, update_self, and_self]
  · simp only [Store.setNotification, update_of_ne hq, and_self]

theorem Ok.setNotification (h : σ.Ok hand) (n : Option (Notification τ)) :
    (σ.setNotification q n).Ok hand := by
  have hqueues := fun q' => queues_setNotification (σ := σ) q q' n
  have hplaces : (σ.setNotification q n).places hand = σ.places hand := by
    funext p
    rcases p with _ | _ | q' | _
    · rfl
    · rfl
    · exact (hqueues q').2.2
    · rfl
  refine ⟨⟨?_, ?_, h.owned.nodup, ?_, ?_⟩, h.ordered.congr (fun q' => (hqueues q').2.2)
    (fun q' => (hqueues q').1) rfl fun _ _ _ => rfl⟩
  · exact hplaces ▸ h.owned.apart
  · rw [hplaces]
    exact h.owned.mem_structs
  · exact h.owned.fixed
  · exact h.owned.irq

end Store

end GreenboneFeeder.Mqueue

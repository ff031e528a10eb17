import GreenboneFeeder.Pipes.Model

/-!
# A pipe is a queue of bytes

The circular buffer of the pipe holds what was stored and not yet returned (`Pipes.Pipe.Ok`). A pass
stores or returns bytes in order, and every interleaving of passes keeps this. But the loop of
`pipecommon_write` stores a byte before it looks at the length, so a write of no bytes stores one.
-/

namespace GreenboneFeeder.Pipes

open Option

open GreenboneFeeder.Ring

variable {τ : Type} {N : ℕ} {w : Writing}

/-! ### The pipe -/

/-- **The pipe holds what was stored and not yet returned**, between two indices of its
buffer. -/
structure Pipe.Ok (N : ℕ) (p : Pipe) : Prop where
  rdndx : p.rdndx < N
  wrndx : p.wrndx < N
  stored : p.stored = p.returned ++ content N p.buffer p.rdndx p.wrndx

namespace Pipe.Ok

variable {p : Pipe}

theorem put (h : p.Ok N) (hroom : next N p.wrndx ≠ p.rdndx) (b : UInt8) :
    (p.put (next N p.wrndx) b).Ok N where
  rdndx := h.rdndx
  wrndx := next_lt (Nat.zero_lt_of_lt h.wrndx)
  stored := by
    rw [Pipe.put, content_push h.rdndx h.wrndx hroom, h.stored, List.append_assoc]

theorem get (h : p.Ok N) (hne : p.wrndx ≠ p.rdndx) : (p.get N).Ok N where
  rdndx := next_lt (Nat.zero_lt_of_lt h.rdndx)
  wrndx := h.wrndx
  stored := by
    rw [Pipe.get]
    rw [h.stored, content_pop h.rdndx h.wrndx hne, List.append_assoc]
    rfl

/-- **The loop of a reader ends**, and leaves the pipe in order. -/
theorem readLoop (len : ℕ) :
    ∀ (fuel : ℕ) {p : Pipe} (nread : ℕ), p.Ok N → used N p.rdndx p.wrndx < fuel →
      ∃ p', p.readLoop N len fuel nread = some p' ∧ p'.Ok N
  | 0, _, _, _, hfuel => absurd hfuel (Nat.not_lt_zero _)
  | fuel + 1, p, nread, h, hfuel => by
    rw [Pipe.readLoop]
    split
    · rename_i hc
      -- one byte less is left
      have hpop : content N p.buffer p.rdndx p.wrndx = _ :=
        content_pop h.rdndx h.wrndx hc.2
      have hlen := congrArg List.length hpop
      simp only [length_content, List.length_cons] at hlen
      refine readLoop len fuel (nread + 1) (h.get hc.2) ?_
      show used N (next N p.rdndx) p.wrndx < fuel
      omega
    · exact ⟨p, rfl, h⟩

end Pipe.Ok

/-! ### A call of the writer -/

/-- The first `n` bytes of the buffer of the call. -/
def Writing.firstBytes (w : Writing) (n : ℕ) : List UInt8 := (List.range n).map w.buffer

/-- A call has stored the bytes that it counts. -/
def Writing.Counted (w : Writing) : Prop := w.stored = w.firstBytes w.nwritten

/-- **A call in progress**: it has bytes left to store, or has not stored its first one. -/
structure Writing.Ok (w : Writing) : Prop where
  counted : w.Counted
  unfinished : w.nwritten < max 1 w.len

/-- **The loop of a writer ends**: with all bytes of the call stored, though at least one, or
with a full pipe. -/
theorem Pipe.Ok.writeLoop :
    ∀ (fuel : ℕ) {p : Pipe} {w : Writing}, p.Ok N → w.Ok →
      N ≤ used N p.rdndx p.wrndx + fuel →
      ∃ p' w' e, p.writeLoop N fuel w = some (p', w', e) ∧ p'.Ok N ∧
        (e = .complete → w'.Counted ∧ w'.nwritten = max 1 w'.len) ∧ (e = .full → w'.Ok)
  | 0, p, w, h, _, hfuel => by
    have hlt := used_lt h.rdndx h.wrndx
    omega
  | fuel + 1, p, w, h, hw, hfuel => by
    rw [Pipe.writeLoop]
    dsimp only
    split
    · rename_i hroom
      have hput := h.put hroom (w.buffer w.nwritten)
      have hcounted : Writing.Counted { w with
          nwritten := w.nwritten + 1, stored := w.stored ++ [w.buffer w.nwritten] } := by
        have hw := hw.counted
        rw [Writing.Counted, Writing.firstBytes] at hw ⊢
        rw [List.range_succ, List.map_append, ← hw]
        rfl
      have hun := hw.unfinished
      split
      · rename_i hdone
        refine ⟨_, _, _, rfl, hput, fun _ => ⟨hcounted, ?_⟩, fun he => nomatch he⟩
        dsimp only at hdone ⊢
        omega
      · rename_i hmore
        refine writeLoop fuel hput ⟨hcounted, ?_⟩ ?_
        · dsimp only at hmore ⊢
          omega
        · have hused := used_next h.rdndx h.wrndx hroom
          show N ≤ used N p.rdndx (next N p.wrndx) + fuel
          omega
    · exact ⟨p, w, .full, rfl, h, (fun he => nomatch he), fun _ => hw⟩

/-! ### The system -/

/-- The call that a task is in, if it is in one of the writer. -/
def Task.writing : Task → Option Writing
  | .writeWait w | .writeAgain w | .writeWoken w => some w
  | _ => none

/-- **What a write that returned has stored**: the first `n` bytes of its buffer when it returns
`n`, exactly if it was to write any. -/
def Written.Ok (r : Written) : Prop :=
  0 ≤ r.result → (r.call.stored = r.call.firstBytes r.result.toNat ↔ 0 < r.call.len)

/-- **The system is in order.** -/
structure Sys.Ok (N : ℕ) (s : Sys τ) : Prop where
  pipe : s.pipe.Ok N
  writing : ∀ t w, (s.task t).writing = some w → w.Ok
  writes : ∀ r ∈ s.writes, r.Ok

namespace Sys.Ok

variable {s : Sys τ} {t : τ}

theorem setTask [DecidableEq τ] (h : s.Ok N) {c : Task} (hc : ∀ w, c.writing = some w → w.Ok) :
    (s.setTask t c).Ok N where
  pipe := h.pipe
  writing t' w hw := by
    rw [Sys.setTask] at hw
    dsimp only at hw
    rcases eq_or_ne t' t with rfl | hne
    · rw [Function.update_self] at hw
      exact hc w hw
    · rw [Function.update_of_ne hne] at hw
      exact h.writing t' w hw
  writes := h.writes

theorem setPipe (h : s.Ok N) {p : Pipe} (hp : p.Ok N) : { s with pipe := p }.Ok N :=
  { h with pipe := hp }

theorem notifyReaders (h : s.Ok N) : s.notifyReaders.Ok N where
  pipe := h.pipe
  writing t w hw := by
    refine h.writing t w ?_
    rw [← hw]
    show _ = (s.task t).notifyReader.writing
    cases s.task t <;> rfl
  writes := h.writes

theorem notifyWriters (h : s.Ok N) : s.notifyWriters.Ok N where
  pipe := h.pipe
  writing t w hw := by
    refine h.writing t w ?_
    rw [← hw]
    show _ = (s.task t).notifyWriter.writing
    cases s.task t <;> rfl
  writes := h.writes

theorem writeReturns [DecidableEq τ] (h : s.Ok N) {n : ℤ}
    (hr : Written.Ok { call := w, result := n }) : (s.writeReturns t w n).Ok N := by
  have h' : Sys.Ok N { s with writes := s.writes ++ [{ call := w, result := n }] } := by
    refine { h with writes := fun r hr' => ?_ }
    rcases List.mem_append.mp hr' with hr' | hr'
    · exact h.writes r hr'
    · rw [List.mem_singleton.mp hr']
      exact hr
  exact h'.setTask fun w hw => nomatch hw

/-- **A pass of a reader** can be made, and keeps the system in order. -/
theorem readPass [DecidableEq τ] (h : s.Ok N) (nonblock : Bool) (t : τ) (len : ℕ) :
    ∃ s', s.readPass N nonblock t len = some s' ∧ s'.Ok N := by
  rw [Sys.readPass]
  split
  · split
    · exact ⟨_, rfl, h.setTask fun w hw => nomatch hw⟩
    split
    · exact ⟨_, rfl, h.setTask fun w hw => nomatch hw⟩
    · exact ⟨_, rfl, h.setTask fun w hw => nomatch hw⟩
  · obtain ⟨p, hp, hok⟩ := Pipe.Ok.readLoop len N 0 h.pipe
      (used_lt h.pipe.rdndx h.pipe.wrndx)
    rw [hp]
    exact ⟨_, rfl, (h.setPipe hok).notifyWriters.setTask fun w hw => nomatch hw⟩

end Sys.Ok

theorem Writing.firstBytes_inj {m n : ℕ} :
    w.firstBytes m = w.firstBytes n ↔ m = n := by
  constructor
  · intro h
    simpa [Writing.firstBytes] using congrArg List.length h
  · rintro rfl
    rfl

theorem Written.ok_of_complete (hc : w.Counted) (hn : w.nwritten = max 1 w.len) :
    Written.Ok { call := w, result := w.len } := by
  intro _
  dsimp only
  rw [hc, Writing.firstBytes_inj]
  omega

theorem Written.ok_of_full (hw : w.Ok) :
    Written.Ok { call := w, result := if w.nwritten = 0 then -eagain else w.nwritten } := by
  have hun := hw.unfinished
  intro hpos
  dsimp only at hpos ⊢
  split at hpos
  · exact absurd hpos (by decide)
  · rename_i hne
    rw [if_neg hne, hw.counted]
    exact iff_of_true rfl (by omega)

/-- **A pass of a writer** can be made, and keeps the system in order. -/
theorem Sys.Ok.writePass [DecidableEq τ] {s : Sys τ} (h : s.Ok N) (nonblock : Bool) (t : τ)
    (hw : w.Ok) : ∃ s', s.writePass N nonblock t w = some s' ∧ s'.Ok N := by
  obtain ⟨p, w', e, hloop, hp, hcomplete, hfull⟩ :=
    Pipe.Ok.writeLoop N h.pipe hw (Nat.le_add_left N _)
  rw [Sys.writePass, hloop]
  cases e with
  | complete =>
    obtain ⟨hc, hn⟩ := hcomplete rfl
    exact ⟨_, rfl, (h.setPipe hp).notifyReaders.writeReturns (Written.ok_of_complete hc hn)⟩
  | full =>
    have hw' : Writing.Ok { w' with last := w'.nwritten } :=
      ⟨(hfull rfl).counted, (hfull rfl).unfinished⟩
    have hs : (if w'.last < w'.nwritten then { s with pipe := p }.notifyReaders
        else { s with pipe := p }).Ok N := by
      split
      · exact (h.setPipe hp).notifyReaders
      · exact h.setPipe hp
    cases nonblock with
    | true => exact ⟨_, rfl, hs.writeReturns (Written.ok_of_full hw')⟩
    | false =>
      refine ⟨_, rfl, hs.setTask fun w hw => ?_⟩
      rw [← some.inj hw]
      exact hw'

/-! ### Runs -/

section Runs

theorem Sys.ok_init (hN : 0 < N) {nwriters : ℕ} {buffer : ℕ → UInt8} :
    (Sys.init τ nwriters buffer).Ok N where
  pipe := ⟨hN, hN, by simp [Sys.init, content_self]⟩
  writing _ _ hw := nomatch hw
  writes _ hr := nomatch hr

theorem Sys.Ok.writing_of_task {s : Sys τ} {t : τ} {c : Task} (h : s.Ok N)
    (ht : s.task t = c) (hc : c.writing = some w) : w.Ok :=
  h.writing t w (ht ▸ hc)

variable [DecidableEq τ]

/-- **Every event keeps the system in order.** -/
theorem Sys.Ok.step {s s' : Sys τ} (h : s.Ok N) (e : Event τ) (hs : s.step N e = some s') :
    s'.Ok N := by
  cases e with
  | read t len nonblock =>
    rw [Sys.step] at hs
    split at hs
    · obtain ⟨_, hpass, hok⟩ := h.readPass nonblock t len
      exact some.inj (hpass.symm.trans hs) ▸ hok
    · exact nomatch hs
  | write t buffer len nonblock =>
    rw [Sys.step] at hs
    split at hs
    · have hw : Writing.Ok { buffer := buffer, len := len } := ⟨rfl, by dsimp only; omega⟩
      obtain ⟨_, hpass, hok⟩ := h.writePass nonblock t hw
      exact some.inj (hpass.symm.trans hs) ▸ hok
    · exact nomatch hs
  | resume t nonblock =>
    rw [Sys.step] at hs
    split at hs
    · obtain ⟨_, hpass, hok⟩ := h.readPass nonblock t _
      exact some.inj (hpass.symm.trans hs) ▸ hok
    · rename_i ht
      obtain ⟨_, hpass, hok⟩ := h.writePass nonblock t (h.writing_of_task ht rfl)
      exact some.inj (hpass.symm.trans hs) ▸ hok
    · rename_i ht
      cases hs
      exact h.setTask fun w hw => some.inj hw ▸ h.writing_of_task ht rfl
    · exact nomatch hs
  | interrupt t =>
    rw [Sys.step] at hs
    split at hs
    · cases hs
      exact h.setTask fun w hw => nomatch hw
    · cases hs
      exact h.setTask fun w hw => nomatch hw
    · rename_i ht
      cases hs
      exact h.setTask fun w hw => some.inj hw ▸ h.writing_of_task ht rfl
    · exact some.inj hs ▸ h
    · exact some.inj hs ▸ h
    · exact nomatch hs
  | writers n wake =>
    cases hs
    have h' : Sys.Ok N { s with pipe := { s.pipe with nwriters := n } } :=
      h.setPipe { h.pipe with }
    split
    · exact h'.notifyReaders
    · exact h'

/-- **Pipes are queues of bytes.** In every interleaving, what the reads returned is the beginning
of what the writes stored, the buffer always has a free slot; and a write that returns `n ≥ 0` has
stored exactly the first `n` bytes of its buffer, except for a write of no bytes, which stores one.
-/
theorem pipe_fifo (hN : 2 ≤ N) (nwriters : ℕ) (buffer : ℕ → UInt8) (es : List (Event τ))
    {s : Sys τ} (hr : Run.run (Sys.step N) (Sys.init τ nwriters buffer) es = some s) :
    (s.pipe.returned <+: s.pipe.stored ∧ s.pipe.rdndx < N ∧ s.pipe.wrndx < N ∧
      (content N s.pipe.buffer s.pipe.rdndx s.pipe.wrndx).length ≤ N - 1) ∧
    ∀ r ∈ s.writes, 0 ≤ r.result →
      (r.call.stored = r.call.firstBytes r.result.toNat ↔ 0 < r.call.len) := by
  have h : s.Ok N := Run.invariant (fun _ e _ h hs => Sys.Ok.step h e hs) es
    (Sys.ok_init (by omega)) hr
  refine ⟨⟨?_, h.pipe.rdndx, h.pipe.wrndx, ?_⟩, h.writes⟩
  · rw [h.pipe.stored]
    exact List.prefix_append _ _
  · have hlt := used_lt h.pipe.rdndx h.pipe.wrndx
    rw [length_content]
    omega

end Runs

/-- A writer of three bytes and a reader share a buffer of three slots: the writer waits,
is woken by the reader, and goes on. -/
def interleaving : List (Event Bool) :=
  [.write true (fun i => 10 + i.toUInt8) 3 false, .read false 5 false, .resume true false,
    .read false 1 true]

theorem pipe_fifo_interleaving :
    ∃ s, Run.run (Sys.step 3) (Sys.init Bool 1 fun _ => 0) interleaving = some s ∧
      s.pipe.returned = [10, 11, 12] ∧ s.pipe.returned <+: s.pipe.stored ∧
      s.writes.map Written.result = [3] ∧
      ∀ r ∈ s.writes, 0 ≤ r.result →
        (r.call.stored = r.call.firstBytes r.result.toNat ↔ 0 < r.call.len) := by
  refine Run.exists_eq_some (P := fun s => s.pipe.returned = [10, 11, 12] ∧
    s.writes.map Written.result = [3]) (by decide) fun s hs ⟨hret, hres⟩ => ?_
  obtain ⟨⟨hpre, -⟩, hwrites⟩ := pipe_fifo (by decide) 1 (fun _ => 0) interleaving hs
  exact ⟨hret, hpre, hres, hwrites⟩

/-- **A write of no bytes stores one**: it returns `0`, and the byte after the end of its
buffer can be read. -/
theorem write_none_stores :
    ∃ s, Run.run (Sys.step 2) (Sys.init Unit 1 fun _ => 0)
        [.write () (fun _ => 7) 0 false, .read () 1 false] = some s ∧
      s.pipe.returned = [7] ∧
      ∃ r ∈ s.writes, r.call.len = 0 ∧ r.result = 0 ∧
        r.call.stored ≠ r.call.firstBytes r.result.toNat :=
  Run.exists_eq_some (by decide) fun _ _ h => h

/-! ### Polling -/

theorem writeLoop_one {p : Pipe} (hN : 0 < N) (bytes : ℕ → UInt8) :
    (∃ p' w', p.writeLoop N N { buffer := bytes, len := 1 } = some (p', w', .complete)) ↔
      next N p.wrndx ≠ p.rdndx := by
  obtain ⟨n, rfl⟩ := Nat.exists_eq_add_one.mpr hN
  rw [Pipe.writeLoop]
  by_cases hroom : next (n + 1) p.wrndx = p.rdndx <;> simp [hroom]

/-- **What a poll reports.** `POLLIN` is offered if and only if a byte is buffered and `POLLOUT` if
and only if one more can be stored, unless the buffer wraps around and is full or holds one byte. -/
theorem poll_iff [DecidableEq τ] (hN : 2 ≤ N) (nwriters : ℕ) (buffer bytes : ℕ → UInt8)
    (es : List (Event τ)) {s : Sys τ}
    (hr : Run.run (Sys.step N) (Sys.init τ nwriters buffer) es = some s) :
    (((s.pipe.pipecommonPoll N).1 = true ↔
        content N s.pipe.buffer s.pipe.rdndx s.pipe.wrndx ≠ []) ∧
      ((s.pipe.pipecommonPoll N).2 = true ↔
        ∃ p w, s.pipe.writeLoop N N { buffer := bytes, len := 1 } = some (p, w, .complete))) ↔
    (s.pipe.wrndx < s.pipe.rdndx →
      s.pipe.wrndx + 1 ≠ s.pipe.rdndx ∧ s.pipe.wrndx + N ≠ s.pipe.rdndx + 1) := by
  have h : s.Ok N := Run.invariant (fun _ e _ h hs => Sys.Ok.step h e hs) es
    (Sys.ok_init (by omega)) hr
  have hrd := h.pipe.rdndx
  have hwr := h.pipe.wrndx
  rw [writeLoop_one (by omega), ne_eq, ← List.length_eq_zero_iff, length_content, used, next,
    Pipe.pipecommonPoll]
  simp only [decide_eq_true_eq]
  split_ifs <;> omega

theorem poll_iff_wrapped :
    ∃ s, Run.run (Sys.step 5) (Sys.init Unit 1 fun _ => 0) [.write () (fun _ => 7) 4 false,
        .read () 3 false, .write () (fun _ => 8) 2 false] = some s ∧
      s.pipe.wrndx = 1 ∧ s.pipe.rdndx = 3 ∧
      ((s.pipe.pipecommonPoll 5).1 = true ↔
        content 5 s.pipe.buffer s.pipe.rdndx s.pipe.wrndx ≠ []) ∧
      ((s.pipe.pipecommonPoll 5).2 = true ↔
        ∃ p w, s.pipe.writeLoop 5 5 { buffer := fun _ => 9, len := 1 } = some (p, w, .complete)) :=
  Run.exists_eq_some (P := fun s => s.pipe.wrndx = 1 ∧ s.pipe.rdndx = 3) (by decide)
    fun _ hs ⟨hwr, hrd⟩ => ⟨hwr, hrd, (poll_iff (by decide) 1 (fun _ => 0) (fun _ => 9) _ hs).mpr
      fun _ => by omega⟩

/-- **A full pipe is reported as empty.** In a buffer of two slots the byte that is left lies across
the end. -/
theorem full_polled_empty :
    ∃ s, Run.run (Sys.step 2) (Sys.init Unit 1 fun _ => 0)
        [.write () (fun _ => 7) 1 false, .read () 1 false, .write () (fun _ => 8) 1 false] =
          some s ∧
      s.pipe.pipecommonPoll 2 = (false, true) ∧
      content 2 s.pipe.buffer s.pipe.rdndx s.pipe.wrndx = [8] ∧
      next 2 s.pipe.wrndx = s.pipe.rdndx :=
  Run.exists_eq_some (by decide) fun _ _ h => h

end GreenboneFeeder.Pipes

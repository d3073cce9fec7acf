import Xv6.Trace.Attribution
import Xv6.Trace.Program

/-!
# What the `trace` program is handed

While the program draws it makes system calls, and none of them records an event (`quiet`). The
records that it can be handed are the unread ones of the ring it started with, then those recorded
since, in that order: `Stream` says how much of that sequence is still in the ring.
-/

namespace Xv6.Trace

open List

/-! ## Calls that record nothing -/

/-- The calls that the loop makes. -/
def SysCall.loops : SysCall → Bool
  | .traceread _ | .vidclear | .vidputs .. | .uptime | .sleep _ => true
  | .getpid | .write .. => false

/-- The calls that draw. -/
def SysCall.draws : SysCall → Bool
  | .vidclear | .vidputs .. => true
  | _ => false

theorem SysCall.quiet_of_loops {c : SysCall} (h : c.loops = true) : c.num ∈ quiet := by
  cases c <;> first | (cases h; done) | simp [SysCall.num, quiet]

theorem SysCall.loops_of_draws {c : SysCall} (h : c.draws = true) : c.loops = true := by
  cases c <;> first | (cases h; done) | rfl

section
variable {row col color : Nat} {val : UInt32} {event : TraceEvent}

@[simp] theorem vidclear_draws : SysCall.draws .vidclear = true := rfl

@[simp] theorem vidputs_draws {s : List UInt8} : SysCall.draws (.vidputs row col s color) = true :=
  rfl

@[simp] theorem text_draws {s : String} : (vidputs row col s color).draws = true := rfl

@[simp] theorem drawnum_draws : (drawnum row col val color).all SysCall.draws = true := rfl

@[simp] theorem drawhex_draws : (drawhex row col val color).all SysCall.draws = true := rfl

@[simp] theorem drawdetails_draws : (drawdetails row event).all SysCall.draws = true := by
  unfold drawdetails
  split
  · simp
  · split
    · simp
    · split
      · simp
      · split <;> simp

@[simp] theorem draweventrow_draws : (draweventrow row event).all SysCall.draws = true := by
  simp [draweventrow]

@[simp] theorem drawcounts_draws {title : String} {c : Counts} :
    (drawcounts row title c).all SysCall.draws = true := by
  simp [drawcounts]

end

theorem drawBoard_draws (o : Options) (b : Board) : (drawBoard o b).all SysCall.draws = true := by
  have hpid : (if o.filter_pid = -1 then [vidputs 0 58 "all" COLOR_NORMAL]
      else drawnum 0 58 o.filter_pid COLOR_NORMAL).all SysCall.draws = true := by
    split <;> rfl
  have hlimit : (if o.limit = 0 then vidputs 0 72 "ONESHOT" COLOR_YELLOW
      else vidputs 0 72 "LIVE" COLOR_GREEN).draws = true := by
    split <;> rfl
  simpa [drawBoard, hlimit] using hpid

namespace Machine

variable {w : World} {me : Who} {m : Machine} {c : SysCall} {cs : List SysCall}

theorem leave_of_quiet (h : c.num ∈ quiet) (rax : Int) : m.leave w me c rax = m := by
  have hcall : ∀ latency ticks,
      (Site.syscall c.num (UInt64.ofInt rax) latency).call ticks (some me) = none := by
    intro latency ticks
    simp [Site.call, h]
  simp only [leave, hcall]

theorem syscall_of_quiet (h : c.num ∈ quiet) : m.syscall w me c = m.enter w c :=
  leave_of_quiet h _

end Machine

/-! ## The records that there are to hand out -/

/-- The ring holds the last of the records that were unread in `b` or were recorded since; `j` of
them have left it. -/
structure Stream (b : TraceBuffer) (m : Machine) (j : Nat) : Prop where
  valid : m.buf.Valid
  queue : m.buf.queue = (b.queue ++ m.recorded).drop j
  le : j ≤ b.unread + m.recorded.length
  seq : m.buf.seq = b.seq + UInt32.ofNat m.recorded.length
  numbered : ∀ i e, m.recorded[i]? = some e → e.seq = b.seq + UInt32.ofNat i

namespace Stream

variable {b : TraceBuffer} {m : Machine} {j k : Nat} {e : TraceEvent} {q : List TraceEvent}

theorem init (h : b.Valid) (calls : List SysCall) (delivered : List TraceEvent) :
    Stream b ⟨b, calls, [], delivered⟩ 0 where
  valid := h
  queue := by simp
  le := Nat.zero_le _
  seq := by simp
  numbered := by simp

theorem unread (h : Stream b m j) : m.buf.unread = b.unread + m.recorded.length - j := by
  rw [← TraceBuffer.length_queue, h.queue, length_drop, length_append,
    TraceBuffer.length_queue]

theorem ge (h : Stream b m j) : b.unread + m.recorded.length - TRACE_BUF_SIZE ≤ j := by
  have hwin := h.valid.window
  rw [h.unread] at hwin
  omega

theorem record (h : Stream b m j) (c : Call) :
    Stream b (m.record c) (j + (b.unread + m.recorded.length - j + 1 - TRACE_BUF_SIZE)) where
  valid := h.valid.event c
  queue := by
    have hdrop : (b.queue ++ m.recorded ++ [c.record m.buf.seq m.buf.overwritten]).drop j =
        (b.queue ++ m.recorded).drop j ++ [c.record m.buf.seq m.buf.overwritten] :=
      drop_append_of_le_length
        (by rw [length_append, TraceBuffer.length_queue]; exact h.le)
    rw [Machine.record, h.valid.queue_event, h.queue, h.unread, ← hdrop, drop_drop,
      append_assoc]
  le := by
    have := h.le
    have hpos : 0 < TRACE_BUF_SIZE := by decide
    simp only [Machine.record, length_append, length_singleton]
    omega
  seq := by
    obtain ⟨l, lost, -, heq⟩ := h.valid.traceevent_eq c
    simp only [Machine.record, heq, length_append, length_singleton, UInt32.ofNat_add,
      ← UInt32.add_assoc, ← h.seq]
    rfl
  numbered i e he := by
    simp only [Machine.record] at he
    rcases Nat.lt_trichotomy i m.recorded.length with hi | rfl | hi
    · rw [List.getElem?_append_left hi] at he
      exact h.numbered i e he
    · rw [List.getElem?_append_right (Nat.le_refl _), Nat.sub_self] at he
      cases he
      exact h.seq
    · rw [List.getElem?_eq_none (by simp; omega)] at he
      cases he

theorem skip (h : Stream b m j) (hk : k ≤ m.buf.unread) (calls : List SysCall)
    (delivered : List TraceEvent) :
    Stream b ⟨m.buf.skip k, calls, m.recorded, delivered⟩ (j + k) where
  valid := h.valid.skip hk
  queue := by rw [TraceBuffer.queue_skip hk, h.queue, drop_drop]
  le := by
    rw [h.unread] at hk
    have := h.le
    dsimp only
    omega
  seq := h.seq
  numbered := h.numbered

theorem head (h : Stream b m j) (hq : m.buf.queue = e :: q) :
    e ∈ b.queue.drop j ∨ e ∈ m.recorded := by
  have hmem : e ∈ (b.queue ++ m.recorded).drop j := by
    rw [← h.queue, hq]
    exact mem_cons_self
  rw [drop_append, mem_append] at hmem
  exact hmem.imp_right mem_of_mem_drop

end Stream

/-! ## What others may do -/

/-- From `m` to `m'` records may be added and may leave the ring, nothing else. -/
def Goes (b : TraceBuffer) (m m' : Machine) : Prop :=
  ∀ j, Stream b m j → m.recorded <+: m'.recorded ∧ ∃ j', j ≤ j' ∧ Stream b m' j'

namespace Goes

variable {b : TraceBuffer} {m m' m'' : Machine}

theorem refl : Goes b m m := fun j h => ⟨prefix_rfl, j, Nat.le_refl j, h⟩

theorem trans (h : Goes b m m') (h' : Goes b m' m'') : Goes b m m'' := by
  intro j hj
  obtain ⟨hp, j', hle, hj'⟩ := h j hj
  obtain ⟨hp', j'', hle', hj''⟩ := h' j' hj'
  exact ⟨hp.trans hp', j'', Nat.le_trans hle hle', hj''⟩

theorem of_eq (hbuf : m'.buf = m.buf) (hrec : m'.recorded = m.recorded) : Goes b m m' := by
  intro j h
  refine ⟨by rw [hrec], j, Nat.le_refl j, ?_⟩
  constructor
  · rw [hbuf]; exact h.valid
  · rw [hbuf, hrec]; exact h.queue
  · rw [hrec]; exact h.le
  · rw [hbuf, hrec]; exact h.seq
  · rw [hrec]; exact h.numbered

theorem record (c : Call) : Goes b m (m.record c) := fun _ h =>
  ⟨prefix_append .., _, Nat.le_add_right .., h.record c⟩

theorem skip {k : Nat} (hk : k ≤ m.buf.unread) (calls : List SysCall) (delivered : List TraceEvent) :
    Goes b m ⟨m.buf.skip k, calls, m.recorded, delivered⟩ := fun _ h =>
  ⟨prefix_rfl, _, Nat.le_add_right .., h.skip hk calls delivered⟩

theorem other (x : Other) : Goes b m (m.other x) := by
  cases x with
  | event c => exact .record c
  | read copied max_events =>
    obtain ⟨k, hk, heq⟩ := traceread_buf copied max_events m.buf
    rw [Machine.other, heq]
    exact .skip hk m.calls m.delivered

theorem others (xs : List Other) : Goes b m (xs.foldl Machine.other m) := by
  induction xs generalizing m with
  | nil => exact .refl
  | cons x xs ih => exact (other x).trans ih

end Goes

/-! ## What the program makes the machine do -/

/-- The parts of a system call. -/
inductive Moves (w : World) (me : Who) : Machine → Machine → Prop
  | enter (m : Machine) (c : SysCall) : Moves w me m (m.enter w c)
  | leave (m : Machine) (c : SysCall) (rax : Int) : Moves w me m (m.leave w me c rax)
  | deliver {m : Machine} {e : TraceEvent} {q : List TraceEvent} : m.buf.queue = e :: q →
      Moves w me m { m with buf := m.buf.skip 1, delivered := m.delivered ++ [e] }

/-- Any number of system calls, from some point of one to some point of another. -/
abbrev Runs (w : World) (me : Who) : Machine → Machine → Prop :=
  Relation.ReflTransGen (Moves w me)

theorem Machine.traceread_cases (w : World) (me : Who) (m : Machine) :
    let m₁ := m.enter w (.traceread 1)
    m₁.buf.queue = [] ∧ m.traceread w me = (0, [], m₁) ∨
      ∃ e q, m₁.buf.queue = e :: q ∧ (m₁.buf.skip 1).queue = q ∧ m.traceread w me =
        (1, [e], { m₁ with buf := m₁.buf.skip 1, delivered := m₁.delivered ++ [e] }) := by
  intro m₁
  have hq : SysCall.num (.traceread 1) ∈ quiet := SysCall.quiet_of_loops rfl
  cases hqueue : m₁.buf.queue with
  | nil =>
    refine .inl ⟨rfl, ?_⟩
    simp only [traceread, leave_of_quiet hq]
    rw [traceread_one_nil hqueue, append_nil]
  | cons e q =>
    obtain ⟨hread, hrest⟩ := traceread_one_cons hqueue
    refine .inr ⟨e, q, rfl, hrest, ?_⟩
    simp only [traceread, leave_of_quiet hq]
    rw [hread]

namespace Runs

section
variable (w : World) (me : Who) {m : Machine}

theorem enter (c : SysCall) : Runs w me m (m.enter w c) := .single (.enter m c)

theorem leave (c : SysCall) (rax : Int) : Runs w me m (m.leave w me c rax) :=
  .single (.leave m c rax)

theorem syscall (c : SysCall) : Runs w me m (m.syscall w me c) :=
  (enter w me c).trans (leave w me c _)

theorem syscalls (cs : List SysCall) : Runs w me m (m.syscalls w me cs) := by
  induction cs generalizing m with
  | nil => exact .refl
  | cons c cs ih => exact (syscall w me c).trans ih

theorem uptime : Runs w me m (m.uptime w me).2 :=
  (enter w me .uptime).trans (leave w me .uptime (w m.calls.length).ticks.toNat)

end

theorem goes {w : World} {me : Who} {m m' : Machine} {b : TraceBuffer} (h : Runs w me m m') :
    Goes b m m' := by
  induction h with
  | refl => exact .refl
  | tail _ hmove ih =>
    refine ih.trans ?_
    cases hmove with
    | enter c => exact (Goes.others _).trans (.of_eq rfl rfl)
    | leave c rax =>
      unfold Machine.leave
      dsimp only
      split
      · exact .refl
      · exact .record _
    | deliver hq =>
      refine .skip ?_ _ _
      rw [← TraceBuffer.length_queue, hq]
      exact Nat.succ_pos _

end Runs

/-! ## The variables of the program -/

/-- Two states that differ in what is drawn only. -/
structure Draws (s s' : State) : Prop where
  m : s'.m = s.m
  captured : s'.captured = s.captured
  exited : s'.exited = s.exited
  seen : s'.seen = s.seen
  recent_count : s'.recent_count = s.recent_count

namespace Draws

variable {s s' s'' : State}

theorem refl : Draws s s := ⟨rfl, rfl, rfl, rfl, rfl⟩

theorem trans (h : Draws s s') (h' : Draws s' s'') : Draws s s'' where
  m := h'.m.trans h.m
  captured := h'.captured.trans h.captured
  exited := h'.exited.trans h.exited
  seen := h'.seen.trans h.seen
  recent_count := h'.recent_count.trans h.recent_count

theorem nextTicks (n : Nat) : Draws s (State.nextTick^[n] s) := by
  induction n generalizing s with
  | zero => exact .refl
  | succ n ih =>
    have h : Draws s s.nextTick := ⟨rfl, rfl, rfl, rfl, rfl⟩
    exact h.trans ih

theorem moveTo (now : UInt32) : Draws s (s.moveTo now) :=
  (nextTicks _).trans ⟨rfl, rfl, rfl, rfl, rfl⟩

theorem firstTick (now : UInt32) : Draws s (s.firstTick now) := by
  unfold State.firstTick
  split
  · exact ⟨rfl, rfl, rfl, rfl, rfl⟩
  · exact .refl

theorem mark (e : TraceEvent) : Draws s (s.mark e) := by
  have hwindow : Draws s { s with window := s.window.update e } := ⟨rfl, rfl, rfl, rfl, rfl⟩
  have hmove : ∀ s : State, Draws s (if e.ticks > s.last_tick then s.moveTo e.ticks else s) := by
    intro s
    split
    · exact .moveTo _
    · exact .refl
  exact ((hwindow.trans (.firstTick _)).trans (hmove _)).trans ⟨rfl, rfl, rfl, rfl, rfl⟩

end Draws

theorem State.keep_spec (s : State) (e : TraceEvent) :
    (s.keep e).m = s.m ∧ (s.keep e).captured = s.captured ∧ (s.keep e).exited = s.exited ∧
      (s.keep e).seen = s.seen ∧ 0 < (s.keep e).recent_count := by
  unfold State.keep
  split
  · exact ⟨rfl, rfl, rfl, rfl, Nat.succ_pos _⟩
  next hfull =>
    have hpos : 0 < MAX_TRACE_ROWS := by decide
    exact ⟨rfl, rfl, rfl, rfl, Nat.lt_of_lt_of_le hpos (Nat.not_lt.mp hfull)⟩

section
variable {w : World} {me : Who} {o : Options}

theorem State.draw_spec (w : World) (me : Who) (o : Options) (s : State) :
    ∃ cs, cs.all SysCall.draws = true ∧
      s.draw w me o = { s with m := s.m.syscalls w me cs } := by
  refine ⟨drawBoard o s.toBoard ++ draw_graph 4 0 s.activity s.activity_pos, ?_, rfl⟩
  rw [all_append, drawBoard_draws]
  rfl

/-- An event that is not wanted only counts for the totals. -/
theorem State.handle_of_not (s : State) {e : TraceEvent} (h : want_event o me e = false) :
    Draws s (s.handle w me o e) ∧ (s.handle w me o e).last_tick = s.last_tick := by
  simp only [State.handle, h, if_true]
  exact ⟨⟨rfl, rfl, rfl, rfl, rfl⟩, trivial⟩

/-- One that is wanted is captured, and the board is drawn. -/
theorem State.handle_of_want (s : State) {e : TraceEvent} (h : want_event o me e = true) :
    ∃ cs, cs.all SysCall.draws = true ∧ (s.handle w me o e).m = s.m.syscalls w me cs ∧
      (s.handle w me o e).captured = s.captured ++ [e] ∧ (s.handle w me o e).exited = s.exited ∧
      (s.handle w me o e).seen = s.seen + 1 ∧ 0 < (s.handle w me o e).recent_count := by
  simp only [State.handle, h, Bool.true_eq_false, if_false]
  generalize hs₁ : { s with total := s.total.update e, overwritten := e.overwritten } = s₁
  have h₁ : Draws s s₁ := by
    subst hs₁
    exact ⟨rfl, rfl, rfl, rfl, rfl⟩
  have hmark := h₁.trans (.mark e)
  obtain ⟨hm, hcap, hex, hseen, hcount⟩ := (s₁.mark e).keep_spec e
  obtain ⟨cs, hcs, hdraw⟩ := ((s₁.mark e).keep e).draw_spec w me o
  rw [hdraw]
  exact ⟨cs, hcs, by rw [hm, hmark.m], by rw [hcap, hmark.captured], by rw [hex, hmark.exited],
    by rw [hseen, hmark.seen], hcount⟩

theorem State.wait_spec (s : State) :
    Runs w me s.m (s.wait w me o).m ∧ (s.wait w me o).captured = s.captured := by
  generalize hs₁ : ({ s with m := (s.m.uptime w me).2 } : State).firstTick (s.m.uptime w me).1 = s₁
  have hfirst : Draws { s with m := (s.m.uptime w me).2 } s₁ := hs₁ ▸ .firstTick _
  have hwait : s.wait w me o =
      let s₂ := if cint (s.m.uptime w me).1 > cint s₁.last_tick then
        (s₁.moveTo (s.m.uptime w me).1).draw w me o else s₁
      { s₂ with m := s₂.m.syscall w me (.sleep 10) } := by
    subst hs₁
    rfl
  have huptime : Runs w me s.m s₁.m := hfirst.m ▸ .uptime w me
  rw [hwait]
  dsimp only
  split
  · obtain ⟨cs, -, hdraw⟩ := (s₁.moveTo (s.m.uptime w me).1).draw_spec w me o
    have hmove : Draws s₁ (s₁.moveTo (s.m.uptime w me).1) := .moveTo _
    rw [hdraw, hmove.m]
    exact ⟨(huptime.trans (Runs.syscalls w me cs)).trans (Runs.syscall w me _), hmove.captured.trans hfirst.captured⟩
  · exact ⟨huptime.trans (Runs.syscall w me _), hfirst.captured⟩

theorem State.idle_spec (s : State) :
    Runs w me s.m (s.idle w me o).m ∧ (s.idle w me o).captured = s.captured := by
  unfold State.idle
  split
  · exact ⟨.refl, rfl⟩
  · split
    · dsimp only
      split
      · exact ⟨.uptime w me, rfl⟩
      · obtain ⟨hruns, hcap⟩ := State.wait_spec (w := w) (o := o) { s with m := (s.m.uptime w me).2 }
        exact ⟨(Runs.uptime w me).trans hruns, hcap⟩
    · exact s.wait_spec

/-- A turn of the loop captures at most the record that it is handed. -/
theorem State.turn_spec (s : State) :
    Runs w me s.m (s.turn w me o).m ∧ (s.turn w me o).captured = s.captured ∨
      ∃ m₁ e q, Runs w me s.m m₁ ∧ m₁.buf.queue = e :: q ∧ want_event o me e = true ∧
        Runs w me m₁ (s.turn w me o).m ∧ (s.turn w me o).captured = s.captured ++ [e] := by
  unfold State.turn
  split
  · exact .inl ⟨.refl, rfl⟩
  · split
    · exact .inl ⟨.refl, rfl⟩
    · have hread := s.m.traceread_cases w me
      dsimp only at hread ⊢
      rcases hread with ⟨-, hr⟩ | ⟨e, q, hq, -, hr⟩
      · rw [hr]
        obtain ⟨hruns, hcap⟩ :=
          State.idle_spec (w := w) (o := o) { s with m := s.m.enter w (.traceread 1) }
        exact .inl ⟨(Runs.enter w me _).trans hruns, hcap⟩
      · rw [hr]
        have hmove : Runs w me (s.m.enter w (.traceread 1)) _ := .single (.deliver hq)
        generalize hm₂ : ({ s.m.enter w (.traceread 1) with
          buf := (s.m.enter w (.traceread 1)).buf.skip 1
          delivered := (s.m.enter w (.traceread 1)).delivered ++ [e] } : Machine) = m₂ at hmove ⊢
        dsimp only
        rw [if_neg (by decide)]
        cases hwant : want_event o me e with
        | false =>
          have hsame := (State.handle_of_not (w := w) { s with m := m₂ } hwant).1
          refine .inl ⟨?_, hsame.captured⟩
          rw [hsame.m]
          exact (Runs.enter w me _).trans hmove
        | true =>
          obtain ⟨cs, -, hm, hcap, -⟩ := State.handle_of_want (w := w) { s with m := m₂ } hwant
          refine .inr ⟨s.m.enter w (.traceread 1), e, q, .enter w me _, hq, hwant, ?_, hcap⟩
          rw [hm]
          exact hmove.trans (Runs.syscalls w me cs)

end

/-! ## What is captured -/

/-- At least `k` of the records that were unread in `b` have left the ring, and none of those has
been captured. -/
structure Handed (b : TraceBuffer) (me : Who) (o : Options) (k : Nat) (s : State) : Prop where
  stream : ∃ j, k ≤ j ∧ Stream b s.m j
  captured : ∀ e ∈ s.captured,
    want_event o me e = true ∧ (e ∈ b.queue.drop k ∨ e ∈ s.m.recorded)

section
variable {b : TraceBuffer} {w : World} {me : Who} {o : Options} {k : Nat} {s : State}

theorem Handed.turn (h : Handed b me o k s) : Handed b me o k (s.turn w me o) := by
  obtain ⟨j, hkj, hj⟩ := h.stream
  rcases s.turn_spec (w := w) (o := o) with ⟨hruns, hcap⟩ | ⟨m₁, e, q, hruns, hq, hwant, hruns', hcap⟩
  · obtain ⟨hpre, j', hle, hj'⟩ := hruns.goes j hj
    refine ⟨⟨j', by omega, hj'⟩, fun e he => ?_⟩
    rw [hcap] at he
    exact (h.captured e he).imp_right (·.imp_right fun hr => hpre.subset hr)
  · obtain ⟨hpre, j₁, hle, hj₁⟩ := hruns.goes j hj
    obtain ⟨hpre', j', hle', hj'⟩ := hruns'.goes j₁ hj₁
    refine ⟨⟨j', by omega, hj'⟩, fun x hx => ?_⟩
    rw [hcap, mem_append, mem_singleton] at hx
    rcases hx with hx | rfl
    · exact (h.captured x hx).imp_right (·.imp_right fun hr => (hpre.trans hpre').subset hr)
    · refine ⟨hwant, (hj₁.head hq).imp (fun hd => ?_) fun hr => hpre'.subset hr⟩
      exact (drop_sublist_drop_left b.queue (Nat.le_trans hkj hle)).subset hd

theorem Handed.turns (h : Handed b me o k s) (n : Nat) : Handed b me o k (s.turns w me o n) := by
  induction n generalizing s with
  | zero => exact h
  | succ n ih => exact ih h.turn

end

/-! ## Starting up -/

namespace Machine

variable {w : World} {me : Who} {m : Machine}

theorem syscalls_startup : m.syscalls w me startup = ((m.syscall w me .getpid).syscalls w me
    (List.replicate 25 (.write 1 10))).syscall w me .vidclear := by
  simp only [syscalls, startup, foldl_append, foldl_cons, foldl_nil]

theorem syscall_write (w : World) (me : Who) (m : Machine) (fd : Nat) (c : UInt8) :
    ∃ call : Call, call.pid = me.pid ∧
      m.syscall w me (.write fd c) = (m.enter w (.write fd c)).record call :=
  ⟨_, rfl, rfl⟩

end Machine

section
variable {b : TraceBuffer} {m : Machine} {j : Nat} (w : World) (me : Who)

theorem Stream.writes (h : Stream b m j) (n : Nat) (fd : Nat) (c : UInt8) :
    ∃ j', Stream b (m.syscalls w me (List.replicate n (.write fd c))) j' ∧
      m.recorded.length + n ≤ (m.syscalls w me (List.replicate n (.write fd c))).recorded.length := by
  induction n generalizing m j with
  | zero => exact ⟨j, h, Nat.le_refl _⟩
  | succ n ih =>
    obtain ⟨hpre, j₁, -, h₁⟩ := (Runs.enter w me (.write fd c)).goes j h
    obtain ⟨call, -, hsys⟩ := m.syscall_write w me fd c
    obtain ⟨j', hj', hlen⟩ := ih (h₁.record call)
    have hstep : m.syscalls w me (List.replicate (n + 1) (.write fd c)) =
        ((m.enter w (.write fd c)).record call).syscalls w me (List.replicate n (.write fd c)) := by
      rw [← hsys]
      rfl
    refine ⟨j', hstep ▸ hj', ?_⟩
    have hle := hpre.length_le
    simp only [Machine.record, length_append, length_singleton] at hlen
    rw [hstep]
    simp only [Machine.record]
    omega

/-- The program has made 25 records before its loop. -/
theorem Stream.startup (hb : b.Valid) :
    ∃ j, b.unread + 25 - TRACE_BUF_SIZE ≤ j ∧
      Stream b (Machine.syscalls w me ⟨b, [], [], []⟩ Trace.startup) j := by
  obtain ⟨-, j₀, -, h₀⟩ := (Runs.syscall w me .getpid).goes 0 (.init hb [] [])
  obtain ⟨j₁, h₁, hlen⟩ := h₀.writes w me 25 1 10
  obtain ⟨hpre, j₂, -, h₂⟩ := (Runs.syscall w me .vidclear).goes j₁ h₁
  refine ⟨j₂, ?_, h₂⟩
  have := h₂.ge
  have := hpre.length_le
  omega

end

end Xv6.Trace

import Xv6.Trace.Handed

/-!
# Running `trace` alone

Without other processes the loop of `trace` is handed the unread records one by one, and in one-shot
mode it then exits. Before the loop the program prints 25 newlines, each with a traced `write`: these
records push the oldest ones out of a ring that is nearly full.
-/

namespace Xv6.Trace

open List

/-- Nobody else uses the ring. -/
def Alone (w : World) : Prop := ∀ n, (w n).others = []

section
variable {w : World} {me : Who} {o : Options} {m m' : Machine} {c : SysCall} {cs : List SysCall}

theorem Machine.enter_alone (hw : Alone w) : m.enter w c = { m with calls := m.calls ++ [c] } := by
  rw [enter, hw]
  rfl

theorem Machine.syscalls_alone (hw : Alone w) (h : cs.all SysCall.draws = true) :
    m.syscalls w me cs = { m with calls := m.calls ++ cs } := by
  induction cs generalizing m with
  | nil => simp [syscalls]
  | cons c cs ih =>
    rw [all_cons, Bool.and_eq_true] at h
    have hquiet := SysCall.quiet_of_loops (SysCall.loops_of_draws h.1)
    change (m.syscall w me c).syscalls w me cs = _
    rw [ih h.2, syscall_of_quiet hquiet, enter_alone hw, append_assoc, singleton_append]

theorem Machine.traceread_nil (me : Who) (hw : Alone w) (hq : m.buf.queue = []) :
    m.traceread w me = (0, [], { m with calls := m.calls ++ [.traceread 1] }) := by
  rcases m.traceread_cases w me with ⟨-, hr⟩ | ⟨e, q, hq', -, -⟩
  · rw [hr, enter_alone hw]
  · rw [enter_alone hw, hq] at hq'
    cases hq'

theorem Machine.traceread_cons {e : TraceEvent} {q : List TraceEvent} (me : Who) (hw : Alone w)
    (hq : m.buf.queue = e :: q) :
    (m.buf.skip 1).queue = q ∧ m.traceread w me =
      (1, [e], { m with
        buf := m.buf.skip 1
        calls := m.calls ++ [.traceread 1]
        delivered := m.delivered ++ [e] }) := by
  rcases m.traceread_cases w me with ⟨hq', -⟩ | ⟨e', q', hq', hrest, hr⟩
  · rw [enter_alone hw, hq] at hq'
    cases hq'
  · rw [enter_alone hw, hq] at hq'
    cases hq'
    rw [enter_alone hw] at hrest hr
    exact ⟨hrest, hr⟩

theorem Machine.uptime_alone (me : Who) (hw : Alone w) :
    m.uptime w me = ((w m.calls.length).ticks, { m with calls := m.calls ++ [.uptime] }) := by
  rw [uptime, leave_of_quiet (SysCall.quiet_of_loops rfl), enter_alone hw]

theorem count_traceread_of_draws (h : cs.all SysCall.draws = true) :
    cs.count (.traceread 1) = 0 := by
  refine count_eq_zero.mpr fun hmem => ?_
  exact absurd (all_eq_true.mp h _ hmem) (by decide)

theorem all_loops_of_draws (h : cs.all SysCall.draws = true) : cs.all SysCall.loops = true := by
  rw [all_eq_true] at h ⊢
  exact fun c hc => SysCall.loops_of_draws (h c hc)

/-- All records are the program's own. -/
def Own (me : Who) (m : Machine) : Prop := ∀ e ∈ m.recorded, e.pid = me.pid

theorem Own.record (h : Own me m) {call : Call} (hpid : call.pid = me.pid) :
    Own me (m.record call) := by
  intro e he
  simp only [Machine.record, mem_append, mem_singleton] at he
  rcases he with he | rfl
  · exact h e he
  · exact hpid

theorem Own.runs (h : Own me m) (hw : Alone w) (hruns : Runs w me m m') : Own me m' := by
  induction hruns with
  | refl => exact h
  | tail _ hmove ih =>
    cases hmove with
    | enter c =>
      rw [Machine.enter_alone hw]
      exact ih
    | leave c rax =>
      unfold Machine.leave
      dsimp only
      split
      · exact ih
      next call hcall =>
        exact ih.record (Site.call_spec hcall).2.1
    | deliver hq => exact ih

theorem State.turns_succ (s : State) (n : Nat) :
    s.turns w me o (n + 1) = (s.turns w me o n).turn w me o :=
  Function.iterate_succ_apply' ..

theorem State.own_turns {s : State} (hw : Alone w) (h : Own me s.m) (n : Nat) :
    Own me (s.turns w me o n).m := by
  induction n generalizing s with
  | zero => exact h
  | succ n ih =>
    refine ih ?_
    rcases s.turn_spec (w := w) (o := o) with ⟨hruns, -⟩ | ⟨m₁, e, q, hruns, -, -, hruns', -⟩
    · exact h.runs hw hruns
    · exact (h.runs hw hruns).runs hw hruns'

/-! ## Handing out -/

/-- The machine once `e` was handed out. -/
def Machine.handOut (m : Machine) (e : TraceEvent) : Machine :=
  { m with
    buf := m.buf.skip 1
    calls := m.calls ++ [.traceread 1]
    delivered := m.delivered ++ [e] }

/-- What is known of a state in which nothing was captured. -/
def Fresh (s : State) : Prop :=
  (s.captured = [] → s.recent_count = 0 ∧ s.seen = 0 ∧ s.last_tick = -1) ∧
    (s.captured ≠ [] → 0 < s.recent_count)

/-- From `s` to `s'` the loop is handed the records of `l`. -/
structure Popped (me : Who) (o : Options) (s : State) (l : List TraceEvent) (s' : State) : Prop where
  queue : s.m.buf.queue = l ++ s'.m.buf.queue
  recorded : s'.m.recorded = s.m.recorded
  delivered : s'.m.delivered = s.m.delivered ++ l
  captured : s'.captured = s.captured ++ l.filter (want_event o me)
  seen : s'.seen = s.seen + UInt32.ofNat (l.filter (want_event o me)).length
  exited : s'.exited = false
  fresh : Fresh s → Fresh s'
  calls : ∃ cs, s'.m.calls = s.m.calls ++ cs ∧ cs.all SysCall.loops = true ∧
    cs.count (.traceread 1) = l.length

namespace Popped

variable {s s' s'' : State} {l l' : List TraceEvent} {e : TraceEvent} {q : List TraceEvent}

theorem refl (h : s.exited = false) : Popped me o s [] s where
  queue := rfl
  recorded := rfl
  delivered := by simp
  captured := by simp
  seen := by simp
  exited := h
  fresh := id
  calls := ⟨[], by simp⟩

theorem trans (h : Popped me o s l s') (h' : Popped me o s' l' s'') :
    Popped me o s (l ++ l') s'' where
  queue := by rw [h.queue, h'.queue, append_assoc]
  recorded := h'.recorded.trans h.recorded
  delivered := by rw [h'.delivered, h.delivered, append_assoc]
  captured := by rw [h'.captured, h.captured, filter_append, append_assoc]
  seen := by
    rw [h'.seen, h.seen, filter_append, length_append, UInt32.ofNat_add, UInt32.add_assoc]
  exited := h'.exited
  fresh hf := h'.fresh (h.fresh hf)
  calls := by
    obtain ⟨cs, hcs, hall, hcount⟩ := h.calls
    obtain ⟨cs', hcs', hall', hcount'⟩ := h'.calls
    refine ⟨cs ++ cs', by rw [hcs', hcs, append_assoc], ?_, ?_⟩
    · rw [all_append, hall, hall']
      rfl
    · rw [count_append, hcount, hcount', length_append]

theorem handle (hw : Alone w) (hex : s.exited = false)
    (hq : s.m.buf.queue = e :: (s.m.handOut e).buf.queue) :
    Popped me o s [e] ({ s with m := s.m.handOut e }.handle w me o e) := by
  cases hwant : want_event o me e with
  | false =>
    obtain ⟨hsame, htick⟩ := State.handle_of_not (w := w) { s with m := s.m.handOut e } hwant
    constructor
    · rw [hsame.m, hq]
      rfl
    · rw [hsame.m]
      rfl
    · rw [hsame.m]
      rfl
    · rw [hsame.captured]
      simp [hwant]
    · rw [hsame.seen]
      simp [hwant]
    · exact hsame.exited.trans hex
    · unfold Fresh
      rw [hsame.captured, hsame.recent_count, hsame.seen, htick]
      exact id
    · exact ⟨[.traceread 1], by rw [hsame.m]; rfl, rfl, rfl⟩
  | true =>
    obtain ⟨cs, hcs, hm, hcap, hexited, hseen, hcount⟩ :=
      State.handle_of_want (w := w) { s with m := s.m.handOut e } hwant
    rw [Machine.syscalls_alone hw hcs] at hm
    constructor
    · rw [hm, hq]
      rfl
    · rw [hm]
      rfl
    · rw [hm]
      rfl
    · rw [hcap]
      simp [hwant]
    · rw [hseen]
      simp [hwant]
    · exact hexited.trans hex
    · refine fun _ => ⟨fun hnil => ?_, fun _ => hcount⟩
      rw [hcap] at hnil
      simp at hnil
    · refine ⟨.traceread 1 :: cs, by rw [hm]; simp [Machine.handOut], ?_, ?_⟩
      · rw [all_cons, all_loops_of_draws hcs]
        rfl
      · rw [count_cons_self, count_traceread_of_draws hcs]
        rfl

theorem turn (hw : Alone w) (hex : s.exited = false)
    (hlimit : o.limit = 0 ∨ cint s.seen < cint o.limit) (hq : s.m.buf.queue = e :: q) :
    Popped me o s [e] (s.turn w me o) := by
  obtain ⟨hrest, hread⟩ := Machine.traceread_cons me hw hq
  rw [State.turn, if_neg (by simp [hex]), if_neg (not_not.mpr hlimit), hread]
  dsimp only
  rw [if_neg (by decide)]
  exact handle hw hex (by rw [hq, ← hrest]; rfl)

/-- The turns that hand out `l`: in live mode, while nothing of it is wanted. -/
theorem turns (hw : Alone w) (hex : s.exited = false)
    (hlimit : o.limit = 0 ∨
      cint s.seen < cint o.limit ∧ ∀ e ∈ l, want_event o me e = false)
    (hq : s.m.buf.queue = l ++ q) : Popped me o s l (s.turns w me o l.length) := by
  induction l generalizing s with
  | nil => exact .refl hex
  | cons e l ih =>
    have hfirst : Popped me o s [e] (s.turn w me o) :=
      turn hw hex (hlimit.imp_right And.left) hq
    have hq' : (s.turn w me o).m.buf.queue = l ++ q := by
      have := hfirst.queue
      rw [hq] at this
      exact (List.cons.inj this).2.symm
    refine hfirst.trans (ih hfirst.exited (hlimit.imp_right fun ⟨hseen, hnot⟩ => ?_) hq')
    refine ⟨?_, fun x hx => hnot x (mem_cons_of_mem _ hx)⟩
    rw [hfirst.seen]
    simpa [hnot e mem_cons_self] using hseen

end Popped

/-! ## One-shot mode -/

/-- The clock shows a time that the program can wait for the end of. -/
def Ticking (w : World) : Prop := ∀ n, 10 ≤ (w n).ticks ∧ (w n).ticks < 0x7fffffff

theorem cint_since_start {ticks : UInt32} (hlo : 10 ≤ ticks) (hhi : ticks < 0x7fffffff) :
    cint (ticks - -1) > 10 := by
  change 10 ≤ ticks.toNat at hlo
  change ticks.toNat < 2147483647 at hhi
  have hval : (ticks - -1).toNat = ticks.toNat + 1 := by
    change (2 ^ 32 - 4294967295 + ticks.toNat) % 2 ^ 32 = _
    omega
  rw [cint]
  omega

theorem State.turn_empty (me : Who) {s : State} (hw : Alone w) (ht : Ticking w) (hlimit : o.limit = 0)
    (hex : s.exited = false) (hf : Fresh s) (hq : s.m.buf.queue = []) :
    ∃ cs, cs.all SysCall.loops = true ∧ cs.count (.traceread 1) = 1 ∧ s.turn w me o =
      { s with exited := true, m := { s.m with calls := s.m.calls ++ cs } } := by
  rw [State.turn, if_neg (by simp [hex]), if_neg (not_not.mpr (.inl hlimit)),
    Machine.traceread_nil me hw hq]
  dsimp only
  rw [if_neg (by decide), State.idle]
  dsimp only
  by_cases hcap : s.captured = []
  · obtain ⟨hcount, hseen, htick⟩ := hf.1 hcap
    rw [if_neg (by simp [hcount]), if_pos ⟨hlimit, hseen⟩, Machine.uptime_alone me hw]
    dsimp only
    rw [if_pos (by rw [htick]; exact cint_since_start (ht _).1 (ht _).2), append_assoc]
    exact ⟨[.traceread 1, .uptime], rfl, rfl, rfl⟩
  · rw [if_pos ⟨hlimit, hf.2 hcap⟩]
    exact ⟨[.traceread 1], rfl, rfl, rfl⟩

theorem State.turns_of_exited {s : State} (h : s.exited = true) (n : Nat) : s.turns w me o n = s :=
  Function.iterate_fixed (by rw [State.turn, if_pos h]) n

theorem fresh_init : Fresh (State.init m) := ⟨fun _ => ⟨rfl, rfl, rfl⟩, fun h => absurd rfl h⟩

/-- In one-shot mode the loop of the program, entered with the ring `b`, calls `traceread` once for
each unread record and once more, is handed all of them, exits, and makes only calls that are not
recorded. -/
def Drains (w : World) (me : Who) (o : Options) (b : TraceBuffer) : Prop :=
  ∀ n, b.unread < n →
    let s := (State.init ⟨b, [], [], []⟩).turns w me o n
    s.exited = true ∧ s.m.calls.count (.traceread 1) = b.unread + 1 ∧ s.m.delivered = b.queue ∧
      s.m.recorded = [] ∧ ∀ c ∈ s.m.calls, c.loops = true ∧ c.num ∈ quiet

/-- **One-shot mode.** The program drains the ring and exits, if nobody else uses it, and the clock
shows at least 10 ticks and less than what an `int` can hold. -/
theorem oneshot_drains (w : World) (me : Who) (o : Options) (b : TraceBuffer) (hw : Alone w)
    (ht : Ticking w) (hlimit : o.limit = 0) : Drains w me o b := by
  intro n hn
  obtain ⟨k, rfl⟩ := Nat.exists_eq_add_of_lt hn
  have hpop : Popped me o (State.init ⟨b, [], [], []⟩) b.queue
      ((State.init ⟨b, [], [], []⟩).turns w me o b.queue.length) :=
    .turns hw rfl (.inl hlimit) (append_nil b.queue).symm
  rw [TraceBuffer.length_queue] at hpop
  have hsplit : (State.init ⟨b, [], [], []⟩).turns w me o (b.unread + k + 1) =
      (((State.init ⟨b, [], [], []⟩).turns w me o b.unread).turn w me o).turns w me o k := by
    rw [State.turns, show b.unread + k + 1 = k + 1 + b.unread by omega, Function.iterate_add_apply]
    rfl
  rw [hsplit]
  generalize (State.init ⟨b, [], [], []⟩).turns w me o b.unread = s at hpop
  obtain ⟨cs, hcs, hall, hcount⟩ := hpop.calls
  obtain ⟨cs', hall', hcount', hlast⟩ := State.turn_empty me hw ht hlimit hpop.exited
    (hpop.fresh fresh_init) (self_eq_append_right.mp hpop.queue)
  rw [State.turns_of_exited (by rw [hlast]), hlast]
  refine ⟨rfl, ?_, hpop.delivered, hpop.recorded, fun c hc => ?_⟩
  · simp only [hcs, State.init, nil_append, count_append, hcount, hcount',
      TraceBuffer.length_queue]
  · have hloops : c.loops = true := by
      simp only [hcs, State.init, nil_append, mem_append] at hc
      rcases hc with hc | hc
      · exact all_eq_true.mp hall c hc
      · exact all_eq_true.mp hall' c hc
    exact ⟨hloops, SysCall.quiet_of_loops hloops⟩

/-- A clock that passed `2 ^ 31` ticks, which is a negative `int`; the fourth call sleeps. -/
def late : World := fun n => ⟨[], if n ≤ 3 then 0x80000000 else 0x8000000a, 1, 0⟩

/-- The name of the program and a process number. -/
def tracer : Who := ⟨3, .copy (cstring "trace")⟩

/-- After one turn with an empty ring the program has not left its loop. -/
theorem late_not_drains :
    (Alone late ∧ ∀ n, 10 ≤ (late n).ticks) ∧
      ¬Drains late tracer (options []) (traceinit fun _ => zeroEvent) := by
  refine ⟨⟨fun _ => rfl, fun n => ?_⟩, fun h => ?_⟩
  · unfold late
    dsimp only
    split <;> decide
  · have hleft := (h 1 (by decide)).1
    exact absurd hleft (by decide +kernel)

theorem oneshot_drains_empty :
    Drains (fun _ => ⟨[], 10, 1, 0⟩) tracer (options []) (traceinit fun _ => zeroEvent) :=
  oneshot_drains _ _ _ _ (fun _ => rfl) (fun _ => ⟨by decide, by decide⟩) rfl

/-! ## What one-shot mode shows -/

/-- The event passes the filters on types and processes. -/
def Passes (o : Options) (e : TraceEvent) : Prop :=
  (o.filter_type = 0 ∨ e.type = o.filter_type) ∧ (o.filter_pid = -1 ∨ e.pid = o.filter_pid)

theorem want_event_iff {e : TraceEvent} :
    want_event o me e = true ↔ e.pid ≠ me.pid ∧ Passes o e := by
  unfold want_event Passes
  grind

section
variable {b : TraceBuffer}

/-- Alone, the program only adds its own records. -/
theorem Stream.writes_alone (h : Stream b m (b.unread + m.recorded.length - TRACE_BUF_SIZE))
    (me : Who) (hw : Alone w) (n : Nat) (fd : Nat) (ch : UInt8) :
    (m.syscalls w me (List.replicate n (.write fd ch))).recorded.length = m.recorded.length + n ∧
      Stream b (m.syscalls w me (List.replicate n (.write fd ch)))
        (b.unread + m.recorded.length + n - TRACE_BUF_SIZE) := by
  induction n generalizing m with
  | zero => exact ⟨rfl, h⟩
  | succ n ih =>
    obtain ⟨call, -, hsys⟩ := m.syscall_write w me fd ch
    rw [Machine.enter_alone hw] at hsys
    have hcalls : Stream b { m with calls := m.calls ++ [.write fd ch] }
        (b.unread + m.recorded.length - TRACE_BUF_SIZE) := ⟨h.1, h.2, h.3, h.4, h.5⟩
    have hrec := hcalls.record call
    rw [← hsys] at hrec
    have hlen : (m.syscall w me (.write fd ch)).recorded.length = m.recorded.length + 1 := by
      rw [hsys]
      simp [Machine.record]
    have hj : b.unread + m.recorded.length - TRACE_BUF_SIZE + (b.unread + m.recorded.length -
        (b.unread + m.recorded.length - TRACE_BUF_SIZE) + 1 - TRACE_BUF_SIZE) =
        b.unread + (m.syscall w me (.write fd ch)).recorded.length - TRACE_BUF_SIZE := by
      have hpos : 0 < TRACE_BUF_SIZE := by decide
      omega
    obtain ⟨hlen', hstream⟩ := ih (hj ▸ hrec)
    rw [hlen] at hlen' hstream
    change (Machine.syscalls w me (m.syscall w me (.write fd ch)) _).recorded.length = _ ∧
      Stream b (Machine.syscalls w me (m.syscall w me (.write fd ch)) _) _
    refine ⟨by omega, ?_⟩
    rwa [show b.unread + m.recorded.length + (n + 1) = b.unread + (m.recorded.length + 1) + n by
      omega]

theorem startup_alone (me : Who) (hw : Alone w) (hb : b.Valid) :
    Stream b (Machine.syscalls w me ⟨b, [], [], []⟩ startup) (b.unread + 25 - TRACE_BUF_SIZE) ∧
      Own me (Machine.syscalls w me ⟨b, [], [], []⟩ startup) := by
  refine ⟨?_, Own.runs (fun _ h => absurd h not_mem_nil) hw (Runs.syscalls w me startup)⟩
  have hstart : Stream b ⟨b, [.getpid], [], []⟩ (b.unread + 0 - TRACE_BUF_SIZE) := by
    rw [Nat.add_zero, Nat.sub_eq_zero_of_le hb.window]
    exact .init hb _ _
  obtain ⟨-, hwrites⟩ := hstart.writes_alone me hw 25 1 10
  rw [Machine.syscalls_startup, Machine.syscall_of_quiet (by decide), Machine.enter_alone hw,
    Machine.syscall_of_quiet (by decide), Machine.enter_alone hw]
  exact ⟨hwrites.1, hwrites.2, hwrites.3, hwrites.4, hwrites.5⟩

/-- All that was unread at the start and passes the filters comes to be counted as seen. -/
def ShowsAll (w : World) (me : Who) (args : List (List UInt8)) (b : TraceBuffer) : Prop :=
  ∃ n, let s := main w me args b n
    (∀ e ∈ b.queue, Passes (options args) e → e ∈ s.captured) ∧
      s.seen = UInt32.ofNat s.captured.length

theorem handed_init {m₀ : Machine} {k : Nat} (h : Stream b m₀ k) :
    Handed b me o k (State.init m₀) :=
  ⟨⟨k, Nat.le_refl k, h⟩, fun _ he => absurd he not_mem_nil⟩

/-- What is seen is none of the program's own records, and was not pushed out by them. -/
theorem ShowsAll.survives {args : List (List UInt8)} (hw : Alone w) (hb : b.Valid)
    (h : ShowsAll w me args b) {e : TraceEvent} (he : e ∈ b.queue) (hpass : Passes (options args) e) :
    e.pid ≠ me.pid ∧ e ∈ b.queue.drop (b.unread + 25 - TRACE_BUF_SIZE) := by
  obtain ⟨hstream, hown⟩ := startup_alone me hw hb
  obtain ⟨n, hall, -⟩ := h
  obtain ⟨hwant, hfrom⟩ := ((handed_init hstream).turns n).captured e (hall e he hpass)
  have hpid := (want_event_iff.mp hwant).1
  refine ⟨hpid, hfrom.resolve_right fun hrec => hpid ?_⟩
  exact State.own_turns hw hown n e hrec

/-- **What one-shot mode shows.** Started with the ring `b`, the program comes to count every unread
record that passes the filters exactly when none of these is its own, nor among the oldest that its
25 newlines push out of the ring. -/
theorem showsAll_iff (w : World) (me : Who) (args : List (List UInt8)) (b : TraceBuffer)
    (hw : Alone w) (hb : b.Valid) (hlimit : (options args).limit = 0) :
    ShowsAll w me args b ↔ ∀ e ∈ b.queue, Passes (options args) e →
      e.pid ≠ me.pid ∧ e ∈ b.queue.drop (b.unread + 25 - TRACE_BUF_SIZE) := by
  refine ⟨fun h e he hpass => h.survives hw hb he hpass, fun h => ?_⟩
  obtain ⟨hstream, -⟩ := startup_alone me hw hb
  unfold ShowsAll main
  generalize Machine.syscalls w me ⟨b, [], [], []⟩ startup = m₀ at hstream
  have hpop : Popped me (options args) (State.init m₀) m₀.buf.queue
      ((State.init m₀).turns w me (options args) m₀.buf.queue.length) :=
    .turns hw rfl (.inl hlimit) (append_nil _).symm
  have hcap : ((State.init m₀).turns w me (options args) m₀.buf.queue.length).captured =
      m₀.buf.queue.filter (want_event (options args) me) := hpop.captured
  refine ⟨m₀.buf.queue.length, fun e he hpass => ?_, ?_⟩
  · obtain ⟨hpid, hdrop⟩ := h e he hpass
    rw [hcap, mem_filter]
    refine ⟨?_, want_event_iff.mpr ⟨hpid, hpass⟩⟩
    rw [hstream.queue, drop_append]
    exact mem_append_left _ hdrop
  · rw [hcap, hpop.seen]
    exact UInt32.zero_add _

/-- Nobody else does anything, one minute after the start. -/
def idle : World := fun _ => ⟨[], 6000, 1, 0⟩

/-- A ring with `k` unread records of process 2. -/
def unreadRing (k : UInt32) : TraceBuffer where
  enabled := true
  seq := k
  readseq := 0
  overwritten := 0
  events i := { zeroEvent with seq := UInt32.ofNat i.val, type := TRACE_TYPE_SYSCALL, pid := 2 }

/-- The oldest record of a full ring is pushed out. -/
theorem full_not_showsAll : ¬ShowsAll idle tracer [] (unreadRing 128) := by
  intro h
  have hmem : (unreadRing 128).events 0 ∈ (unreadRing 128).queue := by
    rw [TraceBuffer.queue, show (unreadRing 128).unread = 127 + 1 from rfl, TraceBuffer.oldest_succ]
    exact mem_cons_self
  have hdrop := (h.survives (fun _ => rfl) ⟨rfl, by decide⟩ hmem ⟨.inl rfl, .inl rfl⟩).2
  have hseq := mem_map_of_mem (f := TraceEvent.seq) hdrop
  exact absurd hseq (by decide +kernel)

theorem showsAll_one : ShowsAll idle tracer [] (unreadRing 1) := by
  refine (showsAll_iff _ _ _ _ (fun _ => rfl) ⟨rfl, by decide⟩ rfl).mpr fun e he _ => ?_
  have hqueue : (unreadRing 1).queue = [(unreadRing 1).events 0] := rfl
  rw [hqueue, mem_singleton] at he
  subst he
  exact ⟨by decide, mem_cons_self⟩

/-! ## What live mode captures -/

/-- Whatever others do, all that is captured was recorded after the start, and is numbered so. -/
def OnlyNew (me : Who) (args : List (List UInt8)) (b : TraceBuffer) : Prop :=
  ∀ w n, ∀ e ∈ (main w me args b n).captured,
    ∃ i : Nat, (main w me args b n).m.recorded[i]? = some e ∧ e.seq = b.seq + UInt32.ofNat i

/-- A wanted record that is in the ring before the loop is captured, or an older one is. -/
theorem OnlyNew.unwanted {args : List (List UInt8)} (hb : b.Valid)
    (hlimit : 0 < cint (options args).limit) (h : OnlyNew me args b) {e : TraceEvent}
    (he : e ∈ b.queue.drop (b.unread + 25 - TRACE_BUF_SIZE)) :
    want_event (options args) me e = false := by
  have halone : Alone idle := fun _ => rfl
  obtain ⟨hstream, hown⟩ := startup_alone me halone hb
  refine Bool.eq_false_iff.mpr fun hwant => ?_
  have hnew := h idle
  unfold main at hnew
  generalize Machine.syscalls idle me ⟨b, [], [], []⟩ startup = m₀ at hstream hown hnew
  have hmem : e ∈ m₀.buf.queue := by
    rw [hstream.queue, drop_append]
    exact mem_append_left _ he
  cases hfind : m₀.buf.queue.find? (want_event (options args) me) with
  | none => exact absurd hwant (List.find?_eq_none.mp hfind e hmem)
  | some x =>
    obtain ⟨hx, l, r, hq, hl⟩ := List.find?_eq_some_iff_append.mp hfind
    have hnot : ∀ y ∈ l, want_event (options args) me y = false := fun y hy => by
      simpa using hl y hy
    have hlive : cint (State.init m₀).seen < cint (options args).limit := hlimit
    have hpop := Popped.turns halone rfl (.inr ⟨hlive, hnot⟩) hq
    have hseen : (State.turns idle me (options args) l.length (State.init m₀)).seen = 0 := by
      rw [hpop.seen, filter_eq_nil_iff.mpr fun y hy => by simp [hnot y hy]]
      rfl
    have hrest : (State.turns idle me (options args) l.length (State.init m₀)).m.buf.queue =
        x :: r := append_cancel_left (hpop.queue.symm.trans hq)
    have hlast : Popped me _ _ _ _ :=
      Popped.turn halone hpop.exited (.inr (by rw [hseen]; exact hlimit)) hrest
    -- the program now has captured `x`
    obtain ⟨i, hi, -⟩ := hnew (l.length + 1) x (by
      rw [State.turns_succ, hlast.captured, mem_append]
      exact .inr (by simp [hx]))
    have hpid := State.own_turns halone hown (l.length + 1) x (mem_of_getElem? hi)
    exact (want_event_iff.mp hx).1 hpid

/-- **What live mode captures.** -/
theorem onlyNew_iff (me : Who) (args : List (List UInt8)) (b : TraceBuffer) (hb : b.Valid)
    (hlimit : 0 < cint (options args).limit) :
    OnlyNew me args b ↔ ∀ e ∈ b.queue.drop (b.unread + 25 - TRACE_BUF_SIZE),
      want_event (options args) me e = false := by
  refine ⟨fun h e he => h.unwanted hb hlimit he, fun h w n e he => ?_⟩
  obtain ⟨j, hj, hstream⟩ := Stream.startup w me hb
  have hhanded : Handed b me (options args) _ (main w me args b n) :=
    Handed.turns ⟨⟨j, hj, hstream⟩, fun _ he => absurd he not_mem_nil⟩ n
  obtain ⟨hwant, hfrom⟩ := hhanded.captured e he
  obtain ⟨j', -, hstream'⟩ := hhanded.stream
  rcases hfrom with hold | hnew
  · rw [h e hold] at hwant
    cases hwant
  · obtain ⟨i, hi⟩ := mem_iff_getElem?.mp hnew
    exact ⟨i, hi, hstream'.numbered i e hi⟩

/-- A record from before the start is captured. -/
theorem backlog_not_onlyNew : ¬OnlyNew tracer [cstring "1"] (unreadRing 1) := by
  intro h
  have hunwanted := h.unwanted (e := (unreadRing 1).events 0) ⟨rfl, by decide⟩ (by decide)
    mem_cons_self
  exact absurd hunwanted (by decide)

theorem onlyNew_empty : OnlyNew tracer [cstring "1"] (unreadRing 0) :=
  (onlyNew_iff _ _ _ ⟨rfl, by decide⟩ (by decide)).mpr fun _ he => absurd he not_mem_nil

end

end

end Xv6.Trace

import Xv6.Trace.Handed

/-!
# What the dashboard shows

The text screen has 25 lines of 80 cells, and `vidputc` drops what would be outside of it. The program
`trace` keeps the last 32 events that it wants in an array and draws one in a line, from line 8 on. It
starts with the oldest of the array, and stops after `display_rows` of them.
-/

namespace Xv6.Trace

open List

/-! ## The screen -/

/-- A character of the screen and its color. -/
structure Cell where
  ch : UInt8
  color : UInt8
  deriving DecidableEq

abbrev Line := Fin 80 → Cell

/-- `crt`, by line and column. -/
abbrev Crt := Fin 25 → Line

namespace Crt

def vidclear : Crt := fun _ _ => ⟨32, 0x07⟩

def vidputc (crt : Crt) (row col : Nat) (ch : UInt8) (color : Nat) : Crt :=
  if hrow : row < 25 then
    if hcol : col < 80 then
      setAt crt ⟨row, hrow⟩ (setAt (crt ⟨row, hrow⟩) ⟨col, hcol⟩ ⟨ch, UInt8.ofNat color⟩)
    else crt
  else crt

def vidputs (crt : Crt) (row col : Nat) (s : List UInt8) (color : Nat) : Crt :=
  match s with
  | [] => crt
  | ch :: s =>
    if ch ≠ 0 ∧ col < 80 then (crt.vidputc row col ch color).vidputs row (col + 1) s color else crt

end Crt

/-- What a system call does to the screen. `console` is what the console driver does with a character
that is written. -/
def SysCall.show (console : Crt → UInt8 → Crt) (crt : Crt) : SysCall → Crt
  | .vidclear => .vidclear
  | .vidputs row col s color => crt.vidputs row col s color
  | .write _ c => console crt c
  | .getpid | .sleep _ | .uptime | .traceread _ => crt

/-- The screen after some system calls. -/
def Crt.after (console : Crt → UInt8 → Crt) (crt : Crt) (cs : List SysCall) : Crt :=
  cs.foldl (SysCall.show console) crt

/-! ## Lines -/

namespace Line

def blank : Line := fun _ => ⟨32, 0x07⟩

/-- `vidputs` on its own line. -/
def puts (l : Line) (col : Nat) (s : List UInt8) (color : Nat) : Line :=
  match s with
  | [] => l
  | ch :: s =>
    if ch ≠ 0 ∧ col < 80 then
      puts (fun c => if c.val = col then ⟨ch, UInt8.ofNat color⟩ else l c) (col + 1) s color
    else l

theorem puts_spaces (l : Line) (n col : Nat) (c : Fin 80) :
    l.puts col (List.replicate n 32) COLOR_NORMAL c =
      if col ≤ c.val ∧ c.val < col + n then blank c else l c := by
  induction n generalizing l col with
  | zero =>
    rw [if_neg (by omega)]
    rfl
  | succ n ih =>
    rw [replicate_succ, puts]
    have hc := c.isLt
    split
    · rw [ih]
      rcases Nat.lt_trichotomy c.val col with hlt | heq | hgt
      · rw [if_neg (by omega), if_neg (by omega), if_neg (by omega)]
      · rw [if_neg (by omega), if_pos heq, if_pos (by omega)]
        rfl
      · by_cases hin : c.val < col + 1 + n
        · rw [if_pos (by omega), if_pos (by omega)]
        · rw [if_neg (by omega), if_neg (by omega), if_neg (by omega)]
    next hout =>
      have hcol : ¬col < 80 := fun h => hout ⟨by decide, h⟩
      rw [if_neg (by omega)]

theorem puts_blank_line (l : Line) : l.puts 0 (List.replicate 80 32) COLOR_NORMAL = blank := by
  funext c
  rw [puts_spaces, if_pos (by omega)]

end Line

theorem Crt.vidputs_apply (crt : Crt) (row col : Nat) (s : List UInt8) (color : Nat) (r : Fin 25) :
    crt.vidputs row col s color r = if r.val = row then (crt r).puts col s color else crt r := by
  induction s generalizing crt col with
  | nil => simp [vidputs, Line.puts]
  | cons ch s ih =>
    rw [vidputs, Line.puts]
    split
    next hin =>
      have hput : crt.vidputc row col ch color r = if r.val = row then
          (fun c => if c.val = col then ⟨ch, UInt8.ofNat color⟩ else crt r c) else crt r := by
        unfold vidputc
        by_cases hrow : row < 25
        · rw [dif_pos hrow, dif_pos hin.2]
          unfold setAt
          simp only [Fin.ext_iff]
          split
          next heq =>
            subst heq
            rfl
          · rfl
        · rw [dif_neg hrow, if_neg (by omega)]
      rw [ih, hput]
      split <;> rfl
    · simp

/-- The line that a call writes to. -/
def SysCall.row? : SysCall → Option Nat
  | .vidputs row .. => some row
  | _ => none

/-- What a call writes to its line. -/
def SysCall.line (l : Line) : SysCall → Line
  | .vidputs _ col s color => l.puts col s color
  | _ => l

section
variable {console : Crt → UInt8 → Crt} {crt : Crt} {cs : List SysCall} {row : Nat} {r : Fin 25}

theorem SysCall.show_apply (crt : Crt) (r : Fin 25) {c : SysCall} (h : c.row? = some row) :
    c.show console crt r = if r.val = row then c.line (crt r) else crt r := by
  cases c <;> cases h
  exact crt.vidputs_apply ..

theorem Crt.after_append (cs' : List SysCall) :
    crt.after console (cs ++ cs') = (crt.after console cs).after console cs' :=
  foldl_append

theorem Crt.after_row (h : ∀ c ∈ cs, c.row? = some row) :
    crt.after console cs r = if r.val = row then cs.foldl SysCall.line (crt r) else crt r := by
  induction cs generalizing crt with
  | nil => simp [after]
  | cons c cs ih =>
    change (c.show console crt).after console cs r = _
    rw [ih fun c' h' => h c' (mem_cons_of_mem c h'),
      SysCall.show_apply crt r (h c mem_cons_self)]
    split <;> rfl

theorem Crt.after_of_ne (h : ∀ c ∈ cs, ∃ row, c.row? = some row ∧ row ≠ r.val) :
    crt.after console cs r = crt r := by
  induction cs generalizing crt with
  | nil => rfl
  | cons c cs ih =>
    obtain ⟨row, hrow, hne⟩ := h c mem_cons_self
    change (c.show console crt).after console cs r = _
    rw [ih fun c' h' => h c' (mem_cons_of_mem c h'), SysCall.show_apply crt r hrow,
      if_neg (Ne.symm hne)]

end

/-! ## The line of an event -/

/-- What `draweventrow` puts into the line of an event. -/
def eventLine (e : TraceEvent) : Line := (draweventrow 0 e).foldl SysCall.line .blank

theorem drawdetails_line (row : Nat) (e : TraceEvent) (l : Line) :
    (drawdetails row e).foldl SysCall.line l = (drawdetails 0 e).foldl SysCall.line l := by
  unfold drawdetails
  split
  · rfl
  · split
    · rfl
    · split
      · rfl
      · split <;> rfl

theorem draweventrow_line (row : Nat) (e : TraceEvent) (l : Line) :
    (draweventrow row e).foldl SysCall.line l = eventLine e := by
  have hclear : ∀ row, SysCall.line l (.vidputs row 0 (List.replicate 80 32) COLOR_NORMAL) =
      SysCall.line .blank (.vidputs row 0 (List.replicate 80 32) COLOR_NORMAL) := fun row => by
    simp only [SysCall.line, Line.puts_blank_line]
  simp only [eventLine, draweventrow, foldl_append, drawdetails_line row, foldl_cons,
    hclear]
  rfl

theorem draweventrow_row (row : Nat) (e : TraceEvent) :
    ∀ c ∈ draweventrow row e, c.row? = some row := by
  have hdetails : ∀ c ∈ drawdetails row e, c.row? = some row := by
    unfold drawdetails
    split
    · simp [drawnum, vidputs, SysCall.row?]
    · split
      · simp [drawnum, vidputs, SysCall.row?]
      · split
        · simp [drawhex, vidputs, SysCall.row?]
        · split <;> simp [drawnum, vidputs, SysCall.row?]
  intro c hc
  simp only [draweventrow, drawnum, mem_append, mem_cons, not_mem_nil,
    or_false] at hc
  rcases hc with ((((rfl | rfl) | rfl) | rfl) | rfl | rfl | rfl) | hc
  all_goals first | rfl | exact hdetails c hc

/-- The line of an event, or an empty one. -/
def lineOf : Option TraceEvent → Line
  | some e => eventLine e
  | none => .blank

/-- From line 8 on the screen has the lines of `es`, and is empty below them. -/
def Rows (crt : Crt) (es : List TraceEvent) : Prop :=
  ∀ r : Fin 25, 8 ≤ r.val → crt r = lineOf es[r.val - 8]?

/-- The screen shows the events of `es` and no others, each in a line of its own. -/
def Shows (crt : Crt) (es : List TraceEvent) : Prop := 8 + es.length ≤ 25 ∧ Rows crt es

section
variable {console : Crt → UInt8 → Crt} {crt : Crt}

theorem after_flatMap (f : Nat → TraceEvent) (n : Nat) (r : Fin 25) :
    crt.after console ((List.range n).flatMap fun i => draweventrow (8 + i) (f i)) r =
      if 8 ≤ r.val ∧ r.val < 8 + n then eventLine (f (r.val - 8)) else crt r := by
  induction n with
  | zero =>
    rw [if_neg (by omega)]
    rfl
  | succ n ih =>
    rw [range_succ, flatMap_append, Crt.after_append, flatMap_singleton,
      Crt.after_row (draweventrow_row _ _), draweventrow_line, ih]
    split
    next heq =>
      rw [if_pos (by omega), heq, Nat.add_sub_cancel_left]
    · by_cases hin : 8 ≤ r.val ∧ r.val < 8 + n
      · rw [if_pos hin, if_pos (by omega)]
      · rw [if_neg hin, if_neg (by omega)]

end

/-! ## The array of recent events -/

/-- The array holds the last 32 events of `es`. -/
structure Kept (b : Board) (es : List TraceEvent) : Prop where
  count : b.recent_count = min es.length MAX_TRACE_ROWS
  start : b.recent_start = (es.length - MAX_TRACE_ROWS) % MAX_TRACE_ROWS
  holds : RingHolds b.recent es (es.length - MAX_TRACE_ROWS) es.length

/-- The events of the array that are drawn when `d` are wanted: the oldest ones. -/
def oldestKept (es : List TraceEvent) (d : Nat) : List TraceEvent :=
  (es.drop (es.length - MAX_TRACE_ROWS)).take d

theorem Kept.getElem? {b : Board} {es : List TraceEvent} (h : Kept b es) {i d : Nat}
    (hi : i < b.recent_count) (hd : i < d) :
    (oldestKept es d)[i]? = some (b.recent (Fin.ofNat _ (b.recent_start + i))) := by
  have hcount := h.count
  have hslot : Fin.ofNat MAX_TRACE_ROWS (b.recent_start + i) =
      Fin.ofNat _ (es.length - MAX_TRACE_ROWS + i) := by
    apply Fin.ext
    simp only [Fin.ofNat, h.start, Nat.mod_add_mod]
  rw [oldestKept, List.getElem?_take, if_pos hd, List.getElem?_drop, hslot]
  exact h.holds _ (Nat.le_add_right ..) (by omega)

theorem Kept.keep {s : State} {es : List TraceEvent} (h : Kept s.toBoard es) (e : TraceEvent) :
    Kept (s.keep e).toBoard (es ++ [e]) := by
  have hcount := h.count
  have hstart := h.start
  unfold State.keep
  by_cases hlt : s.recent_count < MAX_TRACE_ROWS
  · rw [if_pos hlt]
    have hlen : s.recent_count = es.length := by omega
    constructor
    · simp only [length_append, length_singleton]
      omega
    · simp only [length_append, length_singleton, hstart]
      rw [Nat.sub_eq_zero_of_le (by omega), Nat.sub_eq_zero_of_le (by omega)]
    · simp only [length_append, setAt_eq_update, hlen]
      exact h.holds.push e (by omega) (by omega)
  · rw [if_neg hlt]
    have hfull : MAX_TRACE_ROWS ≤ es.length := by omega
    -- the oldest event is in the slot of the one that comes next
    have hslot : Fin.ofNat MAX_TRACE_ROWS s.recent_start = Fin.ofNat _ es.length := by
      apply Fin.ext
      simp only [Fin.ofNat, hstart, Nat.mod_mod]
      exact (Nat.mod_eq_sub_mod hfull).symm
    constructor
    · simp only [length_append]
      omega
    · simp only [length_append, length_singleton, hstart, Nat.mod_add_mod]
      rw [Nat.sub_add_comm hfull]
    · simp only [length_append, length_singleton, setAt_eq_update, hslot]
      exact h.holds.push e (by omega) (by omega)

/-! ## A drawn board -/

theorem takeWhile_range {n k : Nat} (h : k ≤ n) :
    ((List.range n).takeWhile fun i => i < k) = List.range k := by
  obtain ⟨m, rfl⟩ := Nat.exists_eq_add_of_le h
  rw [range_add]
  cases m with
  | zero => simp
  | succ m => simp [range_succ_eq_map]

/-- Whether a call writes to a line above those of the events. -/
def SysCall.heads (c : SysCall) : Bool := c.row?.any (· < 8)

section
variable {row col color : Nat}

@[simp] theorem vidputs_heads {s : List UInt8} :
    SysCall.heads (.vidputs row col s color) = decide (row < 8) :=
  rfl

@[simp] theorem text_heads {s : String} : (vidputs row col s color).heads = decide (row < 8) := rfl

@[simp] theorem drawnum_heads {val : UInt32} :
    (drawnum row col val color).all SysCall.heads = decide (row < 8) := by
  simp [drawnum]

@[simp] theorem drawcounts_heads {title : String} {c : Counts} :
    (drawcounts row title c).all SysCall.heads = decide (row < 8) := by
  simp [drawcounts]

end

/-- A board begins with calls that clear the screen and write to the lines above the events. -/
theorem drawBoard_eq (o : Options) (b : Board) {d : Nat} (hd : cint o.display_rows = d)
    (hmax : d ≤ MAX_TRACE_ROWS) :
    ∃ cs, cs.all SysCall.heads = true ∧
      drawBoard o b = .vidclear :: (cs ++ (List.range (min b.recent_count d)).flatMap fun i =>
        draweventrow (8 + i) (b.recent (Fin.ofNat _ (b.recent_start + i)))) := by
  have hrange : ((List.range MAX_TRACE_ROWS).takeWhile fun i =>
      i < b.recent_count ∧ i < cint o.display_rows) = List.range (min b.recent_count d) := by
    rw [← takeWhile_range (n := MAX_TRACE_ROWS) (k := min b.recent_count d) (by omega)]
    congr 1
    funext i
    rw [hd]
    simp only [decide_eq_decide]
    omega
  have hpid : (if o.filter_pid = -1 then [vidputs 0 58 "all" COLOR_NORMAL]
      else drawnum 0 58 o.filter_pid COLOR_NORMAL).all SysCall.heads = true := by
    split <;> simp
  have hlimit : (if o.limit = 0 then vidputs 0 72 "ONESHOT" COLOR_YELLOW
      else vidputs 0 72 "LIVE" COLOR_GREEN).heads = true := by
    split <;> rfl
  unfold drawBoard
  rw [hrange]
  refine ⟨_, ?_, rfl⟩
  simpa [hlimit] using hpid

section
variable {console : Crt → UInt8 → Crt} {crt : Crt} {o : Options} {d : Nat}

theorem Crt.after_heads {cs : List SysCall} {r : Fin 25} (h : cs.all SysCall.heads = true)
    (hr : 8 ≤ r.val) : crt.after console cs r = crt r := by
  refine Crt.after_of_ne fun c hc => ?_
  obtain ⟨row, hrow, hlt⟩ := (Option.any_eq_true ..).mp (all_eq_true.mp h c hc)
  exact ⟨row, hrow, by have := of_decide_eq_true hlt; omega⟩

/-- A board shows the oldest events of the array, as far as there are lines. -/
theorem Kept.rows_drawBoard {b : Board} {es : List TraceEvent} (h : Kept b es)
    (hd : cint o.display_rows = d) (hmax : d ≤ MAX_TRACE_ROWS) :
    Rows (crt.after console (drawBoard o b)) (oldestKept es d) := by
  intro r hr
  obtain ⟨cs, hcs, heq⟩ := drawBoard_eq o b hd hmax
  have hcount := h.count
  rw [heq]
  change (Crt.vidclear.after console (cs ++ _)) r = _
  rw [Crt.after_append, after_flatMap (fun i => b.recent (Fin.ofNat _ (b.recent_start + i))),
    Crt.after_heads hcs hr]
  split
  next hin => rw [h.getElem? (by omega) (by omega)]; rfl
  next hout =>
    rw [List.getElem?_eq_none]
    · rfl
    · simp only [oldestKept, length_take, length_drop]
      omega

theorem draw_graph_heads (activity : Fin GRAPH_WIDTH → UInt32) (pos : Nat) :
    (draw_graph 4 0 activity pos).all SysCall.heads = true := by
  simp [draw_graph]

end

/-! ## The calls of the program -/

namespace Machine

variable (w : World) (me : Who) (m : Machine)

theorem others_calls (xs : List Other) :
    (xs.foldl other m).calls = m.calls ∧ (xs.foldl other m).delivered = m.delivered := by
  induction xs generalizing m with
  | nil => exact ⟨rfl, rfl⟩
  | cons x xs ih =>
    cases x with
    | event c => exact ih (m.record c)
    | read copied max_events => exact ih (m.other (.read copied max_events))

theorem enter_calls (c : SysCall) :
    (m.enter w c).calls = m.calls ++ [c] ∧ (m.enter w c).delivered = m.delivered :=
  ⟨rfl, (others_calls m _).2⟩

theorem leave_calls (c : SysCall) (rax : Int) :
    (m.leave w me c rax).calls = m.calls ∧ (m.leave w me c rax).delivered = m.delivered := by
  unfold leave
  dsimp only
  split <;> exact ⟨rfl, rfl⟩

theorem syscall_calls (c : SysCall) : (m.syscall w me c).calls = m.calls ++ [c] ∧
    (m.syscall w me c).delivered = m.delivered := by
  obtain ⟨hc, hd⟩ := enter_calls w m c
  have hleave := leave_calls w me (m.enter w c) c
  exact ⟨(hleave _).1.trans hc, (hleave _).2.trans hd⟩

theorem syscalls_calls (cs : List SysCall) : (m.syscalls w me cs).calls = m.calls ++ cs ∧
    (m.syscalls w me cs).delivered = m.delivered := by
  induction cs generalizing m with
  | nil => exact ⟨(append_nil _).symm, rfl⟩
  | cons c cs ih =>
    obtain ⟨hc, hd⟩ := syscall_calls w me m c
    obtain ⟨hcs, hds⟩ := ih (m.syscall w me c)
    refine ⟨hcs.trans ?_, hds.trans hd⟩
    rw [hc, append_assoc, singleton_append]

theorem uptime_calls : (m.uptime w me).2.calls = m.calls ++ [.uptime] ∧
    (m.uptime w me).2.delivered = m.delivered := by
  obtain ⟨hc, hd⟩ := leave_calls w me (m.enter w .uptime) .uptime (w m.calls.length).ticks.toNat
  obtain ⟨hc', hd'⟩ := enter_calls w m .uptime
  exact ⟨hc.trans hc', hd.trans hd'⟩

end Machine

/-- Two states with the same array of events and the same machine. -/
structure Steady (s s' : State) : Prop where
  recent : s'.recent = s.recent
  count : s'.recent_count = s.recent_count
  start : s'.recent_start = s.recent_start
  m : s'.m = s.m

namespace Steady

variable {s s' s'' : State}

theorem refl : Steady s s := ⟨rfl, rfl, rfl, rfl⟩

theorem trans (h : Steady s s') (h' : Steady s' s'') : Steady s s'' where
  recent := h'.recent.trans h.recent
  count := h'.count.trans h.count
  start := h'.start.trans h.start
  m := h'.m.trans h.m

theorem nextTicks (n : Nat) : Steady s (State.nextTick^[n] s) := by
  induction n generalizing s with
  | zero => exact .refl
  | succ n ih =>
    have h : Steady s s.nextTick := ⟨rfl, rfl, rfl, rfl⟩
    exact h.trans ih

theorem moveTo (now : UInt32) : Steady s (s.moveTo now) :=
  (nextTicks _).trans ⟨rfl, rfl, rfl, rfl⟩

theorem firstTick (now : UInt32) : Steady s (s.firstTick now) := by
  unfold State.firstTick
  split
  · exact ⟨rfl, rfl, rfl, rfl⟩
  · exact .refl

theorem mark (e : TraceEvent) : Steady s (s.mark e) := by
  have hwindow : Steady s { s with window := s.window.update e } := ⟨rfl, rfl, rfl, rfl⟩
  have hmove : ∀ s : State, Steady s (if e.ticks > s.last_tick then s.moveTo e.ticks else s) := by
    intro s
    split
    · exact .moveTo _
    · exact .refl
  exact ((hwindow.trans (.firstTick _)).trans (hmove _)).trans ⟨rfl, rfl, rfl, rfl⟩

theorem kept {es : List TraceEvent} (h : Steady s s') (hk : Kept s.toBoard es) :
    Kept s'.toBoard es where
  count := h.count.trans hk.count
  start := h.start.trans hk.start
  holds := by
    rw [h.recent]
    exact hk.holds

end Steady

/-! ## Every turn of the loop -/

/-- The calls that leave the screen as it is. -/
def SysCall.still : SysCall → Bool
  | .getpid | .sleep _ | .uptime | .traceread _ => true
  | .write .. | .vidclear | .vidputs .. => false

theorem Crt.after_still (console : Crt → UInt8 → Crt) (crt : Crt) (cs : List SysCall) {c : SysCall}
    (h : c.still = true) : crt.after console (cs ++ [c]) = crt.after console cs := by
  rw [after_append]
  cases c <;> first | (cases h; done) | rfl

section
variable (console : Crt → UInt8 → Crt) (crt : Crt) (w : World) (me : Who) (o : Options)

/-- Of the delivered events the program has seen those of `es`: the array holds the last of them, and
the screen shows the oldest of these. -/
structure Displays (s : State) (delivered es : List TraceEvent) : Prop where
  delivered : s.m.delivered = delivered
  kept : Kept s.toBoard es
  rows : Rows (crt.after console s.m.calls) (oldestKept es o.display_rows.toNat)

variable {console crt w me o} {s s' : State} {delivered es : List TraceEvent} {e : TraceEvent}

theorem Displays.steady (h : Displays console crt o s delivered es) (hs : Steady s s') :
    Displays console crt o s' delivered es where
  delivered := by rw [hs.m, h.delivered]
  kept := hs.kept h.kept
  rows := by
    rw [hs.m]
    exact h.rows

theorem Displays.still {c : SysCall} {m : Machine} (h : Displays console crt o s delivered es)
    (hc : c.still = true)
    (hm : m.calls = s.m.calls ++ [c] ∧ m.delivered = s.m.delivered) :
    Displays console crt o { s with m } delivered es where
  delivered := hm.2.trans h.delivered
  kept := ⟨h.kept.count, h.kept.start, h.kept.holds⟩
  rows := by
    rw [hm.1, Crt.after_still _ _ _ hc]
    exact h.rows

section
variable (hd : 0 ≤ cint o.display_rows) (hmax : o.display_rows.toNat ≤ MAX_TRACE_ROWS)
include hd hmax

theorem Kept.draw (console : Crt → UInt8 → Crt) (crt : Crt) (w : World) (me : Who)
    (h : Kept s.toBoard es) : Displays console crt o (s.draw w me o) s.m.delivered es where
  delivered := (Machine.syscalls_calls w me s.m _).2
  kept := ⟨h.count, h.start, h.holds⟩
  rows := by
    intro r hr
    change crt.after console (s.m.syscalls w me _).calls r = _
    rw [(Machine.syscalls_calls w me s.m _).1, Crt.after_append, Crt.after_append,
      Crt.after_heads (draw_graph_heads _ _) hr]
    exact h.rows_drawBoard (cint_of_nonneg hd) hmax r hr

theorem Displays.handle (h : Displays console crt o s delivered es) :
    Displays console crt o (s.handle w me o e) delivered
      (es ++ [e].filter (want_event o me)) := by
  have hsame : Steady s { s with total := s.total.update e, overwritten := e.overwritten } :=
    ⟨rfl, rfl, rfl, rfl⟩
  unfold State.handle
  cases hwant : want_event o me e with
  | false =>
    rw [filter_singleton, hwant]
    simpa using h.steady hsame
  | true =>
    have hmark := hsame.trans (.mark e)
    have hm : (State.keep _ e).m = s.m := (State.keep_spec _ e).1.trans hmark.m
    have hdraw := ((hmark.kept h.kept).keep e).draw hd hmax console crt w me
    rw [hm, h.delivered] at hdraw
    rw [filter_singleton, hwant]
    exact ⟨hdraw.delivered, ⟨hdraw.kept.count, hdraw.kept.start, hdraw.kept.holds⟩, hdraw.rows⟩

theorem Displays.wait (h : Displays console crt o s delivered es) :
    Displays console crt o (s.wait w me o) delivered es := by
  have hup := h.still rfl (Machine.uptime_calls w me s.m)
  have hfirst := hup.steady (.firstTick (s.m.uptime w me).1)
  unfold State.wait
  refine Displays.still (c := .sleep 10) ?_ rfl (Machine.syscall_calls w me _ _)
  split
  · have hmove := hfirst.steady (.moveTo (s.m.uptime w me).1)
    have hdraw := hmove.kept.draw hd hmax console crt w me
    rwa [hmove.delivered] at hdraw
  · exact hfirst

theorem Displays.idle (h : Displays console crt o s delivered es) :
    Displays console crt o (s.idle w me o) delivered es := by
  unfold State.idle
  split
  · exact h.steady ⟨rfl, rfl, rfl, rfl⟩
  · split
    · have hup := h.still rfl (Machine.uptime_calls w me s.m)
      dsimp only
      split
      · exact hup.steady ⟨rfl, rfl, rfl, rfl⟩
      · exact hup.wait hd hmax
    · exact h.wait hd hmax

/-- One turn keeps the screen in step with the events that the program was handed. -/
theorem Displays.turn (h : Displays console crt o s delivered (delivered.filter (want_event o me))) :
    ∃ delivered', Displays console crt o (s.turn w me o) delivered'
      (delivered'.filter (want_event o me)) := by
  unfold State.turn
  split
  · exact ⟨_, h⟩
  · split
    · exact ⟨_, h.steady ⟨rfl, rfl, rfl, rfl⟩⟩
    · have hread := s.m.traceread_cases w me
      have henter := h.still (c := .traceread 1) rfl (Machine.enter_calls w s.m (.traceread 1))
      rcases hread with ⟨-, hr⟩ | ⟨e, q, -, -, hr⟩
      · rw [hr]
        exact ⟨_, henter.idle hd hmax⟩
      · rw [hr]
        refine ⟨delivered ++ [e], ?_⟩
        rw [filter_append]
        refine Displays.handle hd hmax ⟨?_, henter.kept, henter.rows⟩
        exact congrArg (· ++ [e]) henter.delivered

theorem Displays.turns (h : Displays console crt o s delivered (delivered.filter (want_event o me)))
    (n : Nat) : ∃ delivered', Displays console crt o (s.turns w me o n) delivered'
      (delivered'.filter (want_event o me)) := by
  induction n generalizing s delivered with
  | zero => exact ⟨_, h⟩
  | succ n ih =>
    obtain ⟨_, hturn⟩ := h.turn hd hmax
    exact ih hturn

end

end

/-- The events that were delivered to the program and match its filter. -/
def State.matching (o : Options) (me : Who) (s : State) : List TraceEvent :=
  s.m.delivered.filter (want_event o me)

theorem rows_main (console : Crt → UInt8 → Crt) (crt : Crt) (w : World) (me : Who)
    (args : List (List UInt8)) (b : TraceBuffer) (n : Nat)
    (hd : 0 ≤ cint (options args).display_rows)
    (hmax : (options args).display_rows.toNat ≤ MAX_TRACE_ROWS) :
    Rows (crt.after console (main w me args b n).m.calls)
      (oldestKept ((main w me args b n).matching (options args) me)
        (options args).display_rows.toNat) := by
  obtain ⟨hcalls, hdel⟩ := Machine.syscalls_calls w me ⟨b, [], [], []⟩ startup
  have hinit : Displays console crt (options args)
      (State.init (Machine.syscalls w me ⟨b, [], [], []⟩ startup)) [] [] := by
    refine ⟨hdel, ⟨rfl, rfl, fun i _ hi => absurd hi (Nat.not_lt_zero i)⟩, fun r hr => ?_⟩
    -- the last call before the loop clears the screen
    change crt.after console (Machine.syscalls w me ⟨b, [], [], []⟩ startup).calls r = _
    rw [hcalls, startup]
    simp only [oldestKept, drop_nil, take_nil]
    rfl
  obtain ⟨delivered, h⟩ := hinit.turns hd hmax n
  rw [State.matching, main, h.delivered]
  exact h.rows

/-! ## What should be shown -/

/-- The last `d` events of `es`, or all of them. -/
def mostRecent (es : List TraceEvent) (d : Nat) : List TraceEvent := es.drop (es.length - d)

theorem Rows.map_eq {crt : Crt} {xs ys : List TraceEvent} (hx : Rows crt xs) (hy : Rows crt ys)
    (hlen : xs.length = ys.length) (hfit : 8 + xs.length ≤ 25) :
    xs.map eventLine = ys.map eventLine := by
  refine ext_getElem (by simp [hlen]) fun i hi hi' => ?_
  rw [length_map] at hi hi'
  have heq := (hx ⟨8 + i, by omega⟩ (Nat.le_add_right ..)).symm.trans
    (hy ⟨8 + i, by omega⟩ (Nat.le_add_right ..))
  simp only [Nat.add_sub_cancel_left, List.getElem?_eq_getElem hi,
    List.getElem?_eq_getElem hi'] at heq
  rw [getElem_map, getElem_map]
  exact heq

theorem Rows.of_map_eq {crt : Crt} {xs ys : List TraceEvent} (hx : Rows crt xs)
    (heq : xs.map eventLine = ys.map eventLine) : Rows crt ys := by
  have hline : ∀ (zs : List TraceEvent) (i : Nat),
      lineOf zs[i]? = (zs.map eventLine)[i]?.getD .blank := by
    intro zs i
    rw [List.getElem?_map]
    cases zs[i]? with
    | none => rfl
    | some e => simp only [lineOf, Option.map_some, Option.getD_some]
  intro r hr
  rw [hx r hr, hline, hline, heq]

theorem length_oldestKept {es : List TraceEvent} {d : Nat} (hd : d ≤ MAX_TRACE_ROWS) :
    (oldestKept es d).length = (mostRecent es d).length := by
  simp only [oldestKept, mostRecent, length_take, length_drop]
  omega

/-- **The dashboard.** After any number of turns of its loop, and so after each board that it draws,
`trace` shows the `d` most recent events that match its filter, if and only if there are no more than
`d` and no more than 17 of them; or there are more than `d`, `d` is at most 17, and the `d` oldest of the
last 32 look the same as the `d` most recent ones. -/
theorem shows_mostRecent_iff (console : Crt → UInt8 → Crt) (crt : Crt) (w : World) (me : Who)
    (args : List (List UInt8)) (b : TraceBuffer) (n : Nat)
    (hmax : (options args).display_rows.toNat ≤ MAX_TRACE_ROWS) :
    let d := (options args).display_rows.toNat
    let es := (main w me args b n).matching (options args) me
    Shows (crt.after console (main w me args b n).m.calls) (mostRecent es d) ↔
      es.length ≤ d ∧ es.length ≤ 17 ∨
        d < es.length ∧ d ≤ 17 ∧
          (oldestKept es d).map eventLine = (mostRecent es d).map eventLine := by
  intro d es
  have hnonneg : 0 ≤ cint (options args).display_rows := by
    have : (options args).display_rows.toNat < 2 ^ 31 := by
      simp only [MAX_TRACE_ROWS] at hmax
      omega
    rw [cint, if_pos this]
    exact Int.natCast_nonneg _
  have hrows : Rows _ (oldestKept es d) := rows_main console crt w me args b n hnonneg hmax
  have hlen : (oldestKept es d).length = (mostRecent es d).length := length_oldestKept hmax
  have hrecent : (mostRecent es d).length = min es.length d := by
    simp only [mostRecent, length_drop]
    omega
  by_cases hle : es.length ≤ d
  · -- all of them are drawn
    have hall : oldestKept es d = mostRecent es d := by
      rw [oldestKept, mostRecent, Nat.sub_eq_zero_of_le hle, Nat.sub_eq_zero_of_le (by omega),
        drop_zero, take_of_length_le hle]
    rw [hall] at hrows
    refine ⟨fun h => .inl ⟨hle, ?_⟩, fun h => ⟨?_, hrows⟩⟩
    · have := h.1
      omega
    · omega
  · refine ⟨fun h => .inr ⟨by omega, ?_, ?_⟩, fun h => ?_⟩
    · have := h.1
      omega
    · exact hrows.map_eq h.2 hlen (hlen ▸ h.1)
    · rcases h with h | ⟨-, hfit, heq⟩
      · omega
      · exact ⟨by omega, hrows.of_map_eq heq⟩

/-- Nobody else runs, and the clock stands still. -/
def quietWorld : World := fun _ => ⟨[], 0, 1, 0⟩

def traceProcess : Who := ⟨2, .copy (cstring "trace")⟩

/-- Two events of another process. -/
def twoUnread : TraceBuffer :=
  traceevent ⟨TRACE_TYPE_PROC, 1, 3, 0, 0, none, 0, none⟩
    (traceevent ⟨TRACE_TYPE_PROC, 1, 4, 0, 0, none, 0, none⟩ (traceinit fun _ => zeroEvent))

/-- `trace` with these events, after it was handed both. -/
def handedTwo (args : List (List UInt8)) : State := main quietWorld traceProcess args twoUnread 2

/-- With the default of 15 lines both are shown. -/
theorem shows_two :
    Shows (Crt.after (fun crt _ => crt) .vidclear (handedTwo []).m.calls)
      (mostRecent ((handedTwo []).matching (options []) traceProcess)
        (options []).display_rows.toNat) :=
  (shows_mostRecent_iff (fun crt _ => crt) .vidclear quietWorld traceProcess [] twoUnread 2
    (by decide)).mpr (.inl (by decide +kernel))

def oneLine : List (List UInt8) := [cstring "-n", cstring "1"]

/-- With one line the older one stays there. -/
theorem not_shows_second :
    ¬Shows (Crt.after (fun crt _ => crt) .vidclear (handedTwo oneLine).m.calls)
      (mostRecent ((handedTwo oneLine).matching (options oneLine) traceProcess)
        (options oneLine).display_rows.toNat) := by
  intro h
  have hrows : Rows _ (oldestKept ((handedTwo oneLine).matching (options oneLine) traceProcess)
      (options oneLine).display_rows.toNat) :=
    rows_main (fun crt _ => crt) .vidclear quietWorld traceProcess oneLine twoUnread 2
      (by decide) (by decide)
  have heq := hrows.map_eq h.2 (by decide +kernel) (by decide +kernel)
  -- the first character of the line is the number of the event
  have hfirst := congrArg (fun ls : List Line => ls.head?.map (· 0)) heq
  exact absurd hfirst (by decide +kernel)

end Xv6.Trace

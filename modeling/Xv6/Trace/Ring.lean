import Xv6.Trace.Event
import Xv6.Lib.Ring

/-!
# The kernel's event ring

`traceevent` appends a record to a ring of 128 events and drops the oldest unread one when the ring
is full; `traceread` hands out the oldest unread records. The counters `seq`, `readseq` and
`overwritten` are 32-bit and wrap. `Accounts` relates them to unbounded counts of what was
recorded, delivered and dropped; each of the two calls keeps it, whatever their order.
-/

namespace Xv6.Trace

@[simp] def TRACE_BUF_SIZE : Nat := 128

instance : NeZero TRACE_BUF_SIZE := ⟨by decide⟩

/-- `traceBuffer`. -/
structure TraceBuffer where
  enabled : Bool
  seq : UInt32
  readseq : UInt32
  overwritten : UInt32
  events : Fin TRACE_BUF_SIZE → TraceEvent

/-- `traceinit`, which leaves the slots as they are. -/
def traceinit (events : Fin TRACE_BUF_SIZE → TraceEvent) : TraceBuffer where
  enabled := true
  seq := 0
  readseq := 0
  overwritten := 0
  events := events

def traceevent (c : Call) (b : TraceBuffer) : TraceBuffer :=
  if !b.enabled then b
  else
    let b := { b with
      events := Function.update b.events (ringSlot _ b.seq) (c.record b.seq b.overwritten)
      seq := b.seq + 1 }
    if b.seq - b.readseq > UInt32.ofNat TRACE_BUF_SIZE then
      { b with
        readseq := b.seq - UInt32.ofNat TRACE_BUF_SIZE
        overwritten := b.overwritten + 1 }
    else b

/-- What a call of `traceread` leaves: its return value, the records it copied out, and the ring. -/
structure ReadResult where
  ret : Int
  delivered : List TraceEvent
  buf : TraceBuffer

/-- The loop of `traceread` with `k` records left to `max_events`. `copyout i` says whether copying
out the record with index `i` succeeds. -/
def traceread.loop (copyout : Nat → Bool) : Nat → Nat → List TraceEvent → TraceBuffer → ReadResult
  | 0, count, out, b => ⟨count, out, b⟩
  | k + 1, count, out, b =>
    if b.readseq = b.seq then ⟨count, out, b⟩
    else
      let event := b.events (ringSlot _ b.readseq)
      let b := { b with readseq := b.readseq + 1 }
      if copyout count then loop copyout k (count + 1) (out ++ [event]) b
      else ⟨if count > 0 then count else -1, out, b⟩

def traceread (copyout : Nat → Bool) (max_events : Int) (b : TraceBuffer) : ReadResult :=
  if max_events ≤ 0 then ⟨0, [], b⟩ else traceread.loop copyout max_events.toNat 0 [] b

/-! ## Runs -/

/-- A call on the ring by some process. -/
inductive Op
  | event (c : Call)
  | read (max_events : Int)

/-- The ring, all records written so far and all records delivered so far. -/
structure Traced where
  buf : TraceBuffer
  recorded : List TraceEvent
  delivered : List TraceEvent

/-- One call, with every `copyout` succeeding. -/
def Traced.step (t : Traced) : Op → Traced
  | .event c =>
    { t with
      buf := traceevent c t.buf
      recorded := t.recorded ++ [c.record t.buf.seq t.buf.overwritten] }
  | .read max_events =>
    let r := traceread (fun _ => true) max_events t.buf
    { t with buf := r.buf, delivered := t.delivered ++ r.delivered }

/-- The calls of `ops`, in order, after `traceinit`. -/
def trace (events : Fin TRACE_BUF_SIZE → TraceEvent) (ops : List Op) : Traced :=
  ops.foldl Traced.step ⟨traceinit events, [], []⟩

/-! ## Accounting -/

/-- The wrapping counters stand for unbounded ones: `w` records were written, the reader is at `r`,
and `lost` of those before it were overwritten unread. -/
structure Accounts (b : TraceBuffer) (recorded delivered : List TraceEvent) (r lost : Nat) :
    Prop where
  enabled : b.enabled = true
  seq : b.seq = UInt32.ofNat recorded.length
  readseq : b.readseq = UInt32.ofNat r
  overwritten : b.overwritten = UInt32.ofNat lost
  le : r ≤ recorded.length
  window : recorded.length ≤ r + TRACE_BUF_SIZE
  holds : RingHolds b.events recorded r recorded.length
  sublist : delivered.Sublist (recorded.take r)
  count : delivered.length + lost = r

namespace Accounts

variable {b : TraceBuffer} {recorded delivered : List TraceEvent} {r lost : Nat}

theorem init (events : Fin TRACE_BUF_SIZE → TraceEvent) :
    Accounts (traceinit events) [] [] 0 0 where
  enabled := rfl
  seq := rfl
  readseq := rfl
  overwritten := rfl
  le := Nat.le_refl _
  window := Nat.zero_le _
  holds := fun i _ hi => absurd hi (Nat.not_lt_zero i)
  sublist := .slnil
  count := rfl

theorem unread (h : Accounts b recorded delivered r lost) :
    (b.seq - b.readseq).toNat = recorded.length - r := by
  have := h.window
  rw [h.seq, h.readseq, toNat_ofNat_sub h.le]
  simp only [TRACE_BUF_SIZE] at this
  omega

theorem slot_seq (h : Accounts b recorded delivered r lost) :
    ringSlot TRACE_BUF_SIZE b.seq = Fin.ofNat _ recorded.length := by
  rw [h.seq, ringSlot_ofNat (by decide)]

section
variable (h : Accounts b recorded delivered r lost) (c : Call)
include h

theorem seq_succ : b.seq + 1 = UInt32.ofNat (recorded.length + 1) := by
  rw [h.seq, ofNat_add_one]

theorem unread_succ : (b.seq + 1 - b.readseq).toNat = recorded.length + 1 - r := by
  have hle := h.le
  have hwin := h.window
  simp only [TRACE_BUF_SIZE] at hwin
  rw [h.seq_succ, h.readseq, toNat_ofNat_sub (by omega) (by omega)]

/-- An event while 128 records are unread: the slot of entry `r` is reused, and the reader moves on to
`r + 1`. -/
theorem event_full (hfull : recorded.length = r + TRACE_BUF_SIZE) :
    Accounts (traceevent c b) (recorded ++ [c.record b.seq b.overwritten]) delivered
      (r + 1) (lost + 1) := by
  have hdiff := h.unread_succ
  simp only [TRACE_BUF_SIZE] at hfull
  have hgt : b.seq + 1 - b.readseq > UInt32.ofNat TRACE_BUF_SIZE := by
    rw [gt_iff_lt, UInt32.lt_iff_toNat_lt, TRACE_BUF_SIZE, UInt32.toNat_ofNat']
    omega
  have hread : b.seq + 1 - UInt32.ofNat TRACE_BUF_SIZE = UInt32.ofNat (r + 1) := by
    apply UInt32.toNat_inj.mp
    rw [h.seq_succ, TRACE_BUF_SIZE, UInt32.toNat_sub, UInt32.toNat_ofNat', UInt32.toNat_ofNat',
      UInt32.toNat_ofNat']
    omega
  have hlen : (recorded ++ [c.record b.seq b.overwritten]).length = recorded.length + 1 := by simp
  simp only [traceevent, h.enabled, Bool.not_true, Bool.false_eq_true, if_false, if_pos hgt]
  constructor
  · rfl
  · rw [hlen]; exact h.seq_succ
  · exact hread
  · simp only [h.overwritten, ofNat_add_one]
  · omega
  · simp only [TRACE_BUF_SIZE]; omega
  · rw [hlen, h.slot_seq]
    exact h.holds.push _ (Nat.le_succ r) (by simp only [TRACE_BUF_SIZE]; omega)
  · rw [List.take_append_of_le_length (by omega)]
    exact h.sublist.trans (List.take_sublist_take_left (Nat.le_succ r))
  · have := h.count
    omega

/-- An event while the ring has room. -/
theorem event_room (hroom : recorded.length ≠ r + TRACE_BUF_SIZE) :
    Accounts (traceevent c b) (recorded ++ [c.record b.seq b.overwritten]) delivered r lost := by
  have hle := h.le
  have hwin := h.window
  have hdiff := h.unread_succ
  simp only [TRACE_BUF_SIZE] at hwin hroom
  have hgt : ¬b.seq + 1 - b.readseq > UInt32.ofNat TRACE_BUF_SIZE := by
    rw [gt_iff_lt, UInt32.lt_iff_toNat_lt, TRACE_BUF_SIZE, UInt32.toNat_ofNat']
    omega
  have hlen : (recorded ++ [c.record b.seq b.overwritten]).length = recorded.length + 1 := by simp
  simp only [traceevent, h.enabled, if_neg hgt]
  constructor
  · rfl
  · rw [hlen]; exact h.seq_succ
  · exact h.readseq
  · exact h.overwritten
  · omega
  · simp only [TRACE_BUF_SIZE]; omega
  · rw [hlen, h.slot_seq]
    exact h.holds.push _ (Nat.le_refl r) (by simp only [TRACE_BUF_SIZE]; omega)
  · rw [List.take_append_of_le_length hle]
    exact h.sublist
  · exact h.count

/-- A recorded event: the ring gains it, and loses the oldest unread one if there were 128. -/
theorem event :
    ∃ r' lost', Accounts (traceevent c b) (recorded ++ [c.record b.seq b.overwritten]) delivered
      r' lost' := by
  by_cases hfull : recorded.length = r + TRACE_BUF_SIZE
  · exact ⟨r + 1, lost + 1, h.event_full c hfull⟩
  · exact ⟨r, lost, h.event_room c hfull⟩

end

section
variable (h : Accounts b recorded delivered r lost) (hne : b.readseq ≠ b.seq)
include h hne

theorem lt_length : r < recorded.length := by
  refine Nat.lt_of_le_of_ne h.le fun he => hne ?_
  rw [h.seq, h.readseq, he]

theorem next : recorded[r]? = some (b.events (ringSlot _ b.readseq)) := by
  rw [h.readseq, ringSlot_ofNat (by decide)]
  exact h.holds r (Nat.le_refl r) (h.lt_length hne)

theorem deliver :
    Accounts { b with readseq := b.readseq + 1 } recorded
      (delivered ++ [b.events (ringSlot _ b.readseq)]) (r + 1) lost := by
  have hwin := h.window
  constructor
  · exact h.enabled
  · exact h.seq
  · simp only [h.readseq, ofNat_add_one]
  · exact h.overwritten
  · exact h.lt_length hne
  · omega
  · exact h.holds.mono (Nat.le_succ r)
  · rw [List.take_add_one, h.next hne]
    exact h.sublist.append (List.Sublist.refl _)
  · have := h.count
    simp only [List.length_append, List.length_singleton]
    omega

end

/-- The reader is past the records handed out, and the last of them is the one just before it. -/
theorem readLoop (h : Accounts b recorded (delivered ++ out) r lost)
    (hlast : ∀ e ∈ out.getLast?, recorded[r - 1]? = some e) (k count : Nat) :
    ∃ r', Accounts (traceread.loop (fun _ => true) k count out b).buf recorded
        (delivered ++ (traceread.loop (fun _ => true) k count out b).delivered) r' lost ∧
      ∀ e ∈ (traceread.loop (fun _ => true) k count out b).delivered.getLast?,
        recorded[r' - 1]? = some e := by
  induction k generalizing b count out r with
  | zero => exact ⟨r, h, hlast⟩
  | succ k ih =>
    unfold traceread.loop
    split
    · exact ⟨r, h, hlast⟩
    next hne =>
      have hd := h.deliver hne
      rw [List.append_assoc] at hd
      refine ih hd (fun e he => ?_) (count + 1)
      rw [List.getLast?_concat] at he
      rw [← he]
      exact h.next hne

theorem read (h : Accounts b recorded delivered r lost) (max_events : Int) :
    ∃ r', Accounts (traceread (fun _ => true) max_events b).buf recorded
        (delivered ++ (traceread (fun _ => true) max_events b).delivered) r' lost ∧
      ∀ e ∈ (traceread (fun _ => true) max_events b).delivered.getLast?,
        recorded[r' - 1]? = some e := by
  unfold traceread
  split
  · exact ⟨r, by simpa using h, by simp⟩
  · exact readLoop (by simpa using h) (by simp) _ 0

end Accounts

theorem accounts_trace (events : Fin TRACE_BUF_SIZE → TraceEvent) (ops : List Op) :
    ∃ r lost, Accounts (trace events ops).buf (trace events ops).recorded
      (trace events ops).delivered r lost := by
  induction ops using List.reverseRecOn with
  | nil => exact ⟨0, 0, .init events⟩
  | append_singleton ops op ih =>
    obtain ⟨r, lost, h⟩ := ih
    simp only [trace, List.foldl_append] at h ⊢
    cases op with
    | event c => exact h.event c
    | read max_events =>
      obtain ⟨r', h', -⟩ := h.read max_events
      exact ⟨r', lost, h'⟩

/-- **The ring.** After any sequence of `traceevent` and `traceread` calls: at most 128 records are
unread; the slot of each unread sequence number `s` holds the record that the event with that number
(the last one, when numbers have wrapped) wrote; the delivered records are a subsequence of the
recorded ones; and the records written are those delivered, overwritten and unread, modulo
`2 ^ 32`. -/
theorem trace_ring (events : Fin TRACE_BUF_SIZE → TraceEvent) (ops : List Op) :
    let t := trace events ops
    (t.buf.seq - t.buf.readseq).toNat ≤ TRACE_BUF_SIZE ∧
    (∀ s : UInt32, s - t.buf.readseq < t.buf.seq - t.buf.readseq →
      ∃ i, UInt32.ofNat i = s ∧ i + (t.buf.seq - s).toNat = t.recorded.length ∧
        t.recorded[i]? = some (t.buf.events (ringSlot _ s))) ∧
    t.delivered.Sublist t.recorded ∧
    t.recorded.length % 2 ^ 32 =
      (t.delivered.length + t.buf.overwritten.toNat + (t.buf.seq - t.buf.readseq).toNat) %
        2 ^ 32 := by
  intro t
  obtain ⟨r, lost, h⟩ := accounts_trace events ops
  change Accounts t.buf t.recorded t.delivered r lost at h
  have hle := h.le
  have hwin := h.window
  have hun := h.unread
  simp only [TRACE_BUF_SIZE] at hwin
  refine ⟨by rw [hun]; simp only [TRACE_BUF_SIZE]; omega, fun s hs => ?_,
    h.sublist.trans (List.take_sublist ..), ?_⟩
  · rw [UInt32.lt_iff_toNat_lt, hun] at hs
    -- the entry is `s - readseq` places after the reader
    have hi : UInt32.ofNat (r + (s - t.buf.readseq).toNat) = s := by
      apply UInt32.toNat_inj.mp
      have := s.toNat_lt
      rw [UInt32.toNat_ofNat', UInt32.toNat_sub, h.readseq, UInt32.toNat_ofNat']
      omega
    refine ⟨r + (s - t.buf.readseq).toNat, hi, ?_, ?_⟩
    · have hsub := toNat_ofNat_sub (a := t.recorded.length) (b := r + (s - t.buf.readseq).toNat)
        (by omega) (by omega)
      rw [hi, ← h.seq] at hsub
      omega
    · have := h.holds _ (Nat.le_add_right r (s - t.buf.readseq).toNat) (by omega)
      rwa [← ringSlot_ofNat (by decide), hi] at this
  · have := h.count
    rw [hun, h.overwritten, UInt32.toNat_ofNat']
    omega

end Xv6.Trace

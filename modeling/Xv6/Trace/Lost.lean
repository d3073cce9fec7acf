import Xv6.Trace.Read

/-!
# What the last record says about lost ones

`traceevent` stamps a record with the number of records overwritten so far, and only then finds out
whether the record itself takes the place of an unread one. The record that a reader gets last, as the
ring becomes empty, is the last one recorded: its stamp leaves out what its own recording overwrote.
-/

namespace Xv6.Trace

def Op.isRead : Op → Bool
  | .event _ => false
  | .read _ => true

/-- The calls before the last `traceevent`. -/
def beforeLast (ops : List Op) : List Op := (ops.rdropWhile Op.isRead).dropLast

theorem beforeLast_event (ops : List Op) (c : Call) : beforeLast (ops ++ [.event c]) = ops := by
  rw [beforeLast, List.rdropWhile_concat_neg _ _ _ (by simp [Op.isRead]), List.dropLast_concat]

theorem beforeLast_read (ops : List Op) (max_events : Int) :
    beforeLast (ops ++ [.read max_events]) = beforeLast ops := by
  rw [beforeLast, List.rdropWhile_concat_pos _ _ _ rfl, beforeLast]

theorem trace_concat (events : Fin TRACE_BUF_SIZE → TraceEvent) (ops : List Op) (op : Op) :
    trace events (ops ++ [op]) = (trace events ops).step op := by
  simp only [trace, List.foldl_append, List.foldl_cons, List.foldl_nil]

/-- The number of records that were never delivered. -/
def Traced.undelivered (t : Traced) : Nat := t.recorded.length - t.delivered.length

/-- The stamp of the last record of `recorded` when `lost` records have been overwritten; `room` if the
last one was recorded with room in the ring. -/
def Stamped (recorded : List TraceEvent) (lost : Nat) (room : Prop) : Prop :=
  ∀ e ∈ recorded.getLast?, ∃ before, e.overwritten = UInt32.ofNat before ∧
    (room ∧ lost = before ∨ ¬room ∧ lost = before + 1)

/-- The last event stamps the number lost before it, and may lose one more. -/
theorem stamped_trace (events : Fin TRACE_BUF_SIZE → TraceEvent) (ops : List Op) :
    ∃ r lost, Accounts (trace events ops).buf (trace events ops).recorded
        (trace events ops).delivered r lost ∧
      Stamped (trace events ops).recorded lost
        ((trace events (beforeLast ops)).buf.unread < TRACE_BUF_SIZE) := by
  induction ops using List.reverseRecOn with
  | nil => exact ⟨0, 0, .init events, nofun⟩
  | append_singleton ops op ih =>
    obtain ⟨r, lost, h, hstamp⟩ := ih
    cases op with
    | event c =>
      have hle := h.le
      have hwin := h.window
      have hun : (trace events ops).buf.unread = _ := h.unread
      rw [beforeLast_event, trace_concat]
      by_cases hfull : (trace events ops).recorded.length = r + TRACE_BUF_SIZE
      · refine ⟨r + 1, lost + 1, h.event_full c hfull, fun e he => ?_⟩
        simp only [Traced.step, List.getLast?_concat, Option.mem_some] at he
        refine ⟨lost, ?_, .inr ⟨by omega, rfl⟩⟩
        rw [← he, ← h.overwritten]
        rfl
      · refine ⟨r, lost, h.event_room c hfull, fun e he => ?_⟩
        simp only [Traced.step, List.getLast?_concat, Option.mem_some] at he
        refine ⟨lost, ?_, .inl ⟨by omega, rfl⟩⟩
        rw [← he, ← h.overwritten]
        rfl
    | read max_events =>
      rw [beforeLast_read, trace_concat]
      obtain ⟨r', h', -⟩ := h.read max_events
      exact ⟨r', lost, h', hstamp⟩

/-- After `ops`, a read leaves the ring empty, and `e` is the last record that it delivers. -/
structure Empties (events : Fin TRACE_BUF_SIZE → TraceEvent) (ops : List Op) (max_events : Int)
    (e : TraceEvent) : Prop where
  empty : (trace events (ops ++ [.read max_events])).buf.unread = 0
  last : (traceread (fun _ => true) max_events (trace events ops).buf).delivered.getLast? = some e

/-- What the stamp of that record is: the number of records lost, less the one that it overwrote. -/
theorem Empties.stamp {events : Fin TRACE_BUF_SIZE → TraceEvent} {ops : List Op} {max_events : Int}
    {e : TraceEvent} (h : Empties events ops max_events e) :
    ∃ before, e.overwritten = UInt32.ofNat before ∧
      ((trace events (beforeLast ops)).buf.unread < TRACE_BUF_SIZE ∧
          (trace events (ops ++ [.read max_events])).undelivered = before ∨
        ¬(trace events (beforeLast ops)).buf.unread < TRACE_BUF_SIZE ∧
          (trace events (ops ++ [.read max_events])).undelivered = before + 1) := by
  obtain ⟨r, lost, hacc, hstamp⟩ := stamped_trace events ops
  obtain ⟨r', hread, hlast⟩ := hacc.read max_events
  have hempty := h.empty
  rw [trace_concat] at hempty ⊢
  -- the reader is at the end, so what it got last is the last record
  have hr : r' = (trace events ops).recorded.length := by
    have hun := hread.unread
    have hle := hread.le
    change (traceread _ _ _).buf.unread = 0 at hempty
    rw [TraceBuffer.unread] at hempty
    omega
  have he := hlast e h.last
  rw [hr, ← List.getLast?_eq_getElem?] at he
  have hcount : ((trace events ops).step (.read max_events)).undelivered = lost := by
    have := hread.count
    change (trace events ops).recorded.length - (_ ++ _ : List TraceEvent).length = lost
    omega
  rw [hcount]
  exact hstamp e he

/-- **Lost records.** The stamp of the record with which a reader empties the ring is the number of
records never delivered exactly when that record was recorded with room in the ring and the number is
below `2 ^ 32`. -/
theorem overwritten_eq_iff (events : Fin TRACE_BUF_SIZE → TraceEvent) (ops : List Op)
    (max_events : Int) (e : TraceEvent) (h : Empties events ops max_events e) :
    e.overwritten.toNat = (trace events (ops ++ [.read max_events])).undelivered ↔
      (trace events (beforeLast ops)).buf.unread < TRACE_BUF_SIZE ∧
        (trace events (ops ++ [.read max_events])).undelivered < 2 ^ 32 := by
  obtain ⟨before, hover, ⟨hroom, heq⟩ | ⟨hfull, heq⟩⟩ := h.stamp
  · rw [hover, heq, UInt32.toNat_ofNat', Nat.mod_eq_iff_lt (by decide)]
    exact ⟨fun hlt => ⟨hroom, hlt⟩, fun hlt => hlt.2⟩
  · have := Nat.mod_le before (2 ^ 32)
    rw [hover, heq, UInt32.toNat_ofNat']
    refine ⟨fun h => ?_, fun h => absurd h.1 hfull⟩
    omega

/-- A call of `traceevent` by the kernel. -/
def someCall : Call := ⟨1, 1, 0, 0, 0, none, 0, none⟩

/-- An empty slot of the ring. -/
def noEvent : TraceEvent := ⟨0, 0, 0, 0, 0, 0, 0, Bytes.zero, Bytes.zero, 0⟩

theorem overwritten_eq_one_event :
    (someCall.record 0 0).overwritten.toNat =
      (trace (fun _ => noEvent) [.event someCall, .read 1]).undelivered :=
  (overwritten_eq_iff (fun _ => noEvent) [.event someCall] 1 (someCall.record 0 0)
    ⟨by decide, by rfl⟩).mpr ⟨by decide, by decide⟩

/-- 129 events and a read of all that is there: the last record says that none were lost. -/
theorem overwritten_ne_129 :
    ¬∀ events ops max_events e, Empties events ops max_events e →
      e.overwritten.toNat = (trace events (ops ++ [.read max_events])).undelivered := by
  intro h
  let ops := List.replicate 129 (Op.event someCall)
  have hsome : (traceread (fun _ => true) 128
      (trace (fun _ => noEvent) ops).buf).delivered.getLast?.isSome := by decide +kernel
  obtain ⟨e, he⟩ := Option.isSome_iff_exists.mp hsome
  have hempties : Empties (fun _ => noEvent) ops 128 e := ⟨by decide +kernel, he⟩
  have heq := h _ _ _ e hempties
  obtain ⟨before, hover, ⟨hroom, -⟩ | ⟨-, hlost⟩⟩ := hempties.stamp
  · exact absurd hroom (by decide +kernel)
  · have := Nat.mod_le before (2 ^ 32)
    rw [hover, hlost, UInt32.toNat_ofNat'] at heq
    omega

end Xv6.Trace

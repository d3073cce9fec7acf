import Xv6.Trace.Ring
import Xv6.Vm.Memory

/-!
# Reading events into user memory

`traceread` moves the reader on before it copies the record out. `traceread_eq` says what it does
when `copyout` fails at some record: that record is neither delivered nor left unread.
-/

namespace Xv6.Trace

open TraceBuffer
open List

/-! ## The oldest unread records -/

/-- The number of unread records. -/
def TraceBuffer.unread (b : TraceBuffer) : Nat := (b.seq - b.readseq).toNat

/-- The `k` oldest unread records, oldest first. -/
def TraceBuffer.oldest (b : TraceBuffer) (k : Nat) : List TraceEvent :=
  (List.range k).map fun i => b.events (ringSlot _ (b.readseq + UInt32.ofNat i))

/-- The ring once the reader is `k` records further. -/
def TraceBuffer.skip (b : TraceBuffer) (k : Nat) : TraceBuffer :=
  { b with readseq := b.readseq + UInt32.ofNat k }

namespace TraceBuffer

variable {b : TraceBuffer} {k l : Nat}

@[simp] theorem skip_zero : b.skip 0 = b := by
  simp [skip]

theorem skip_one : { b with readseq := b.readseq + 1 } = b.skip 1 := rfl

theorem skip_skip : (b.skip k).skip l = b.skip (k + l) := by
  simp [skip, UInt32.add_assoc]

@[simp] theorem oldest_zero : b.oldest 0 = [] := rfl

@[simp] theorem length_oldest : (b.oldest k).length = k := by
  simp [oldest]

theorem oldest_succ :
    b.oldest (k + 1) = b.events (ringSlot _ b.readseq) :: (b.skip 1).oldest k := by
  simp only [oldest, range_succ_eq_map, map_cons, map_map]
  congr 1
  · simp
  · refine map_congr_left fun i _ => ?_
    simp only [Function.comp_apply, skip, Nat.succ_eq_add_one, UInt32.ofNat_add, UInt32.add_assoc,
      UInt32.add_comm (UInt32.ofNat i)]

theorem unread_eq_zero : b.unread = 0 ↔ b.readseq = b.seq := by
  have hs := b.seq.toNat_lt
  have hr := b.readseq.toNat_lt
  rw [unread, UInt32.toNat_sub, ← UInt32.toNat_inj]
  omega

theorem unread_skip (h : k ≤ b.unread) : (b.skip k).unread = b.unread - k := by
  have hr := b.readseq.toNat_lt
  unfold unread at h ⊢
  dsimp only [skip]
  rw [UInt32.toNat_sub] at h ⊢
  rw [UInt32.toNat_add, UInt32.toNat_ofNat', UInt32.toNat_sub]
  omega

theorem oldest_add_one : b.oldest (k + 1) = b.oldest k ++ [b.events (ringSlot _ (b.readseq + UInt32.ofNat k))] := by
  simp [oldest, range_succ]

theorem drop_oldest : (b.oldest k).drop l = (b.skip l).oldest (k - l) := by
  induction l generalizing b k with
  | zero => simp
  | succ l ih =>
    cases k with
    | zero => simp
    | succ k => rw [oldest_succ, drop_succ_cons, ih, skip_skip, Nat.add_comm 1, Nat.add_sub_add_right]

/-- The unread records, oldest first. -/
def queue (b : TraceBuffer) : List TraceEvent := b.oldest b.unread

theorem length_queue : b.queue.length = b.unread := length_oldest

theorem queue_skip (h : k ≤ b.unread) : (b.skip k).queue = b.queue.drop k := by
  rw [queue, queue, drop_oldest, unread_skip h]

/-- What holds of the ring at all times: it is enabled, and has room for what is unread. -/
structure Valid (b : TraceBuffer) : Prop where
  enabled : b.enabled = true
  window : b.unread ≤ TRACE_BUF_SIZE

theorem Valid.skip (h : b.Valid) (hk : k ≤ b.unread) : (b.skip k).Valid where
  enabled := h.enabled
  window := by
    have := h.window
    rw [unread_skip hk]
    omega

/-- The ring with one more record, and the reader where it was. -/
def push (b : TraceBuffer) (e : TraceEvent) : TraceBuffer :=
  { b with events := Function.update b.events (ringSlot _ b.seq) e, seq := b.seq + 1 }

theorem seq_eq (b : TraceBuffer) : b.seq = b.readseq + UInt32.ofNat b.unread := by
  apply UInt32.toNat_inj.mp
  have hs := b.seq.toNat_lt
  have hr := b.readseq.toNat_lt
  rw [unread, UInt32.ofNat_toNat, UInt32.toNat_add, UInt32.toNat_sub]
  omega

/-- The record that is pushed does not take the slot of one of the last 127. -/
theorem oldest_push (h : l + k = b.unread) (hk : k < TRACE_BUF_SIZE) (e : TraceEvent) :
    ((b.push e).skip l).oldest (k + 1) = (b.skip l).oldest k ++ [e] := by
  have hseq : b.readseq + UInt32.ofNat l + UInt32.ofNat k = b.seq := by
    rw [UInt32.add_assoc, ← UInt32.ofNat_add, h, ← seq_eq]
  have hslot : ∀ i < k, ringSlot TRACE_BUF_SIZE (b.readseq + UInt32.ofNat l + UInt32.ofNat i) ≠
      ringSlot _ b.seq := by
    intro i hi heq
    rw [← hseq] at heq
    have hval : _ % 128 = _ % 128 := congrArg Fin.val heq
    simp only [TRACE_BUF_SIZE, UInt32.toNat_add, UInt32.toNat_ofNat'] at hk hval
    omega
  rw [oldest_add_one]
  congr 1
  · refine map_congr_left fun i hi => ?_
    exact update_of_ne (hslot i (mem_range.mp hi)) ..
  · congr 1
    dsimp only [skip, push]
    rw [hseq, update_self]

theorem unread_push (h : b.unread ≤ TRACE_BUF_SIZE) (e : TraceEvent) :
    (b.push e).unread = b.unread + 1 := by
  unfold unread at h ⊢
  dsimp only [push]
  simp only [UInt32.toNat_sub, UInt32.toNat_add, UInt32.toNat_one, TRACE_BUF_SIZE] at h ⊢
  omega

/-- `traceevent` is a push into a queue with room for 128. -/
theorem Valid.traceevent_eq (h : b.Valid) (c : Call) :
    ∃ l lost, l = b.unread + 1 - TRACE_BUF_SIZE ∧
      traceevent c b = { (b.push (c.record b.seq b.overwritten)).skip l with
        overwritten := lost } := by
  have hwin := h.window
  have hpush := unread_push hwin (c.record b.seq b.overwritten)
  have hgt : b.seq + 1 - b.readseq > UInt32.ofNat TRACE_BUF_SIZE ↔
      TRACE_BUF_SIZE < b.unread + 1 := by
    rw [gt_iff_lt, ← hpush]
    rfl
  unfold traceevent
  rw [if_neg (by simp [h.enabled])]
  simp only [hgt]
  split
  next hfull =>
    refine ⟨1, b.overwritten + 1, by omega, ?_⟩
    have hread : b.seq + 1 - UInt32.ofNat TRACE_BUF_SIZE = b.readseq + UInt32.ofNat 1 := by
      have hun : b.unread = 128 := by
        simp only [TRACE_BUF_SIZE] at hwin hfull
        omega
      rw [seq_eq b]
      apply UInt32.toNat_inj.mp
      simp only [TRACE_BUF_SIZE, UInt32.toNat_sub, UInt32.toNat_add, UInt32.toNat_ofNat',
        UInt32.toNat_one]
      omega
    rw [hread]
    rfl
  next hroom =>
    exact ⟨0, b.overwritten, by omega, by simp [push]⟩

section
variable (h : b.Valid) (c : Call)
include h

theorem Valid.event : (traceevent c b).Valid := by
  obtain ⟨l, lost, hl, heq⟩ := h.traceevent_eq c
  have hwin := h.window
  have hpush := unread_push hwin (c.record b.seq b.overwritten)
  have hskip := unread_skip (k := l) (b := b.push (c.record b.seq b.overwritten)) (by omega)
  rw [heq]
  refine ⟨h.enabled, ?_⟩
  change ((b.push _).skip l).unread ≤ _
  omega

theorem Valid.queue_event :
    (traceevent c b).queue =
      (b.queue ++ [c.record b.seq b.overwritten]).drop (b.unread + 1 - TRACE_BUF_SIZE) := by
  obtain ⟨l, lost, hl, heq⟩ := h.traceevent_eq c
  have hwin := h.window
  have hpos : 0 < TRACE_BUF_SIZE := by decide
  have hpush := unread_push hwin (c.record b.seq b.overwritten)
  rw [← hl, heq]
  change ((b.push _).skip l).queue = _
  rw [queue, unread_skip (by omega), hpush, Nat.sub_add_comm (by omega),
    oldest_push (by omega) (by omega), drop_append_of_le_length (by rw [length_queue]; omega),
    queue, drop_oldest]

end

end TraceBuffer

/-! ## `traceread` with the `copyout` of `vm.c` -/

def sizeofTraceEvent : Nat := 64

/-- `copyout` of a record to `&dst[i]`; the kernel stops if there is no page table there. -/
def copyRecord (m : Vm.Mem) (pgdir dst i : Nat) : Except Fault Int :=
  (Vm.copyout pgdir sizeofTraceEvent ((dst + sizeofTraceEvent * i) % 2 ^ 64) sizeofTraceEvent m).map
    Prod.fst

/-- The loop of `traceread`, with what `copyout` returns for each record. -/
def tracereadAt.loop (copyout : Nat → Except Fault Int) :
    Nat → Nat → List TraceEvent → TraceBuffer → Except Fault ReadResult
  | 0, count, out, b => .ok ⟨count, out, b⟩
  | k + 1, count, out, b =>
    if b.readseq = b.seq then .ok ⟨count, out, b⟩
    else
      let event := b.events (ringSlot _ b.readseq)
      let b := { b with readseq := b.readseq + 1 }
      match copyout count with
      | .error e => .error e
      | .ok v =>
        if v < 0 then .ok ⟨if count > 0 then count else -1, out, b⟩
        else loop copyout k (count + 1) (out ++ [event]) b

/-- `traceread` of a process with the page table `pgdir`. -/
def tracereadAt (m : Vm.Mem) (pgdir dst : Nat) (max_events : Int) (b : TraceBuffer) :
    Except Fault ReadResult :=
  if max_events ≤ 0 then .ok ⟨0, [], b⟩
  else tracereadAt.loop (copyRecord m pgdir dst) max_events.toNat 0 [] b

/-- A copy that takes place. -/
def Copied (r : Except Fault Int) : Prop := ∃ v, r = .ok v ∧ 0 ≤ v

/-- A copy that is refused. -/
def Refused (r : Except Fault Int) : Prop := ∃ v, r = .ok v ∧ v < 0

theorem Copied.not_refused {r : Except Fault Int} (h : Copied r) : ¬Refused r := by
  obtain ⟨v, rfl, hv⟩ := h
  rintro ⟨w, hw, hneg⟩
  cases hw
  omega

section
variable (copyout : Nat → Except Fault Int) (k count : Nat) (out : List TraceEvent)
  (b : TraceBuffer)

theorem tracereadAt_loop_eq (copied : Nat → Bool)
    (h : ∀ i, if copied i then Copied (copyout i) else Refused (copyout i)) :
    tracereadAt.loop copyout k count out b = .ok (traceread.loop copied k count out b) := by
  induction k generalizing count out b with
  | zero => rfl
  | succ k ih =>
    have hc := h count
    rw [tracereadAt.loop, traceread.loop]
    split
    · rfl
    · split at hc
      next htrue =>
        obtain ⟨v, hv, hpos⟩ := hc
        simp only [hv, htrue, if_neg (Int.not_lt.mpr hpos), if_true, ih]
      next hfalse =>
        obtain ⟨v, hv, hneg⟩ := hc
        simp only [hv, hfalse, if_pos hneg, Bool.false_eq_true, if_false]

/-- The loop ends with the last record, or at the first one that is not copied. -/
theorem tracereadAt_loop_cases :
    ∃ j ≤ min k b.unread, (∀ i < j, Copied (copyout (count + i))) ∧
      (j = min k b.unread ∧ tracereadAt.loop copyout k count out b =
          .ok ⟨↑(count + j), out ++ b.oldest j, b.skip j⟩ ∨
        j < min k b.unread ∧ Refused (copyout (count + j)) ∧
          tracereadAt.loop copyout k count out b =
            .ok ⟨if count + j > 0 then ↑(count + j) else -1, out ++ b.oldest j, b.skip (j + 1)⟩ ∨
        j < min k b.unread ∧ ∃ e, copyout (count + j) = .error e ∧
          tracereadAt.loop copyout k count out b = .error e) := by
  induction k generalizing count out b with
  | zero => exact ⟨0, Nat.zero_le _, nofun, .inl (by simp [tracereadAt.loop])⟩
  | succ k ih =>
    by_cases hend : b.readseq = b.seq
    · have hzero := unread_eq_zero.mpr hend
      exact ⟨0, Nat.zero_le _, nofun, .inl (by simp [tracereadAt.loop, hend, hzero])⟩
    · have hpos : b.unread ≠ 0 := fun h => hend (unread_eq_zero.mp h)
      have hrest : (b.skip 1).unread = b.unread - 1 := unread_skip (by omega)
      have hmin : min (k + 1) b.unread = min k (b.skip 1).unread + 1 := by omega
      rw [tracereadAt.loop, if_neg hend, hmin, skip_one]
      cases hc : copyout count with
      | error e => exact ⟨0, Nat.zero_le _, nofun, .inr (.inr ⟨Nat.succ_pos _, e, hc, rfl⟩)⟩
      | ok v =>
        by_cases hv : v < 0
        · refine ⟨0, Nat.zero_le _, nofun, .inr (.inl ⟨Nat.succ_pos _, ⟨v, hc, hv⟩, ?_⟩)⟩
          simp [hv]
        · obtain ⟨j, hj, hall, hcases⟩ :=
            ih (count + 1) (out ++ [b.events (ringSlot _ b.readseq)]) (b.skip 1)
          have hadd : ∀ i, count + (i + 1) = count + 1 + i := fun i => by omega
          have hout : out ++ [b.events (ringSlot _ b.readseq)] ++ (b.skip 1).oldest j =
              out ++ b.oldest (j + 1) := by
            rw [oldest_succ, append_assoc, singleton_append]
          simp only [if_neg hv]
          refine ⟨j + 1, by omega, fun i hi => ?_, ?_⟩
          · cases i with
            | zero => exact ⟨v, hc, Int.not_lt.mp hv⟩
            | succ i =>
              rw [hadd]
              exact hall i (by omega)
          · rw [hadd j]
            rw [hout, skip_skip, skip_skip, Nat.add_comm 1,
              Nat.add_comm 1] at hcases
            rcases hcases with ⟨hj, hr⟩ | ⟨hj, hc, hr⟩ | ⟨hj, hc⟩
            · exact .inl ⟨by omega, hr⟩
            · exact .inr (.inl ⟨by omega, hc, hr⟩)
            · exact .inr (.inr ⟨by omega, hc⟩)

end

theorem traceread_buf (copied : Nat → Bool) (max_events : Int) (b : TraceBuffer) :
    ∃ k ≤ b.unread, (traceread copied max_events b).buf = b.skip k := by
  unfold traceread
  split
  · exact ⟨0, Nat.zero_le _, skip_zero.symm⟩
  · have heq := tracereadAt_loop_eq (fun i => .ok (if copied i then 0 else -1)) max_events.toNat 0 []
      b copied fun i => by split <;> exact ⟨_, rfl, by simp [*]⟩
    obtain ⟨j, hj, -, hcases⟩ := tracereadAt_loop_cases
      (fun i => .ok (if copied i then 0 else -1)) max_events.toNat 0 [] b
    rw [heq] at hcases
    rcases hcases with ⟨-, hr⟩ | ⟨hlt, -, hr⟩ | ⟨-, e, -, hr⟩
    · exact ⟨j, by omega, congrArg ReadResult.buf (Except.ok.inj hr)⟩
    · exact ⟨j + 1, by omega, congrArg ReadResult.buf (Except.ok.inj hr)⟩
    · cases hr

section
variable {b : TraceBuffer} {copied : Nat → Bool} {e : TraceEvent} {q : List TraceEvent}

theorem traceread_one_nil (h : b.queue = []) : traceread copied 1 b = ⟨0, [], b⟩ := by
  have hend : b.readseq = b.seq := by
    rw [← unread_eq_zero, ← length_queue, h]
    rfl
  simp [traceread, traceread.loop, hend]

theorem traceread_one_cons (h : b.queue = e :: q) :
    traceread (fun _ => true) 1 b = ⟨1, [e], b.skip 1⟩ ∧ (b.skip 1).queue = q := by
  have hlen : b.unread = q.length + 1 := by
    rw [← length_queue, h]
    rfl
  have hne : b.readseq ≠ b.seq := by
    rw [ne_eq, ← unread_eq_zero]
    omega
  have hhead : b.events (ringSlot _ b.readseq) = e := by
    rw [TraceBuffer.queue, hlen, oldest_succ] at h
    exact (List.cons.inj h).1
  refine ⟨?_, by rw [queue_skip (by omega), h]; rfl⟩
  rw [traceread, if_neg (by decide)]
  change traceread.loop _ 1 0 [] b = _
  rw [traceread.loop, if_neg hne, hhead]
  rfl

end

/-! ## What becomes of the records -/

/-- A call that returns `k ≥ 0` has copied the `k` oldest unread records and moved the reader past
them, one that returns -1 has not moved the reader, and each record that was unread is delivered or
still unread. -/
structure ReadRight (b : TraceBuffer) (r : ReadResult) : Prop where
  delivered : ∀ k : Nat, r.ret = k → k ≤ b.unread ∧ r.delivered = b.oldest k ∧
    r.buf.readseq = b.readseq + UInt32.ofNat k
  failed : r.ret = -1 → r.buf.readseq = b.readseq
  kept : r.buf.overwritten = b.overwritten ∧ b.unread = r.delivered.length + r.buf.unread

variable {b : TraceBuffer}

theorem ReadRight.of_skip {k : Nat} (h : k ≤ b.unread) :
    ReadRight b ⟨k, b.oldest k, b.skip k⟩ where
  delivered l hl := by
    cases Int.ofNat_inj.mp hl
    exact ⟨h, rfl, rfl⟩
  failed hneg := by
    dsimp only at hneg
    omega
  kept := by
    refine ⟨rfl, ?_⟩
    rw [unread_skip h, length_oldest]
    omega

/-- **Reading events.** A call treats all records as it should exactly when `copyout` refuses none of
those that it gets to. -/
theorem tracereadAt_right_iff (m : Vm.Mem) (pgdir dst : Nat) (max_events : Int) (b : TraceBuffer) :
    (∀ r, tracereadAt m pgdir dst max_events b = .ok r → ReadRight b r) ↔
      ∀ i < min max_events.toNat b.unread, (∀ j < i, Copied (copyRecord m pgdir dst j)) →
        ¬Refused (copyRecord m pgdir dst i) := by
  unfold tracereadAt
  by_cases hmax : max_events ≤ 0
  · rw [if_pos hmax]
    refine ⟨fun _ i hi => by omega, fun _ r hr => ?_⟩
    cases hr
    simpa using ReadRight.of_skip (Nat.zero_le b.unread)
  · rw [if_neg hmax]
    obtain ⟨j, hj, hall, hcases⟩ :=
      tracereadAt_loop_cases (copyRecord m pgdir dst) max_events.toNat 0 [] b
    simp only [Nat.zero_add, nil_append] at hall hcases
    rcases hcases with ⟨hend, hr⟩ | ⟨hlt, hrefused, hr⟩ | ⟨hlt, e, hstop, hr⟩
    · rw [hr]
      refine ⟨fun _ i hi _ => (hall i (by omega)).not_refused, fun _ r hr => ?_⟩
      cases hr
      exact .of_skip (by omega)
    · -- the record is not delivered, and it is not unread any more
      rw [hr]
      refine ⟨fun h => ?_, fun h => absurd hrefused (h j hlt hall)⟩
      have hkept := (h _ rfl).kept.2
      rw [length_oldest, unread_skip (by omega)] at hkept
      omega
    · rw [hr]
      refine ⟨fun _ i hi hbefore hrefused => ?_, nofun⟩
      rcases Nat.lt_trichotomy i j with hij | rfl | hij
      · exact (hall i hij).not_refused hrefused
      · obtain ⟨v, hv, -⟩ := hrefused
        rw [hstop] at hv
        cases hv
      · obtain ⟨v, hv, -⟩ := hbefore j hij
        rw [hstop] at hv
        cases hv

/-- A page table, in page 1, that leads to an empty one for the lowest addresses. -/
def unmapped : Vm.Mem where
  first := 0
  freelist := []
  page t _ := if 1 ≤ t ∧ t ≤ 3 then ⟨t + 1, true, true, true⟩ else .zero
  kpdpt := 0

/-- A ring with one unread record. -/
def oneUnread : TraceBuffer where
  enabled := true
  seq := 1
  readseq := 0
  overwritten := 0
  events := fun _ => ⟨0, 0, 1, 1, 0, 0, 0, Bytes.zero, Bytes.zero, 0⟩

/-- A read that returns -1 has moved the reader past the record. -/
theorem failed_read_lost :
    ¬∀ r, tracereadAt unmapped 1 4096 1 oneUnread = .ok r → ReadRight oneUnread r := by
  intro h
  have hkept := (h ⟨-1, [], oneUnread.skip 1⟩ rfl).failed rfl
  exact absurd hkept (by decide)

end Xv6.Trace

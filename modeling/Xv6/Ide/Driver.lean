import Xv6.Ide.Memide
import Xv6.Lib.Linked

/-!
# The queue of the IDE driver

The requests of `ide.c`. `iderw` appends its buffer to the list at `idequeue`, starts the drive if
the list was empty and sleeps until the flags of the buffer say that the request was served. The
drive works on the buffer at the head of the list; its interrupt removes the head, wakes the caller
and starts the drive on the next buffer. A step of this model is one stretch under `idelock`, the
work of the drive, or what the holder of a buffer does with it between two calls.

The history says when a request is complete. Replaying it with `iderw` of `memide.c`, one request
after the other, ends with the same buffers, and with the same disk once the drive is idle
(`Books`).
-/

namespace Xv6.Ide

open List

/-! ## The drive -/

@[simp] def SECTOR_SIZE : Nat := 512

/-- The registers 0x1f3 to 0x1f6, which name a drive and a sector. -/
structure Regs where
  low : UInt8
  mid : UInt8
  high : UInt8
  select : UInt8

/-- What `idestart` stores in the registers for a block. -/
def Regs.of (dev blockno : UInt32) : Regs :=
  let sector := blockno * UInt32.ofNat (BSIZE / SECTOR_SIZE)
  { low := (sector &&& 0xff).toUInt8
    mid := ((sector >>> 8) &&& 0xff).toUInt8
    high := ((sector >>> 16) &&& 0xff).toUInt8
    select := ((0xe0 : UInt32) ||| ((dev &&& 1) <<< 4) ||| ((sector >>> 24) &&& 0x0f)).toUInt8 }

def Regs.drive (r : Regs) : Bool := r.select &&& 0x10 ≠ 0

def Regs.lba (r : Regs) : Nat :=
  r.low.toNat + 2 ^ 8 * r.mid.toNat + 2 ^ 16 * r.high.toNat + 2 ^ 24 * (r.select &&& 0x0f).toNat

/-- A command for one sector: `IDE_CMD_WRITE` with its data, or `IDE_CMD_READ`. -/
structure Command where
  drive : Bool
  lba : Nat
  write : Option Block

/-- The command that `idestart` issues for a buffer. -/
def command (x : Buf) : Command where
  drive := (Regs.of x.dev x.blockno).drive
  lba := (Regs.of x.dev x.blockno).lba
  write := if x.dirty then some x.data else none

inductive Phase
  | idle
  | working (c : Command)
  /-- The command is done and its interrupt is raised. -/
  | raised

/-- The two drives, and the data that the last read left in the data register. -/
structure Device where
  disk : Bool → Disk
  phase : Phase
  data : Block

/-- The drive executes its command and raises one interrupt. -/
def Device.work (d : Device) : Except Fault Device :=
  match d.phase with
  | .working c => match c.write with
    | some x => .ok { d with
      disk := Function.update d.disk c.drive (Function.update (d.disk c.drive) c.lba x)
      phase := .raised }
    | none => .ok { d with data := d.disk c.drive c.lba, phase := .raised }
  | _ => .error .disabled

/-- `idestart(b)`. A command for a drive that has one already is an error of its own here, which
the source has no test for. -/
def idestart (x : Buf) (d : Device) : Except Fault Device :=
  if x.blockno.toNat ≥ FSSIZE then .error (.panic "incorrect blockno")
  else match d.phase with
    | .idle => .ok { d with phase := .working (command x) }
    | _ => .error (.panic "drive active")

/-! ## The driver -/

/-- A process in `iderw`: the position of its request among all requests, and its buffer. -/
structure Call (β : Type) where
  id : Nat
  b : β
  asleep : Bool

/-- What happens to the buffers: a request completes, or the holder of a buffer changes it. -/
inductive Event (β : Type)
  | rw (b : β)
  | use (b : β) (x : Buf)

/-- The buffers, the queue, the drive and where each process is; then the history: the buffers of
all requests, the events, and the requests whose calls have returned. -/
structure Sys (β π : Type) where
  havedisk1 : Bool
  buf : β → Buf
  qnext : β → Option β
  idequeue : Option β
  dev : Device
  proc : π → Option (Call β)
  queued : List β
  events : List (Event β)
  returned : List Nat

inductive Step (β π : Type)
  /-- `iderw(b)`, up to its first `sleep`. -/
  | iderw (me : π) (b : β)
  /-- A process that was woken runs the loop of `iderw` again. -/
  | resume (me : π)
  | work
  | intr
  | use (b : β) (x : Buf)

variable {β π : Type} [DecidableEq β]

/-- Append `b` to `idequeue`. -/
def insert [Fintype β] (s : Sys β π) (b : β) : Except Fault (Sys β π) :=
  let qnext := Function.update s.qnext b none
  match s.idequeue with
  | none => .ok { s with qnext, idequeue := some b }
  | some head => match lastNode qnext (Fintype.card β) head with
    | some z => .ok { s with qnext := Function.update qnext z (some b) }
    -- the links form a cycle
    | none => .error .disabled

/-- Start the drive on `b` if it is the first in the queue. -/
def startFirst (idequeue : Option β) (b : β) (x : Buf) (d : Device) : Except Fault Device :=
  if idequeue = some b then idestart x d else .ok d

/-- The test of the loop in `iderw`, then `sleep` or the return. -/
def await [DecidableEq π] (s : Sys β π) (me : π) (c : Call β) : Sys β π :=
  if (s.buf c.b).valid && !(s.buf c.b).dirty then { s with
    proc := Function.update s.proc me none
    returned := s.returned ++ [c.id] }
  else { s with proc := Function.update s.proc me (some { c with asleep := true }) }

/-- `iderw` of `ide.c`, up to its first `sleep`. -/
def iderw [Fintype β] [DecidableEq π] (s : Sys β π) (me : π) (b : β) : Except Fault (Sys β π) :=
  let x := s.buf b
  if !x.locked then .error (.panic "iderw: buf not locked")
  else if x.valid && !x.dirty then .error (.panic "iderw: nothing to do")
  else if x.dev ≠ 0 && !s.havedisk1 then .error (.panic "iderw: ide disk 1 not present")
  else do
    let t ← insert s b
    let dev ← startFirst t.idequeue b x t.dev
    .ok (await { t with dev, queued := s.queued ++ [b] } me ⟨s.queued.length, b, false⟩)

/-- `wakeup(b)`. -/
def wakeup (b : β) (proc : π → Option (Call β)) : π → Option (Call β) := fun p =>
  (proc p).map fun c => if c.b = b then { c with asleep := false } else c

/-- `ideintr()`. -/
def ideintr (s : Sys β π) : Except Fault (Sys β π) :=
  match s.idequeue with
  | none => .ok s
  | some b =>
    let x := s.buf b
    let t : Sys β π := { s with
      idequeue := s.qnext b
      buf := Function.update s.buf b
        { x.served with data := if x.dirty then x.data else s.dev.data }
      proc := wakeup b s.proc
      events := s.events ++ [.rw b] }
    match t.idequeue with
    | none => .ok t
    | some c => do
      let dev ← idestart (t.buf c) t.dev
      .ok { t with dev }

def step [Fintype β] [DecidableEq π] (s : Sys β π) : Step β π → Except Fault (Sys β π)
  | .iderw me b => match s.proc me with
    | none => iderw s me b
    | some _ => .error .disabled
  | .resume me => match s.proc me with
    | some ⟨id, b, false⟩ => .ok (await s me ⟨id, b, false⟩)
    | _ => .error .disabled
  | .work => do
    let dev ← s.dev.work
    .ok { s with dev }
  | .intr => match s.dev.phase with
    | .raised => ideintr { s with dev := { s.dev with phase := .idle } }
    | _ => .error .disabled
  | .use b x => .ok { s with buf := Function.update s.buf b x, events := s.events ++ [.use b x] }

/-- After `ideinit()` has found both drives. -/
def start (disk : Bool → Disk) (data : Block) (buf : β → Buf) (qnext : β → Option β) : Sys β π where
  havedisk1 := true
  buf
  qnext
  idequeue := none
  dev := ⟨disk, .idle, data⟩
  proc _ := none
  queued := []
  events := []
  returned := []

/-- No process is in `iderw` with this buffer. -/
def Free (s : Sys β π) (b : β) : Prop := ∀ p c, s.proc p = some c → c.b ≠ b

/-- A caller of `iderw` holds the sleep-lock of its buffer, so that nobody else is in a call with
it or changes it, and the request is one that `memide.c` serves. -/
def Proper (s : Sys β π) : Step β π → Prop
  | .iderw _ b => (s.buf b).Request FSSIZE ∧ Free s b
  | .use b _ => Free s b
  | _ => True

/-! ## The history as a run of `memide.c` -/

def Memide.step (m : Memide.State β) : Event β → Except Fault (Memide.State β)
  | .rw b => Memide.iderw FSSIZE m b
  | .use b x => .ok { m with buf := Function.update m.buf b x }

/-- The buffers of the requests that are complete, in this order. -/
def Sys.done (s : Sys β π) : List β :=
  s.events.filterMap fun
    | .rw b => some b
    | .use _ _ => none

/-- What the drive does for the queue `rest`. -/
def Serving (d : Device) (m : Memide.State β) : List β → Prop
  | [] => d.phase = .idle ∧ d.disk true = m.memdisk
  | b :: _ =>
    let x := m.buf b
    d.phase = .working (command x) ∧ d.disk true = m.memdisk ∨
    d.phase = .raised ∧ if x.dirty
      then d.disk true = Function.update m.memdisk x.blockno.toNat x.data
      else d.disk true = m.memdisk ∧ d.data = m.memdisk x.blockno.toNat

/-- The events so far, replayed from `m₀` by `memide.c`, end in `m`; the requests that are not
complete form the queue `rest`, and the drive works on its head. -/
structure Books (m₀ : Memide.State β) (s : Sys β π) (m : Memide.State β) (rest : List β) : Prop where
  havedisk1 : s.havedisk1 = true
  replay : s.events.foldlM Memide.step m₀ = .ok m
  buf : s.buf = m.buf
  queued : s.queued = s.done ++ rest
  linked : Linked s.qnext s.idequeue rest
  request : ∀ b ∈ rest, (s.buf b).Request FSSIZE
  call : ∀ p c, s.proc p = some c → s.queued[c.id]? = some c.b
  waits : ∀ k, s.done.length ≤ k → k < s.queued.length → ∃ p c, s.proc p = some c ∧ c.id = k
  alone : ∀ p q c d, s.proc p = some c → s.proc q = some d → c.b = d.b → p = q
  served : ∀ p c, s.proc p = some c → c.id < s.done.length →
    (s.buf c.b).valid = true ∧ (s.buf c.b).dirty = false ∧ c.asleep = false
  returned : ∀ k ∈ s.returned, k < s.done.length
  serving : Serving s.dev m rest

section
variable {m₀ m : Memide.State β} {s t : Sys β π} {rest : List β} {b : β} {x : Buf}

theorem command_eq (h : x.Request FSSIZE) :
    command x = ⟨true, x.blockno.toNat, if x.dirty then some x.data else none⟩ := by
  have hlt : x.blockno.toNat < 1000 := h.blockno
  have hsector : x.blockno * UInt32.ofNat (BSIZE / SECTOR_SIZE) = x.blockno := UInt32.mul_one _
  have hshift : ∀ k : UInt32, 16 ≤ k.toNat → k.toNat < 32 → x.blockno >>> k = 0 := by
    intro k hk hk'
    apply UInt32.toNat_inj.mp
    have hpow : 2 ^ 16 ≤ 2 ^ k.toNat := Nat.pow_le_pow_right (by decide) hk
    rw [UInt32.toNat_shiftRight, Nat.mod_eq_of_lt hk', Nat.shiftRight_eq_div_pow,
      Nat.div_eq_of_lt (by omega)]
    rfl
  have hselect : (Regs.of 1 x.blockno).select = 0xf0 := by
    simp only [Regs.of, hsector, hshift 24 (by decide) (by decide)]
    decide
  have hlba : (Regs.of 1 x.blockno).lba = x.blockno.toNat := by
    rw [Regs.lba, hselect]
    simp only [Regs.of, hsector, hshift 16 (by decide) (by decide)]
    have hmask : ∀ y : UInt32, (y &&& 0xff).toUInt8.toNat = y.toNat % 2 ^ 8 := by
      intro y
      rw [UInt32.toNat_toUInt8, UInt32.toNat_and]
      exact (Nat.mod_eq_of_lt (Nat.and_lt_two_pow (n := 8) _ (by decide))).trans
        (Nat.and_two_pow_sub_one_eq_mod _ 8)
    have hmid : (x.blockno >>> 8).toNat = x.blockno.toNat / 2 ^ 8 := by
      rw [UInt32.toNat_shiftRight]
      exact Nat.shiftRight_eq_div_pow ..
    have hhigh : ((0xf0 : UInt8) &&& 0x0f).toNat = 0 := by decide
    have hzero : ((0 : UInt32) &&& 0xff).toUInt8.toNat = 0 := by decide
    rw [hmask, hmask, hmid, hhigh, hzero]
    omega
  rw [command, h.dev, hlba, Regs.drive, hselect]
  rfl

omit [DecidableEq β] in
theorem done_use : Sys.done { s with buf := f, events := s.events ++ [.use b x] } = s.done := by
  simp [Sys.done]

omit [DecidableEq β] in
theorem Serving.congr {d : Device} {m' : Memide.State β} (h : Serving d m rest)
    (hdisk : m'.memdisk = m.memdisk) (hbuf : ∀ b ∈ rest, m'.buf b = m.buf b) :
    Serving d m' rest := by
  cases rest with
  | nil => rw [Serving, hdisk]; exact h
  | cons b rest =>
    rw [Serving, hdisk, hbuf b mem_cons_self]
    exact h

omit [DecidableEq β] in
theorem await_update [DecidableEq π] {me : π} {c : Call β} {o : Option (Call β)} :
    await { s with proc := update s.proc me o } me c = await s me c := by
  rw [await, await]
  simp only [update_idem]

namespace Books

/-- A request in the queue has a process that waits for it. -/
theorem waiter (h : Books m₀ s m rest) {k : Nat} (hk : rest[k]? = some b) :
    ∃ p c, s.proc p = some c ∧ c.id = s.done.length + k ∧ c.b = b := by
  have hlt : k < rest.length := (List.getElem?_eq_some_iff.mp hk).1
  obtain ⟨p, c, hp, hid⟩ := h.waits (s.done.length + k) (Nat.le_add_right _ _)
    (by rw [h.queued, length_append]; omega)
  have hb := h.call p c hp
  rw [hid, h.queued, List.getElem?_append_right (Nat.le_add_right _ _), Nat.add_sub_cancel_left,
    hk] at hb
  exact ⟨p, c, hp, hid, (Option.some.inj hb).symm⟩

theorem notMem (h : Books m₀ s m rest) (hfree : Free s b) : b ∉ rest := by
  intro hb
  obtain ⟨k, hk⟩ := List.getElem?_of_mem hb
  obtain ⟨p, c, hp, -, hcb⟩ := h.waiter hk
  exact hfree p c hp hcb

theorem nodup (h : Books m₀ s m rest) : rest.Nodup := by
  rw [nodup_iff_getElem?_ne_getElem?]
  intro i j hij hj heq
  obtain ⟨b, hb⟩ : ∃ b, rest[j]? = some b := ⟨_, List.getElem?_eq_getElem hj⟩
  obtain ⟨p, c, hp, hc, hcb⟩ := h.waiter (heq.trans hb)
  obtain ⟨q, d, hq, hd, hdb⟩ := h.waiter hb
  obtain rfl := h.alone p q c d hp hq (hcb.trans hdb.symm)
  obtain rfl := Option.some.inj (hp.symm.trans hq)
  omega

theorem mem_rest (h : Books m₀ s m rest) {p : π} {c : Call β} (hp : s.proc p = some c)
    (hid : s.done.length ≤ c.id) : c.b ∈ rest := by
  have hb := h.call p c hp
  rw [h.queued, List.getElem?_append_right hid] at hb
  exact mem_of_getElem? hb

theorem use (h : Books m₀ s m rest) (hfree : Free s b) :
    Books m₀ { s with buf := update s.buf b x, events := s.events ++ [.use b x] }
      { m with buf := update m.buf b x } rest := by
  have hne : ∀ c ∈ rest, c ≠ b := fun c hc heq => h.notMem hfree (heq ▸ hc)
  refine ⟨h.havedisk1, ?_, ?_, ?_, h.linked, fun c hc => ?_, h.call, ?_, h.alone, ?_, ?_,
    h.serving.congr rfl fun c hc => update_of_ne (hne c hc) ..⟩
  · rw [foldlM_append, h.replay]
    rfl
  · rw [h.buf]
  · rw [done_use]
    exact h.queued
  · dsimp only
    rw [update_of_ne (hne c hc)]
    exact h.request c hc
  · rw [done_use]
    exact h.waits
  · rw [done_use]
    intro p c hp hid
    dsimp only
    rw [update_of_ne (hfree p c hp)]
    exact h.served p c hp hid
  · rw [done_use]
    exact h.returned

theorem work (h : Books m₀ s m rest) :
    s.dev.work = .error .disabled ∨
      ∃ dev, s.dev.work = .ok dev ∧ dev.phase = .raised ∧ Books m₀ { s with dev } m rest := by
  have hserving := h.serving
  cases rest with
  | nil =>
    left
    rw [Device.work, hserving.1]
  | cons b rest =>
    rcases hserving with ⟨hphase, hdisk⟩ | ⟨hphase, -⟩
    · right
      have hreq := h.request b mem_cons_self
      rw [h.buf] at hreq
      rw [Device.work, hphase, command_eq hreq]
      cases hdirty : (m.buf b).dirty with
      | true =>
        refine ⟨_, rfl, rfl, { h with serving := .inr ⟨rfl, ?_⟩ }⟩
        rw [if_pos hdirty]
        dsimp only
        rw [update_self, hdisk]
      | false =>
        refine ⟨_, rfl, rfl, { h with serving := .inr ⟨rfl, ?_⟩ }⟩
        rw [hdirty]
        exact ⟨hdisk, congrFun hdisk _⟩
    · left
      rw [Device.work, hphase]

/-- A caller returns when its request is complete, and sleeps otherwise. -/
theorem await [DecidableEq π] (h : Books m₀ s m rest) {me : π} {c : Call β} (hme : s.proc me = some c) :
    Books m₀ (await s me c) m rest := by
  rw [Ide.await]
  split
  next hflags =>
    rw [Bool.and_eq_true, Bool.not_eq_true'] at hflags
    have hdone : c.id < s.done.length := by
      by_contra hid
      exact (h.request c.b (h.mem_rest hme (Nat.le_of_not_lt hid))).todo hflags
    have hold : ∀ p d, update s.proc me none p = some d → s.proc p = some d := by
      intro p d hp
      by_cases hpm : p = me
      · rw [hpm, update_self] at hp
        cases hp
      · rwa [update_of_ne hpm] at hp
    refine { h with
      call := fun p d hp => h.call p d (hold p d hp)
      waits := fun k hk hk' => ?_
      alone := fun p q d e hp hq => h.alone p q d e (hold p d hp) (hold q e hq)
      served := fun p d hp => h.served p d (hold p d hp)
      returned := fun k hk => ?_ }
    · obtain ⟨p, d, hp, hid⟩ := h.waits k hk hk'
      refine ⟨p, d, ?_, hid⟩
      have hpm : p ≠ me := by
        rintro rfl
        obtain rfl := Option.some.inj (hme.symm.trans hp)
        change s.done.length ≤ k at hk
        omega
      exact (update_of_ne hpm ..).trans hp
    · rw [mem_append, mem_singleton] at hk
      exact hk.elim (h.returned k) fun heq => heq ▸ hdone
  next hflags =>
    have hold : ∀ p d, update s.proc me (some { c with asleep := true }) p = some d →
        ∃ e, s.proc p = some e ∧ d.id = e.id ∧ d.b = e.b ∧ (p = me ∧ e = c ∨ e = d) := by
      intro p d hp
      by_cases hpm : p = me
      · rw [hpm, update_self] at hp
        cases hp
        exact ⟨c, hpm ▸ hme, rfl, rfl, .inl ⟨hpm, rfl⟩⟩
      · rw [update_of_ne hpm] at hp
        exact ⟨d, hp, rfl, rfl, .inr rfl⟩
    refine { h with
      call := fun p d hp => ?_
      waits := fun k hk hk' => ?_
      alone := fun p q d e hp hq heq => ?_
      served := fun p d hp hid => ?_ }
    · obtain ⟨e, he, hid, hb, -⟩ := hold p d hp
      rw [hid, hb]
      exact h.call p e he
    · obtain ⟨p, d, hp, hid⟩ := h.waits k hk hk'
      by_cases hpm : p = me
      · subst hpm
        obtain rfl := Option.some.inj (hme.symm.trans hp)
        exact ⟨p, _, update_self .., hid⟩
      · exact ⟨p, d, (update_of_ne hpm ..).trans hp, hid⟩
    · obtain ⟨d', hd', -, hdb, -⟩ := hold p d hp
      obtain ⟨e', he', -, heb, -⟩ := hold q e hq
      exact h.alone p q d' e' hd' he' (by rw [← hdb, ← heb, heq])
    · obtain ⟨e, he, heid, -, ⟨-, rfl⟩ | rfl⟩ := hold p d hp
      · -- the flags say that this request is not complete
        obtain ⟨hv, hd, -⟩ := h.served p e he (heid ▸ hid)
        rw [hv, hd] at hflags
        exact absurd rfl hflags
      · exact h.served p e he hid

/-- The interrupt for the head of the queue, but for the start of the next request. -/
theorem complete {m' : Memide.State β} {y : Buf} {dev : Device} (h : Books m₀ s m (b :: rest))
    (hrw : Memide.iderw FSSIZE m b = .ok m') (hbuf : m'.buf = update m.buf b y)
    (hvalid : y.valid = true) (hdirty : y.dirty = false) (hdev : Serving dev m' rest) :
    Books m₀ { s with
      idequeue := s.qnext b
      buf := update s.buf b y
      dev
      proc := wakeup b s.proc
      events := s.events ++ [.rw b] } m' rest := by
  have hdone : Sys.done { s with
      idequeue := s.qnext b
      buf := update s.buf b y
      dev
      proc := wakeup b s.proc
      events := s.events ++ [.rw b] } = s.done ++ [b] := by
    simp [Sys.done]
  have hnodup := h.nodup
  rw [nodup_cons] at hnodup
  have hold : ∀ p d, wakeup b s.proc p = some d → ∃ e, s.proc p = some e ∧ d.id = e.id ∧
      d.b = e.b ∧ d.asleep = if e.b = b then false else e.asleep := by
    intro p d hp
    obtain ⟨e, he, rfl⟩ := Option.map_eq_some_iff.mp hp
    refine ⟨e, he, ?_⟩
    split <;> exact ⟨rfl, rfl, rfl⟩
  refine ⟨h.havedisk1, ?_, ?_, ?_, h.linked.2, fun c hc => ?_, fun p d hp => ?_, fun k hk hk' => ?_,
    fun p q d e hp hq heq => ?_, fun p d hp hid => ?_, fun k hk => ?_, hdev⟩
  · rw [foldlM_append, h.replay]
    exact (bind_pure _).trans hrw
  · rw [hbuf, h.buf]
  · rw [hdone, append_assoc]
    exact h.queued
  · dsimp only
    rw [update_of_ne (fun heq => hnodup.1 (heq ▸ hc) : c ≠ b)]
    exact h.request c (mem_cons_of_mem _ hc)
  · obtain ⟨e, he, hid, hb, -⟩ := hold p d hp
    rw [hid, hb]
    exact h.call p e he
  · rw [hdone, length_append] at hk
    obtain ⟨p, d, hp, hid⟩ := h.waits k (by omega) hk'
    refine ⟨p, if d.b = b then { d with asleep := false } else d, ?_, ?_⟩
    · dsimp only
      rw [wakeup, hp]
      rfl
    · split <;> exact hid
  · obtain ⟨d', hd', -, hdb, -⟩ := hold p d hp
    obtain ⟨e', he', -, heb, -⟩ := hold q e hq
    exact h.alone p q d' e' hd' he' (by rw [← hdb, ← heb, heq])
  · obtain ⟨e, he, heid, heb, hasleep⟩ := hold p d hp
    rw [hdone, length_append, heid] at hid
    dsimp only
    rw [heb, hasleep]
    by_cases hcb : e.b = b
    · rw [hcb, update_self, if_pos rfl]
      exact ⟨hvalid, hdirty, rfl⟩
    · rw [update_of_ne hcb, if_neg hcb]
      refine h.served p e he (Nat.lt_of_le_of_ne (Nat.le_of_lt_succ hid) fun heq => hcb ?_)
      have hcall := h.call p e he
      rw [heq, h.queued, List.getElem?_append_right (Nat.le_refl _), Nat.sub_self] at hcall
      exact (Option.some.inj hcall).symm
  · rw [hdone, length_append]
    exact Nat.lt_add_right _ (h.returned k hk)

theorem idestart_idle {d : Device} (h : x.Request FSSIZE) (hd : d.phase = .idle) :
    idestart x d = .ok { d with phase := .working (command x) } := by
  rw [idestart, if_neg (Nat.not_le_of_lt h.blockno), hd]

theorem intr [Fintype β] [DecidableEq π] (h : Books m₀ s m (b :: rest)) (hphase : s.dev.phase = .raised) :
    ∃ t m', step s .intr = .ok t ∧ t.queued = s.queued ∧ Books m₀ t m' rest := by
  obtain ⟨-, hdisk⟩ : s.dev.phase = .raised ∧ _ := h.serving.resolve_left fun hw => by
    rw [hphase] at hw
    cases hw.1
  have hreq := h.request b mem_cons_self
  have hx : s.buf b = m.buf b := congrFun h.buf b
  rw [hx] at hreq
  let y : Buf := { (m.buf b).served with
    data := if (m.buf b).dirty then (m.buf b).data else s.dev.data }
  have hrw : Memide.iderw FSSIZE m b = .ok ⟨s.dev.disk true, update m.buf b y⟩ := by
    rw [hreq.iderw]
    cases hdirty : (m.buf b).dirty with
    | true =>
      rw [hdirty, if_pos rfl] at hdisk
      simp only [y, hdirty, hdisk]
      rfl
    | false =>
      rw [hdirty] at hdisk
      simp only [y, hdirty, Bool.false_eq_true, if_false, hdisk.1, hdisk.2]
  have hcomplete := fun dev (hdev : Serving dev ⟨s.dev.disk true, update m.buf b y⟩ rest) =>
    h.complete hrw rfl rfl rfl hdev
  have hlinked := h.linked.2
  have hnodup := h.nodup
  rw [nodup_cons] at hnodup
  simp only [step, hphase, ideintr, h.linked.1, hx]
  cases rest with
  | nil =>
    have hb := hcomplete { s.dev with phase := .idle } ⟨rfl, rfl⟩
    rw [show s.qnext b = none from hlinked] at hb ⊢
    exact ⟨_, _, rfl, rfl, hb⟩
  | cons c rest =>
    have hcb : c ≠ b := fun heq => hnodup.1 (heq ▸ mem_cons_self)
    have hstart := idestart_idle (d := { s.dev with phase := .idle })
      (h.request c (mem_cons_of_mem _ mem_cons_self)) rfl
    have hc : update m.buf b y c = s.buf c := by
      rw [update_of_ne hcb, h.buf]
    have hb := hcomplete { s.dev with phase := .working (command (s.buf c)) }
      (.inl ⟨congrArg (Phase.working ∘ command) hc.symm, rfl⟩)
    rw [hlinked.1] at hb ⊢
    dsimp only
    rw [update_of_ne hcb, hstart]
    exact ⟨_, _, rfl, rfl, hb⟩

theorem insert_eq [Fintype β] (h : Books m₀ s m rest) (hfree : Free s b) :
    ∃ qnext idequeue, insert s b = .ok { s with qnext, idequeue } ∧
      Linked qnext idequeue (rest ++ [b]) := by
  have hb := h.notMem hfree
  have hlinked := h.linked.update (x := none) hb
  rw [insert]
  cases rest with
  | nil =>
    rw [show s.idequeue = none from h.linked]
    exact ⟨_, _, rfl, rfl, update_self ..⟩
  | cons c rest =>
    have hlen := h.nodup.length_le_card
    obtain ⟨z, hz⟩ : ∃ z, (c :: rest).getLast? = some z :=
      ⟨_, List.getLast?_eq_some_getLast (cons_ne_nil _ _)⟩
    have hlast := (h.linked.1 ▸ hlinked).lastNode_eq hlen
    rw [h.linked.1]
    dsimp only
    rw [hlast, hz]
    exact ⟨_, _, rfl, h.linked.1 ▸ hlinked.push h.nodup hb (update_self ..) hz⟩

/-- A request that is not the first one waits for its turn; the first one is started. -/
theorem start_eq (h : Books m₀ s m rest) (hreq : (s.buf b).Request FSSIZE) (hfree : Free s b)
    {qnext : β → Option β} {idequeue : Option β} (hlinked : Linked qnext idequeue (rest ++ [b])) :
    ∃ dev, startFirst idequeue b (s.buf b) s.dev = .ok dev ∧ Serving dev m (rest ++ [b]) := by
  have hserving := h.serving
  rw [startFirst]
  cases rest with
  | nil =>
    rw [if_pos hlinked.1, idestart_idle hreq hserving.1]
    exact ⟨_, rfl, .inl ⟨by rw [h.buf], hserving.2⟩⟩
  | cons c rest =>
    have hcb : idequeue ≠ some b := by
      rw [hlinked.1]
      exact fun heq => h.notMem hfree (Option.some.inj heq ▸ mem_cons_self)
    rw [if_neg hcb]
    exact ⟨_, rfl, hserving⟩

theorem push [DecidableEq π] (h : Books m₀ s m rest) (hreq : (s.buf b).Request FSSIZE) (hfree : Free s b)
    {me : π} (hme : s.proc me = none) {qnext : β → Option β} {idequeue : Option β} {dev : Device}
    (hlinked : Linked qnext idequeue (rest ++ [b])) (hserving : Serving dev m (rest ++ [b])) :
    Books m₀ { s with
      qnext
      idequeue
      dev
      proc := update s.proc me (some ⟨s.queued.length, b, false⟩)
      queued := s.queued ++ [b] } m (rest ++ [b]) := by
  have hlen : s.done.length ≤ s.queued.length := by
    rw [h.queued, length_append]
    omega
  have hold : ∀ p d, update s.proc me (some ⟨s.queued.length, b, false⟩) p = some d →
      p = me ∧ d = ⟨s.queued.length, b, false⟩ ∨ p ≠ me ∧ s.proc p = some d := by
    intro p d hp
    by_cases hpm : p = me
    · rw [hpm, update_self] at hp
      exact .inl ⟨hpm, (Option.some.inj hp).symm⟩
    · rw [update_of_ne hpm] at hp
      exact .inr ⟨hpm, hp⟩
  refine { h with
    queued := ?_
    linked := hlinked
    request := fun c hc => ?_
    call := fun p d hp => ?_
    waits := fun k hk hk' => ?_
    alone := fun p q d e hp hq heq => ?_
    served := fun p d hp hid => ?_
    serving := hserving }
  · rw [h.queued, append_assoc]
    rfl
  · rw [mem_append, mem_singleton] at hc
    exact hc.elim (h.request c) fun heq => heq ▸ hreq
  · rcases hold p d hp with ⟨-, rfl⟩ | ⟨-, hp⟩
    · exact List.getElem?_concat_length
    · have hcall := h.call p d hp
      rw [List.getElem?_append_left (List.getElem?_eq_some_iff.mp hcall).1]
      exact hcall
  · rw [length_append, length_singleton] at hk'
    by_cases hlt : k < s.queued.length
    · obtain ⟨p, d, hp, hid⟩ := h.waits k hk hlt
      have hpm : p ≠ me := by
        rintro rfl
        rw [hme] at hp
        cases hp
      exact ⟨p, d, (update_of_ne hpm ..).trans hp, hid⟩
    · exact ⟨me, _, update_self .., by dsimp only; omega⟩
  · rcases hold p d hp with ⟨rfl, rfl⟩ | ⟨-, hp'⟩ <;> rcases hold q e hq with ⟨rfl, rfl⟩ | ⟨-, hq'⟩
    · rfl
    · exact absurd heq.symm (hfree q e hq')
    · exact absurd heq (hfree p d hp')
    · exact h.alone p q d e hp' hq' heq
  · rcases hold p d hp with ⟨-, rfl⟩ | ⟨-, hp⟩
    · exact absurd hid (Nat.not_lt_of_le hlen)
    · exact h.served p d hp hid

theorem iderw [Fintype β] [DecidableEq π] (h : Books m₀ s m rest) (hreq : (s.buf b).Request FSSIZE) (hfree : Free s b)
    {me : π} (hme : s.proc me = none) :
    ∃ t, iderw s me b = .ok t ∧ Books m₀ t m (rest ++ [b]) := by
  have htodo : ((s.buf b).valid && !(s.buf b).dirty) = false := by
    rw [Bool.eq_false_iff, ne_eq, Bool.and_eq_true, Bool.not_eq_true']
    exact hreq.todo
  obtain ⟨qnext, idequeue, hinsert, hlinked⟩ := h.insert_eq hfree
  obtain ⟨dev, hstart, hserving⟩ := h.start_eq hreq hfree hlinked
  have hb := (h.push hreq hfree hme hlinked hserving).await (update_self ..)
  refine ⟨_, ?_, hb⟩
  refine Eq.trans ?_ (congrArg Except.ok (await_update
    (s := { s with qnext, idequeue, dev, queued := s.queued ++ [b] })).symm)
  simp only [Ide.iderw, hreq.locked, htodo, h.havedisk1, hinsert, Bool.not_true, Bool.and_false]
  change (startFirst idequeue b (s.buf b) s.dev >>= _) = _
  rw [hstart]
  rfl

theorem step [Fintype β] [DecidableEq π] {a : Step β π} (h : Books m₀ s m rest) (ha : Proper s a) :
    step s a = .error .disabled ∨
      ∃ t m' rest', step s a = .ok t ∧ Books m₀ t m' rest' := by
  cases a with
  | iderw me b =>
    cases hme : s.proc me with
    | some c => exact .inl (by simp only [Ide.step, hme])
    | none =>
      obtain ⟨t, ht, hb⟩ := h.iderw ha.1 ha.2 hme
      exact .inr ⟨t, m, _, by simp only [Ide.step, hme]; exact ht, hb⟩
  | resume me =>
    rw [Ide.step]
    split
    next hme => exact .inr ⟨_, m, rest, rfl, h.await hme⟩
    next => exact .inl rfl
  | work =>
    rcases h.work with hw | ⟨dev, hw, -, hb⟩
    · exact .inl (by rw [Ide.step, hw]; rfl)
    · exact .inr ⟨_, m, rest, by rw [Ide.step, hw]; rfl, hb⟩
  | intr =>
    have hserving := h.serving
    cases rest with
    | nil => exact .inl (by simp only [Ide.step, hserving.1])
    | cons b rest =>
      rcases hserving with ⟨hphase, -⟩ | ⟨hphase, -⟩
      · exact .inl (by simp only [Ide.step, hphase])
      · obtain ⟨t, m', ht, -, hb⟩ := h.intr hphase
        exact .inr ⟨t, m', rest, ht, hb⟩
  | use b x => exact .inr ⟨_, _, rest, rfl, h.use ha⟩

/-- The drive and its interrupts complete the whole queue. -/
theorem drain [Fintype β] [DecidableEq π] (h : Books m₀ s m rest) :
    ∃ t, Run Ide.step (fun _ a => a = .work ∨ a = .intr) s t ∧ t.done = s.queued := by
  induction rest generalizing s m with
  | nil => exact ⟨s, .refl, by rw [h.queued, append_nil]⟩
  | cons b rest ih =>
    -- the drive finishes its command, unless its interrupt is raised already
    obtain ⟨s', hrun, hqueued, hphase, h'⟩ : ∃ s',
        Run Ide.step (fun _ a => a = .work ∨ a = .intr) s s' ∧ s'.queued = s.queued ∧ s'.dev.phase = .raised ∧ Books m₀ s' m (b :: rest) := by
      rcases h.work with hw | ⟨dev, hw, hphase, hb⟩
      · rcases h.serving with ⟨hphase, -⟩ | ⟨hphase, -⟩
        · rw [Device.work, hphase] at hw
          dsimp only at hw
          split at hw <;> cases hw
        · exact ⟨s, .refl, rfl, hphase, h⟩
      · have hs : Ide.step s .work = .ok { s with dev } := by
          rw [Ide.step, hw]
          rfl
        exact ⟨_, Run.refl.tail (.inl rfl) hs, rfl, hphase, hb⟩
    obtain ⟨t, m', ht, hqueued', hb⟩ := h'.intr hphase
    obtain ⟨u, hu, hdone⟩ := ih hb
    exact ⟨u, (hrun.tail (.inr rfl) ht).trans hu, by rw [hdone, hqueued', hqueued]⟩

end Books

theorem Books.start (disk : Bool → Disk) (data : Block) (buf : β → Buf) (qnext : β → Option β) :
    Books ⟨disk true, buf⟩ (start (π := π) disk data buf qnext) ⟨disk true, buf⟩ [] where
  havedisk1 := rfl
  replay := rfl
  buf := rfl
  queued := rfl
  linked := rfl
  request _ hb := nomatch hb
  call _ _ hp := nomatch hp
  waits _ _ hk := nomatch hk
  alone _ _ _ _ hp := nomatch hp
  served _ _ hp := nomatch hp
  returned _ hk := nomatch hk
  serving := ⟨rfl, rfl⟩

end

/-! ## Refinement -/

section
variable [Fintype β] [DecidableEq π]

/-- What the driver does is what `memide.c` does from `m₀` on. -/
structure Refines (m₀ : Memide.State β) (s : Sys β π) : Prop where
  /-- `memide.c` performs the completed requests one after the other and ends with the same
  buffers, and with the same disk when no request is under way. -/
  replay : ∃ m, s.events.foldlM Memide.step m₀ = .ok m ∧ s.buf = m.buf ∧
    (s.idequeue = none → s.dev.disk true = m.memdisk)
  /-- The queue holds the requests that are not complete, in the order of the calls. -/
  order : ∃ rest, s.queued = s.done ++ rest ∧ Linked s.qnext s.idequeue rest
  /-- The drive has the request at the head of the queue, and none if there is no request. -/
  head : match s.idequeue with
    | none => s.dev.phase = .idle
    | some b => s.dev.phase = .working (command (s.buf b)) ∨ s.dev.phase = .raised
  /-- No step stops the system; so no command is issued while the drive has one. -/
  safe : ∀ a msg, Proper s a → step s a ≠ .error (.panic msg)
  /-- A call has returned only if its request is complete. -/
  returned : ∀ k ∈ s.returned, k < s.done.length
  /-- Nobody sleeps for a request that is complete. -/
  woken : ∀ p c, s.proc p = some c → c.asleep = true → s.done.length ≤ c.id
  /-- The drive completes every request. -/
  completes : ∃ t, Run step (fun _ a => a = .work ∨ a = .intr) s t ∧ t.done = s.queued

theorem Books.refines {m₀ m : Memide.State β} {s : Sys β π} {rest : List β}
    (h : Books m₀ s m rest) : Refines m₀ s where
  replay := ⟨m, h.replay, h.buf, fun hnone => by
    have hserving := h.serving
    rw [h.linked.eq_none.mp hnone] at hserving
    exact hserving.2⟩
  order := ⟨rest, h.queued, h.linked⟩
  head := by
    have hserving := h.serving
    have hlinked := h.linked
    cases rest with
    | nil => rw [show s.idequeue = none from hlinked]; exact hserving.1
    | cons b rest =>
      rw [hlinked.1, h.buf]
      exact hserving.imp And.left And.left
  safe a msg ha hs := by
    rcases h.step ha with hd | ⟨t, _, _, ht, -⟩
    · rw [hd] at hs
      cases hs
    · rw [ht] at hs
      cases hs
  returned := h.returned
  woken p c hp hasleep := by
    by_contra hid
    have hawake := (h.served p c hp (Nat.lt_of_not_le hid)).2.2
    rw [hasleep] at hawake
    cases hawake
  completes := h.drain

/-- Whatever the order of calls and interrupts, the IDE driver refines the disk in memory. -/
theorem ide_refines_memide (disk : Bool → Disk) (data : Block) (buf : β → Buf)
    (qnext : β → Option β) {s : Sys β π} (h : Run step Proper (start disk data buf qnext) s) :
    Refines ⟨disk true, buf⟩ s := by
  obtain ⟨m, rest, hb⟩ : ∃ m rest, Books ⟨disk true, buf⟩ s m rest := by
    apply h.invariant (I := fun s => ∃ m rest, Books ⟨disk true, buf⟩ s m rest)
    · exact ⟨_, _, Books.start disk data buf qnext⟩
    rintro t a u ⟨m, rest, hb⟩ ha hs
    rcases hb.step ha with hd | ⟨u', m', rest', hu, hb'⟩
    · rw [hd] at hs
      cases hs
    · rw [hu] at hs
      cases hs
      exact ⟨m', rest', hb'⟩
  exact hb.refines

/-- One process reads block 3 into the only buffer. -/
theorem ide_refines_memide_read :
    let b : Buf := ⟨false, false, true, 1, 3, ⟨List.replicate 512 0, length_replicate⟩⟩
    let disk : Bool → Disk := fun _ _ => ⟨List.replicate 512 7, length_replicate⟩
    ∃ s : Sys Unit Unit, Run step Proper (start disk b.data (fun _ => b) fun _ => none) s ∧
      s.returned = [0] ∧ (s.buf ()).data = disk true 3 ∧ Refines ⟨disk true, fun _ => b⟩ s := by
  intro b disk
  have hreq : b.Request FSSIZE := ⟨rfl, by decide, rfl, by decide⟩
  have hresume : ∀ s : Sys Unit Unit, Proper s (.resume ()) := fun _ => trivial
  have hwork : ∀ s : Sys Unit Unit, Proper s .work := fun _ => trivial
  have hintr : ∀ s : Sys Unit Unit, Proper s .intr := fun _ => trivial
  have hrun : ∃ s : Sys Unit Unit,
      Run step Proper (start disk b.data (fun _ => b) fun _ => none) s ∧
      s.returned = [0] ∧ (s.buf ()).data = disk true 3 := by
    refine ⟨_, Run.refl.tail (a := .iderw () ()) ⟨hreq, fun _ _ hp => nomatch hp⟩ rfl
      |>.tail (hwork _) rfl |>.tail (hintr _) rfl |>.tail (hresume _) rfl, rfl, rfl⟩
  obtain ⟨s, hs, hreturned, hdata⟩ := hrun
  exact ⟨s, hs, hreturned, hdata, ide_refines_memide disk b.data (fun _ => b) (fun _ => none) hs⟩

end

end Xv6.Ide

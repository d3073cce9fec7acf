import Xv6.Log.Header
import Xv6.Lib.Writes

/-!
# Commit and recovery of the redo log

`commit` copies the logged blocks from the buffer cache into the log, writes the header, installs
the blocks at their home locations and clears the header. `recover_from_log` installs whatever the
header names. Disk writes are atomic and reach the disk in issue order, so a crash leaves the disk
after a prefix of them.

Every disk a crash can leave is in one of two states, relative to the contents `f` that the blocks
outside the log should have in the end: `Clean f` (the header is empty and these blocks have
their contents) or `Committed f` (the header names the logged blocks and the log holds their
contents, while the home locations may hold anything). Before the first header write the disk is
`Clean` for the old contents and after it `Committed` or `Clean` for the new ones; recovery keeps
both at every write and ends in `Clean`.
-/

namespace Xv6.Log

open List

/-- The log area of the disk: the header block `log.start` and the blocks of `log.size - 1`
log slots after it. -/
structure Area where
  start : Nat
  size : Nat
  size_pos : 0 < size

/-- `b` is a block of the log area. -/
def Area.Mem (lg : Area) (b : Nat) : Prop := lg.start ≤ b ∧ b < lg.start + lg.size

/-- The disk as `log.c` uses it: what `bread` returns for each block, and the disk writes issued so
far, in order. -/
structure BufIo where
  view : Disk
  written : List (Nat × Block)

def BufIo.bread (io : BufIo) (b : Nat) : Block := io.view b

/-- Fill the buffer of block `b` with `data` and write it to the disk. -/
def BufIo.bwrite (io : BufIo) (b : Nat) (data : Block) : BufIo where
  view := Function.update io.view b data
  written := io.written ++ [(b, data)]

/-- The loop of `write_log` and `install_trans`: for each logged block, from entry `tail` on, copy
the block `src` into the block `dst` and write it. -/
def copyLoop (dst src : Nat → UInt32 → Nat) : Nat → List UInt32 → BufIo → BufIo
  | _, [], io => io
  | tail, b :: bs, io =>
    copyLoop dst src (tail + 1) bs (io.bwrite (dst tail b) (io.bread (src tail b)))

/-- Copy modified blocks from cache to log. -/
def writeLog (lg : Area) (lh : LogHeader) : BufIo → BufIo :=
  copyLoop (fun tail _ => lg.start + tail + 1) (fun _ b => b.toNat) 0 lh.block

/-- Write in-memory log header to disk. -/
def writeHead (lg : Area) (lh : LogHeader) (io : BufIo) : BufIo :=
  io.bwrite lg.start (lh.store (io.bread lg.start))

/-- Copy committed blocks from log to their home location. -/
def installTrans (lg : Area) (lh : LogHeader) : BufIo → BufIo :=
  copyLoop (fun _ b => b.toNat) (fun tail _ => lg.start + tail + 1) 0 lh.block

def commit (lg : Area) (lh : LogHeader) (io : BufIo) : BufIo :=
  if lh.n > 0 then
    writeHead lg .empty (installTrans lg lh (writeHead lg lh (writeLog lg lh io)))
  else io

/-- The disk writes of `recover_from_log` after a boot, when nothing is cached; undefined when
`read_head` is. -/
def recoverFromLog (lg : Area) (d : Disk) : Option (List (Nat × Block)) :=
  (readHeader (d lg.start)).map fun lh =>
    (writeHead lg .empty (installTrans lg lh ⟨d, []⟩)).written

/-! ## The writes of a copy loop -/

/-- The writes that a copy loop issues when it reads from `v`. -/
def copyWrites (dst src : Nat → UInt32 → Nat) (v : Disk) (bs : List UInt32) (tail : Nat) :
    List (Nat × Block) :=
  (bs.zipIdx tail).map fun p => (dst p.2 p.1, v (src p.2 p.1))

section
variable {dst src : Nat → UInt32 → Nat} {v : Disk} {bs : List UInt32} {tail : Nat}

theorem copyWrites_congr {v' : Disk}
    (h : ∀ p ∈ bs.zipIdx tail, v (src p.2 p.1) = v' (src p.2 p.1)) :
    copyWrites dst src v bs tail = copyWrites dst src v' bs tail :=
  map_congr_left fun p hp => by rw [h p hp]

/-- A loop that never overwrites a block it still has to read issues the writes of `copyWrites`. -/
theorem copyLoop_eq {io : BufIo}
    (hsep : ∀ p ∈ bs.zipIdx tail, ∀ q ∈ bs.zipIdx tail, src q.2 q.1 ≠ dst p.2 p.1) :
    copyLoop dst src tail bs io =
      { view := applyWrites io.view (copyWrites dst src io.view bs tail)
        written := io.written ++ copyWrites dst src io.view bs tail } := by
  induction bs generalizing tail io with
  | nil => simp [copyLoop, copyWrites]
  | cons b bs ih =>
    simp only [zipIdx_cons, mem_cons, forall_eq_or_imp] at hsep
    have hread : copyWrites dst src (io.bwrite (dst tail b) (io.bread (src tail b))).view bs
        (tail + 1) = copyWrites dst src io.view bs (tail + 1) :=
      copyWrites_congr fun q hq => update_of_ne (hsep.1.2 q hq) ..
    rw [copyLoop, ih fun p hp q hq => (hsep.2 p hp).2 q hq, hread]
    simp [BufIo.bwrite, BufIo.bread, copyWrites]

theorem mem_copyWrites {w : Nat × Block} (h : w ∈ copyWrites dst src v bs tail) :
    ∃ p ∈ bs.zipIdx tail, w = (dst p.2 p.1, v (src p.2 p.1)) := by
  obtain ⟨p, hp, rfl⟩ := mem_map.mp h
  exact ⟨p, hp, rfl⟩

end

theorem zipIdx_snd_lt {bs : List UInt32} {p : UInt32 × Nat} (h : p ∈ bs.zipIdx) :
    p.2 < bs.length := by
  have := snd_lt_add_of_mem_zipIdx h
  simpa using this

theorem zipIdx_fst_mem {bs : List UInt32} {p : UInt32 × Nat} (h : p ∈ bs.zipIdx) : p.1 ∈ bs :=
  fst_mem_of_mem_zipIdx h

/-! ## The two states of the disk -/

/-- The header is empty, and the blocks outside the log hold `f`. -/
structure Clean (lg : Area) (f d : Disk) : Prop where
  header : headerCount (d lg.start) = 0
  other : ∀ b, ¬lg.Mem b → d b = f b

/-- The header names the blocks of `lh` and the log holds their contents in `f`; the other blocks
outside the log hold `f` as well. -/
structure Committed (lg : Area) (lh : LogHeader) (f d : Disk) : Prop where
  header : readHeader (d lg.start) = some lh
  logged : ∀ p ∈ lh.block.zipIdx, d (lg.start + p.2 + 1) = f p.1.toNat
  other : ∀ b, ¬lg.Mem b → (∀ x ∈ lh.block, x.toNat ≠ b) → d b = f b

/-- A transaction that the log can hold: distinct blocks outside the log area, one slot each. -/
structure Area.Admits (lg : Area) (lh : LogHeader) : Prop where
  fits : lh.n ≤ lg.size - 1
  nodup : lh.block.Nodup
  outside : ∀ b ∈ lh.block, ¬lg.Mem b.toNat

variable {lg : Area} {lh : LogHeader} {f d : Disk}

theorem Area.mem_start (lg : Area) : lg.Mem lg.start :=
  ⟨Nat.le_refl _, Nat.lt_add_of_pos_right lg.size_pos⟩

theorem Area.ne_start {b : Nat} (h : ¬lg.Mem b) : b ≠ lg.start := fun he => h (he ▸ lg.mem_start)

namespace Area.Admits

theorem slot_mem (h : lg.Admits lh) {p : UInt32 × Nat} (hp : p ∈ lh.block.zipIdx) :
    lg.Mem (lg.start + p.2 + 1) := by
  have := zipIdx_snd_lt hp
  have := h.fits
  simp only [Area.Mem, LogHeader.n] at *
  omega

theorem home_ne_slot (h : lg.Admits lh) {p q : UInt32 × Nat} (hp : p ∈ lh.block.zipIdx)
    (hq : q ∈ lh.block.zipIdx) : p.1.toNat ≠ lg.start + q.2 + 1 := fun he =>
  h.outside _ (zipIdx_fst_mem hp) (he ▸ h.slot_mem hq)

theorem home_ne_start (h : lg.Admits lh) {b : UInt32} (hb : b ∈ lh.block) :
    b.toNat ≠ lg.start := fun he => h.outside b hb (he ▸ lg.mem_start)

end Area.Admits

/-! ## Recovery -/

/-- The writes of `install_trans` on a disk `d`. -/
def installWrites (lg : Area) (lh : LogHeader) (d : Disk) : List (Nat × Block) :=
  copyWrites (fun _ b => b.toNat) (fun tail _ => lg.start + tail + 1) d lh.block 0

theorem installTrans_eq (h : lg.Admits lh) (io : BufIo) : installTrans lg lh io =
    { view := applyWrites io.view (installWrites lg lh io.view)
      written := io.written ++ installWrites lg lh io.view } :=
  copyLoop_eq fun _ hp _ hq => (h.home_ne_slot hp hq).symm

theorem installWrites_map_fst : (installWrites lg lh d).map Prod.fst = lh.block.map UInt32.toNat := by
  simp only [installWrites, copyWrites, map_map]
  have : (Prod.fst ∘ fun p : UInt32 × Nat => (p.1.toNat, d (lg.start + p.2 + 1)))
      = UInt32.toNat ∘ Prod.fst := rfl
  rw [this, ← map_map, zipIdx_map_fst]

theorem Clean.update_head (h : Clean lg f d) (hb : Block) :
    Clean lg f (update d lg.start (LogHeader.empty.store hb)) where
  header := by rw [update_self, headerCount_store]; rfl
  other b hb := by
    rw [update_of_ne (Area.ne_start hb)]
    exact h.other b hb

/-- Recovery of a clean disk only rewrites the empty header. -/
theorem Clean.recover (h : Clean lg f d) :
    recoverFromLog lg d = some [(lg.start, LogHeader.empty.store (d lg.start))] := by
  simp only [recoverFromLog, readHeader_of_count_zero h.header]
  rfl

theorem Clean.crash {ws crashed : List (Nat × Block)} (h : Clean lg f d)
    (hrec : recoverFromLog lg d = some ws) (hpre : crashed <+: ws) :
    Clean lg f (applyWrites d crashed) := by
  rw [h.recover, Option.some.injEq] at hrec
  subst hrec
  refine applyWrites_prefix_induction h (fun m w hw hm => ?_) hpre
  rw [mem_singleton.mp hw]
  exact hm.update_head _

theorem Committed.recover (hA : lg.Admits lh) (h : Committed lg lh f d) :
    ∃ hb, recoverFromLog lg d =
      some (installWrites lg lh d ++ [(lg.start, LogHeader.empty.store hb)]) := by
  simp only [recoverFromLog, h.header, Option.map_some, installTrans_eq hA]
  exact ⟨_, rfl⟩

/-- Installing some of the blocks keeps the transaction committed: only home locations of logged
blocks are written. -/
theorem Committed.install_prefix (hA : lg.Admits lh) (h : Committed lg lh f d) {v : Disk}
    {crashed : List (Nat × Block)} (hpre : crashed <+: installWrites lg lh v) :
    Committed lg lh f (applyWrites d crashed) := by
  refine applyWrites_prefix_induction h (fun m w hw hm => ?_) hpre
  obtain ⟨p, hp, rfl⟩ := mem_copyWrites hw
  have hmem := zipIdx_fst_mem hp
  refine ⟨?_, fun q hq => ?_, fun b hb hne => ?_⟩
  · rw [update_of_ne (hA.home_ne_start hmem).symm]
    exact hm.header
  · rw [update_of_ne (hA.home_ne_slot hp hq).symm]
    exact hm.logged q hq
  · rw [update_of_ne (hne _ hmem).symm]
    exact hm.other b hb hne

/-- Installing all blocks from the log and clearing the header leaves the disk clean. -/
theorem Committed.install_all (hA : lg.Admits lh) (h : Committed lg lh f d) {v : Disk} (hb : Block)
    (hlog : ∀ p ∈ lh.block.zipIdx, v (lg.start + p.2 + 1) = f p.1.toNat) :
    Clean lg f (update (applyWrites d (installWrites lg lh v)) lg.start
      (LogHeader.empty.store hb)) where
  header := by rw [update_self, headerCount_store]; rfl
  other b hnb := by
    rw [update_of_ne (Area.ne_start hnb)]
    by_cases hmem : ∃ x ∈ lh.block, x.toNat = b
    · obtain ⟨x, hx, rfl⟩ := hmem
      obtain ⟨⟨_, t⟩, ht, rfl⟩ := mem_map.mp ((zipIdx_map_fst 0 lh.block).symm ▸ hx)
      have hnd : ((installWrites lg lh v).map Prod.fst).Nodup := by
        rw [installWrites_map_fst]
        exact hA.nodup.map fun a b => UInt32.toNat_inj.mp
      rw [applyWrites_of_mem hnd (mem_map.mpr ⟨_, ht, rfl⟩)]
      exact hlog _ ht
    · have hne : ∀ x ∈ lh.block, x.toNat ≠ b := fun x hx he => hmem ⟨x, hx, he⟩
      rw [applyWrites_of_not_mem ?_, h.other b hnb hne]
      rw [installWrites_map_fst, mem_map]
      rintro ⟨x, hx, he⟩
      exact hne x hx he

theorem Committed.crash (hA : lg.Admits lh) {ws crashed : List (Nat × Block)}
    (h : Committed lg lh f d) (hrec : recoverFromLog lg d = some ws) (hpre : crashed <+: ws) :
    Committed lg lh f (applyWrites d crashed) ∨ Clean lg f (applyWrites d crashed) := by
  obtain ⟨hb, hws⟩ := h.recover hA
  rw [hws, Option.some.injEq] at hrec
  subst hrec
  rcases prefix_concat_iff.mp hpre with rfl | hpre
  · rw [applyWrites_append]
    exact .inr (h.install_all hA hb h.logged)
  · exact .inl (h.install_prefix hA hpre)

/-! ## Commit -/

/-- The blocks as the buffer cache holds them at a commit: the logged ones with their cached
contents `c`, the others as on the disk. -/
def cachedView (lh : LogHeader) (c d : Disk) : Disk := fun b =>
  if b ∈ lh.block.map UInt32.toNat then c b else d b

theorem cachedView_of_mem {c : Disk} {b : UInt32} (h : b ∈ lh.block) :
    cachedView lh c d b.toNat = c b.toNat := if_pos (mem_map.mpr ⟨b, h, rfl⟩)

theorem cachedView_of_ne {c : Disk} {b : Nat} (h : ∀ x ∈ lh.block, x.toNat ≠ b) :
    cachedView lh c d b = d b :=
  if_neg fun hb => let ⟨x, hx, he⟩ := mem_map.mp hb; h x hx he

/-- The writes of `write_log` when the cache holds `v`. -/
def logWrites (lg : Area) (lh : LogHeader) (v : Disk) : List (Nat × Block) :=
  copyWrites (fun tail _ => lg.start + tail + 1) (fun _ b => b.toNat) v lh.block 0

theorem writeLog_eq (h : lg.Admits lh) (io : BufIo) : writeLog lg lh io =
    { view := applyWrites io.view (logWrites lg lh io.view)
      written := io.written ++ logWrites lg lh io.view } :=
  copyLoop_eq fun _ hp _ hq => h.home_ne_slot hq hp

theorem logWrites_nodup {v : Disk} : ((logWrites lg lh v).map Prod.fst).Nodup := by
  simp only [logWrites, copyWrites, map_map]
  have : (Prod.fst ∘ fun p : UInt32 × Nat => (lg.start + p.2 + 1, v p.1.toNat))
      = (fun t => lg.start + t + 1) ∘ Prod.snd := rfl
  rw [this, ← map_map, zipIdx_map_snd]
  exact List.Nodup.map (fun a b h => by simpa using h) nodup_range'

theorem applyWrites_logWrites {m v : Disk} {p : UInt32 × Nat} (hp : p ∈ lh.block.zipIdx) :
    applyWrites m (logWrites lg lh v) (lg.start + p.2 + 1) = v p.1.toNat :=
  applyWrites_of_mem logWrites_nodup (mem_map.mpr ⟨p, hp, rfl⟩)

/-- Filling the log leaves a clean disk clean: the slots are neither the header nor home
locations. -/
theorem Clean.log_prefix (hA : lg.Admits lh) (h : Clean lg f d) {v : Disk}
    {crashed : List (Nat × Block)} (hpre : crashed <+: logWrites lg lh v) :
    Clean lg f (applyWrites d crashed) := by
  refine applyWrites_prefix_induction h (fun m w hw hm => ?_) hpre
  obtain ⟨p, hp, rfl⟩ := mem_copyWrites hw
  refine ⟨?_, fun b hb => ?_⟩
  · rw [update_of_ne (by omega)]
    exact hm.header
  · have hne : b ≠ lg.start + p.2 + 1 := fun he => hb (he ▸ hA.slot_mem hp)
    rw [update_of_ne hne]
    exact hm.other b hb

/-- The header write after the log was filled commits the cached contents. -/
theorem Clean.commit_head (hA : lg.Admits lh) {c : Disk} (h : Clean lg d d) (hb : Block) :
    Committed lg lh (cachedView lh c d)
      (update (applyWrites d (logWrites lg lh (cachedView lh c d))) lg.start
        (lh.store hb)) where
  header := by rw [update_self, readHeader_store]
  logged p hp := by rw [update_of_ne (by omega), applyWrites_logWrites hp]
  other b hnb hne := by
    rw [update_of_ne (Area.ne_start hnb), cachedView_of_ne hne]
    exact (h.log_prefix hA (prefix_refl _)).other b hnb

/-- The writes of a commit, up to and including the first header write. -/
def committing (lg : Area) (lh : LogHeader) (io : BufIo) : List (Nat × Block) :=
  (writeHead lg lh (writeLog lg lh io)).written

/-- A crash during a commit leaves the old contents if the first header write did not reach the
disk, and otherwise a committed transaction or the new contents. -/
theorem commit_crash (hA : lg.Admits lh) {c : Disk} (h : Clean lg d d) {crashed : List (Nat × Block)}
    (hpre : crashed <+: (commit lg lh ⟨cachedView lh c d, []⟩).written) :
    let io : BufIo := ⟨cachedView lh c d, []⟩
    (¬committing lg lh io <+: crashed ∧ Clean lg d (applyWrites d crashed)) ∨
      (committing lg lh io <+: crashed ∧
        (Committed lg lh (cachedView lh c d) (applyWrites d crashed) ∨
          Clean lg (cachedView lh c d) (applyWrites d crashed))) := by
  intro io
  have hcom : committing lg lh io = logWrites lg lh (cachedView lh c d) ++
      [(lg.start, lh.store (applyWrites io.view (logWrites lg lh io.view) lg.start))] := by
    simp [committing, writeLog_eq hA, writeHead, BufIo.bwrite, BufIo.bread, io]
  by_cases hn : lh.n > 0
  swap
  · rw [commit, if_neg hn, prefix_nil] at hpre
    subst hpre
    exact .inl ⟨by rw [hcom]; simp, h⟩
  set hd := lh.store (applyWrites io.view (logWrites lg lh io.view) lg.start) with hhd
  set v := update (applyWrites io.view (logWrites lg lh io.view)) lg.start hd with hv
  obtain ⟨hb, hw⟩ : ∃ hb, (commit lg lh io).written = committing lg lh io ++
      (installWrites lg lh v ++ [(lg.start, LogHeader.empty.store hb)]) := by
    rw [commit, if_pos hn, hcom, installTrans_eq hA, writeLog_eq hA]
    simp only [writeHead, BufIo.bwrite, append_assoc]
    exact ⟨_, rfl⟩
  have hC : Committed lg lh (cachedView lh c d) (applyWrites d (committing lg lh io)) := by
    rw [hcom, applyWrites_append]
    exact h.commit_head hA _
  -- the installed contents come from the log slots, which hold the cached contents
  have hlog : ∀ p ∈ lh.block.zipIdx, v (lg.start + p.2 + 1) = cachedView lh c d p.1.toNat := by
    intro p hp
    rw [hv, update_of_ne (by omega), applyWrites_logWrites hp]
  rw [hw] at hpre
  rcases crash_in_append hpre with hpre | ⟨rest, hrest, rfl⟩
  · rcases prefix_concat_iff.mp (hcom ▸ hpre) with rfl | hpre
    · rw [← hcom]
      exact .inr ⟨prefix_refl _, .inl hC⟩
    · refine .inl ⟨fun hle => ?_, h.log_prefix hA hpre⟩
      have := (hle.trans hpre).length_le
      simp only [hcom, length_append, length_singleton] at this
      omega
  · refine .inr ⟨prefix_append .., ?_⟩
    rw [applyWrites_append]
    rcases prefix_concat_iff.mp hrest with rfl | hrest
    · rw [applyWrites_append]
      exact .inr (hC.install_all hA hb hlog)
    · exact .inl (hC.install_prefix hA hrest)

/-- Every recovery of a clean or committed disk is defined and ends in a clean one, after any number
of interrupted recoveries. -/
theorem restarts_clean (hA : lg.Admits lh) {d' : Disk} (h : Committed lg lh f d ∨ Clean lg f d)
    (hr : Restarts (recoverFromLog lg) d d') :
    ∃ ws, recoverFromLog lg d' = some ws ∧ Clean lg f (applyWrites d' ws) := by
  have hd' : Committed lg lh f d' ∨ Clean lg f d' := by
    refine Restarts.invariant (P := fun m => Committed lg lh f m ∨ Clean lg f m) h ?_ hr
    intro m ws crashed hm hrec hpre
    rcases hm with hm | hm
    · exact hm.crash hA hrec hpre
    · exact .inr (hm.crash hrec hpre)
  rcases hd' with hd' | hd'
  · obtain ⟨hb, hrec⟩ := hd'.recover hA
    refine ⟨_, hrec, ?_⟩
    rw [applyWrites_append]
    exact hd'.install_all hA hb hd'.logged
  · exact ⟨_, hd'.recover, hd'.update_head _⟩

/-- **Atomicity of a commit.** On a disk with an empty log header, crash the commit of `lh` with
cached contents `c` between any two of its block writes, and then any number of recoveries. The
first recovery that completes leaves the logged blocks with their cached contents if the first
header write of the commit reached the disk, and with their old contents otherwise; it leaves
every other block outside the log unchanged, and an empty header. -/
theorem commit_atomic {c d' : Disk} {crashed : List (Nat × Block)}
    (hhead : headerCount (d lg.start) = 0) (hA : lg.Admits lh)
    (hpre : crashed <+: (commit lg lh ⟨cachedView lh c d, []⟩).written)
    (hr : Restarts (recoverFromLog lg) (applyWrites d crashed) d') :
    ∃ ws, recoverFromLog lg d' = some ws ∧
      (committing lg lh ⟨cachedView lh c d, []⟩ <+: crashed →
        ∀ b ∈ lh.block, applyWrites d' ws b.toNat = c b.toNat) ∧
      (¬committing lg lh ⟨cachedView lh c d, []⟩ <+: crashed →
        ∀ b ∈ lh.block, applyWrites d' ws b.toNat = d b.toNat) ∧
      (∀ b, ¬lg.Mem b → (∀ x ∈ lh.block, x.toNat ≠ b) → applyWrites d' ws b = d b) ∧
      headerCount (applyWrites d' ws lg.start) = 0 := by
  have hd : Clean lg d d := ⟨hhead, fun _ _ => rfl⟩
  rcases commit_crash hA hd hpre with ⟨hno, hclean⟩ | ⟨hyes, hdone⟩
  · obtain ⟨ws, hws, hfin⟩ := restarts_clean hA (.inr hclean) hr
    exact ⟨ws, hws, fun h => absurd h hno, fun _ b hb => hfin.other _ (hA.outside b hb),
      fun b hb _ => hfin.other b hb, hfin.header⟩
  · obtain ⟨ws, hws, hfin⟩ := restarts_clean hA hdone hr
    refine ⟨ws, hws, fun _ b hb => ?_, fun h => absurd hyes h, fun b hb hne => ?_, hfin.header⟩
    · rw [hfin.other _ (hA.outside b hb), cachedView_of_mem hb]
    · rw [hfin.other b hb, cachedView_of_ne hne]

/-- Two blocks committed on a blank disk, with a crash right after the header write. -/
theorem commit_atomic_two_blocks :
    let lg : Area := ⟨2, 30, by decide⟩
    let lh : LogHeader := ⟨[40, 41], by decide⟩
    let d : Disk := fun _ => Bytes.zero
    let c : Disk := fun _ => Bytes.zero.setWord32 0 7
    let crashed := (commit lg lh ⟨cachedView lh c d, []⟩).written.take 3
    headerCount (d lg.start) = 0 ∧ lg.Admits lh ∧
      ∃ ws, recoverFromLog lg (applyWrites d crashed) = some ws ∧
        ∀ b ∈ lh.block, applyWrites (applyWrites d crashed) ws b.toNat = c b.toNat := by
  intro lg lh d c crashed
  have hhead : headerCount (d lg.start) = 0 := by decide
  have hA : lg.Admits lh := ⟨by decide, by decide, by simp [lh, lg, Area.Mem]⟩
  obtain ⟨ws, hws, hnew, -⟩ := commit_atomic (c := c) hhead hA (List.take_prefix 3 _) .refl
  exact ⟨hhead, hA, ws, hws, hnew ⟨[], rfl⟩⟩

end Xv6.Log

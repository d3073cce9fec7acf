import Xv6.Fs.Filewrite

/-!
# `filewrite` against a single write

`filewrite` writes one piece after the other, each in a transaction of its own. A piece that would
make the file too large is refused, but then the pieces before it have been written and the offset has
moved, although the call fails.
-/

namespace Xv6.Fs

open List

/-- The panic of `balloc` on a full disk. -/
def OutOfBlocks (e : Fault) : Prop := e = .panic "balloc: out of blocks"

/-- The file in entry `p` of the cache can be locked, is no device, and no transaction is in
progress. -/
structure Writable (s : State) (p : Ip) : Prop where
  idle : Idle s
  log : LOGSIZE ≤ s.logSize
  size : s.sb.size.toNat ≤ FSSIZE
  ref : 0 < (s.icache p).ref
  locked : (s.icache p).locked = false
  type : (s.node (s.icache p).inum).type ≠ 0
  device : (s.node (s.icache p).inum).type ≠ T_DEV

/-- What a single `writei` of `src` at offset `off` makes of the bytes `data` of a file: what it
returns, the bytes and the offset after them. -/
def writeOnce (data : List UInt8) (off : UInt32) (src : List UInt8) : Int × List UInt8 × UInt32 :=
  if WriteRefused data.length off.toNat src.length then (-1, data, off)
  else (src.length, writeAt data off.toNat src, off + UInt32.ofNat src.length)

/-! ## The bytes of a file -/

/-- The loop of `filewrite` on the bytes `data` of a file: whether all of `src` was written, the bytes
and the offset after it. -/
def writePieces : (turns : Nat) → (data : List UInt8) → (off : UInt32) → (src : List UInt8) →
    Bool × List UInt8 × UInt32
  | 0, data, off, src => (src.length = 0, data, off)
  | turns + 1, data, off, src =>
    if src.length = 0 then (true, data, off)
    else
      let (r, data, off) := writeOnce data off (src.take maxChunk)
      if r < 0 then (false, data, off) else writePieces turns data off (src.drop maxChunk)

/-- `filewrite` on the bytes of a file. -/
def writeAll (data : List UInt8) (off : UInt32) (src : List UInt8) : Int × List UInt8 × UInt32 :=
  let (all, data, off) := writePieces src.length data off src
  (if all then src.length else -1, data, off)

section
variable {data src : List UInt8} {off : UInt32} {turns : Nat}

theorem maxChunk_pos : 0 < maxChunk := by decide

theorem writeOnce_of_refused (h : WriteRefused data.length off.toNat src.length) :
    writeOnce data off src = (-1, data, off) :=
  if_pos h

theorem writeOnce_of_fits (h : ¬WriteRefused data.length off.toNat src.length) :
    writeOnce data off src =
      ((src.length : Int), writeAt data off.toNat src, off + UInt32.ofNat src.length) :=
  if_neg h

theorem toNat_add_length (h : ¬WriteRefused data.length off.toNat src.length) :
    (off + UInt32.ofNat src.length).toNat = off.toNat + src.length := by
  simp only [WriteRefused] at h
  rw [UInt32.toNat_add, UInt32.toNat_ofNat']
  omega

theorem writePieces_nil : writePieces turns data off [] = (true, data, off) := by
  cases turns <;> rfl

theorem writePieces_succ (hpos : src ≠ []) :
    writePieces (turns + 1) data off src =
      if WriteRefused data.length off.toNat (src.take maxChunk).length then (false, data, off)
      else writePieces turns (writeAt data off.toNat (src.take maxChunk))
        (off + UInt32.ofNat (src.take maxChunk).length) (src.drop maxChunk) := by
  rw [writePieces, if_neg (fun h => hpos (eq_nil_of_length_eq_zero h))]
  by_cases hbad : WriteRefused data.length off.toNat (src.take maxChunk).length
  · rw [writeOnce_of_refused hbad, if_pos hbad]
    rfl
  · rw [writeOnce_of_fits hbad, if_neg hbad]
    exact if_neg (Int.not_lt.mpr (Int.natCast_nonneg _))

theorem writeAt_writeAt {off : Nat} (a b : List UInt8) (h : off ≤ data.length) :
    writeAt (writeAt data off a) (off + a.length) b = writeAt data off (a ++ b) := by
  have htake : (data.take off).length = off := by
    rw [length_take]
    omega
  have hfirst : (data.take off ++ a).length = off + a.length := by
    rw [length_append, htake]
  simp only [writeAt]
  rw [take_left' hfirst, ← append_assoc (data.take off) a b, length_append]
  congr 1
  rw [drop_append, drop_eq_nil_of_le (by omega), nil_append, drop_drop]
  congr 1
  omega

theorem writePieces_fits (hturns : src.length ≤ turns) (hoff : off.toNat ≤ data.length)
    (hfit : off.toNat + src.length ≤ MAXFILE * BSIZE) :
    writePieces turns data off src =
      (true, writeAt data off.toNat src, off + UInt32.ofNat src.length) := by
  have hmax := maxChunk_pos
  have hlt : MAXFILE * BSIZE < 2 ^ 32 := by decide
  induction turns generalizing data off src with
  | zero =>
    have hnil : src = [] := eq_nil_of_length_eq_zero (by omega)
    simp [hnil, writePieces, writeAt]
  | succ turns ih =>
    by_cases hnil : src = []
    · simp [hnil, writePieces, writeAt]
    · have hpos := length_pos_of_ne_nil hnil
      have hlen : (src.take maxChunk).length = min maxChunk src.length := length_take
      have hok : ¬WriteRefused data.length off.toNat (src.take maxChunk).length := by
        simp only [WriteRefused]
        omega
      have hsum := toNat_add_length hok
      have hrest : (src.drop maxChunk).length = src.length - maxChunk := length_drop
      have hoff' : (off + UInt32.ofNat (src.take maxChunk).length).toNat ≤
          (writeAt data off.toNat (src.take maxChunk)).length := by
        rw [hsum, length_writeAt hoff]
        omega
      rw [writePieces_succ hnil, if_neg hok, ih (by omega) hoff' (by omega), hsum,
        writeAt_writeAt _ _ hoff, take_append_drop, UInt32.add_assoc, ← UInt32.ofNat_add,
        ← length_append, take_append_drop]

theorem le_writePieces (turns : Nat) (data : List UInt8) (off : UInt32) (src : List UInt8) :
    off.toNat ≤ (writePieces turns data off src).2.2.toNat := by
  induction turns generalizing data off src with
  | zero => exact Nat.le_refl _
  | succ turns ih =>
    by_cases hnil : src = []
    · rw [hnil, writePieces_nil]
    · rw [writePieces_succ hnil]
      split
      · exact Nat.le_refl _
      next hok =>
        have := ih (writeAt data off.toNat (src.take maxChunk))
          (off + UInt32.ofNat (src.take maxChunk).length) (src.drop maxChunk)
        rw [toNat_add_length hok] at this
        omega

/-- The first piece is written, but not all of them fit. -/
def CutShort (size off n : Nat) : Prop :=
  off ≤ size ∧ MAXFILE * BSIZE < off + n ∧ off + min n maxChunk ≤ MAXFILE * BSIZE

instance (size off n : Nat) : Decidable (CutShort size off n) := inferInstanceAs (Decidable (_ ∧ _))

/-- The pieces do what one write does, if there are any or the offset is inside the file, and unless
they are cut short. -/
theorem writeAll_eq_iff (hsize : data.length ≤ MAXFILE * BSIZE) :
    writeAll data off src = writeOnce data off src ↔
      (0 < src.length ∨ off.toNat ≤ data.length) ∧
        ¬CutShort data.length off.toNat src.length := by
  have hlt : MAXFILE * BSIZE < 2 ^ 32 := by decide
  have hmax := maxChunk_pos
  by_cases hnil : src = []
  · subst hnil
    have hall : writeAll data off [] = (0, data, off) := rfl
    rw [hall]
    by_cases hoff : off.toNat ≤ data.length
    · have hok : ¬WriteRefused data.length off.toNat ([] : List UInt8).length := by
        simp only [WriteRefused, length_nil]
        omega
      have hcut : ¬CutShort data.length off.toNat ([] : List UInt8).length := by
        simp only [CutShort, length_nil]
        omega
      rw [writeOnce_of_fits hok]
      exact iff_of_true (by simp [writeAt]) ⟨.inr hoff, hcut⟩
    · rw [writeOnce_of_refused (.inl (Nat.not_le.mp hoff))]
      exact iff_of_false (by simp) fun h => h.1.elim (Nat.lt_irrefl 0) hoff
  · have hpos := length_pos_of_ne_nil hnil
    have hlen : (src.take maxChunk).length = min maxChunk src.length := length_take
    obtain ⟨turns, hturns⟩ := Nat.exists_eq_add_one_of_ne_zero (Nat.ne_of_gt hpos)
    by_cases hfit : ¬WriteRefused data.length off.toNat src.length
    · rw [writeOnce_of_fits hfit]
      simp only [WriteRefused] at hfit
      have hall : writePieces src.length data off src = _ :=
        writePieces_fits (Nat.le_refl _) (by omega) (by omega)
      rw [writeAll, hall]
      refine iff_of_true rfl ⟨.inl hpos, fun hcut => ?_⟩
      simp only [CutShort] at hcut
      omega
    · rw [writeOnce_of_refused (not_not.mp hfit), writeAll, hturns, writePieces_succ hnil, ← hturns]
      by_cases hfirst : WriteRefused data.length off.toNat (src.take maxChunk).length
      · rw [if_pos hfirst]
        refine iff_of_true rfl ⟨.inl hpos, fun hcut => ?_⟩
        simp only [WriteRefused, CutShort] at hfirst hcut
        omega
      · -- the offset has moved
        rw [if_neg hfirst]
        refine iff_of_false (fun heq => ?_) fun h => h.2 ?_
        · have hle := le_writePieces turns (writeAt data off.toNat (src.take maxChunk))
            (off + UInt32.ofNat (src.take maxChunk).length) (src.drop maxChunk)
          have hoff : (writePieces turns _ _ _).2.2 = off := congrArg (fun x => x.2.2) heq
          rw [hoff, toNat_add_length hfirst] at hle
          omega
        · simp only [WriteRefused, CutShort] at hfirst hfit ⊢
          omega

end

/-! ## Transactions -/

section
variable {s t : State} {p : Ip} {dev : DevSw} {src : List UInt8} {off : UInt32}
variable {E : Fault → Prop} {n : Nat}

theorem Spare.congr (h : Spare E s n) (hsb : t.sb = s.sb) (hdisk : t.disk = s.disk) :
    Spare E t n := by
  rw [Spare, hsb, hdisk]
  exact h

theorem card_mapBlocks_le {sb : Superblock} (h : sb.size.toNat ≤ FSSIZE) :
    (mapBlocks sb).card ≤ 1 := by
  refine Finset.card_le_one.mpr fun a ha b hb => ?_
  obtain ⟨x, hx, rfl⟩ := Finset.mem_image.mp ha
  obtain ⟨y, hy, rfl⟩ := Finset.mem_image.mp hb
  have hbound : FSSIZE < BPB := by decide
  rw [Finset.mem_range] at hx hy
  rw [bblock, bblock, Nat.div_eq_of_lt (by omega), Nat.div_eq_of_lt (by omega)]

/-- The blocks that a piece may need: fourteen for its bytes, and the indirect block. -/
def pieceBlocks : Nat := 15

theorem span_chunk_le (off : Nat) (hn : n ≤ maxChunk) : span off n ≤ 14 := by
  have hmax : maxChunk = 6656 := by decide
  unfold span
  split
  · omega
  · simp only [BSIZE]
    omega

theorem needed_le_pieceBlocks {off : Nat} (hn : n ≤ maxChunk) : s.needed p off n ≤ pieceBlocks := by
  have hsub : ((Finset.range MAXFILE).filter fun bn =>
      Touches off n bn ∧ s.own p ((s.icache p).inum, slotOf bn) = 0) ⊆ touched off n := by
    intro bn hbn
    exact mem_touched.mpr (Finset.mem_filter.mp hbn).2.1
  have hcard := Finset.card_le_card hsub
  rw [card_touched] at hcard
  have hspan := span_chunk_le off hn
  unfold State.needed pieceBlocks
  split <;> omega

theorem room_chunk (hlh : s.lh = []) (hout : 0 < s.outstanding)
    (hlog : LOGSIZE ≤ s.logSize) (hsize : s.sb.size.toNat ≤ FSSIZE) (hn : n ≤ maxChunk) :
    Room E s (1 + span off.toNat n + s.due p) := by
  refine ⟨.inr ?_, .inr hout⟩
  have hload : s.load ≤ 1 := by
    have := card_mapBlocks_le hsize
    rw [State.load, hlh]
    simpa using this
  have hspan := span_chunk_le off.toNat hn
  have hdue : s.due p ≤ 1 := by
    unfold State.due
    split <;> omega
  simp only [State.capacity, LOGSIZE, MAXOPBLOCKS] at *
  omega

/-- What a transaction with the bytes `src` makes of the files. -/
def Piece (p : Ip) (src : List UInt8) (off : UInt32) (s : State) (r : Int) (t : State) : Prop :=
  if WriteRefused (s.node (s.icache p).inum).data.length off.toNat src.length
  then r = -1 ∧ t.node = s.node
  else r = src.length ∧ t.node = Function.update s.node (s.icache p).inum
    { s.node (s.icache p).inum with
      data := writeAt (s.node (s.icache p).inum).data off.toNat src }

theorem Writable.of_finish (hidle : Idle t) (hlog : LOGSIZE ≤ t.logSize)
    (hsize : t.sb.size.toNat ≤ FSSIZE) (href : 0 < (s.icache p).ref)
    (hent : t.icache p = { s.icache p with locked := false })
    (htype : (t.node (s.icache p).inum).type ≠ 0 ∧ (t.node (s.icache p).inum).type ≠ T_DEV) :
    Writable t p := by
  constructor
  · exact hidle
  · exact hlog
  · exact hsize
  · rw [hent]; exact href
  · rw [hent]
  · rw [hent]; exact htype.1
  · rw [hent]; exact htype.2

theorem wp_pieceBody (hinv : FsInv s) (hv : Valid s p) (hlocked : (s.icache p).locked = true)
    (hlh : s.lh = []) (hout : s.outstanding = 1) (hlog : LOGSIZE ≤ s.logSize)
    (hsize : s.sb.size.toNat ≤ FSSIZE) (hdev : (s.icache p).din.type ≠ T_DEV)
    (hle : src.length ≤ maxChunk) (hspare : Spare E s (n + pieceBlocks)) :
    (do let r ← writei dev p src off; iunlock p; endOp; pure r : FsM Int).wp E
      (fun r t => Writable t p ∧ (t.icache p).inum = (s.icache p).inum ∧ Piece p src off s r t ∧
        Spare E t n) s := by
  obtain ⟨htype, -, hdata⟩ := hinv.node_of_valid hv
  have hmax : maxChunk < 2 ^ 32 := by decide
  have htypes : (s.node (s.icache p).inum).type ≠ 0 ∧ (s.node (s.icache p).inum).type ≠ T_DEV := by
    rw [htype]
    exact ⟨hinv.cached.type p hv, hdev⟩
  unfold Piece
  rw [hdata, wp_bind]
  refine wp_imp (wp_writei_spare hinv hv hdev (by omega)
    (fun _ => room_chunk hlh (by omega) hlog hsize hle)
    fun _ => hspare.mono (Nat.add_le_add_left (needed_le_pieceBlocks hle) n)) fun r u hu => ?_
  split at hu
  next hbad =>
    obtain ⟨rfl, rfl⟩ := hu
    refine wp_imp (wp_finish hinv hout (.inl ⟨hlocked, hv.1⟩)) ?_
    rintro _ t ⟨rfl, hidle, hsb, hlog', hent, hnode, hdisk, -⟩
    rw [if_pos hbad]
    refine ⟨.of_finish hidle (hlog' ▸ hlog) (hsb ▸ hsize) hv.1 hent (hnode ▸ htypes), ?_,
      ⟨rfl, hnode⟩, (hspare.mono (Nat.le_add_right ..)).congr hsb hdisk⟩
    rw [hent]
  next hok =>
    obtain ⟨rfl, w, hw, hrest, rfl⟩ := hu
    have hworking := hw.grows.working (hinv.pending hv).working
    have hfits := hok
    simp only [WriteRefused, not_or, Nat.not_lt, Nat.not_le] at hfits
    have hwrote := hw.wrote hinv hv hfits.1 hfits.2.1
    have htags := hwrote.tags p
    have hsame : (w.resize p (off.toNat + src.length)).outstanding = s.outstanding ∧
        (w.resize p (off.toNat + src.length)).logSize = s.logSize := by
      unfold State.resize
      split <;> exact ⟨hw.grows.outstanding, hw.grows.logSize⟩
    have hsb' : (w.resize p (off.toNat + src.length)).sb = s.sb := hw.resize_sb
    have hrest' := hrest.resize (m := off.toNat + src.length) hworking.geometry hworking.inum
    generalize w.resize p (off.toNat + src.length) = u at *
    have href : 0 < (u.icache p).ref := by
      rw [htags]
      exact hv.1
    refine wp_imp (wp_finish hwrote.inv (hsame.1.trans hout)
      (.inl ⟨by rw [htags]; exact hlocked, href⟩)) ?_
    rintro _ t ⟨rfl, hidle, hsb, hlog', hent, hnode, hdisk, -⟩
    have hinum : (u.icache p).inum = (s.icache p).inum := by rw [htags]
    rw [if_neg hok]
    refine ⟨.of_finish hidle (by rw [hlog', hsame.2]; exact hlog) (by rw [hsb, hsb']; exact hsize)
      href hent ?_, by rw [hent, hinum], ⟨rfl, hnode.trans hwrote.node⟩, hrest'.congr hsb hdisk⟩
    rw [hnode, hwrote.node, hinum, update_self]
    exact htypes

/-- One piece: it is refused, or it is in the file. -/
theorem Writable.wp_writeChunk (h : Writable s p) (hle : src.length ≤ maxChunk)
    (hspare : Spare E s (n + pieceBlocks)) :
    (writeChunk dev p src off).wp E (fun r t => Writable t p ∧
      (t.icache p).inum = (s.icache p).inum ∧ Piece p src off s r t ∧ Spare E t n) s := by
  rw [writeChunk, wp_bind]
  refine wp_beginOp (.inl (by rw [h.idle.lh, h.idle.outstanding]; decide)) ?_
  rw [wp_bind]
  generalize hs₁ : ({ s with outstanding := s.outstanding + 1 } : State) = s₁
  have hbegun : FsInv s₁ := by
    subst hs₁
    exact h.idle.inv.congr rfl rfl rfl
  have hent : s₁.icache p = s.icache p := by rw [← hs₁]
  have htype : (s₁.icache p).valid = false →
      (dinodeAt s₁.sb s₁.disk (s₁.icache p).inum).type ≠ 0 := by
    subst hs₁
    have := h.type
    rw [State.node, nodeOf, if_pos (h.idle.inv.cached.inum p h.ref)] at this
    exact fun _ => this
  refine wp_ilock_eq (.inl ⟨hent ▸ h.ref, hent ▸ h.locked, htype⟩) fun href _ _ => ?_
  have hlock : FsInv (s₁.lock p) := hbegun.lock href htype
  have hv : Valid (s₁.lock p) p := valid_lock href
  have hnode : (s₁.lock p).node = s.node := by
    subst hs₁
    rfl
  have hself : ((s₁.lock p).icache p).inum = (s.icache p).inum ∧
      ((s₁.lock p).icache p).locked = true := by
    rw [State.lock, State.setInode_self]
    exact ⟨by rw [hent], rfl⟩
  have hdev : ((s₁.lock p).icache p).din.type ≠ T_DEV := by
    rw [← (hlock.node_of_valid hv).1, hnode, hself.1]
    exact h.device
  subst hs₁
  refine wp_imp (wp_pieceBody hlock hv hself.2 h.idle.lh
    (congrArg (· + 1) h.idle.outstanding) h.log h.size hdev hle hspare) ?_
  rintro r t ⟨hw, hinum, hpiece, hrest⟩
  unfold Piece at hpiece ⊢
  rw [hnode, hself.1] at hpiece
  exact ⟨hw, hinum.trans hself.1, hpiece, hrest⟩

end

/-! ## The loop -/

section
variable {dev : DevSw} {s : Sys} {f : Fin NFILE} {src : List UInt8} {turns : Nat}

/-- The number of pieces of `n` bytes. -/
def pieces (n : Nat) : Nat := (n + maxChunk - 1) / maxChunk

theorem pieces_succ {n : Nat} (h : 0 < n) : pieces n = pieces (n - maxChunk) + 1 := by
  have hmax : maxChunk = 6656 := by decide
  simp only [pieces, hmax]
  omega

/-- The inode number of an open file. -/
def Sys.inum (s : Sys) (f : Fin NFILE) : Nat := (s.fs.icache (s.file f).ip).inum

/-- The loop does to the file what `writePieces` does to its bytes. -/
theorem wp_filewriteLoop_pieces {E : Fault → Prop} (h : Writable s.fs (s.file f).ip)
    (hspare : Spare E s.fs (pieces src.length * pieceBlocks)) :
    (filewriteLoop dev f turns src).wp E (fun all t =>
      (all, (t.fs.node (s.inum f)).data, (t.file f).off) =
        writePieces turns (s.fs.node (s.inum f)).data (s.file f).off src) s := by
  induction turns generalizing s src with
  | zero => exact rfl
  | succ turns ih =>
    unfold filewriteLoop
    split
    next hnil =>
      rw [eq_nil_of_length_eq_zero hnil, writePieces_nil]
      exact rfl
    next hne =>
      have hle : (src.take maxChunk).length ≤ maxChunk := length_take_le ..
      have hpos : 0 < (src.take maxChunk).length := (take_maxChunk (Nat.pos_of_ne_zero hne)).1
      rw [pieces_succ (Nat.pos_of_ne_zero hne), Nat.succ_mul] at hspare
      rw [writePieces_succ fun hnil => hne (congrArg List.length hnil)]
      simp only [wp_bind, wp_gets, inFs, wp_zoom]
      refine wp_imp (h.wp_writeChunk hle hspare) ?_
      rintro r u ⟨hu, hinum, hpiece, hrest⟩
      simp only [modifyFile, wp_modify, setAt_eq_update]
      generalize hv : ({ s with
        fs := u
        file := update s.file f { s.file f with off := advance (s.file f).off r } } :
          Sys) = v
      have hfs : v.fs = u := by rw [← hv]
      have hfile : v.file f = { s.file f with off := advance (s.file f).off r } := by
        rw [← hv]
        exact update_self ..
      have hnum : v.inum f = s.inum f := by
        rw [Sys.inum, hfs, hfile]
        exact hinum
      rw [Piece, show (s.fs.icache (s.file f).ip).inum = s.inum f from rfl] at hpiece
      split at hpiece
      next hbad =>
        obtain ⟨rfl, hnode⟩ := hpiece
        rw [if_pos (by decide), if_pos hbad, wp_pure, hfs, hfile, hnode]
        rfl
      next hok =>
        obtain ⟨rfl, hnode⟩ := hpiece
        have hoff : advance (s.file f).off ((src.take maxChunk).length : Int) =
            (s.file f).off + UInt32.ofNat (src.take maxChunk).length := by
          rw [advance, if_pos (by omega), Int.toNat_natCast]
        have hloop : (filewriteLoop dev f turns (src.drop maxChunk)).wp _ _ v :=
          ih (by rw [hfs, hfile]; exact hu) (by rw [hfs, length_drop]; exact hrest)
        rw [hnum, hfs, hfile, hnode, hoff, update_self] at hloop
        rw [if_neg (by omega), if_neg (fun h => h rfl), if_neg hok]
        exact hloop

theorem wp_filewrite_all {E : Fault → Prop} (h : Writable s.fs (s.file f).ip)
    (htype : (s.file f).type = .inode) (hwritable : (s.file f).writable = true)
    (hspare : Spare E s.fs (pieces src.length * pieceBlocks)) :
    (filewrite dev f src).wp E (fun r t =>
      (r, (t.fs.node (s.inum f)).data, (t.file f).off) =
        writeAll (s.fs.node (s.inum f)).data (s.file f).off src) s := by
  simp only [filewrite, wp_bind, wp_gets]
  rw [if_neg (by rw [hwritable]; decide), if_pos htype, wp_bind]
  refine wp_imp (wp_filewriteLoop_pieces h hspare) fun all t ht => ?_
  rw [wp_pure, writeAll, ← ht]

/-- A call of `filewrite` returns, and leaves the bytes and the offset of the file as they would be
after a single write. -/
def WritesOnce (dev : DevSw) (f : Fin NFILE) (src : List UInt8) (s : Sys) : Prop :=
  ∃ r t, filewrite dev f src s = .ok (r, t) ∧
    (r, (t.fs.node (s.inum f)).data, (t.file f).off) =
      writeOnce (s.fs.node (s.inum f)).data (s.file f).off src

/-- **`filewrite` and a single write.** For a file that is open for writing, with enough free blocks
and no other transaction in progress, a call of `filewrite` does what a single `writei` of all the bytes
would do, if and only if there are bytes to write or the offset is inside the file, and it is not the
case that the first piece of the bytes fits into the largest file while all of them do not. -/
theorem writesOnce_iff (h : Writable s.fs (s.file f).ip) (htype : (s.file f).type = .inode)
    (hwritable : (s.file f).writable = true)
    (hfree : filewrite dev f src s ≠ .error (.panic "balloc: out of blocks")) :
    WritesOnce dev f src s ↔
      (0 < src.length ∨ (s.file f).off.toNat ≤ (s.fs.node (s.inum f)).data.length) ∧
        ¬CutShort (s.fs.node (s.inum f)).data.length (s.file f).off.toNat src.length := by
  have hwp : (filewrite dev f src).wp OutOfBlocks _ s :=
    wp_filewrite_all h htype hwritable (.inl rfl)
  rw [← writeAll_eq_iff]
  · cases hrun : filewrite dev f src s with
    | error e =>
      rw [Prog.wp, hrun] at hwp
      exact absurd (hwp ▸ hrun) hfree
    | ok x =>
      have hx := wp_ok hwp hrun
      constructor
      · rintro ⟨r, t, hrt, heq⟩
        rw [hrun] at hrt
        cases hrt
        rw [← hx, heq]
      · intro heq
        exact ⟨x.1, x.2, hrun, by rw [hx, heq]⟩
  · have hi : s.inum f < s.fs.sb.ninodes.toNat := h.idle.inv.cached.inum _ h.ref
    have htype := h.type
    rw [show (s.fs.icache (s.file f).ip).inum = s.inum f from rfl] at htype
    rw [State.node, nodeOf, if_pos hi] at htype ⊢
    rw [length_map, length_range]
    exact h.idle.inv.size_le hi htype

end

/-! ## An empty file on a larger disk -/

namespace LargeDisk

def sb : Superblock := ⟨200, 196, 2, 30, 0, 2, 3⟩

/-- The super block, a block of inodes, a block of the free map, and data blocks. -/
def disk : Disk := fun b =>
  if b = 1 then Bytes.zero.setWords32 0 [200, 196, 2, 30, 0, 2, 3]
  else if b = 2 then OneFile.din.store Bytes.zero 1
  else if b = 3 then Bytes.zero.blit 0 [15]
  else Bytes.zero

/-- The file is in the first entry of the cache, and open. -/
def sys : Sys := { OneFile.sys with fs := { OneFile.idle with disk, sb } }

theorem dinodeAt_eq (hi : i < 2) : dinodeAt sb disk i = dinodeAt OneFile.sb OneFile.disk i := by
  have hblock : iblock sb i = 2 ∧ iblock OneFile.sb i = 2 := by
    have hdiv : i / IPB = 0 := Nat.div_eq_of_lt (Nat.lt_trans hi (by decide))
    rw [iblock, iblock, hdiv]
    decide
  have hdisk : disk 2 = OneFile.disk 2 := rfl
  rw [dinodeAt, dinodeAt, hblock.1, hblock.2, hdisk]

set_option maxRecDepth 2000 in
theorem read_disk : Superblock.load (disk 1) = sb ∧
    (∀ i < sb.ninodes.toNat, (dinodeAt sb disk i).size = 0 ∧
      ∀ k, (dinodeAt sb disk i).addrs k = 0) ∧
    (∀ b < sb.size.toNat, blockBit sb disk b = decide (b < dataStart sb)) ∧
    (sys.fs.node (sys.inum OneFile.file)).type = T_FILE ∧
    (sys.fs.node (sys.inum OneFile.file)).data = [] ∧
    pieces 71681 * pieceBlocks ≤ (freeBlocks sb disk).card := by decide +kernel

set_option maxRecDepth 2000 in
theorem fsInv : FsInv sys.fs := by
  refine .of_empty ⟨by decide, by decide, by decide, by decide, by decide, by decide⟩
    read_disk.1 read_disk.2.1 read_disk.2.2.1 ?_
  have hcached := OneFile.idle_idle.inv.cached
  refine ⟨hcached.inum, fun q hne hq => ?_, hcached.type, hcached.unique⟩
  exact (hcached.synced q hne hq).trans (dinodeAt_eq (hcached.inum q hq.1)).symm

theorem writable : Writable sys.fs (sys.file OneFile.file).ip where
  idle := ⟨fsInv, rfl, rfl⟩
  log := by decide
  size := by decide
  ref := by decide
  locked := by decide
  type := read_disk.2.2.2.1 ▸ (by decide : T_FILE ≠ 0)
  device := read_disk.2.2.2.1 ▸ (by decide : T_FILE ≠ T_DEV)

theorem data_eq : (sys.fs.node (sys.inum OneFile.file)).data = [] := read_disk.2.2.2.2.1

theorem spare : Spare (fun _ => False) sys.fs (pieces 71681 * pieceBlocks) :=
  .inr read_disk.2.2.2.2.2

end LargeDisk

/-- Three bytes are written as by a single write. -/
theorem writesOnce_three : WritesOnce OneFile.noDev OneFile.file [1, 2, 3] LargeDisk.sys := by
  have hwp : (filewrite OneFile.noDev OneFile.file [1, 2, 3]).wp (fun _ => False) _ LargeDisk.sys :=
    wp_filewrite_all LargeDisk.writable rfl rfl (LargeDisk.spare.mono (by decide))
  obtain ⟨r, t, hrun, -⟩ := exists_of_wp hwp
  refine (writesOnce_iff LargeDisk.writable rfl rfl ?_).mpr ⟨.inl (by decide), ?_⟩
  · rw [hrun]
    exact nofun
  · rw [LargeDisk.data_eq]
    decide

/-- Bytes for eleven pieces, of which the last does not fit. -/
theorem LargeDisk.cut_short {src : List UInt8} (hlen : src.length = 71681) :
    (∃ r t, filewrite OneFile.noDev OneFile.file src sys = .ok (r, t)) ∧
      ¬WritesOnce OneFile.noDev OneFile.file src sys := by
  have hwp : (filewrite OneFile.noDev OneFile.file src).wp (fun _ => False) _ sys :=
    wp_filewrite_all writable rfl rfl (hlen ▸ spare)
  obtain ⟨r, t, hrun, -⟩ := exists_of_wp hwp
  refine ⟨⟨r, t, hrun⟩, ?_⟩
  rintro ⟨r', t', hrun', heq⟩
  have hall := wp_ok hwp hrun'
  rw [heq, data_eq] at hall
  refine ((writeAll_eq_iff (Nat.zero_le _)).mp hall.symm).2 ?_
  rw [hlen]
  decide

/-- One byte more than the largest file has, at the start of an empty file. -/
theorem not_writesOnce_large :
    (∃ r t, filewrite OneFile.noDev OneFile.file (List.replicate 71681 0) LargeDisk.sys =
        .ok (r, t)) ∧
      ¬WritesOnce OneFile.noDev OneFile.file (List.replicate 71681 0) LargeDisk.sys :=
  LargeDisk.cut_short length_replicate

end Xv6.Fs

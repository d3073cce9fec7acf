import Xv6.Exec.Program
import Xv6.Fs.Nodes
import Xv6.Vm.Space

/-!
# Loading a program

What `exec` makes of a file depends on what `readi` gives it (`Reader`). While it loads, it writes to
pages that it took, with one exception: the first page of a segment at address 0 goes to physical page
0, if there is a page table for that address (`strays`).
-/

namespace Xv6.Exec

open Vm (PGSIZE KERNBASE Ram Mem Pte Owns Whole npages span node leaf lookup grown)
open Fs (FsM Ip DevSw FsInv Valid)

/-! ## Files -/

/-- What `readi` gives for an offset and a number of bytes. -/
abbrev Reader := UInt32 → UInt32 → Int × List UInt8

def reader (dev : DevSw) (fs : Fs.State) (ip : Ip) : Reader := fun off n =>
  match Fs.readi dev ip off n fs with
  | .ok (x, _) => x
  | .error _ => (-1, [])

/-- `readi` returns, and changes nothing. -/
def Reads (dev : DevSw) (ip : Ip) (read : Reader) (fs : Fs.State) : Prop :=
  ∀ off n, Fs.readi dev ip off n fs = .ok (read off n, fs)

theorem reads_reader (dev : DevSw) {ip : Ip} {fs : Fs.State} (h : FsInv fs) (hv : Valid fs ip) :
    Reads dev ip (reader dev fs ip) fs := by
  intro off n
  have hrun : (Fs.readi dev ip off n).wp (fun _ => False) (fun _ t => t = fs) fs := by
    by_cases hdev : (fs.icache ip).din.type = Fs.T_DEV
    · exact Fs.wp_readi_dev hdev fun _ => rfl
    · exact wp_imp (Fs.wp_readi h hv hdev) fun _ _ ht => ht.1
  obtain ⟨x, t, heq, rfl⟩ := exists_of_wp hrun
  rw [reader, heq]

/-- The ELF header, if `readi` gets it and its magic number is right. -/
def elfOf (read : Reader) : Option Elfhdr :=
  let x := read 0 Elfhdr.size
  if x.1 ≠ Elfhdr.size.toNat then none
  else if (Elfhdr.load x.2).magic ≠ ELF_MAGIC then none
  else some (Elfhdr.load x.2)

/-- Program header `i`, if `readi` gets it. -/
def header (read : Reader) (phoff : UInt64) (i : Nat) : Option Proghdr :=
  let x := read (phOffset phoff i) Proghdr.size
  if x.1 ≠ Proghdr.size.toNat then none else some (Proghdr.load x.2)

/-- What `loaduvm` reads for page `k` of a segment. -/
def pageRead (read : Reader) (offset : UInt32) (sz k : Nat) : Int × List UInt8 :=
  read (offset + UInt32.ofNat (k * PGSIZE)) (UInt32.ofNat (pageLen sz k))

/-- `readi` gets all of page `k`. -/
def full (read : Reader) (offset : UInt32) (sz k : Nat) : Bool :=
  (pageRead read offset sz k).1 = pageLen sz k

/-- The offset that `loaduvm` gets, a `uint`. -/
def Proghdr.offset (ph : Proghdr) : UInt32 := UInt32.ofNat ph.off.toNat

/-- The size that `loaduvm` gets, a `uint`. -/
def Proghdr.len (ph : Proghdr) : Nat := ph.filesz.toNat % 2 ^ 32

/-! ## Writes -/

/-- The segment starts at address 0, there is a page table for it among the `n` pages, and there are
bytes to load. -/
def Proghdr.strays (ph : Proghdr) (read : Reader) (n : Nat) : Bool :=
  ph.vaddr = 0 && 2 ≤ n && 0 < ph.len && !(pageRead read ph.offset ph.len 0).2.isEmpty

/-- Whether the loop of `exec` over the program headers writes to physical page 0, with `n` headers left
and `free` pages for what is above the top-level table. -/
def strays (read : Reader) (phoff : UInt64) (free : Nat) : Nat → Nat → Nat → Bool
  | 0, _, _ => false
  | n + 1, i, sz =>
    match header read phoff i with
    | none => false
    | some ph =>
      if ph.type ≠ Vm.ELF_PROG_LOAD then strays read phoff free n (i + 1) sz
      else if ph.memsz < ph.filesz then false
      else if ph.vaddr + ph.memsz < ph.vaddr then false
      else if KERNBASE ≤ (ph.vaddr + ph.memsz).toNat then false
      else
        let sz := max sz (ph.vaddr + ph.memsz).toNat
        if free < (span 1 (npages sz)).card then false
        else if ph.vaddr.toNat % PGSIZE ≠ 0 then false
        else if ph.unmapped (npages sz) then false
        else if ph.strays read (npages sz) then true
        else if Vm.loads (full read ph.offset ph.len) ph.filesz.toNat then
          strays read phoff free n (i + 1) sz
        else false

/-- Pages were taken from the free list, and only pages that were taken were written, unless `stray`,
in which case page 0 was. -/
structure Traced (stray : Prop) (s t : Ram) : Prop where
  free : t.mem.freelist ⊆ s.mem.freelist
  taken : s.taken ⊆ t.taken
  fresh : ∀ p ∈ t.taken, p ∈ s.taken ∨ p ∈ s.mem.freelist
  wrote : s.wrote ⊆ t.wrote
  own : ¬stray → ∀ p ∈ t.wrote, p ∈ s.wrote ∨ p ∈ t.taken
  wild : stray → 0 ∈ t.wrote

section
variable {s t u : Ram} {p q : Prop}

theorem Traced.refl (h : ¬p) : Traced p s s :=
  ⟨List.Subset.refl _, List.Subset.refl _, fun _ => .inl, List.Subset.refl _, fun _ _ => .inl,
    fun hp => absurd hp h⟩

theorem Traced.trans (h : Traced p s t) (h' : Traced q t u) : Traced (p ∨ q) s u where
  free := List.Subset.trans h'.free h.free
  taken := List.Subset.trans h.taken h'.taken
  fresh x hx := (h'.fresh x hx).elim (h.fresh x) fun hx => .inr (h.free hx)
  wrote := List.Subset.trans h.wrote h'.wrote
  own hpq x hx := by
    rw [not_or] at hpq
    exact (h'.own hpq.2 x hx).elim (fun hx => (h.own hpq.1 x hx).imp_right fun hx => h'.taken hx) .inr
  wild hpq := hpq.elim (fun hp => h'.wrote (h.wild hp)) h'.wild

theorem Traced.congr (h : Traced p s t) (hpq : p ↔ q) : Traced q s t :=
  ⟨h.free, h.taken, h.fresh, h.wrote, fun hq => h.own (mt hpq.mp hq), fun hq => h.wild (hpq.mpr hq)⟩

theorem Traced.of_builds (h : Ram.Builds s t) (hp : ¬p) : Traced p s t :=
  ⟨h.free.subset, h.taken, h.fresh, h.wrote, fun _ => h.own, fun hs => absurd hs hp⟩

theorem Traced.store {f : Nat} (h : f ∈ s.taken ∨ f = 0) (o : Nat) (src : List UInt8) :
    Traced (f = 0 ∧ src ≠ []) s { s with
      data := Ram.put s.data f o src
      wrote := if src = [] then s.wrote else f :: s.wrote } where
  free := List.Subset.refl _
  taken := List.Subset.refl _
  fresh _ := .inl
  wrote := by
    split
    · exact List.Subset.refl _
    · exact List.subset_cons_self f _
  own hstray x hx := by
    split at hx
    next => exact .inl hx
    next hsrc =>
      have hf : f ∈ s.taken := h.resolve_right fun hf => hstray ⟨hf, hsrc⟩
      exact (List.mem_cons.mp hx).elim (fun heq => .inr (heq ▸ hf)) .inl
  wild hstray := by
    rw [if_neg hstray.2, hstray.1]
    exact List.mem_cons_self

end

/-! ## One page -/

section
variable {s : Ram} {R : Multiset Nat} {d n x : Nat} {e : Pte}

theorem leaf_zero (h : Ram.Space R d n s) (he : leaf s.mem d 0 = some e) : e = .zero := by
  have hpage : lookup s.mem d (node 0 4) = none :=
    not_not.mp (mt (h.mapped 0 (by decide)).mp fun hy => by omega)
  rw [Vm.lookup_eq_leaf (by decide), he, Option.bind_some] at hpage
  have hp : e.p = false := by
    by_contra hp
    rw [if_pos (Bool.eq_true_of_not_eq_false hp)] at hpage
    cases hpage
  rw [leaf, Option.map_eq_some_iff] at he
  obtain ⟨pt, hpt, rfl⟩ := he
  exact h.zeroed pt (h.mine pt (Vm.mem_pgs_of_lookup hpt)) _ hp

theorem leaf_cases (h : Ram.Space R d n s) (hx : x < n) (he : leaf s.mem d x = some e) :
    1 ≤ x ∧ e.ppn ∈ s.taken ∧ e.ppn ≠ 0 ∨ x = 0 ∧ e.ppn = 0 := by
  rcases Nat.eq_zero_or_pos x with rfl | hpos
  · rw [leaf_zero h he]
    exact .inr ⟨rfl, rfl⟩
  · have hx' := hx.trans_le h.users
    obtain ⟨f, hf⟩ := Option.ne_none_iff_exists'.mp ((h.mapped x hx').mpr ⟨hpos, hx⟩)
    have hmem := Vm.mem_pgs_of_lookup hf
    have hge := (h.owns.mem_all (Multiset.mem_add.mpr (.inl hmem))).1
    have hfirst := h.first
    rw [Vm.lookup_eq_leaf hx', he, Option.bind_some] at hf
    split at hf
    · cases hf
      exact .inl ⟨hpos, h.mine _ hmem, by omega⟩
    · cases hf

end

/-! ## One segment -/

section
variable {dev : DevSw} {ip : Ip} {read : Reader} {m : Machine} {α : Type} {E : Fault × Ram → Prop}
variable {R : Multiset Nat} {d n v c k sz i : Nat} {offset : UInt32}

theorem wp_inRam {x : Vm.RamM α} {Q : α → Machine → Prop} :
    (inRam x).wp E Q m ↔ x.wp E (fun a ram => Q a { m with ram }) m.ram := wp_zoom

theorem wp_inFs {x : FsM α} {Q : α → Machine → Prop} :
    (inFs x).wp E Q m ↔ x.wp (fun e => E (e, m.ram)) (fun a fs => Q a { m with fs }) m.fs :=
  Prog.wp_within

theorem Reads.wp_readi (h : Reads dev ip read m.fs) {off len : UInt32}
    {Q : Int × List UInt8 → Machine → Prop} :
    (inFs (Fs.readi dev ip off len)).wp E Q m ↔ Q (read off len) m := by
  rw [wp_inFs, wp_of_eq_ok (h off len)]

/-- There is a page table for each page, and for page 0 if there is any page. -/
theorem table_of_whole {s : Mem} {x : Nat} (h : Whole s d n) (hx : x < n) (hn : 2 ≤ n) :
    lookup s d (node x 3) ≠ none := by
  rw [h _ Vm.node_ne_nil]
  rcases Nat.eq_zero_or_pos x with rfl | hpos
  · exact Vm.node_zero_mem_span.mpr hn
  · refine Finset.mem_biUnion.mpr ⟨x, Finset.mem_Ico.mpr ⟨hpos, hx⟩, ?_⟩
    simp [Vm.nodes, Vm.tables]

/-- What `loaduvm` leaves of a machine, if it writes to page 0 just in case `stray`. -/
structure Loading (stray : Prop) (m t : Machine) : Prop where
  fs : t.fs = m.fs
  mem : t.ram.mem = m.ram.mem
  taken : t.ram.taken = m.ram.taken
  traced : Traced stray m.ram t.ram

theorem wp_loadLoop (hread : Reads dev ip read m.fs) (h : Ram.Space R d n m.ram)
    (hpages : ∀ j < k + c, v + j < n) (hn : 2 ≤ n) :
    (loadLoop dev ip d (v * PGSIZE) offset sz c k).wp E
      (fun r t => Loading (v + k = 0 ∧ 0 < c ∧ (pageRead read offset sz k).2 ≠ []) m t ∧
        (r < 0 ↔ ((List.range' k c).all (full read offset sz)) = false)) m := by
  induction c generalizing m k with
  | zero =>
    exact ⟨⟨rfl, rfl, rfl, .refl fun hstray => absurd hstray.2.1 (Nat.lt_irrefl 0)⟩, by simp⟩
  | succ c ih =>
    have hx : v + k < n := hpages k (by omega)
    obtain ⟨pt, hpt⟩ := Option.ne_none_iff_exists'.mp (table_of_whole h.whole hx hn)
    have hleaf : leaf m.ram.mem d (v + k) =
        some (m.ram.mem.page pt (Vm.PTX ((v + k) * PGSIZE))) := by rw [leaf, hpt, Option.map_some]
    rw [loadLoop, wp_bind, wp_inRam, ← Nat.add_mul, Ram.walkpgdir, if_pos (by rfl), Ram.wp_inMem,
      wp_of_eq_ok (Vm.walkpgdir_false (hx.trans_le h.users)), hpt, Option.map_some]
    dsimp only
    rw [wp_bind, wp_inRam, Ram.wp_inMem]
    refine Vm.wp_entry ?_
    generalize m.ram.mem.page pt (Vm.PTX ((v + k) * PGSIZE)) = e at hleaf
    dsimp only
    rw [wp_bind, hread.wp_readi]
    have hpage : read (offset + UInt32.ofNat (k * PGSIZE)) (UInt32.ofNat (pageLen sz k)) =
        pageRead read offset sz k := rfl
    have hfull : full read offset sz k = decide ((pageRead read offset sz k).1 = pageLen sz k) := rfl
    rw [hpage]
    -- the page is 0 just in case it is not in use
    have hwhere : (e.ppn = 0 ↔ v + k = 0) ∧ (e.ppn ∈ m.ram.taken ∨ e.ppn = 0) := by
      rcases leaf_cases h hx hleaf with ⟨hpos, hmem, hne⟩ | ⟨hzero, hppn⟩
      · exact ⟨iff_of_false hne (by omega), .inl hmem⟩
      · exact ⟨iff_of_true hppn hzero, .inr hppn⟩
    have htrace := Traced.store hwhere.2 0 (pageRead read offset sz k).2
    generalize pageRead read offset sz k = x at *
    obtain ⟨r, bytes⟩ := x
    dsimp only at *
    have hload : ∀ {t : Machine} {q : Prop}, ¬q → Loading q { m with
        ram := { m.ram with
          data := Ram.put m.ram.data e.ppn 0 bytes
          wrote := if bytes = [] then m.ram.wrote else e.ppn :: m.ram.wrote } } t →
        Loading (v + k = 0 ∧ 0 < c + 1 ∧ bytes ≠ []) m t := by
      intro t q hq ht
      refine ⟨ht.fs, ht.mem, ht.taken, (htrace.trans ht.traced).congr ?_⟩
      rw [or_iff_left hq, hwhere.1]
      exact and_congr_right fun _ => (and_iff_right (Nat.succ_pos c)).symm
    rw [wp_bind, wp_inRam, Ram.store, wp_modify]
    by_cases hr : r = pageLen sz k
    · rw [if_neg (not_not.mpr hr)]
      refine wp_imp (ih hread (h.congr rfl rfl) fun j hj => hpages j (by omega)) ?_
      rintro r' t ⟨ht, hneg⟩
      refine ⟨hload (fun hq => by omega) ht, ?_⟩
      rw [hneg, List.range'_succ, List.all_cons, hfull, decide_eq_true hr, Bool.true_and]
    · rw [if_pos hr]
      refine ⟨hload not_false ⟨rfl, rfl, rfl, .refl not_false⟩, ?_⟩
      rw [List.range'_succ, List.all_cons, hfull, decide_eq_false hr, Bool.false_and]
      decide

theorem wp_loaduvm {ph : Proghdr} (hread : Reads dev ip read m.fs) (h : Ram.Space R d n m.ram)
    (halign : ph.vaddr.toNat % PGSIZE = 0)
    (hsz : npages (ph.vaddr.toNat + ph.filesz.toNat) ≤ n) :
    (loaduvm dev ip d ph.vaddr.toNat ph.off ph.filesz).wp
      (fun e => e.2 = m.ram ∧ ph.unmapped n = true)
      (fun r t => ph.unmapped n = false ∧ Loading (ph.strays read n = true) m t ∧
        (r < 0 ↔ Vm.loads (full read ph.offset ph.len) ph.filesz.toNat = false)) m := by
  obtain ⟨v, hv⟩ := Nat.dvd_of_mod_eq_zero halign
  rw [Nat.mul_comm] at hv
  have hv' : ph.vaddr.toNat = v * 4096 := hv
  have hzero : ph.vaddr = 0 ↔ v = 0 := by
    constructor
    · intro h0
      rw [h0] at hv'
      have hz : (0 : UInt64).toNat = 0 := rfl
      omega
    · rintro rfl
      exact UInt64.toNat.inj (hv.trans (Nat.zero_mul _))
  have hsz' : (ph.vaddr.toNat + ph.filesz.toNat + 4095) / 4096 ≤ n := hsz
  have hlen : ph.len = ph.filesz.toNat % 4294967296 := rfl
  have hlens : npages ph.len = (ph.len + 4095) / 4096 := rfl
  have hunmapped : ph.unmapped n = true ↔ v = 0 ∧ 0 < ph.filesz.toNat ∧ n ≤ 1 := by
    rw [Vm.Proghdr.unmapped, Bool.and_eq_true, Bool.and_eq_true, decide_eq_true_eq, decide_eq_true_eq,
      decide_eq_true_eq, hzero, and_assoc, UInt64.lt_iff_toNat_lt]
    rfl
  have hstrays : ph.strays read n = true ↔
      v = 0 ∧ 2 ≤ n ∧ 0 < ph.len ∧ (pageRead read ph.offset ph.len 0).2 ≠ [] := by
    rw [Proghdr.strays, Bool.and_eq_true, Bool.and_eq_true, Bool.and_eq_true, decide_eq_true_eq,
      decide_eq_true_eq, decide_eq_true_eq, hzero, and_assoc, and_assoc, Bool.not_eq_true',
      List.isEmpty_eq_false_iff]
  have hloop : loaduvm dev ip d ph.vaddr.toNat ph.off ph.filesz =
      loadLoop dev ip d ph.vaddr.toNat ph.offset ph.len (npages ph.len) 0 :=
    if_neg (not_not.mpr halign)
  rw [hloop, Vm.loads, List.range_eq_range']
  change Prog.wp _ _ (fun r t => _ ∧ _ ∧ (r < 0 ↔ ((List.range' 0 (npages ph.len)).all _) = false)) m
  by_cases hun : ph.unmapped n = true
  · -- the first turn of the loop finds no table
    obtain ⟨rfl, hfile, hn⟩ := hunmapped.mp hun
    obtain ⟨c, hc⟩ : ∃ c, npages ph.len = c + 1 := Nat.exists_eq_add_one_of_ne_zero (by omega)
    have hnone : lookup m.ram.mem d (node 0 3) = none := by
      refine not_not.mp (mt (h.whole _ Vm.node_ne_nil).mp ?_)
      rw [Vm.node_zero_mem_span]
      omega
    rw [hc, hv, loadLoop, wp_bind, wp_inRam, ← Nat.add_mul, Ram.walkpgdir, if_pos (by rfl),
      Ram.wp_inMem, wp_of_eq_ok (Vm.walkpgdir_false (by decide)), hnone]
    exact ⟨rfl, hun⟩
  · have hun' := Bool.eq_false_of_not_eq_true hun
    rw [hunmapped] at hun
    by_cases hempty : ph.len = 0
    · have hnp : npages ph.len = 0 := by omega
      rw [hnp]
      refine ⟨hun', ⟨rfl, rfl, rfl, .refl fun hs => ?_⟩, by simp⟩
      have := (hstrays.mp hs).2.2.1
      omega
    · have hn : 2 ≤ n := by omega
      rw [hv]
      refine wp_imp (wp_loadLoop hread h (fun j hj => by omega) hn) ?_
      rintro r t ⟨ht, hr⟩
      refine ⟨hun', ⟨ht.fs, ht.mem, ht.taken, ht.traced.congr ?_⟩, hr⟩
      rw [hstrays, Nat.add_zero]
      exact and_congr_right fun _ =>
        ⟨fun h => ⟨hn, by omega, h.2⟩, fun h => ⟨by omega, h.2.2⟩⟩

end

/-! ## All segments -/

section
variable {dev : DevSw} {ip : Ip} {read : Reader} {m : Machine} {R : Multiset Nat}
variable {d free n i sz : Nat} {phoff : UInt64}

theorem wp_execLoad (hread : Reads dev ip read m.fs) (h : Ram.Space R d (npages sz) m.ram)
    (hpos : 0 < sz) (hfree : m.ram.mem.freelist.length + (span 1 (npages sz)).card = free) :
    (execLoad dev ip d phoff n i sz).wp
      (fun e => Traced (strays read phoff free n i sz = true) m.ram e.2)
      (fun _ t => Traced (strays read phoff free n i sz = true) m.ram t.ram) m := by
  induction n generalizing m i sz with
  | zero => exact .refl Bool.false_ne_true
  | succ n ih =>
    have hheader : header read phoff i =
        if (read (phOffset phoff i) Proghdr.size).1 ≠ Proghdr.size.toNat then none
        else some (Proghdr.load (read (phOffset phoff i) Proghdr.size).2) := rfl
    rw [execLoad, strays, hheader, wp_bind, hread.wp_readi]
    generalize read (phOffset phoff i) Proghdr.size = x
    obtain ⟨r, b⟩ := x
    dsimp only
    by_cases hr : r ≠ Proghdr.size.toNat
    · rw [if_pos hr, if_pos hr]
      exact .refl Bool.false_ne_true
    rw [if_neg hr, if_neg hr]
    generalize Proghdr.load b = ph
    dsimp only
    by_cases htype : ph.type ≠ Vm.ELF_PROG_LOAD
    · rw [if_pos htype, if_pos htype]
      exact ih hread h hpos hfree
    rw [if_neg htype, if_neg htype]
    by_cases hfile : ph.memsz < ph.filesz
    · rw [if_pos hfile, if_pos hfile]
      exact .refl Bool.false_ne_true
    rw [if_neg hfile, if_neg hfile]
    by_cases hwrap : ph.vaddr + ph.memsz < ph.vaddr
    · rw [if_pos hwrap, if_pos hwrap]
      exact .refl Bool.false_ne_true
    rw [if_neg hwrap, if_neg hwrap, wp_bind, wp_inRam]
    have halloc := h.wp_allocuvm hpos (ph.vaddr + ph.memsz).toNat
    by_cases hkern : KERNBASE ≤ (ph.vaddr + ph.memsz).toNat
    · rw [if_pos hkern] at halloc ⊢
      refine wp_mono halloc (fun e he => .of_builds he.2 Bool.false_ne_true) ?_
      rintro _ s₁ ⟨rfl, -, hb, -⟩
      exact .of_builds hb Bool.false_ne_true
    rw [grown, if_neg hkern] at halloc
    rw [if_neg hkern]
    have hmax := le_max_left sz (ph.vaddr + ph.memsz).toNat
    have hseg := Vm.npages_segment hfile hwrap (le_max_right sz _)
    generalize max sz (ph.vaddr + ph.memsz).toNat = sz' at *
    have habsent := h.absent_add (Vm.npages_pos hpos) (Vm.npages_mono hmax)
    refine wp_mono halloc ?_ ?_
    · rintro e ⟨hlt, hb⟩
      rw [if_pos (by omega)]
      exact .of_builds hb Bool.false_ne_true
    rintro o s₁ ⟨ho, hext, hb, hspace⟩
    rw [if_neg hkern] at ho
    subst o
    have hleft := hext.free
    have hmany : ¬free < (span 1 (npages sz')).card := by omega
    rw [if_neg hmany, if_neg (by omega)]
    by_cases halign : ph.vaddr.toNat % PGSIZE ≠ 0
    · rw [if_pos halign, if_pos halign]
      exact .of_builds hb Bool.false_ne_true
    rw [if_neg halign, if_neg halign, wp_bind]
    have hread₁ : Reads dev ip read ({ m with ram := s₁ } : Machine).fs := hread
    refine wp_mono (wp_loaduvm hread₁ hspace (not_not.mp halign) hseg) ?_ ?_
    · rintro e ⟨he, hun⟩
      rw [if_pos hun, he]
      exact .of_builds hb Bool.false_ne_true
    rintro r t ⟨hun, ht, hneg⟩
    have htraced : Traced (ph.strays read (npages sz') = true) m.ram t.ram :=
      ((Traced.of_builds hb not_false).trans ht.traced).congr (or_iff_right not_false)
    rw [hun]
    split
    next hr =>
      rw [hneg.mp hr, if_neg Bool.false_ne_true]
      refine htraced.congr ?_
      split
      next hs => exact iff_of_true hs rfl
      next hs => exact iff_of_false hs Bool.false_ne_true
    next hr =>
      rw [Bool.eq_true_of_not_eq_false (mt hneg.mpr hr)]
      have hread₂ : Reads dev ip read t.fs := ht.fs ▸ hread
      have hor : (ph.strays read (npages sz') = true ∨ strays read phoff free n (i + 1) sz' = true) ↔
          (if ph.strays read (npages sz') = true then true
            else strays read phoff free n (i + 1) sz') = true := by
        split
        next hs => exact iff_of_true (.inl hs) rfl
        next hs => exact or_iff_right hs
      have hfree₂ : t.ram.mem.freelist.length + (span 1 (npages sz')).card = free := by
        rw [ht.mem]
        dsimp only
        omega
      exact wp_mono (ih hread₂ (hspace.congr ht.mem ht.taken) (hpos.trans_le hmax) hfree₂)
        (fun e he => (htraced.trans he).congr hor) fun _ u hu => (htraced.trans hu).congr hor

end

/-! ## The whole program -/

/-- Whether `exec` writes to physical page 0 while it loads a file, with `free` pages. -/
def straysIn (read : Reader) (free : Nat) : Bool :=
  (elfOf read).any fun elf =>
    0 < free && strays read elf.phoff (free - 1) elf.phnum.toNat 0 PGSIZE

section
variable {dev : DevSw} {ip : Ip} {read : Reader} {m : Machine} {R : Multiset Nat}

theorem wp_execProgram (hread : Reads dev ip read m.fs) (h : Owns m.ram.mem R)
    (hfirst : 0 < m.ram.mem.first) (hz : Ram.Zeroed m.ram) :
    (execProgram dev ip).wp
      (fun e => Traced (straysIn read m.ram.mem.freelist.length = true) m.ram e.2)
      (fun _ t => Traced (straysIn read m.ram.mem.freelist.length = true) m.ram t.ram) m := by
  have helf : elfOf read = if (read 0 Elfhdr.size).1 ≠ Elfhdr.size.toNat then none
    else if (Elfhdr.load (read 0 Elfhdr.size).2).magic ≠ ELF_MAGIC then none
    else some (Elfhdr.load (read 0 Elfhdr.size).2) := rfl
  unfold straysIn
  rw [execProgram, helf, wp_bind, hread.wp_readi]
  generalize read 0 Elfhdr.size = x
  obtain ⟨r, b⟩ := x
  dsimp only
  by_cases hr : r ≠ Elfhdr.size.toNat
  · rw [if_pos hr, if_pos hr]
    exact .refl Bool.false_ne_true
  rw [if_neg hr, if_neg hr]
  generalize Elfhdr.load b = elf
  by_cases hmagic : elf.magic ≠ ELF_MAGIC
  · rw [if_pos hmagic, if_pos hmagic]
    exact .refl Bool.false_ne_true
  rw [if_neg hmagic, if_neg hmagic]
  dsimp only [Option.any_some]
  rw [wp_bind, wp_inRam]
  refine wp_mono (Ram.wp_setupkvm_space h hfirst hz) ?_ ?_
  · rintro e ⟨he, hnil⟩
    rw [hnil, he]
    exact .refl Bool.false_ne_true
  rintro _ s₁ ⟨d, rfl, hspace, hb, hfree⟩
  have hpos : 0 < m.ram.mem.freelist.length := by omega
  have hone : npages PGSIZE = 1 := by decide
  have hleft : s₁.mem.freelist.length + (span 1 (npages PGSIZE)).card =
      m.ram.mem.freelist.length - 1 := by
    rw [hone, Vm.span_self, Finset.card_empty]
    omega
  rw [decide_eq_true hpos, Bool.true_and]
  dsimp only
  rw [wp_bind]
  have hall {u : Ram} {p : Prop} (hu : Traced p s₁ u) : Traced p m.ram u :=
    ((Traced.of_builds hb not_false).trans hu).congr (or_iff_right not_false)
  refine wp_mono (wp_execLoad (m := { m with ram := s₁ }) hread (hone.symm ▸ hspace) (by decide) hleft)
    (fun e he => hall he) fun o t ht => ?_
  cases o with
  | none => exact hall ht
  | some sz => exact hall ht

end

end Xv6.Exec

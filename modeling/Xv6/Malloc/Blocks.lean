import Xv6.Malloc.Heap

/-!
# The free list

The list of free blocks is a circle from `base` on, in the order of the addresses, and no block is
next to another. `push` is what `free` does to the list: a block takes in the one behind it if there
is no room between them.
-/

namespace Xv6.Malloc

open List

/-! ## Rows of blocks -/

/-- Blocks in the order of their addresses, none of them next to another. -/
def Sorted (bs : List Block) : Prop := bs.Pairwise fun a b => a.stop < b.start

/-- How many of the blocks an address is in. -/
def cover (bs : List Block) (a : Nat) : Nat := Extent.cover (bs.map Block.extent) a

/-- `b` in front of the blocks; it takes in the first one if that begins where `b` ends. -/
def push (b : Block) : List Block → List Block
  | [] => [b]
  | d :: bs => if b.stop = d.start then ⟨b.start, b.units + d.units⟩ :: bs else b :: d :: bs

section
variable {b c d n : Block} {bs : List Block} {a m : Nat}

theorem Block.start_le_stop (b : Block) : b.start ≤ b.stop := Nat.le_add_right ..

theorem Block.start_lt_stop (h : 0 < b.units) : b.start < b.stop := by
  rw [Block.stop]
  omega

theorem Block.stop_join (h : b.stop = d.start) :
    Block.stop ⟨b.start, b.units + d.units⟩ = d.stop := by
  simp only [Block.stop] at h ⊢
  omega

theorem mem_push (h : n ∈ push b bs) :
    n ∈ b :: bs ∨ ∃ d ∈ bs, b.stop = d.start ∧ n = ⟨b.start, b.units + d.units⟩ := by
  cases bs with
  | nil => exact .inl h
  | cons d bs =>
    rw [push] at h
    split at h
    next hd =>
      rcases mem_cons.mp h with rfl | h
      · exact .inr ⟨d, mem_cons_self, hd, rfl⟩
      · exact .inl (by simp [h])
    · exact .inl h

theorem push_eq_cons (b : Block) (bs : List Block) :
    ∃ n l, push b bs = n :: l ∧ n.start = b.start := by
  cases bs with
  | nil => exact ⟨b, [], rfl, rfl⟩
  | cons d bs =>
    rw [push]
    split
    · exact ⟨_, bs, rfl, rfl⟩
    · exact ⟨b, d :: bs, rfl, rfl⟩

/-- The block and those in front of which it is put stay, or are in a larger one. -/
theorem exists_units_push (h : n ∈ b :: bs) : ∃ f ∈ push b bs, n.units ≤ f.units := by
  cases bs with
  | nil => exact ⟨n, h, Nat.le_refl _⟩
  | cons d bs =>
    rw [push]
    split
    · rcases mem_cons.mp h with rfl | h
      · exact ⟨_, mem_cons_self, Nat.le_add_right ..⟩
      · rcases mem_cons.mp h with rfl | h
        · exact ⟨_, mem_cons_self, Nat.le_add_left ..⟩
        · exact ⟨n, mem_cons_of_mem _ h, Nat.le_refl _⟩
    · exact ⟨n, h, Nat.le_refl _⟩

theorem length_push_le (b : Block) (bs : List Block) : (push b bs).length ≤ bs.length + 1 := by
  cases bs with
  | nil => exact Nat.le_refl 1
  | cons d bs =>
    rw [push]
    split
    · simp only [length_cons]
      omega
    · exact Nat.le_refl _

theorem sorted_push (hbs : Sorted bs) (h : ∀ d ∈ bs, b.stop ≤ d.start) : Sorted (push b bs) := by
  cases bs with
  | nil => exact pairwise_singleton ..
  | cons d bs =>
    obtain ⟨hd, hbs'⟩ := pairwise_cons.mp hbs
    rw [push]
    split
    next heq =>
      refine pairwise_cons.mpr ⟨fun c hc => ?_, hbs'⟩
      rw [Block.stop_join heq]
      exact hd c hc
    next hne =>
      have hle := h d mem_cons_self
      refine pairwise_cons.mpr ⟨fun c hc => ?_, hbs⟩
      rcases mem_cons.mp hc with rfl | hc
      · omega
      · have hlt := hd c hc
        have hstart := d.start_le_stop
        omega

theorem Sorted.shrink (h : Sorted (us ++ d :: bs)) (hstart : c.start = d.start)
    (hstop : c.stop ≤ d.stop) : Sorted (us ++ c :: bs) := by
  obtain ⟨hus, hdbs, hcross⟩ := pairwise_append.mp h
  obtain ⟨hd, hbs⟩ := pairwise_cons.mp hdbs
  refine pairwise_append.mpr ⟨hus, pairwise_cons.mpr
    ⟨fun b hb => Nat.lt_of_le_of_lt hstop (hd b hb), hbs⟩, fun u hu b hb => ?_⟩
  rcases mem_cons.mp hb with rfl | hb
  · rw [hstart]
    exact hcross u hu d mem_cons_self
  · exact hcross u hu b (mem_cons_of_mem d hb)

theorem start_le_of_mem_push (h : ∀ d ∈ bs, b.stop ≤ d.start) (hn : n ∈ push b bs) :
    b.start ≤ n.start := by
  rcases mem_push hn with hn | ⟨d, -, -, rfl⟩
  · rcases mem_cons.mp hn with rfl | hn
    · exact Nat.le_refl _
    · exact Nat.le_trans b.start_le_stop (h n hn)
  · exact Nat.le_refl _

theorem stop_le_of_mem_push (h : ∀ d ∈ b :: bs, d.stop ≤ m) (hn : n ∈ push b bs) : n.stop ≤ m := by
  rcases mem_push hn with hn | ⟨d, hd, heq, rfl⟩
  · exact h n hn
  · rw [Block.stop_join heq]
    exact h d (mem_cons_of_mem b hd)

theorem cover_append (bs cs : List Block) (a : Nat) :
    cover (bs ++ cs) a = cover bs a + cover cs a := by
  rw [cover, map_append, Extent.cover_append]
  rfl

theorem cover_cons (b : Block) (bs : List Block) (a : Nat) :
    cover (b :: bs) a = cover [b] a + cover bs a := cover_append [b] bs a

theorem cover_singleton : cover [b] a = if b.start ≤ a ∧ a < b.stop then 1 else 0 :=
  Extent.cover_singleton

theorem cover_eq_zero (h : ∀ b ∈ bs, b.stop ≤ a) : cover bs a = 0 := by
  apply Extent.cover_eq_zero
  intro e he
  obtain ⟨b, hb, rfl⟩ := mem_map.mp he
  exact h b hb

theorem cover_join (h : b.stop = d.start) :
    cover [⟨b.start, b.units + d.units⟩] a = cover [b] a + cover [d] a := by
  have hjoin : Block.extent ⟨b.start, b.units + d.units⟩ = ⟨b.extent.lo, d.extent.hi⟩ := by
    rw [Block.extent, Block.stop_join h]
    rfl
  calc cover [⟨b.start, b.units + d.units⟩] a = Extent.cover [⟨b.extent.lo, d.extent.hi⟩] a := by
        rw [cover, map_singleton, hjoin]
    _ = cover [b] a + cover [d] a := Extent.cover_join h b.start_le_stop d.start_le_stop

theorem cover_push (b : Block) (bs : List Block) (a : Nat) :
    cover (push b bs) a = cover (b :: bs) a := by
  cases bs with
  | nil => rfl
  | cons d bs =>
    rw [push]
    split
    next heq =>
      rw [cover_cons, cover_join heq, cover_cons b (d :: bs), cover_cons d bs, Nat.add_assoc]
    · rfl

end

/-! ## Pointers and sizes -/

section
variable {s : Heap} {p q x : Nat} {h : Header}

@[simp] theorem Heap.set_self : (s.set p h).mem p = h := by simp [Heap.set]

theorem Heap.set_ne (hx : x ≠ p) : (s.set p h).mem x = s.mem x := by simp [Heap.set, hx]

theorem join_ne (hx : x ≠ p) : (join s p q).mem x = s.mem x := by
  rw [join]
  split
  · exact Heap.set_ne hx
  · exact Heap.set_ne hx

@[simp] theorem join_brk : (join s p q).brk = s.brk := by
  rw [join]
  split <;> rfl

@[simp] theorem join_got : (join s p q).got = s.got := by
  rw [join]
  split <;> rfl

end

/-- The blocks that `q` points to, up to the address `e`, with their sizes. -/
structure Row (s : Heap) (e q : Nat) (bs : List Block) : Prop where
  chained : Chained s.next (bs.map (·.start) ++ [e])
  head : (bs.map (·.start) ++ [e]).head? = some q
  sizes : ∀ b ∈ bs, (s.size b.start).toNat = b.units

theorem Row.congr (h : Row s e q bs) (hmem : ∀ b ∈ bs, s'.mem b.start = s.mem b.start) :
    Row s' e q bs where
  chained := h.chained.congr fun x hx => by
    obtain ⟨b, hb, rfl⟩ := mem_map.mp hx
    rw [Heap.next, Heap.next, hmem b hb]
  head := h.head
  sizes b hb := by
    rw [Heap.size, hmem b hb]
    exact h.sizes b hb

theorem Row.cons (h : Row s e q bs) (hnext : s.next b.start = q)
    (hsize : (s.size b.start).toNat = b.units) : Row s e b.start (b :: bs) where
  chained := by
    have hhead := h.head
    have hchained := h.chained
    rw [map_cons, cons_append]
    cases hl : bs.map (·.start) ++ [e] with
    | nil => simp at hl
    | cons y l =>
      rw [hl] at hhead hchained
      cases hhead
      exact Chained.cons_cons.mpr ⟨hnext, hchained⟩
  head := rfl
  sizes c hc := by
    rcases mem_cons.mp hc with rfl | hc
    · exact hsize
    · exact h.sizes c hc

theorem Row.tail (h : Row s e q (b :: bs)) :
    q = b.start ∧ Row s e (s.next b.start) bs := by
  obtain ⟨hchained, hhead, hsizes⟩ := h
  refine ⟨(Option.some.inj hhead).symm, ?_⟩
  rw [map_cons, cons_append] at hchained
  cases hl : bs.map (·.start) ++ [e] with
  | nil => simp at hl
  | cons y l =>
    rw [hl] at hchained
    obtain ⟨hnext, hrest⟩ := Chained.cons_cons.mp hchained
    refine ⟨hl ▸ hrest, ?_, fun c hc => hsizes c (mem_cons_of_mem b hc)⟩
    rw [hl, hnext]
    rfl

theorem Row.join (h : Row s e q bs) (hsize : (s.size b.start).toNat = b.units)
    (hnot : ∀ d ∈ bs, d.start ≠ b.start) (hend : bs = [] → b.stop ≠ e)
    (hfits : ∀ d ∈ bs, b.stop = d.start → b.units + d.units < 2 ^ 32) :
    Row (join s b.start q) e b.start (push b bs) := by
  have hoffset : offset b.start (s.size b.start) = b.stop := by rw [offset, hsize, Block.stop]
  have hframe : ∀ d ∈ bs, (Malloc.join s b.start q).mem d.start = s.mem d.start :=
    fun d hd => join_ne (hnot d hd)
  by_cases htake : b.stop = q
  · cases bs with
    | nil =>
      cases h.head
      exact absurd htake (hend rfl)
    | cons d bs =>
      obtain ⟨rfl, hrow⟩ := h.tail
      have hjoin : Malloc.join s b.start d.start =
          s.set b.start ⟨s.next d.start, s.size b.start + s.size d.start⟩ := by
        rw [Malloc.join, if_pos (hoffset.trans htake)]
      have hlt := hfits d mem_cons_self htake
      have hd := h.sizes d mem_cons_self
      rw [push, if_pos htake]
      refine Row.cons (b := ⟨b.start, b.units + d.units⟩)
        (hrow.congr fun c hc => hframe c (mem_cons_of_mem d hc)) ?_ ?_
      · rw [hjoin, Heap.next, Heap.set_self]
      · rw [hjoin, Heap.size, Heap.set_self, UInt32.toNat_add, hsize, hd]
        exact Nat.mod_eq_of_lt hlt
  · have hjoin : Malloc.join s b.start q = s.set b.start ⟨q, s.size b.start⟩ := by
      rw [Malloc.join, if_neg (hoffset ▸ htake)]
    have hpush : push b bs = b :: bs := by
      cases bs with
      | nil => rfl
      | cons d bs =>
        obtain ⟨rfl, -⟩ := h.tail
        rw [push, if_neg htake]
    rw [hpush]
    refine (h.congr hframe).cons ?_ ?_
    · rw [hjoin, Heap.next, Heap.set_self]
    · rw [hjoin, Heap.size, Heap.set_self]
      exact hsize

theorem Row.append (h : Row s p q us) (h' : Row s e p bs) : Row s e q (us ++ bs) := by
  have hhead := h'.head
  have hchained := h'.chained
  cases hl : bs.map (·.start) ++ [e] with
  | nil => simp at hl
  | cons y l =>
    rw [hl] at hhead hchained
    cases hhead
    have hall : (us ++ bs).map (·.start) ++ [e] = us.map (·.start) ++ p :: l := by
      rw [map_append, append_assoc, hl]
    refine ⟨?_, ?_, fun b hb => ?_⟩
    · rw [hall]
      exact Chained.split.mpr ⟨h.chained, hchained⟩
    · have hq := h.head
      rw [hall]
      cases us with
      | nil => exact hq
      | cons u us => exact hq
    · rcases mem_append.mp hb with hb | hb
      · exact h.sizes b hb
      · exact h'.sizes b hb

theorem Row.split (h : Row s e q (us ++ b :: bs)) :
    Row s b.start q us ∧ Row s e b.start (b :: bs) := by
  obtain ⟨hchained, hhead, hsizes⟩ := h
  have hall : (us ++ b :: bs).map (·.start) ++ [e] =
      us.map (·.start) ++ b.start :: (bs.map (·.start) ++ [e]) := by simp
  rw [hall] at hchained hhead
  obtain ⟨hus, hbs⟩ := Chained.split.mp hchained
  refine ⟨⟨hus, ?_, fun c hc => hsizes c (mem_append_left _ hc)⟩,
    ⟨hbs, rfl, fun c hc => hsizes c (mem_append_right us hc)⟩⟩
  cases us with
  | nil => exact hhead
  | cons u us => exact hhead

end Xv6.Malloc

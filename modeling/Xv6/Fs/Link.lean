import Xv6.Fs.Paths

/-!
# Writing to directories

What `dirlink` does to the file system, with the references to cache entries that are held. The
specifications are for calls that complete.
-/

namespace Xv6.Fs

/-- A new entry, in the first free slot. -/
def Node.addEntry (nd : Node) (name : List UInt8) (inum : Nat) : Node :=
  { nd with
    data := writeAt nd.data (Dirent.size * (dirSlots nd.data).free)
      (Dirent.store ⟨UInt16.ofNat inum, strncpy name DIRSIZ⟩) }

section
variable {dev : DevSw} {s t : State} {p : Ip} {r : Refs} {src name : List UInt8} {off : UInt32}

theorem State.resize_sb {n : Nat} : (s.resize p n).sb = s.sb := by
  rw [State.resize]
  split <;> rfl

theorem held_writei (h : Held s r) (hv : Valid s p) (hdev : (s.icache p).din.type ≠ T_DEV)
    (hlen : src.length < 2 ^ 32) :
    (writei dev p src off).wp (fun _ => True) (fun x t => x = -1 ∧ t = s ∨
      x = src.length ∧ Held t r ∧ Keeps r s t ∧
        t.node = update s.node (s.icache p).inum { s.node (s.icache p).inum with
          data := writeAt (s.node (s.icache p).inum).data off.toNat src }) s := by
  refine wp_imp (wp_writei h.inv hv hdev hlen (fun _ => .of_true) fun _ => .of_true)
    fun x t ht => ?_
  split at ht
  next => exact .inl ht
  next hok =>
    obtain ⟨rfl, u, hu, rfl⟩ := ht
    simp only [WriteRefused, not_or, Nat.not_lt, Nat.not_le] at hok
    have hw := hu.wrote h.inv hv hok.1 hok.2.1
    refine .inr ⟨rfl, ⟨hw.inv, fun q => ?_⟩, hw.tags.keeps ?_ hv fun i hi => ?_, hw.node⟩
    · rw [hw.tags q]
      exact h.refs q
    · rw [State.resize_sb]
      exact hu.grows.sb
    · rw [hw.node, update_of_ne hi]

theorem OpenDir.held_dirlink {inum : Nat} (hdir : OpenDir s p (s.icache p).inum) (h : Held s r)
    (hfind : (s.node (s.icache p).inum).lookup name = none) :
    (dirlink dev p name inum).wp (fun _ => True) (fun x t => x = 0 ∧ Held t r ∧ Keeps r s t ∧
      t.node = update s.node (s.icache p).inum
        ((s.node (s.icache p).inum).addEntry name inum)) s := by
  have hlen : (Dirent.store ⟨UInt16.ofNat inum, strncpy name DIRSIZ⟩).length = Dirent.size :=
    Dirent.length_store length_strncpy
  refine hdir.wp_dirlink_new hfind (wp_imp (held_writei h hdir.valid hdir.not_dev ?_) fun x t ht => ?_)
  · rw [hlen]
    decide
  · rcases ht with ⟨rfl, -⟩ | ⟨rfl, ht, hk, hn⟩
    · rw [if_pos (by decide)]
      exact trivial
    · rw [hlen, if_neg (not_not_intro rfl)]
      refine ⟨rfl, ht, hk, hn.trans ?_⟩
      rw [hdir.toNat_offset Slots.free_le]
      rfl

theorem held_dirlink {inum : Nat} (h : Good s r) (hv : Valid s p)
    (htype : (s.node (s.icache p).inum).type = T_DIR)
    (hfind : (s.node (s.icache p).inum).lookup name = none) :
    (dirlink dev p name inum).wp (fun _ => True) (fun x t => x = 0 ∧ Held t r ∧ Keeps r s t ∧
      t.node = update s.node (s.icache p).inum
        ((s.node (s.icache p).inum).addEntry name inum)) s :=
  (h.openDir hv htype).held_dirlink h.toHeld hfind

end

end Xv6.Fs

import Xv6.Exec.Load
import Xv6.Fs.Refine
import Xv6.Vm.Copyout

/-!
# What loading a file writes to

`loaduvm` does not test whether the page that it loads is present. `exec` maps no page at address 0; a
segment that starts there is loaded to physical page 0, once there is a page table for the address.
In all other cases `exec` writes to pages that it has allocated, whatever is in the file.
-/

namespace Xv6.Exec

open Vm (Ram Owns)
open Fs (Ip DevSw FsInv Valid)

/-- The memory in which a run ends, by a return or by a panic. -/
def endRam {α : Type} : Except (Fault × Ram) (α × Machine) → Ram
  | .ok (_, t) => t.ram
  | .error (_, s) => s

/-- The pages that are written while `exec` loads the file are pages that it allocates. -/
def WritesOwn (dev : DevSw) (ip : Ip) (m : Machine) : Prop :=
  ∀ p ∈ (endRam (execProgram dev ip m)).wrote, p ∈ (endRam (execProgram dev ip m)).taken

section
variable {ip : Ip} {m : Machine} {R : Multiset Nat}

theorem traced_endRam (dev : DevSw) (h : Owns m.ram.mem R) (hfirst : 0 < m.ram.mem.first) (hinv : FsInv m.fs)
    (hv : Valid m.fs ip) (hz : Ram.Zeroed m.ram) :
    Traced (straysIn (reader dev m.fs ip) m.ram.mem.freelist.length = true) m.ram
      (endRam (execProgram dev ip m)) := by
  have hrun := wp_execProgram (reads_reader dev hinv hv) h hfirst hz
  unfold Prog.wp at hrun
  split at hrun
  next heq =>
    rw [heq]
    exact hrun
  next heq =>
    rw [heq]
    exact hrun

theorem zero_not_free (h : Owns m.ram.mem R) (hfirst : 0 < m.ram.mem.first) :
    0 ∉ m.ram.mem.freelist := by
  intro hmem
  have hall : 0 ∈ Vm.all m.ram.mem.first := by
    rw [← h]
    exact Multiset.mem_add.mpr (.inl (Multiset.mem_coe.mpr hmem))
  have hge : m.ram.mem.first ≤ 0 := (Finset.mem_Ico.mp (Finset.mem_val.mp hall)).1
  omega

end

/-- **Loading a file.** For every file, `exec` writes only to pages that it has allocated while it loads
it, if and only if it does not get to a segment at address 0 with bytes to load when there is a page
table for that address. -/
theorem writesOwn_iff {dev : DevSw} {ip : Ip} {m : Machine} {R : Multiset Nat} (h : Owns m.ram.mem R)
    (hfirst : 0 < m.ram.mem.first) (hinv : FsInv m.fs) (hv : Valid m.fs ip)
    (hlog : m.ram.taken = [] ∧ m.ram.wrote = []) :
    WritesOwn dev ip m ↔ straysIn (reader dev m.fs ip) m.ram.mem.freelist.length = false := by
  have hz : Ram.Zeroed m.ram := by
    intro p hp
    rw [hlog.1] at hp
    cases hp
  have htraced := traced_endRam dev h hfirst hinv hv hz
  constructor
  · intro hown
    by_contra hstray
    have htaken := hown 0 (htraced.wild (Bool.eq_true_of_not_eq_false hstray))
    rcases htraced.fresh 0 htaken with hold | hfree
    · rw [hlog.1] at hold
      cases hold
    · exact zero_not_free h hfirst hfree
  · intro hstray p hp
    rcases htraced.own (Bool.eq_false_iff.mp hstray) p hp with hold | htaken
    · rw [hlog.2] at hold
      cases hold
    · exact htaken

/-! ## Two programs -/

/-- A program header. -/
def phBytes (off vaddr filesz memsz : Nat) : List UInt8 :=
  leBytes 4 1 ++ leBytes 4 0 ++ leBytes 8 off ++ leBytes 8 vaddr ++ leBytes 8 0 ++ leBytes 8 filesz ++
    leBytes 8 memsz ++ leBytes 8 0

/-- An ELF header, and program headers. -/
def elfBytes (entry : Nat) (phs : List (List UInt8)) : List UInt8 :=
  leBytes 4 ELF_MAGIC ++ leBytes 20 0 ++ leBytes 8 entry ++ leBytes 8 64 ++ leBytes 16 0 ++
    leBytes 2 phs.length ++ leBytes 6 0 ++ phs.flatten

namespace Sample

/-- A file system with one file, that holds `bytes`. -/
def fs (bytes : List UInt8) : Fs.State :=
  match Fs.ioStep Fs.OneFile.noDev Fs.OneFile.state (.write Fs.OneFile.ip bytes 0) with
  | .ok t => t
  | .error _ => Fs.OneFile.state

def proc : Proc := ⟨0, 0, Bytes.zero, fun _ => 0, fun _ => none, Fs.OneFile.ip⟩

/-- Ten pages are free. -/
def machine (bytes : List UInt8) : Machine := ⟨Vm.lastPages 10, fs bytes, proc⟩

theorem fsInv {bytes : List UInt8} (h : bytes.length < 2 ^ 32) : FsInv (machine bytes).fs := by
  change FsInv (fs bytes)
  rw [fs]
  split
  next t ht =>
    have hfits : (Fs.IoCall.write Fs.OneFile.ip bytes 0).Fits := h
    exact Fs.OneFile.fsInv.ioStep hfits ht
  next => exact Fs.OneFile.fsInv

theorem owns : Owns (Vm.lastPages 10).mem 0 ∧ 0 < (Vm.lastPages 10).mem.first := by
  show (↑(Vm.lastPages 10).mem.freelist + 0 : Multiset Nat) = Vm.all (Vm.lastPages 10).mem.first ∧ _
  decide +kernel

/-- The segment starts at address 0, and is larger than a page. -/
def low : List UInt8 := elfBytes 0 [phBytes 0 0 4 8192]

/-- The segment starts at the first page that is mapped. -/
def usual : List UInt8 := elfBytes 4096 [phBytes 0 4096 4 8192]

end Sample

/-- The first page of the segment at address 0 goes to physical page 0. -/
theorem writes_page_zero : ∃ (m : Machine) (R : Multiset Nat), Owns m.ram.mem R ∧
    0 < m.ram.mem.first ∧ FsInv m.fs ∧ Valid m.fs Fs.OneFile.ip ∧
    m.ram.taken = [] ∧ m.ram.wrote = [] ∧ ¬WritesOwn Fs.OneFile.noDev Fs.OneFile.ip m := by
  have hcheck : Sample.low.length < 2 ^ 32 ∧ Valid (Sample.machine Sample.low).fs Fs.OneFile.ip ∧
      0 ∈ (endRam (execProgram Fs.OneFile.noDev Fs.OneFile.ip (Sample.machine Sample.low))).wrote ∧
      0 ∉ (endRam (execProgram Fs.OneFile.noDev Fs.OneFile.ip (Sample.machine Sample.low))).taken := by
    decide +kernel
  obtain ⟨hlen, hv, hwrote, htaken⟩ := hcheck
  exact ⟨Sample.machine Sample.low, 0, Sample.owns.1, Sample.owns.2, Sample.fsInv hlen, hv, rfl, rfl,
    fun hown => htaken (hown 0 hwrote)⟩

theorem writesOwn_usual : WritesOwn Fs.OneFile.noDev Fs.OneFile.ip (Sample.machine Sample.usual) := by
  have hcheck : Sample.usual.length < 2 ^ 32 ∧ Valid (Sample.machine Sample.usual).fs Fs.OneFile.ip ∧
      straysIn (reader Fs.OneFile.noDev (Sample.machine Sample.usual).fs Fs.OneFile.ip)
        (Sample.machine Sample.usual).ram.mem.freelist.length = false := by
    decide +kernel
  obtain ⟨hlen, hv, hstray⟩ := hcheck
  exact (writesOwn_iff (m := Sample.machine Sample.usual) Sample.owns.1 Sample.owns.2
    (Sample.fsInv hlen) hv ⟨rfl, rfl⟩).mpr hstray

end Xv6.Exec

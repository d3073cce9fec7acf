import Xv6.Trace.Numbers

/-!
# The arguments of the `trace` program

Arguments are numbers of rows after `-n`, types and numbers. The first number is the limit and the second
one the process, wherever the other arguments stand between them.
-/

namespace Xv6.Trace

open List

/-- The types that can be asked for. -/
inductive Keyword
  | syscall
  | proc
  | mem
  | trap

def Keyword.text : Keyword → List UInt8
  | .syscall => cstring "syscall"
  | .proc => cstring "proc"
  | .mem => cstring "mem"
  | .trap => cstring "trap"

def Keyword.type : Keyword → UInt32
  | .syscall => TRACE_TYPE_SYSCALL
  | .proc => TRACE_TYPE_PROC
  | .mem => TRACE_TYPE_MEM
  | .trap => TRACE_TYPE_TRAP

inductive Arg
  /-- `-n` and the text of a number. -/
  | rows (s : List UInt8)
  | keyword (k : Keyword)
  | number (n : Nat)

namespace Arg

/-- The arguments as the program gets them. -/
def texts : Arg → List (List UInt8)
  | .rows s => [cstring "-n", s]
  | .keyword k => [k.text]
  | .number n => [decimal n]

def Valid : Arg → Prop
  | .rows s => IsDecimal s ∧ decimalVal s < 2 ^ 31
  | .keyword _ => True
  | .number n => n < 2 ^ 31

def rows? : Arg → Option Nat
  | .rows s => some (decimalVal s)
  | _ => none

def keyword? : Arg → Option Keyword
  | .keyword k => some k
  | _ => none

def number? : Arg → Option Nat
  | .number n => some n
  | _ => none

end Arg

/-- What numbers, types and numbers of rows ask for. -/
def optionsOf (numbers : List Nat) (keywords : List Keyword) (rows : List Nat) : Options where
  filter_type := (keywords.getLast?.map Keyword.type).getD 0
  filter_pid := (numbers[1]?.map UInt32.ofNat).getD (-1)
  limit := (numbers[0]?.map UInt32.ofNat).getD 0
  display_rows := (rows.getLast?.map fun k => UInt32.ofNat (min k MAX_TRACE_ROWS)).getD
    DEFAULT_DISPLAY_ROWS

/-- What a list of arguments asks for. -/
def asked (args : List Arg) : Options :=
  optionsOf (args.filterMap Arg.number?) (args.filterMap Arg.keyword?) (args.filterMap Arg.rows?)

/-! ## Numbers -/

theorem foldl_digits {s : List UInt8} (hs : ∀ c ∈ s, 48 ≤ c ∧ c ≤ 57) (v : Nat) :
    s.foldl (fun n c => n * 10 + (c.toUInt32 - 48)) (UInt32.ofNat v) =
      UInt32.ofNat (s.foldl (fun v c => v * 10 + (c.toNat - 48)) v) := by
  induction s generalizing v with
  | nil => rfl
  | cons c s ih =>
    rw [forall_mem_cons] at hs
    have hdigit : c.toUInt32 - 48 = UInt32.ofNat (c.toNat - 48) := by
      have hle : 48 ≤ c.toNat := UInt8.le_iff_toNat_le.mp hs.1.1
      rw [UInt32.ofNat_sub hle]
      exact congrArg (· - 48) (UInt32.ofNat_toNat (x := c.toUInt32)).symm
    rw [foldl_cons, foldl_cons, ← ih hs.2, hdigit, UInt32.ofNat_add, UInt32.ofNat_mul]
    rfl

theorem atoi_eq {s : List UInt8} (hs : IsDecimal s) : atoi s = UInt32.ofNat (decimalVal s) := by
  have hall : (s.takeWhile fun c => 48 ≤ c ∧ c ≤ 57) = s :=
    takeWhile_eq_self_iff.mpr fun c hc => decide_eq_true (hs.2 c hc)
  rw [atoi, hall]
  exact foldl_digits hs.2 0

theorem parseWord_of_isDecimal (p : Parsed) {s : List UInt8} (hs : IsDecimal s) :
    s ≠ cstring "-n" ∧ parseWord p s = parseNumber p s := by
  have hne : ∀ w ∈ ["-n", "syscall", "proc", "mem", "trap"], s ≠ cstring w := by
    intro w hw heq
    have hwords : ∀ w ∈ ["-n", "syscall", "proc", "mem", "trap"],
        ∃ c ∈ cstring w, ¬(48 ≤ c ∧ c ≤ 57) := by
      decide
    obtain ⟨c, hc, hnot⟩ := hwords w hw
    exact hnot (hs.2 c (heq ▸ hc))
  refine ⟨hne _ (by decide), ?_⟩
  rw [parseWord, if_neg (hne _ (by decide)), if_neg (hne _ (by decide)), if_neg (hne _ (by decide)),
    if_neg (hne _ (by decide))]

/-! ## One argument -/

/-- What the loop does with an argument. -/
def Parsed.take (p : Parsed) : Arg → Parsed
  | .rows s => { p with display_rows := UInt32.ofNat (min (decimalVal s) MAX_TRACE_ROWS) }
  | .keyword k => { p with filter_type := k.type }
  | .number n =>
    if p.limit_set = false then { p with limit := UInt32.ofNat n, limit_set := true }
    else if p.filter_pid = -1 then { p with filter_pid := UInt32.ofNat n }
    else p

theorem parseArgs_cons (p : Parsed) {arg : List UInt8} (h : arg ≠ cstring "-n")
    (rest : List (List UInt8)) : parseArgs p (arg :: rest) = parseArgs (parseWord p arg) rest := by
  cases rest with
  | nil => rfl
  | cons next rest => rw [parseArgs, if_neg h]

theorem parseArgs_texts (p : Parsed) {a : Arg} (ha : a.Valid) (rest : List (List UInt8)) :
    parseArgs p (a.texts ++ rest) = parseArgs (p.take a) rest := by
  cases a with
  | rows s =>
    obtain ⟨hs, hlt⟩ := ha
    have hrows : (if cint (atoi s) > MAX_TRACE_ROWS then 32 else atoi s) =
        UInt32.ofNat (min (decimalVal s) MAX_TRACE_ROWS) := by
      rw [atoi_eq hs, cint_ofNat hlt]
      split
      next hgt => rw [Nat.min_eq_right (by omega)]; rfl
      next hle => rw [Nat.min_eq_left (by omega)]
    change parseArgs p (cstring "-n" :: s :: rest) = _
    rw [parseArgs, if_pos rfl]
    dsimp only
    rw [hrows]
    rfl
  | keyword k =>
    have hword : k.text ≠ cstring "-n" ∧ parseWord p k.text = p.take (.keyword k) := by
      cases k with
      | syscall => exact ⟨by decide, rfl⟩
      | proc => exact ⟨by decide, rfl⟩
      | mem => exact ⟨by decide, rfl⟩
      | trap => exact ⟨by decide, rfl⟩
    rw [← hword.2]
    exact parseArgs_cons p hword.1 rest
  | number n =>
    obtain ⟨hne, hword⟩ := parseWord_of_isDecimal p (isDecimal_decimal n)
    have hnumber : parseNumber p (decimal n) = p.take (.number n) := by
      have hpos : cint (UInt32.ofNat n) > 0 ∨ decimal n = cstring "0" := by
        rcases Nat.eq_zero_or_pos n with rfl | hpos
        · exact .inr rfl
        · rw [cint_ofNat ha]
          exact .inl (by omega)
      rw [parseNumber, atoi_eq (isDecimal_decimal n), decimalVal_decimal, if_pos hpos]
      rfl
    rw [← hnumber, ← hword]
    exact parseArgs_cons p hne rest

/-! ## All arguments -/

theorem parseArgs_flatMap (p : Parsed) {args : List Arg} (h : ∀ a ∈ args, a.Valid) :
    parseArgs p (args.flatMap Arg.texts) = args.foldl Parsed.take p := by
  induction args generalizing p with
  | nil => rfl
  | cons a args ih =>
    rw [forall_mem_cons] at h
    rw [flatMap_cons, parseArgs_texts p h.1, ih _ h.2, foldl_cons]

theorem take_number {ns : List Nat} (hns : ∀ k ∈ ns, k < 2 ^ 31) (ks : List Keyword) (rs : List Nat)
    (n : Nat) : Parsed.take ⟨optionsOf ns ks rs, !ns.isEmpty⟩ (.number n) =
      ⟨optionsOf (ns ++ [n]) ks rs, true⟩ := by
  match ns with
  | [] => rfl
  | [_] => rfl
  | _ :: second :: _ =>
    have hlt : second < 2 ^ 31 := hns second (mem_cons_of_mem _ mem_cons_self)
    have hset : UInt32.ofNat second ≠ -1 := by
      intro heq
      have hcint := cint_ofNat hlt
      rw [heq, show cint (-1) = -1 by decide] at hcint
      omega
    exact if_neg hset

theorem foldl_take {args : List Arg} (h : ∀ a ∈ args, a.Valid) :
    args.foldl Parsed.take ⟨⟨0, -1, 0, DEFAULT_DISPLAY_ROWS⟩, false⟩ =
      ⟨asked args, !(args.filterMap Arg.number?).isEmpty⟩ := by
  induction args using List.reverseRecOn with
  | nil => rfl
  | append_singleton args a ih =>
    rw [forall_mem_append] at h
    have hns : ∀ k ∈ args.filterMap Arg.number?, k < 2 ^ 31 := by
      intro k hk
      obtain ⟨b, hb, heq⟩ := mem_filterMap.mp hk
      cases b <;> cases heq
      exact h.1 _ hb
    rw [foldl_append, ih h.1, asked, asked, filterMap_append, foldl_cons]
    generalize args.filterMap Arg.number? = ns at hns
    cases a with
    | rows s => simp [Parsed.take, optionsOf, Arg.rows?, Arg.keyword?, Arg.number?, filterMap_cons]
    | keyword k => simp [Parsed.take, optionsOf, Arg.rows?, Arg.keyword?, Arg.number?, filterMap_cons]
    | number n =>
      rw [take_number hns]
      simp [Arg.rows?, Arg.keyword?, Arg.number?, filterMap_cons]

/-- **Arguments.** Of the numbers the first is the limit and the second is the process; the last type and
the last number of rows count. So lists with the same numbers, the same types and the same numbers of rows
say the same, wherever they stand between each other. -/
theorem options_texts (args : List Arg) (h : ∀ a ∈ args, a.Valid) :
    options (args.flatMap Arg.texts) = asked args ∧
      ∀ args' : List Arg, (∀ a ∈ args', a.Valid) →
        args'.filterMap Arg.number? = args.filterMap Arg.number? →
        args'.filterMap Arg.keyword? = args.filterMap Arg.keyword? →
        args'.filterMap Arg.rows? = args.filterMap Arg.rows? →
        options (args'.flatMap Arg.texts) = options (args.flatMap Arg.texts) := by
  have hall : ∀ {args : List Arg}, (∀ a ∈ args, a.Valid) → options (args.flatMap Arg.texts) = asked args := by
    intro args h
    rw [options, parseArgs_flatMap _ h, foldl_take h]
  refine ⟨hall h, fun args' h' hnumber hkeyword hrows => ?_⟩
  rw [hall h, hall h', asked, hnumber, hkeyword, hrows, asked]

theorem options_texts_mixed : options
    ([.number 7, .keyword .mem, .rows [48, 53], .number 2].flatMap Arg.texts) = ⟨4, 2, 7, 5⟩ :=
  (options_texts [.number 7, .keyword .mem, .rows [48, 53], .number 2] (by
    simp only [forall_mem_cons]
    exact ⟨(by decide : 7 < 2 ^ 31), trivial, ⟨⟨by decide, by decide +kernel⟩, by decide⟩,
      (by decide : 2 < 2 ^ 31), nofun⟩)).1

end Xv6.Trace

import MyGitCode.ByteMemory
import MyGitCode.LinkChains
import Mathlib.Data.BitVec
import Mathlib.Algebra.Order.Ring.Int
import Mathlib.Tactic.Positivity

/-! # The block allocator of `balloc.c`

Blocks of a power of two of bytes behind a header, taken from one pool or from `malloc`, with a
queue of freed blocks for each class of sizes. There is no result where the code would read a
header that is not in memory. -/
namespace Balloc

open ByteMemory

/-- Sizes in bytes: of the union at the start of a `bType`, of its flags, and of all of it. -/
structure Layout where
  u : ℕ
  flags : ℕ
  bType : ℕ
  u_pos : 0 < u
  flags_pos : 0 < flags
  fits : u + flags ≤ bType
  small : bType < 2 ^ 16

def Layout.ilp32 : Layout := ⟨4, 4, 8, by decide, by decide, by decide, by decide⟩

/-- What a field of a header holds. `u.next` and `u.size` share their bytes. -/
inductive Word where
  | next (p : Option ℕ)
  | size (n : ℤ)
  | flags (bits : BitVec 32)
  deriving DecidableEq, Repr

/-- A byte of data, the first byte of a field, or another byte of it. -/
inductive Cell where
  | byte (v : UInt8)
  | word (w : Word)
  | rest
  deriving DecidableEq

def encode (n : ℕ) (w : Word) : List Cell := .word w :: List.replicate (n - 1) .rest

def store (mem : Memory Cell) (address n : ℕ) (w : Word) : Memory Cell :=
  write mem address (encode n w)

/-- No value where another one has been stored over a part of it. -/
def load (mem : Memory Cell) (address n : ℕ) : Option Word :=
  match mem address with
  | .word w => if read mem address n = encode n w then some w else none
  | _ => none

def blockNext (L : Layout) (mem : Memory Cell) (bp : ℕ) : Option (Option ℕ) :=
  match load mem bp L.u with
  | some (.next p) => some p
  | _ => none

def blockSize (L : Layout) (mem : Memory Cell) (bp : ℕ) : Option ℤ :=
  match load mem bp L.u with
  | some (.size n) => some n
  | _ => none

def blockFlags (L : Layout) (mem : Memory Cell) (bp : ℕ) : Option (BitVec 32) :=
  match load mem (bp + L.u) L.flags with
  | some (.flags bits) => some bits
  | _ => none

def storeHeader (L : Layout) (mem : Memory Cell) (bp : ℕ) (u : Word) (flags : BitVec 32) :
    Memory Cell :=
  store (store mem bp L.u u) (bp + L.u) L.flags (.flags flags)

def B_SHIFT : ℕ := 4
def B_MAX_CLASS : ℕ := 13
def B_DEFAULT_MEM : ℤ := 128 * 1024
def B_MALLOCED : BitVec 32 := 0x80000000
def B_FILL_WORD : BitVec 32 := 0x77777777
def B_INTEGRITY : BitVec 32 := 0x8124000
def B_INTEGRITY_MASK : BitVec 32 := 0xFFFF000
def B_USE_MALLOC : BitVec 32 := 0x1
def B_USER_BUF : BitVec 32 := 0x2

/-- The variables of the module, the memory, and the sizes that `malloc` has given out. -/
structure State where
  mem : Memory Cell
  heap : ℕ → Option ℕ
  bQhead : ℕ → Option ℕ
  bFreeBuf : Option ℕ
  bFreeNext : ℕ
  bFreeSize : ℤ
  bFreeLeft : ℤ
  bFlags : BitVec 32
  bopenCount : ℤ

/-- The answer of `malloc` to a size, with what it has given out already. -/
abbrev Malloc := (ℕ → Option ℕ) → ℕ → Option ℕ

variable (L : Layout) (malloc : Malloc)

/-- A negative size is more than there can be when it becomes a `size_t`. -/
def sysMalloc (s : State) (n : ℤ) : State × Option ℕ :=
  if n < 0 then (s, none)
  else match malloc s.heap n.toNat with
    | none => (s, none)
    | some a => ({ s with heap := Function.update s.heap a (some n.toNat) }, some a)

def sysFree (s : State) (a : ℕ) : Option State :=
  if s.heap a = none then none else some { s with heap := Function.update s.heap a none }

def setPool (s : State) (buf : ℕ) (bufsize : ℤ) : State :=
  { s with
    bFreeSize := bufsize
    bFreeLeft := bufsize
    bFreeBuf := some buf
    bFreeNext := buf
    bQhead := fun _ => none }

/-- The part of `bopen` that a module that is open already does not come to. -/
def openPool (s : State) (buf : Option ℕ) (bufsize : ℤ) : State × ℤ :=
  match buf with
  | some a => (setPool { s with bFlags := s.bFlags ||| B_USER_BUF } a bufsize, 0)
  | none =>
    let bufsize := if bufsize = 0 then B_DEFAULT_MEM else bufsize
    match sysMalloc malloc s bufsize with
    | (s, none) => ({ s with bopenCount := s.bopenCount - 1 }, -1)
    | (s, some a) => (setPool s a bufsize, 0)

def bopen (s : State) (buf : Option ℕ) (bufsize : ℤ) (flags : BitVec 32) : State × ℤ :=
  let s := { s with bFlags := flags, bopenCount := s.bopenCount + 1 }
  if s.bopenCount > 1 then (s, 0) else openPool malloc s buf bufsize

def bclose (s : State) : Option State :=
  let s := { s with bopenCount := s.bopenCount - 1 }
  if s.bopenCount ≤ 0 ∧ s.bFlags &&& B_USER_BUF = 0 then
    match s.bFreeBuf with
    | none => some { s with bopenCount := 0 }
    | some a => (sysFree s a).map fun s => { s with bopenCount := 0 }
  else some s

def shifts (mask : ℕ) : ℕ := if mask = 0 then 0 else shifts (mask / 2) + 1

def classOf (size : ℤ) : ℕ := shifts ((size.toNat - 1) / 2 ^ B_SHIFT)

def toInt (n : ℤ) : ℤ := Int.bmod n 4294967296

def ballocGetSize (size : ℤ) : ℤ × ℕ :=
  (toInt (2 ^ (B_SHIFT + classOf size) + L.bType), classOf size)

def takeBlock (s : State) (bp : ℕ) (memSize : ℤ) (flags : BitVec 32) : State × Option ℕ :=
  ({ s with mem := storeHeader L s.mem bp (.size (memSize - L.bType)) (flags ||| B_INTEGRITY) },
    some (bp + L.bType))

def mallocBlock (s : State) (memSize : ℤ) : State × Option ℕ :=
  if s.bFlags &&& B_USE_MALLOC = 0 then (s, none)
  else match sysMalloc malloc s memSize with
    | (s, none) => (s, none)
    | (s, some bp) => takeBlock L s bp memSize B_MALLOCED

def ensureOpen (s : State) : State × ℤ :=
  if s.bFreeBuf = none then bopen malloc s none B_DEFAULT_MEM 0 else (s, 0)

def takeClass (s : State) (memSize : ℤ) (q : ℕ) : Option (State × Option ℕ) := do
  if q ≥ B_MAX_CLASS then return mallocBlock L malloc s memSize
  match s.bQhead q with
  | some bp =>
    let p ← blockNext L s.mem bp
    return takeBlock L { s with bQhead := Function.update s.bQhead q p } bp memSize 0
  | none =>
    if s.bFreeLeft > memSize then
      return takeBlock L { s with bFreeNext := s.bFreeNext + memSize.toNat,
                                  bFreeLeft := s.bFreeLeft - memSize } s.bFreeNext memSize 0
    else return mallocBlock L malloc s memSize

def balloc (s : State) (size : ℤ) : Option (State × Option ℕ) :=
  let (s, opened) := ensureOpen malloc s
  if opened < 0 ∨ size < 0 then some (s, none)
  else
    let (memSize, q) := ballocGetSize L size
    takeClass L malloc s memSize q

def queueBlock (s : State) (bp q : ℕ) : State :=
  { s with
    mem := storeHeader L s.mem bp (.next (s.bQhead q)) B_FILL_WORD
    bQhead := Function.update s.bQhead q (some bp) }

def bfree (s : State) (mp : ℕ) : Option State := do
  let bp := mp - L.bType
  let flags ← blockFlags L s.mem bp
  if flags &&& B_INTEGRITY_MASK ≠ B_INTEGRITY then return s
  let size ← blockSize L s.mem bp
  let (_, q) := ballocGetSize L size
  if flags &&& B_MALLOCED ≠ 0 then sysFree s bp
  -- the queues are an array of `B_MAX_CLASS` pointers
  else if q ≥ B_MAX_CLASS then none
  else return queueBlock L s bp q

def memcpy (mem : Memory Cell) (dst src n : ℕ) : Memory Cell := write mem dst (read mem src n)

def brealloc (s : State) (mp : Option ℕ) (newsize : ℤ) : Option (State × Option ℕ) :=
  match mp with
  | none => balloc L malloc s newsize
  | some mp => do
    let size ← blockSize L s.mem (mp - L.bType)
    if size ≥ newsize then return (s, some mp)
    let (s, newbuf) ← balloc L malloc s newsize
    match newbuf with
    | none => return (s, none)
    | some newbuf =>
      let size ← blockSize L s.mem (mp - L.bType)
      let s ← bfree L { s with mem := memcpy s.mem newbuf mp size.toNat } mp
      return (s, some newbuf)

variable {L} {mem mem' : Memory Cell} {a n x : ℕ} {w : Word}

theorem length_encode (hn : 0 < n) : (encode n w).length = n := by
  rw [encode, List.length_cons, List.length_replicate]
  omega

theorem load_store (hn : 0 < n) : load (store mem a n w) a n = some w := by
  have hlength : (encode n w).length = n := length_encode hn
  have hfirst : store mem a n w a = .word w := by
    have h := @write_inside _ mem a (encode n w) 0 (by omega)
    exact h
  have hread : read (store mem a n w) a n = encode n w := by
    have h := @read_write _ mem a (encode n w)
    rw [hlength] at h
    exact h
  simp only [load, hfirst, if_pos hread]

theorem load_congr (hn : 0 < n) (h : ∀ y, a ≤ y → y < a + n → mem' y = mem y) :
    load mem' a n = load mem a n := by
  have hread : read mem' a n = read mem a n := by
    refine List.map_congr_left fun i hi => ?_
    rw [List.mem_range] at hi
    exact h _ (by omega) (by omega)
  have hfirst : mem' a = mem a := h a (Nat.le_refl _) (by omega)
  rw [load, load, hread, hfirst]

theorem store_outside (hn : 0 < n) (h : x < a ∨ a + n ≤ x) : store mem a n w x = mem x := by
  refine write_outside ?_
  rw [length_encode hn]
  exact h

theorem storeHeader_outside {bits : BitVec 32} (h : x < a ∨ a + L.bType ≤ x) :
    storeHeader L mem a w bits x = mem x := by
  have := L.fits
  rw [storeHeader, store_outside L.flags_pos (by omega), store_outside L.u_pos (by omega)]

theorem load_storeHeader {bits : BitVec 32} : load (storeHeader L mem a w bits) a L.u = some w := by
  have := L.flags_pos
  rw [storeHeader, load_congr L.u_pos fun y _ hy => store_outside L.flags_pos (.inl hy)]
  exact load_store L.u_pos

theorem blockNext_storeHeader {p : Option ℕ} {bits : BitVec 32} :
    blockNext L (storeHeader L mem a (.next p) bits) a = some p := by
  rw [blockNext, load_storeHeader]

theorem blockSize_storeHeader {z : ℤ} {bits : BitVec 32} :
    blockSize L (storeHeader L mem a (.size z) bits) a = some z := by
  rw [blockSize, load_storeHeader]

theorem blockFlags_storeHeader {bits : BitVec 32} :
    blockFlags L (storeHeader L mem a w bits) a = some bits := by
  rw [blockFlags, storeHeader, load_store L.flags_pos]

theorem header_congr (h : ∀ y, a ≤ y → y < a + L.bType → mem' y = mem y) :
    blockNext L mem' a = blockNext L mem a ∧ blockSize L mem' a = blockSize L mem a ∧
      blockFlags L mem' a = blockFlags L mem a := by
  have := L.fits
  have hu : load mem' a L.u = load mem a L.u := load_congr L.u_pos fun y h₁ h₂ => h y h₁ (by omega)
  have hflags : load mem' (a + L.u) L.flags = load mem (a + L.u) L.flags :=
    load_congr L.flags_pos fun y h₁ h₂ => h y (by omega) (by omega)
  rw [blockNext, blockNext, blockSize, blockSize, blockFlags, blockFlags, hu, hflags]
  exact ⟨rfl, rfl, rfl⟩

theorem sysMalloc_none {malloc : Malloc} {s : State} (h : malloc s.heap n = none) :
    sysMalloc malloc s n = (s, none) := by
  rw [sysMalloc, if_neg (Int.not_lt.mpr (Int.natCast_nonneg n)), Int.toNat_natCast, h]

theorem sysMalloc_some {malloc : Malloc} {s : State} (h : malloc s.heap n = some a) :
    sysMalloc malloc s n =
      ({ s with heap := Function.update s.heap a (some n) }, some a) := by
  rw [sysMalloc, if_neg (Int.not_lt.mpr (Int.natCast_nonneg n)), Int.toNat_natCast, h]

theorem memcpy_same {dst src : ℕ} :
    ∀ y, (y < dst ∨ dst + n ≤ y) → memcpy mem dst src n y = mem y := by
  intro y hy
  refine write_outside ?_
  rw [length_read]
  exact hy

theorem memcpy_copied {dst src i : ℕ} (hi : i < n) :
    memcpy mem dst src n (dst + i) = mem (src + i) := by
  have hlength : i < (read mem src n).length := by
    rw [length_read]
    exact hi
  rw [memcpy, write_inside hlength]
  simp only [ByteMemory.read, List.getElem_map, List.getElem_range]

variable {size : ℤ} {q m : ℕ}

theorem shifts_le : shifts m ≤ n ↔ m < 2 ^ n := by
  induction n generalizing m with
  | zero =>
    rw [shifts, Nat.pow_zero]
    split <;> omega
  | succ n ih =>
    rw [shifts, Nat.pow_succ]
    split
    · rename_i h
      have := Nat.two_pow_pos n
      omega
    · have := @ih (m / 2)
      omega

theorem size_le_class (size : ℤ) : size ≤ 2 ^ (B_SHIFT + classOf size) := by
  have h : (size.toNat - 1) / 2 ^ B_SHIFT < 2 ^ classOf size := shifts_le.mp (Nat.le_refl _)
  rw [Nat.div_lt_iff_lt_mul (Nat.two_pow_pos _), ← Nat.pow_add, Nat.add_comm] at h
  have : (size.toNat : ℤ) - 1 < 2 ^ (B_SHIFT + classOf size) := by
    have := Int.ofNat_lt.mpr h
    push_cast at this
    omega
  omega

theorem classOf_le (h : size ≤ 2 ^ (B_SHIFT + q)) : classOf size ≤ q := by
  have hpos := Nat.two_pow_pos (B_SHIFT + q)
  have hcast : ((2 ^ (B_SHIFT + q) : ℕ) : ℤ) = 2 ^ (B_SHIFT + q) := by push_cast; rfl
  rw [classOf, shifts_le, Nat.div_lt_iff_lt_mul (Nat.two_pow_pos _), ← Nat.pow_add, Nat.add_comm]
  omega

theorem classOf_pow (q : ℕ) : classOf (2 ^ (B_SHIFT + q)) = q := by
  refine Nat.le_antisymm (classOf_le (Int.le_refl _)) ?_
  have h := size_le_class (2 ^ (B_SHIFT + q))
  rw [pow_le_pow_iff_right₀ (by decide)] at h
  omega

theorem ballocGetSize_eq (h : size ≤ 2 ^ 30) :
    ballocGetSize L size = (2 ^ (B_SHIFT + classOf size) + (L.bType : ℤ), classOf size) := by
  have hq : classOf size ≤ 26 := classOf_le (by simpa only [B_SHIFT] using h)
  have hpow : (2 : ℤ) ^ (B_SHIFT + classOf size) ≤ 2 ^ 30 := by
    refine pow_le_pow_right₀ (by decide) ?_
    rw [B_SHIFT]
    omega
  have hpos : (0 : ℤ) < 2 ^ (B_SHIFT + classOf size) := by positivity
  have hsmall := L.small
  have hsum : toInt (2 ^ (B_SHIFT + classOf size) + L.bType) =
      2 ^ (B_SHIFT + classOf size) + L.bType :=
    Int.bmod_eq_of_le (by omega) (by omega)
  rw [ballocGetSize, hsum]

end Balloc

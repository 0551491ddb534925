import Mathlib.Algebra.Group.Nat.Defs
import Mathlib.Data.List.GetD
import Mathlib.Logic.Nontrivial.Defs
import Mathlib.Tactic.Common

/-! # Memory of bytes

Writing and reading lists of bytes at an address, and numbers as their bytes, the lowest
first. -/
namespace ByteMemory

abbrev Memory (α : Type*) := ℕ → α

section
variable {α : Type*} {memory : Memory α} {address n x : ℕ} {bytes : List α}

def write (memory : Memory α) (address : ℕ) (bytes : List α) : Memory α :=
  fun x => if address ≤ x then bytes.getD (x - address) (memory x) else memory x

def read (memory : Memory α) (address n : ℕ) : List α :=
  (List.range n).map fun i => memory (address + i)

/-- Whatever the memory holds, the bytes change nothing but the `size` bytes at the address. -/
def Confined (address size : ℕ) (bytes : List α) : Prop :=
  ∀ (memory : Memory α) x, (x < address ∨ address + size ≤ x) →
    write memory address bytes x = memory x

theorem write_outside (h : x < address ∨ address + bytes.length ≤ x) :
    write memory address bytes x = memory x := by
  rw [write]
  split
  · exact List.getD_eq_default _ _ (by omega)
  · rfl

theorem write_inside {i : ℕ} (h : i < bytes.length) :
    write memory address bytes (address + i) = bytes[i] := by
  rw [write, if_pos (Nat.le_add_right _ _), Nat.add_sub_cancel_left]
  exact List.getD_eq_getElem _ _ h

theorem length_read : (read memory address n).length = n := by
  rw [read, List.length_map, List.length_range]

theorem read_write : read (write memory address bytes) address bytes.length = bytes := by
  refine List.ext_getElem length_read ?_
  intro i _ hi
  simp only [read, List.getElem_map, List.getElem_range]
  exact write_inside hi

theorem confined_iff [Nontrivial α] : Confined address n bytes ↔ bytes.length ≤ n := by
  constructor
  · intro h
    by_contra hlong
    have hlt : n < bytes.length := by omega
    obtain ⟨a, ha⟩ := exists_ne bytes[n]
    have hsame := h (fun _ => a) (address + n) (.inr (Nat.le_refl _))
    exact ha (hsame.symm.trans (write_inside hlt))
  · intro hlen memory x hx
    exact write_outside (by omega)

structure Place where
  address : ℕ
  size : ℕ
  deriving DecidableEq

def Place.Apart (p q : Place) : Prop :=
  p.address + p.size ≤ q.address ∨ q.address + q.size ≤ p.address

variable {p q : Place} {writes before behind : List (Place × List α)} {a : α}

theorem Place.Apart.symm (h : p.Apart q) : q.Apart p := h.elim .inr .inl

def writeAll (memory : Memory α) (writes : List (Place × List α)) : Memory α :=
  writes.foldl (fun m w => write m w.1.address w.2) memory

def Leave (writes : List (Place × List α)) (p : Place) : Prop :=
  ∀ w ∈ writes, w.2.length ≤ w.1.size ∧ w.1.Apart p

theorem writeAll_leave (h : Leave writes p) (hlow : p.address ≤ x)
    (hhigh : x < p.address + p.size) : writeAll memory writes x = memory x := by
  induction writes generalizing memory with
  | nil => rfl
  | cons w writes ih =>
    rw [Leave, List.forall_mem_cons] at h
    obtain ⟨⟨hfits, hapart⟩, hrest⟩ := h
    rw [Place.Apart] at hapart
    have hout : write memory w.1.address w.2 x = memory x := write_outside (by omega)
    rw [writeAll, List.foldl_cons, ← writeAll, ih hrest, hout]

theorem read_leave (h : Leave writes p) :
    read (writeAll memory writes) p.address p.size = read memory p.address p.size := by
  refine List.map_congr_left fun i hi => ?_
  rw [List.mem_range] at hi
  exact writeAll_leave h (by omega) (by omega)

theorem writeAll_append (memory : Memory α) (before behind : List (Place × List α)) :
    writeAll memory (before ++ behind) = writeAll (writeAll memory before) behind :=
  List.foldl_append

theorem writeAll_cons (memory : Memory α) (w : Place × List α) (writes : List (Place × List α)) :
    writeAll memory (w :: writes) = writeAll (write memory w.1.address w.2) writes := rfl

theorem read_writeAll (hbefore : Leave before p) (hbehind : Leave behind p)
    (hfits : bytes.length ≤ p.size)
    (hmemory : ∀ x, p.address ≤ x → x < p.address + p.size → memory x = a) :
    read (writeAll memory (before ++ (p, bytes) :: behind)) p.address p.size =
      bytes ++ List.replicate (p.size - bytes.length) a := by
  rw [writeAll_append, writeAll_cons, read_leave hbehind]
  refine List.ext_getElem ?_ ?_
  · rw [length_read, List.length_append, List.length_replicate]
    omega
  · intro i hi hi'
    rw [length_read] at hi
    simp only [read, List.getElem_map, List.getElem_range]
    by_cases hin : i < bytes.length
    · rw [write_inside hin, List.getElem_append_left hin]
    · rw [write_outside (by omega), writeAll_leave hbefore (by omega) (by omega),
        hmemory _ (by omega) (by omega), List.getElem_append_right (by omega),
        List.getElem_replicate]

end

variable {n v : ℕ}

instance nontrivialChar : Nontrivial Char := ⟨'a', 'b', by decide⟩

def littleEndian : ℕ → ℕ → List Char
  | 0, _ => []
  | n + 1, v => Char.ofNat (v % 256) :: littleEndian n (v / 256)

def ofLittleEndian (bytes : List Char) : ℕ := bytes.foldr (fun c v => c.toNat + 256 * v) 0

theorem length_littleEndian : (littleEndian n v).length = n := by
  induction n generalizing v with
  | zero => rfl
  | succ n ih => rw [littleEndian, List.length_cons, ih]

theorem toNat_ofNat_byte (h : v < 256) : (Char.ofNat v).toNat = v := by
  have hvalid : v.isValidChar := .inl (by omega)
  rw [Char.ofNat, dif_pos hvalid]
  rfl

theorem ofLittleEndian_littleEndian (h : v < 256 ^ n) : ofLittleEndian (littleEndian n v) = v := by
  induction n generalizing v with
  | zero =>
    rw [Nat.pow_zero] at h
    rw [Nat.lt_one_iff.mp h]
    rfl
  | succ n ih =>
    have hrest : v / 256 < 256 ^ n := by
      rw [Nat.div_lt_iff_lt_mul (by decide), ← Nat.pow_succ]
      exact h
    have hlow : (Char.ofNat (v % 256)).toNat = v % 256 :=
      toNat_ofNat_byte (Nat.mod_lt _ (by decide))
    rw [littleEndian, ofLittleEndian, List.foldr_cons, ← ofLittleEndian, ih hrest, hlow]
    exact Nat.mod_add_div v 256

theorem ofLittleEndian_append_zeros (bytes : List Char) (k : ℕ) :
    ofLittleEndian (bytes ++ List.replicate k (Char.ofNat 0)) = ofLittleEndian bytes := by
  induction bytes with
  | nil =>
    induction k with
    | zero => rfl
    | succ k ih =>
      rw [List.nil_append] at ih ⊢
      rw [List.replicate_succ, ofLittleEndian, List.foldr_cons, ← ofLittleEndian, ih]
      rfl
  | cons c bytes ih =>
    rw [List.cons_append, ofLittleEndian, List.foldr_cons, ← ofLittleEndian, ih]
    rfl

end ByteMemory

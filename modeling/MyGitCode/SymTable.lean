import MyGitCode.HandleTable
import MyGitCode.HashBuckets
import MyGitCode.LinkChains
import Mathlib.Data.BitVec

/-! # The symbol table of `sym.c`

A hash table whose entries start chains of symbols. A new symbol goes behind the last one of its
chain, and a symbol that is entered again takes over the new value. There is no result where the
code would go through a null pointer. -/
namespace SymTable

open HashBuckets LinkChains

/-- `sym_t`, with the text of its name, or NULL for it. -/
structure Sym (V : Type) where
  forw : Option ℕ
  name : Option (List Char)
  content : V
  arg : ℤ
  deriving DecidableEq

structure Tabent where
  hash_size : ℕ
  hash_table : ℕ → Option ℕ

structure Table (V : Type) extends Tabent where
  heap : ℕ → Option (Sym V)

variable {V : Type}

/-- The loop of `hashIndex` from a character on. `code` is the character as an `int`. -/
def hashSum (code : Char → BitVec 32) : List Char → ℕ → BitVec 32 → BitVec 32
  | [], _, sum => sum
  | c :: name, i, sum => hashSum code name ((i + 7) % 24) (sum + code c <<< i)

variable (code : Char → BitVec 32)

def hashIndex (tp : Table V) (name : List Char) : ℕ :=
  (hashSum code name 0 0).toNat % tp.hash_size

/-- The loop over a chain: the symbol before the one of that name, and that symbol. -/
def scan (heap : ℕ → Option (Sym V)) (name : List Char) :
    ℕ → Option ℕ → Option ℕ → Option (Option ℕ × Option ℕ)
  | 0, _, _ => none
  | _ + 1, last, none => some (last, none)
  | fuel + 1, last, some sp => do
    let s ← heap sp
    let cp ← s.name
    if cp.head? = name.head? ∧ cp = name then return (last, some sp)
    else scan heap name fuel (some sp) s.forw

def symLookup (fuel : ℕ) (tp : Table V) (name : List Char) : Option (Option ℕ) :=
  if name = [] then some none
  else (scan tp.heap name fuel none (tp.hash_table (hashIndex code tp name))).map Prod.snd

def setSym (tp : Table V) (sp : ℕ) (s : Option (Sym V)) : Table V :=
  { tp with heap := Function.update tp.heap sp s }

def setHead (tp : Table V) (i : ℕ) (p : Option ℕ) : Table V :=
  { tp with hash_table := Function.update tp.hash_table i p }

def setForw (tp : Table V) (last p : Option ℕ) : Option (Table V) := do
  let a ← last
  let s ← tp.heap a
  return setSym tp a (some { s with forw := p })

/-- `memory` is the address of the new symbol, if there is memory for one, and `copied` whether
there is for the copy of its name. -/
def symEnter (fuel : ℕ) (tp : Table V) (name : List Char) (v : V) (arg : ℤ)
    (memory : Option ℕ) (copied : Bool) : Option (Table V × Option ℕ) := do
  let hindex := hashIndex code tp name
  let copy := if copied then some name else none
  let (last, sp) ← scan tp.heap name fuel none (tp.hash_table hindex)
  match tp.hash_table hindex, sp, memory with
  | some _, some sp, _ =>
    let s ← tp.heap sp
    return (setSym tp sp (some { s with content := v, arg := arg }), some sp)
  | _, _, none => return (tp, none)
  | some _, none, some sp =>
    let tp ← setForw (setSym tp sp (some ⟨none, copy, v, arg⟩)) last (some sp)
    return (tp, some sp)
  | none, _, some sp =>
    return (setHead (setSym tp sp (some ⟨none, copy, v, arg⟩)) hindex (some sp), some sp)

def symDelete (fuel : ℕ) (tp : Table V) (name : List Char) : Option (Table V × ℤ) := do
  let hindex := hashIndex code tp name
  let (last, sp) ← scan tp.heap name fuel none (tp.hash_table hindex)
  match sp with
  | none => return (tp, -1)
  | some sp =>
    let s ← tp.heap sp
    let tp ← (if last.isSome then setForw tp last s.forw else some (setHead tp hindex s.forw))
    return (setSym tp sp none, 0)

/-- The loop of `isPrime` over `k` values of `i`. -/
def noDivisor (n : ℕ) : ℕ → ℕ → Bool
  | 0, _ => true
  | k + 1, i => if n % i = 0 then false else noDivisor n k (i + 1)

def isPrime (n : ℕ) : Bool := noDivisor n (n / 2 - 1) 2

def calcPrime : ℕ → ℕ
  | 0 => 1
  | count + 1 => if isPrime (count + 1) then count + 1 else calcPrime count

/-- The hash table of a new entry. `balloc` gets its size as an `int`, and there is no test
whether it found memory; `rest` is what the memory held, and what is behind it. -/
def makeHash (found : Bool) (rest : ℕ → Option ℕ) (hash_size : ℕ) : Option Tabent :=
  let bytes := Int.bmod (calcPrime hash_size * 4) 4294967296
  if bytes < 0 ∨ ¬ found then none
  else some ⟨calcPrime hash_size, fun i => if 4 * (i : ℤ) < bytes then none else rest i⟩

/-- The tables by their handles, and `symMax`. `ok`, `entry` and `found` are whether memory is
found for the handles, for the entry and for its hash table. -/
def symOpen (ok entry found : Bool) (rest : ℕ → Option ℕ) (s : HandleTable.State Tabent)
    (hash_size : ℕ) : Option (HandleTable.State Tabent × ℤ) :=
  let (sym, sd) := HandleTable.hAlloc ok s.map
  if sd < 0 then some (⟨sym, s.max⟩, -1)
  else if ¬ entry then
    (HandleTable.hFree sym sd.toNat).map fun (sym, symMax) => (⟨sym, symMax⟩, -1)
  else (makeHash found rest hash_size).map fun tp =>
    (⟨HandleTable.setEntry sym sd.toNat tp, if sd ≥ s.max then sd + 1 else s.max⟩, sd)

/-- `htIndex` and `next`. -/
structure Cursor where
  htIndex : ℕ
  next : Option ℕ

/-- The position behind a symbol of chain `i`. The entry may be the one behind the table. -/
def advance (tp : Table V) (i : ℕ) : Option ℕ → Cursor
  | none => ⟨i + 1, tp.hash_table (i + 1)⟩
  | some forw => ⟨i, some forw⟩

def firstLoop (tp : Table V) (c : Cursor) : ℕ → ℕ → Option (Cursor × Option ℕ)
  | 0, _ => some (c, none)
  | k + 1, i =>
    match tp.hash_table i with
    | none => firstLoop tp c k (i + 1)
    | some sp => do
      let s ← tp.heap sp
      return (advance tp i s.forw, some sp)

def symFirst (tp : Table V) (c : Cursor) : Option (Cursor × Option ℕ) :=
  firstLoop tp c tp.hash_size 0

def nextLoop (tp : Table V) : ℕ → ℕ → Cursor → Option (Cursor × Option ℕ)
  | 0, _, c => some (c, none)
  | k + 1, i, c =>
    match c.next with
    | none => nextLoop tp k (i + 1) { c with next := tp.hash_table (i + 1) }
    | some sp => do
      let s ← tp.heap sp
      return (advance tp i s.forw, some sp)

def symNext (tp : Table V) (c : Cursor) : Option (Cursor × Option ℕ) :=
  nextLoop tp (tp.hash_size - c.htIndex) c.htIndex c

def following (tp : Table V) : ℕ → Cursor × Option ℕ → Option (List ℕ)
  | 0, _ => none
  | _ + 1, (_, none) => some []
  | fuel + 1, (c, some sp) => do
    let ns ← following tp fuel (← symNext tp c)
    return sp :: ns

def traverse (fuel : ℕ) (tp : Table V) (c : Cursor) : Option (List ℕ) := do
  following tp fuel (← symFirst tp c)

abbrev forwOf (heap : ℕ → Option (Sym V)) (a : ℕ) : Option (Option ℕ) := (heap a).map Sym.forw

def Sym.named (s : Sym V) : Option (List Char × V × ℤ) :=
  s.name.map fun name => (name, s.content, s.arg)

def info (tp : Table V) (a : ℕ) : Option (List Char × V × ℤ) := (tp.heap a).bind Sym.named

/-- Each entry of the hash table starts the chain of the symbols that hash to it. -/
structure Chained (tp : Table V) (chains : ℕ → List ℕ) : Prop where
  size_pos : 0 < tp.hash_size
  links : ∀ i, i < tp.hash_size → Chain (forwOf tp.heap) (tp.hash_table i) (chains i)
  named : ∀ i, i < tp.hash_size → ∀ a ∈ chains i, info tp a ≠ none
  buckets : Buckets (hashIndex code tp) tp.hash_size chains (info tp)

variable {code} {tp : Table V} {chains : ℕ → List ℕ} {heap : ℕ → Option (Sym V)}
  {name : List Char} {m : List Char → Option (V × ℤ)} {a b i fuel : ℕ} {s : Sym V}
  {p last : Option ℕ} {xs ys ns : List ℕ} {v w : V} {arg : ℤ}

theorem Chained.hash_lt (h : Chained code tp chains) (name : List Char) :
    hashIndex code tp name < tp.hash_size :=
  Nat.mod_lt _ h.size_pos

theorem forwOf_eq (h : forwOf heap a = some p) : ∃ s, heap a = some s ∧ s.forw = p :=
  Option.map_eq_some_iff.mp h

theorem forwOf_update : forwOf (Function.update heap a (some s)) =
    Function.update (forwOf heap) a (some s.forw) := by
  funext b
  by_cases hb : b = a
  · rw [hb, forwOf, Function.update_self, Function.update_self, Option.map_some]
  · rw [forwOf, Function.update_of_ne hb, Function.update_of_ne hb]

theorem info_eq (h : info tp a = some (name, v, arg)) :
    ∃ p, tp.heap a = some ⟨p, some name, v, arg⟩ := by
  obtain ⟨⟨p, name', v', arg'⟩, hs, hnamed⟩ := Option.bind_eq_some_iff.mp h
  obtain ⟨name', rfl, heq⟩ := Option.map_eq_some_iff.mp hnamed
  obtain ⟨rfl, rfl, rfl⟩ : name' = name ∧ v' = v ∧ arg' = arg := by simpa using heq
  exact ⟨p, hs⟩

theorem info_setSym {t : Option (Sym V)} :
    info (setSym tp a t) = Function.update (info tp) a (t.bind Sym.named) := by
  funext b
  by_cases hb : b = a
  · simp only [hb, info, setSym, Function.update_self]
  · simp only [info, setSym, Function.update_of_ne hb]

theorem scan_pass {cp : List Char} (ha : heap a = some s) (hcp : s.name = some cp)
    (hne : cp ≠ name) :
    scan heap name (fuel + 1) last (some a) = scan heap name fuel (some a) s.forw := by
  simp [scan, ha, hcp, hne]

theorem scan_skip {q : Option ℕ} (h : Segment (forwOf tp.heap) p xs q)
    (hnamed : ∀ a ∈ xs, info tp a ≠ none)
    (hxs : ∀ a ∈ xs, ∀ x, info tp a = some x → x.1 ≠ name) :
    scan tp.heap name (xs.length + fuel) last p =
      scan tp.heap name fuel (xs.getLast?.or last) q := by
  induction xs generalizing p last with
  | nil =>
    obtain rfl : p = q := h
    simp
  | cons a xs ih =>
    rw [List.forall_mem_cons] at hxs hnamed
    obtain ⟨rfl, r, hr, hrest⟩ := h
    obtain ⟨⟨cp, w, arg'⟩, hx⟩ := Option.ne_none_iff_exists'.mp hnamed.1
    obtain ⟨p, hp⟩ := info_eq hx
    obtain rfl : p = r := Option.some_inj.mp ((congrArg (Option.map Sym.forw) hp).symm.trans hr)
    rw [List.length_cons, Nat.add_right_comm, scan_pass hp rfl (hxs.1 _ hx),
      ih hrest hnamed.2 hxs.2, List.getLast?_cons]
    cases xs.getLast? <;> rfl

theorem scan_absent (h : Chain (forwOf tp.heap) p ns) (hnamed : ∀ a ∈ ns, info tp a ≠ none)
    (hns : ∀ a ∈ ns, ∀ x, info tp a = some x → x.1 ≠ name) (hfuel : ns.length < fuel) :
    scan tp.heap name fuel none p = some (ns.getLast?, none) := by
  obtain ⟨k, rfl⟩ := Nat.exists_eq_add_of_lt hfuel
  rw [Nat.add_assoc, scan_skip h hnamed hns, scan, Option.or_none]

theorem scan_found (h : Chain (forwOf tp.heap) p (xs ++ a :: ys))
    (hnamed : ∀ b ∈ xs ++ a :: ys, info tp b ≠ none)
    (hxs : ∀ b ∈ xs, ∀ x, info tp b = some x → x.1 ≠ name)
    (ha : tp.heap a = some ⟨last, some name, v, arg⟩) (hfuel : (xs ++ a :: ys).length < fuel) :
    scan tp.heap name fuel none p = some (xs.getLast?, some a) := by
  obtain ⟨q, hbefore, rfl, -⟩ := segment_append.mp h
  rw [List.length_append] at hfuel
  obtain ⟨k, rfl⟩ := Nat.exists_eq_add_of_lt (Nat.lt_of_le_of_lt (Nat.le_add_right _ _) hfuel)
  rw [Nat.add_assoc, scan_skip hbefore (fun b hb => hnamed b (List.mem_append_left _ hb)) hxs,
    Option.or_none]
  simp [scan, ha]

def valueAt (tp : Table V) (p : Option ℕ) : Option (List Char × V × ℤ) := p.bind (info tp)

theorem Chained.symLookup (h : Chained code tp chains)
    (hm : Holds (hashIndex code tp) chains (info tp) m)
    (hfuel : (chains (hashIndex code tp name)).length < fuel) :
    ∃ r, symLookup code fuel tp name = some r ∧
      valueAt tp r = if name = [] then none else (m name).map (name, ·) := by
  have hlinks := h.links _ (h.hash_lt name)
  have hnamed := h.named _ (h.hash_lt name)
  rw [SymTable.symLookup]
  split
  · exact ⟨none, rfl, rfl⟩
  rcases h.buckets.find (h.hash_lt name) with habsent | ⟨xs, a, ys, ⟨v, arg⟩, hsplit, hxs, hx⟩
  · rw [scan_absent hlinks hnamed habsent hfuel, hm.absent habsent]
    exact ⟨none, rfl, rfl⟩
  · have hmem : a ∈ chains (hashIndex code tp name) :=
      hsplit ▸ List.mem_append_right _ List.mem_cons_self
    obtain ⟨p, hp⟩ := info_eq hx
    rw [hsplit] at hlinks hnamed hfuel
    rw [scan_found hlinks hnamed hxs hp hfuel, hm.present hmem hx]
    exact ⟨some a, rfl, hx⟩

theorem Chained.update (h : Chained code tp chains) (v : V) (arg : ℤ)
    (hm : Holds (hashIndex code tp) chains (info tp) m) {arg' : ℤ}
    (ha : a ∈ chains (hashIndex code tp name)) (hx : tp.heap a = some ⟨p, some name, w, arg'⟩) :
    Chained code (setSym tp a (some ⟨p, some name, v, arg⟩)) chains ∧
      Holds (hashIndex code tp) chains (info (setSym tp a (some ⟨p, some name, v, arg⟩)))
        (Function.update m name (some (v, arg))) := by
  have hforw : forwOf (setSym tp a (some ⟨p, some name, v, arg⟩)).heap = forwOf tp.heap := by
    rw [setSym, forwOf_update, Function.update_eq_self_iff, forwOf, hx, Option.map_some]
  have hinfo : info tp a = some (name, w, arg') := by
    rw [info, hx]
    rfl
  have hinfo' : info (setSym tp a (some ⟨p, some name, v, arg⟩)) =
      Function.update (info tp) a (some (name, v, arg)) := info_setSym
  obtain ⟨hbuckets, hholds⟩ := h.buckets.update hm h.hash_lt ha hinfo (v := (v, arg))
  rw [← hinfo'] at hbuckets hholds
  refine ⟨⟨h.size_pos, fun i hi => hforw ▸ h.links i hi, fun i hi b hb => ?_, hbuckets⟩, hholds⟩
  rw [hinfo', Function.update_apply]
  split
  · exact Option.some_ne_none _
  · exact h.named i hi b hb

theorem Chained.fresh (h : Chained code tp chains) (hb : tp.heap b = none) (i : ℕ)
    (hi : i < tp.hash_size) : b ∉ chains i := by
  intro hmem
  refine h.named i hi b hmem ?_
  rw [info, hb]
  rfl

theorem Chained.append (h : Chained code tp chains)
    (hm : Holds (hashIndex code tp) chains (info tp) m)
    (habsent : ∀ a ∈ chains (hashIndex code tp name), ∀ x, info tp a = some x → x.1 ≠ name)
    (hb : tp.heap b = none) (tp' : Table V) (hsize : tp'.hash_size = tp.hash_size)
    (hinfo : info tp' = Function.update (info tp) b (some (name, v, arg)))
    (hlink : Chain (forwOf tp'.heap) (tp'.hash_table (hashIndex code tp name))
      (chains (hashIndex code tp name) ++ [b]))
    (hothers : ∀ i, i < tp.hash_size → i ≠ hashIndex code tp name →
      Chain (forwOf tp'.heap) (tp'.hash_table i) (chains i)) :
    ∃ chains', Chained code tp' chains' ∧
      Holds (hashIndex code tp') chains' (info tp') (Function.update m name (some (v, arg))) := by
  have hnew := h.fresh hb
  have hhash : hashIndex code tp' = hashIndex code tp := by
    funext name
    rw [hashIndex, hashIndex, hsize]
  have hbuckets := h.buckets.append habsent hnew (v := (v, arg))
  have hholds := hm.append h.hash_lt habsent hnew (v := (v, arg))
  rw [← hinfo] at hbuckets hholds
  refine ⟨Function.update chains (hashIndex code tp name)
    (chains (hashIndex code tp name) ++ [b]), ⟨hsize ▸ h.size_pos, fun i hi => ?_,
    fun i hi a ha => ?_, ?_⟩, hhash ▸ hholds⟩
  · rw [hsize] at hi
    by_cases hik : i = hashIndex code tp name
    · rw [hik, Function.update_self]
      exact hlink
    · rw [Function.update_of_ne hik]
      exact hothers i hi hik
  · rw [hsize] at hi
    rw [hinfo]
    rcases mem_appended (info tp) (v, arg) hnew hi ha with ⟨-, ha, hkept⟩ | ⟨-, -, hnamed⟩
    · rw [hkept]
      exact h.named i hi a ha
    · rw [hnamed]
      exact Option.some_ne_none _
  · rw [hhash, hsize]
    exact hbuckets

theorem Chained.appendHead (h : Chained code tp chains) (v : V) (arg : ℤ)
    (hm : Holds (hashIndex code tp) chains (info tp) m)
    (hempty : chains (hashIndex code tp name) = []) (hb : tp.heap b = none) :
    ∃ chains', Chained code (setHead (setSym tp b (some ⟨none, some name, v, arg⟩))
        (hashIndex code tp name) (some b)) chains' ∧
      Holds (hashIndex code tp) chains'
        (info (setHead (setSym tp b (some ⟨none, some name, v, arg⟩))
          (hashIndex code tp name) (some b))) (Function.update m name (some (v, arg))) := by
  have hnew := h.fresh hb
  refine h.append hm (fun a ha => ?_) hb (setHead (setSym tp b (some ⟨none, some name, v, arg⟩))
    (hashIndex code tp name) (some b)) rfl info_setSym ?_ fun i hi hik => ?_
  · rw [hempty] at ha
    exact absurd ha List.not_mem_nil
  · rw [hempty, List.nil_append]
    simp only [setHead, setSym, forwOf_update, Function.update_self]
    exact ⟨rfl, none, Function.update_self .., rfl⟩
  · simp only [setHead, setSym, forwOf_update, Function.update_of_ne hik]
    exact Segment.update (h.links i hi) (hnew i hi) _

theorem Chained.appendLast (h : Chained code tp chains) (v : V) (arg : ℤ)
    (hm : Holds (hashIndex code tp) chains (info tp) m)
    (habsent : ∀ a ∈ chains (hashIndex code tp name), ∀ x, info tp a = some x → x.1 ≠ name)
    (hns : chains (hashIndex code tp name) = ns ++ [a]) (ha : tp.heap a = some s)
    (hb : tp.heap b = none) :
    ∃ chains', Chained code (setSym (setSym tp b (some ⟨none, some name, v, arg⟩)) a
        (some { s with forw := some b })) chains' ∧
      Holds (hashIndex code tp) chains'
        (info (setSym (setSym tp b (some ⟨none, some name, v, arg⟩)) a
          (some { s with forw := some b }))) (Function.update m name (some (v, arg))) := by
  have hlt := h.hash_lt name
  have hnew := h.fresh hb
  have hmem : a ∈ chains (hashIndex code tp name) :=
    hns ▸ List.mem_append_right _ List.mem_cons_self
  have hab : a ≠ b := by
    rintro rfl
    exact hnew _ hlt hmem
  refine h.append hm habsent hb (setSym (setSym tp b (some ⟨none, some name, v, arg⟩)) a
    (some { s with forw := some b })) rfl ?_ ?_ fun i hi hik => ?_
  · have hinfo : info (setSym tp b (some ⟨none, some name, v, arg⟩)) =
        Function.update (info tp) b (some (name, v, arg)) := info_setSym
    rw [info_setSym, hinfo, Function.update_eq_self_iff, Function.update_of_ne hab, info, ha]
    rfl
  · have hlinks := h.links _ hlt
    have hnodup := h.buckets.nodup _ hlt
    have hb' := hnew _ hlt
    rw [hns] at hlinks hnodup hb' ⊢
    simp only [setSym, forwOf_update]
    exact hlinks.push hnodup hb'
  · have ha' : a ∉ chains i := fun hmem' =>
      hik (h.buckets.one hi hlt hmem' hmem (h.named i hi _ hmem'))
    simp only [setSym, forwOf_update]
    exact (Segment.update (h.links i hi) (hnew i hi) _).update ha' _

theorem Chained.symEnter_absent (h : Chained code tp chains) (v : V) (arg : ℤ) (copied : Bool)
    (habsent : ∀ a ∈ chains (hashIndex code tp name), ∀ x, info tp a = some x → x.1 ≠ name)
    (hfuel : (chains (hashIndex code tp name)).length < fuel) (hb : tp.heap b = none) :
    (chains (hashIndex code tp name) = [] ∧
      symEnter code fuel tp name v arg (some b) copied =
        some (setHead (setSym tp b (some ⟨none, if copied then some name else none, v, arg⟩))
          (hashIndex code tp name) (some b), some b)) ∨
    ∃ ns a s, chains (hashIndex code tp name) = ns ++ [a] ∧ tp.heap a = some s ∧ a ≠ b ∧
      symEnter code fuel tp name v arg (some b) copied =
        some (setSym (setSym tp b (some ⟨none, if copied then some name else none, v, arg⟩)) a
          (some { s with forw := some b }), some b) := by
  have hlinks := h.links _ (h.hash_lt name)
  have hnamed := h.named _ (h.hash_lt name)
  rw [SymTable.symEnter, scan_absent hlinks hnamed habsent hfuel]
  rcases List.eq_nil_or_concat (chains (hashIndex code tp name)) with hempty | ⟨ns, a, hns⟩
  · have hhead : tp.hash_table (hashIndex code tp name) = none := by
      rw [hempty] at hlinks
      exact hlinks
    refine .inl ⟨hempty, ?_⟩
    simp only [hhead]
    rfl
  · rw [List.concat_eq_append] at hns
    have hmem : a ∈ chains (hashIndex code tp name) :=
      hns ▸ List.mem_append_right _ List.mem_cons_self
    obtain ⟨⟨name', w, arg'⟩, hx⟩ := Option.ne_none_iff_exists'.mp (hnamed a hmem)
    obtain ⟨p, hp⟩ := info_eq hx
    obtain ⟨c, hc⟩ : ∃ c, tp.hash_table (hashIndex code tp name) = some c := by
      rw [Chain.start hlinks, hns]
      cases ns <;> exact ⟨_, rfl⟩
    have hab : a ≠ b := by
      rintro rfl
      exact absurd (hb.symm.trans hp) nofun
    have hold : (setSym tp b (some ⟨none, if copied then some name else none, v, arg⟩)).heap a =
        some ⟨p, some name', w, arg'⟩ := (Function.update_of_ne hab ..).trans hp
    refine .inr ⟨ns, a, _, hns, hp, hab, ?_⟩
    simp only [hc, hns, List.getLast?_concat, setForw, hold, Option.bind_eq_bind,
      Option.bind_some]
    rfl

/-- A name is entered with a value, and nothing else changes, unless there is no memory for a
new symbol. -/
theorem Chained.symEnter (h : Chained code tp chains) (v : V) (arg : ℤ)
    (hm : Holds (hashIndex code tp) chains (info tp) m)
    (hfuel : (chains (hashIndex code tp name)).length < fuel) {memory : Option ℕ}
    (hmemory : ∀ b, memory = some b → tp.heap b = none) :
    ∃ tp' r, symEnter code fuel tp name v arg memory true = some (tp', r) ∧
      tp'.hash_size = tp.hash_size ∧
      ((r = none ∧ tp' = tp ∧ memory = none ∧ m name = none) ∨
        valueAt tp' r = some (name, v, arg) ∧ ∃ chains', Chained code tp' chains' ∧
          Holds (hashIndex code tp') chains' (info tp')
            (Function.update m name (some (v, arg)))) := by
  have hlinks := h.links _ (h.hash_lt name)
  have hnamed := h.named _ (h.hash_lt name)
  rcases h.buckets.find (h.hash_lt name) with habsent | ⟨xs, a, ys, ⟨w, arg'⟩, hsplit, hxs, hx⟩
  · cases memory with
    | none =>
      refine ⟨tp, none, ?_, rfl, .inl ⟨rfl, rfl, rfl, hm.absent habsent⟩⟩
      rw [SymTable.symEnter, scan_absent hlinks hnamed habsent hfuel]
      cases tp.hash_table (hashIndex code tp name) <;> rfl
    | some b =>
      have hb := hmemory b rfl
      rcases h.symEnter_absent v arg true habsent hfuel hb with
        ⟨hempty, henter⟩ | ⟨ns, a, s, hns, ha, hab, henter⟩
      · obtain ⟨chains', hchained, hholds⟩ := h.appendHead v arg hm hempty hb
        refine ⟨_, some b, henter, rfl, .inr ⟨?_, chains', hchained, hholds⟩⟩
        exact congrFun info_setSym b |>.trans (Function.update_self ..)
      · obtain ⟨chains', hchained, hholds⟩ := h.appendLast v arg hm habsent hns ha hb
        refine ⟨_, some b, henter, rfl, .inr ⟨?_, chains', hchained, hholds⟩⟩
        rw [valueAt, Option.bind_some, info_setSym, Function.update_of_ne (Ne.symm hab),
          info_setSym, Function.update_self]
        rfl
  · have hmem : a ∈ chains (hashIndex code tp name) :=
      hsplit ▸ List.mem_append_right _ List.mem_cons_self
    obtain ⟨p, hp⟩ := info_eq hx
    rw [hsplit] at hlinks hnamed hfuel
    obtain ⟨c, hc⟩ : ∃ c, tp.hash_table (hashIndex code tp name) = some c := by
      rw [Chain.start hlinks]
      cases xs <;> exact ⟨_, rfl⟩
    rw [SymTable.symEnter, scan_found hlinks hnamed hxs hp hfuel]
    obtain ⟨hchained, hholds⟩ := h.update v arg hm hmem hp
    refine ⟨setSym tp a (some ⟨p, some name, v, arg⟩), some a, ?_, rfl, .inr ⟨?_, chains, hchained,
      hholds⟩⟩
    · simp only [hc, Option.bind_eq_bind, Option.bind_some, hp]
      rfl
    · rw [valueAt, Option.bind_some, info_setSym, Function.update_self]
      rfl

theorem forwOf_setSym {t : Option (Sym V)} : forwOf (setSym tp a t).heap =
    Function.update (forwOf tp.heap) a (t.map Sym.forw) := by
  funext b
  by_cases hb : b = a
  · simp only [hb, forwOf, setSym, Function.update_self]
  · simp only [forwOf, setSym, Function.update_of_ne hb]

theorem Chained.remove (h : Chained code tp chains)
    (hm : Holds (hashIndex code tp) chains (info tp) m)
    (hsplit : chains (hashIndex code tp name) = xs ++ a :: ys)
    (hx : info tp a = some (name, v, arg)) (tp' : Table V) (hsize : tp'.hash_size = tp.hash_size)
    (hinfo : info tp' = info tp)
    (hforw : forwOf tp'.heap = relink (forwOf tp.heap) xs.getLast? ys.head?)
    (hhead : tp'.hash_table (hashIndex code tp name) = if xs = [] then ys.head?
      else tp.hash_table (hashIndex code tp name))
    (hothers : ∀ i, i ≠ hashIndex code tp name → tp'.hash_table i = tp.hash_table i) :
    ∃ chains', Chained code (setSym tp' a none) chains' ∧
      Holds (hashIndex code tp') chains' (info (setSym tp' a none))
        (Function.update m name none) := by
  have hlt := h.hash_lt name
  have hhash : hashIndex code tp' = hashIndex code tp := by
    funext name
    rw [hashIndex, hashIndex, hsize]
  have hinfo' : info (setSym tp' a none) = Function.update (info tp) a none := by
    rw [info_setSym, hinfo]
    rfl
  have hlinks := h.links _ hlt
  have hnodup := h.buckets.nodup _ hlt
  have hsome : info tp a ≠ none := hx ▸ Option.some_ne_none _
  have hbuckets := h.buckets.remove h.hash_lt hsplit hsome
  have hholds := hm.remove h.buckets h.hash_lt hsplit hx
  rw [← hinfo'] at hbuckets hholds
  refine ⟨Function.update chains (hashIndex code tp name) (xs ++ ys),
    ⟨hsize ▸ h.size_pos, fun i hi => ?_, fun i hi c hc => ?_, ?_⟩, hhash ▸ hholds⟩
  · replace hi : i < tp.hash_size := hsize ▸ hi
    rw [forwOf_setSym, hforw]
    by_cases hik : i = hashIndex code tp name
    · subst hik
      rw [hsplit] at hlinks hnodup
      have hrest := Segment.update (hlinks.remove hnodup)
        (h.buckets.nodup_split h.hash_lt hsplit).1 none
      rw [Function.update_self]
      exact hhead.symm ▸ hrest
    · have hother : ∀ c ∈ xs ++ a :: ys, c ∉ chains i := fun c hc hmem =>
        hik (h.buckets.one hi hlt hmem (hsplit ▸ hc) (h.named i hi _ hmem))
      have hrelinked : Chain (relink (forwOf tp.heap) xs.getLast? ys.head?) (tp.hash_table i)
          (chains i) := Segment.congr (h.links i hi) fun c hc => relink_of_ne fun hlast =>
        hother c (List.mem_append_left _ (List.mem_of_getLast? hlast)) hc
      rw [Function.update_of_ne hik]
      exact hothers i hik ▸ Segment.update hrelinked
        (hother a (List.mem_append_right _ List.mem_cons_self)) _
  · replace hi : i < tp.hash_size := hsize ▸ hi
    have hca := (h.buckets.mem_removed h.hash_lt hsplit hsome hi).mp hc
    rw [hinfo', Function.update_of_ne hca.1]
    exact h.named i hi c hca.2
  · rw [show hashIndex code (setSym tp' a none) = hashIndex code tp from hhash]
    exact hsize ▸ hbuckets

theorem Chained.symDelete (h : Chained code tp chains)
    (hm : Holds (hashIndex code tp) chains (info tp) m)
    (hfuel : (chains (hashIndex code tp name)).length < fuel) :
    ∃ tp' r, symDelete code fuel tp name = some (tp', r) ∧ tp'.hash_size = tp.hash_size ∧
      ((r = -1 ∧ tp' = tp ∧ m name = none) ∨ (r = 0 ∧ m name ≠ none ∧
        ∃ chains', Chained code tp' chains' ∧
          Holds (hashIndex code tp') chains' (info tp') (Function.update m name none))) := by
  have hlinks := h.links _ (h.hash_lt name)
  have hnamed := h.named _ (h.hash_lt name)
  rw [SymTable.symDelete]
  rcases h.buckets.find (h.hash_lt name) with habsent | ⟨xs, a, ys, ⟨v, arg⟩, hsplit, hxs, hx⟩
  · rw [scan_absent hlinks hnamed habsent hfuel]
    exact ⟨tp, -1, rfl, rfl, .inl ⟨rfl, rfl, hm.absent habsent⟩⟩
  have hmem : a ∈ chains (hashIndex code tp name) :=
    hsplit ▸ List.mem_append_right _ List.mem_cons_self
  have hsome : m name ≠ none := hm.present hmem hx ▸ nofun
  obtain ⟨p, hp⟩ := info_eq hx
  rw [hsplit] at hlinks hnamed hfuel
  obtain rfl : p = ys.head? := by
    have hpointer := hlinks.pointer
    rw [forwOf, hp] at hpointer
    exact Option.some_inj.mp hpointer
  rw [scan_found hlinks hnamed hxs hp hfuel]
  rcases List.eq_nil_or_concat xs with rfl | ⟨xs, c, rfl⟩
  · obtain ⟨chains', hchained, hholds⟩ := h.remove hm hsplit hx
      (setHead tp (hashIndex code tp name) ys.head?) rfl rfl rfl
      (Function.update_self ..) fun i hi => Function.update_of_ne hi ..
    refine ⟨setSym (setHead tp (hashIndex code tp name) ys.head?) a none, 0, ?_, rfl,
      .inr ⟨rfl, hsome, chains', hchained, hholds⟩⟩
    simp only [hp, Option.bind_eq_bind, Option.bind_some]
    rfl
  · rw [List.concat_eq_append] at *
    obtain ⟨⟨name', w, arg'⟩, hc⟩ := Option.ne_none_iff_exists'.mp
      (h.named _ (h.hash_lt name) c (by simp [hsplit]))
    obtain ⟨q, hq⟩ := info_eq hc
    have hforw : forwOf (setSym tp c (some ⟨ys.head?, some name', w, arg'⟩)).heap =
        relink (forwOf tp.heap) (xs ++ [c]).getLast? ys.head? := by
      rw [forwOf_setSym, List.getLast?_concat]
      rfl
    have hinfo : info (setSym tp c (some ⟨ys.head?, some name', w, arg'⟩)) = info tp := by
      rw [info_setSym, Function.update_eq_self_iff, hc]
      rfl
    obtain ⟨chains', hchained, hholds⟩ := h.remove hm hsplit hx
      (setSym tp c (some ⟨ys.head?, some name', w, arg'⟩)) rfl hinfo hforw
      (if_neg (by simp)).symm fun _ _ => rfl
    refine ⟨setSym (setSym tp c (some ⟨ys.head?, some name', w, arg'⟩)) a none, 0, ?_, rfl,
      .inr ⟨rfl, hsome, chains', hchained, hholds⟩⟩
    simp only [hp, List.getLast?_concat, setForw, hq, Option.bind_eq_bind, Option.bind_some]
    rfl

end SymTable

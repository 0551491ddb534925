import MyGitCode.SymTable
import MyGitCode.TransitionRuns
import Mathlib.NumberTheory.Bertrand
import Mathlib.Tactic.Common

/-! # Runs over the symbol table of `sym.c`

The table that `symOpen` makes, what it answers after any calls that enter and delete, and the
symbols that `symFirst` and `symNext` give. -/
namespace SymTable

open HashBuckets LinkChains TransitionRuns

variable {V : Type} {code : Char → BitVec 32} {tp : Table V} {chains : ℕ → List ℕ}
  {heap : ℕ → Option (Sym V)} {name : List Char} {m : List Char → Option (V × ℤ)}
  {a b i fuel : ℕ} {s : Sym V} {p last : Option ℕ} {xs ys ns : List ℕ} {v w : V} {arg : ℤ}

/-- The symbols that are still to come, from an entry and a symbol of its chain on. -/
def Ahead (tp : Table V) (chains : ℕ → List ℕ) (i : ℕ) (p : Option ℕ) (rest : List ℕ) : Prop :=
  (tp.hash_size ≤ i ∧ rest = []) ∨ (i < tp.hash_size ∧ ∃ ys, Chain (forwOf tp.heap) p ys ∧
    rest = ys ++ (List.range' (i + 1) (tp.hash_size - (i + 1))).flatMap chains)

def chainsFrom (tp : Table V) (chains : ℕ → List ℕ) (i : ℕ) : List ℕ :=
  (List.range' i (tp.hash_size - i)).flatMap chains

theorem chainsFrom_succ (hi : i < tp.hash_size) :
    chainsFrom tp chains i = chains i ++ chainsFrom tp chains (i + 1) := by
  have hsub : tp.hash_size - i = tp.hash_size - (i + 1) + 1 := by omega
  rw [chainsFrom, chainsFrom, hsub, List.range'_succ, List.flatMap_cons]

theorem Chained.ahead (h : Chained code tp chains) (i : ℕ) :
    Ahead tp chains i (tp.hash_table i) (chainsFrom tp chains i) := by
  by_cases hi : i < tp.hash_size
  · exact .inr ⟨hi, chains i, h.links i hi, chainsFrom_succ hi⟩
  · refine .inl ⟨Nat.not_lt.mp hi, ?_⟩
    rw [chainsFrom, Nat.sub_eq_zero_of_le (Nat.not_lt.mp hi)]
    rfl

theorem Chained.ahead_none (h : Chained code tp chains) {rest : List ℕ}
    (ha : Ahead tp chains i none rest) (hi : i < tp.hash_size) :
    Ahead tp chains (i + 1) (tp.hash_table (i + 1)) rest := by
  rcases ha with ⟨hle, -⟩ | ⟨-, ys, hys, rfl⟩
  · omega
  · obtain rfl : ys = [] := Chain.unique hys rfl
    exact h.ahead (i + 1)

theorem Chained.ahead_some (h : Chained code tp chains) {rest : List ℕ}
    (ha : Ahead tp chains i (some a) rest) (hi : i < tp.hash_size) :
    ∃ s ns, tp.heap a = some s ∧ rest = a :: ns ∧
      Ahead tp chains (advance tp i s.forw).htIndex (advance tp i s.forw).next ns := by
  rcases ha with ⟨hle, -⟩ | ⟨-, ys, hys, rfl⟩
  · omega
  cases ys with
  | nil => exact absurd hys nofun
  | cons b ys =>
    obtain ⟨hb, q, hq, hrest⟩ := hys
    obtain rfl := Option.some_inj.mp hb
    obtain ⟨s, hs, rfl⟩ := forwOf_eq hq
    refine ⟨s, _, hs, rfl, ?_⟩
    cases hforw : s.forw with
    | none =>
      rw [hforw] at hrest
      obtain rfl : ys = [] := Chain.unique hrest rfl
      exact h.ahead (i + 1)
    | some c =>
      rw [hforw] at hrest
      exact .inr ⟨hi, ys, hrest, rfl⟩

/-- A loop answers with the next symbol, if there is one, and has the others ahead. -/
def Answers (tp : Table V) (chains : ℕ → List ℕ) (rest : List ℕ)
    (r : Option (Cursor × Option ℕ)) : Prop :=
  ∃ c, r = some (c, rest.head?) ∧
    ∀ a ns, rest = a :: ns → Ahead tp chains c.htIndex c.next ns

theorem Chained.firstLoop (h : Chained code tp chains) (c : Cursor) {k : ℕ}
    (hk : i + k = tp.hash_size) :
    Answers tp chains (chainsFrom tp chains i) (firstLoop tp c k i) := by
  induction k generalizing i with
  | zero =>
    have hend : tp.hash_size - i = 0 := by omega
    rw [chainsFrom, hend]
    exact ⟨c, rfl, nofun⟩
  | succ k ih =>
    have hi : i < tp.hash_size := by omega
    have hahead := h.ahead i
    rw [SymTable.firstLoop]
    cases hhead : tp.hash_table i with
    | none =>
      have hempty : chains i = [] := Chain.unique (hhead ▸ h.links i hi) rfl
      rw [chainsFrom_succ hi, hempty, List.nil_append]
      exact ih (by omega)
    | some a =>
      rw [hhead] at hahead
      obtain ⟨s, ns, hs, hrest, hnext⟩ := h.ahead_some hahead hi
      rw [hrest]
      refine ⟨advance tp i s.forw, ?_, fun b ns' heq => ?_⟩
      · simp only [hs, Option.bind_eq_bind, Option.bind_some]
        rfl
      · obtain ⟨rfl, rfl⟩ := List.cons.inj heq
        exact hnext

theorem Chained.nextLoop (h : Chained code tp chains) {c : Cursor} {k : ℕ} {rest : List ℕ}
    (hk : k = tp.hash_size - i) (ha : Ahead tp chains i c.next rest) :
    Answers tp chains rest (nextLoop tp k i c) := by
  induction k generalizing i c with
  | zero =>
    obtain ⟨-, rfl⟩ := ha.resolve_right fun hlt => by omega
    exact ⟨c, rfl, nofun⟩
  | succ k ih =>
    have hi : i < tp.hash_size := by omega
    rw [SymTable.nextLoop]
    cases hnext : c.next with
    | none => exact ih (by omega) (h.ahead_none (hnext ▸ ha) hi)
    | some a =>
      obtain ⟨s, ns, hs, rfl, hns⟩ := h.ahead_some (hnext ▸ ha) hi
      refine ⟨advance tp i s.forw, ?_, fun b ns' heq => ?_⟩
      · simp only [hs, Option.bind_eq_bind, Option.bind_some]
        rfl
      · obtain ⟨rfl, rfl⟩ := List.cons.inj heq
        exact hns

theorem Chained.following (h : Chained code tp chains) {rest : List ℕ}
    {r : Cursor × Option ℕ} (hr : Answers tp chains rest (some r)) (hfuel : rest.length < fuel) :
    following tp fuel r = some rest := by
  induction rest generalizing r fuel with
  | nil =>
    obtain ⟨c, hc, -⟩ := hr
    obtain rfl := Option.some_inj.mp hc
    obtain ⟨fuel, rfl⟩ := Nat.exists_eq_add_one_of_ne_zero (Nat.ne_of_gt hfuel)
    rfl
  | cons a ns ih =>
    obtain ⟨c, hc, hahead⟩ := hr
    obtain rfl := Option.some_inj.mp hc
    obtain ⟨fuel, rfl⟩ := Nat.exists_eq_add_one_of_ne_zero (Nat.ne_of_gt (Nat.zero_lt_of_lt hfuel))
    have hanswers := h.nextLoop rfl (hahead a ns rfl)
    obtain ⟨c', hnext, -⟩ := id hanswers
    have hrest := ih (hnext ▸ hanswers) (Nat.lt_of_succ_lt_succ hfuel)
    rw [List.head?_cons, SymTable.following, symNext, hnext, Option.bind_eq_bind,
      Option.bind_some, hrest]
    rfl

theorem Chained.traverse (h : Chained code tp chains) (c : Cursor)
    (hfuel : ((List.range tp.hash_size).flatMap chains).length < fuel) :
    traverse fuel tp c = some ((List.range tp.hash_size).flatMap chains) := by
  have hall : chainsFrom tp chains 0 = (List.range tp.hash_size).flatMap chains := by
    rw [chainsFrom, Nat.sub_zero, List.range_eq_range']
  have hanswers := h.firstLoop c (Nat.zero_add tp.hash_size)
  obtain ⟨c', hfirst, -⟩ := id hanswers
  rw [hall] at hanswers hfirst
  rw [SymTable.traverse, symFirst, hfirst]
  exact h.following (hfirst ▸ hanswers) hfuel

theorem scan_mono {k : ℕ} {r : Option ℕ × Option ℕ} (h : scan heap name fuel last p = some r) :
    scan heap name (fuel + k) last p = some r := by
  induction fuel generalizing last p with
  | zero => exact absurd h nofun
  | succ fuel ih =>
    rw [Nat.add_right_comm]
    cases p with
    | none => exact h
    | some a =>
      simp only [scan, Option.bind_eq_bind, Option.bind_eq_some_iff] at h ⊢
      obtain ⟨s, hs, cp, hcp, h⟩ := h
      refine ⟨s, hs, cp, hcp, ?_⟩
      split
      · rename_i hname
        rw [if_pos hname] at h
        exact h
      · rename_i hname
        rw [if_neg hname] at h
        exact ih h

theorem symEnter_mono {k : ℕ} {memory : Option ℕ} {copied : Bool} {r : Table V × Option ℕ}
    (h : symEnter code fuel tp name v arg memory copied = some r) :
    symEnter code (fuel + k) tp name v arg memory copied = some r := by
  rw [symEnter, Option.bind_eq_bind, Option.bind_eq_some_iff] at h ⊢
  obtain ⟨x, hx, h⟩ := h
  exact ⟨x, scan_mono hx, h⟩

theorem symDelete_mono {k : ℕ} {r : Table V × ℤ} (h : symDelete code fuel tp name = some r) :
    symDelete code (fuel + k) tp name = some r := by
  rw [symDelete, Option.bind_eq_bind, Option.bind_eq_some_iff] at h ⊢
  obtain ⟨x, hx, h⟩ := h
  exact ⟨x, scan_mono hx, h⟩

inductive Event (V : Type) where
  | enter (name : List Char) (v : V) (arg : ℤ) (entered : Bool)
  | delete (name : List Char) (result : ℤ)
  deriving DecidableEq

/-- A new symbol is at an address that is not in use, and there is memory for the copy of its
name. Only names that are not empty are deleted. -/
inductive Step (code : Char → BitVec 32) : Table V → Event V → Table V → Prop where
  | enter {tp fuel name v arg memory tp' r} : (∀ b, memory = some b → tp.heap b = none) →
      symEnter code fuel tp name v arg memory true = some (tp', r) →
      Step code tp (.enter name v arg r.isSome) tp'
  | delete {tp fuel name tp' r} : name ≠ [] → symDelete code fuel tp name = some (tp', r) →
      Step code tp (.delete name r) tp'

/-- The table that `symOpen` makes, whatever else is in memory. -/
def Init (tp : Table V) : Prop :=
  0 < tp.hash_size ∧ ∀ i, i < tp.hash_size → tp.hash_table i = none

def bind (m : List Char → Option (V × ℤ)) : Event V → List Char → Option (V × ℤ)
  | .enter name v arg entered => if entered then Function.update m name (some (v, arg)) else m
  | .delete name _ => Function.update m name none

/-- The value that was last entered for a name that was not deleted after that. -/
def bindings (es : List (Event V)) : List Char → Option (V × ℤ) := es.foldl bind fun _ => none

variable {tp' : Table V} {e : Event V} {ts : List (Taken (Table V) (Event V))}

theorem bindings_concat (es : List (Event V)) (e : Event V) :
    bindings (es ++ [e]) = bind (bindings es) e := by
  rw [bindings, bindings, List.foldl_append, List.foldl_cons, List.foldl_nil]

theorem step_chained (h : Chained code tp chains)
    (hm : Holds (hashIndex code tp) chains (info tp) m) (he : Step code tp e tp') :
    ∃ chains', Chained code tp' chains' ∧ Holds (hashIndex code tp') chains' (info tp')
      (bind m e) := by
  cases he with
  | @enter fuel name v arg memory tp' r hmemory henter =>
    have hfuel : (chains (hashIndex code tp name)).length <
        fuel + ((chains (hashIndex code tp name)).length + 1) := by omega
    obtain ⟨u, r', hspec, -, hresult⟩ := h.symEnter v arg hm hfuel hmemory
    obtain ⟨rfl, rfl⟩ := Prod.mk.inj (Option.some_inj.mp (hspec.symm.trans (symEnter_mono henter)))
    rcases hresult with ⟨rfl, rfl, -⟩ | ⟨hvalue, hchained⟩
    · exact ⟨chains, h, hm⟩
    · have hsome : r'.isSome = true := by
        cases r' with
        | none => exact absurd hvalue nofun
        | some => rfl
      rw [bind, if_pos hsome]
      exact hchained
  | @delete fuel name tp' r hname hdelete =>
    have hfuel : (chains (hashIndex code tp name)).length <
        fuel + ((chains (hashIndex code tp name)).length + 1) := by omega
    obtain ⟨u, r', hspec, -, hresult⟩ := h.symDelete hm hfuel
    obtain ⟨rfl, rfl⟩ := Prod.mk.inj (Option.some_inj.mp (hspec.symm.trans
      (symDelete_mono hdelete)))
    rcases hresult with ⟨-, rfl, hnone⟩ | ⟨-, -, hchained⟩
    · refine ⟨chains, h, ?_⟩
      rw [bind, ← hnone, Function.update_eq_self]
      exact hm
    · exact hchained

theorem run_chained (h : Run Init (Step code) ts tp) :
    ∃ chains, Chained code tp chains ∧
      Holds (hashIndex code tp) chains (info tp) (bindings (ts.map Taken.event)) := by
  induction h with
  | start hinit =>
    exact ⟨fun _ => [], ⟨hinit.1, hinit.2, nofun, buckets_empty⟩, holds_empty⟩
  | snoc _ he ih =>
    obtain ⟨chains, hchained, hholds⟩ := ih
    rw [List.map_append, List.map_singleton, bindings_concat]
    exact step_chained hchained hholds he

theorem scan_nameless (h : Segment (forwOf heap) p xs (some b)) (hs : heap b = some s)
    (hnull : s.name = none) (hxs : ∀ a ∈ xs, ∀ t, heap a = some t → t.name ≠ some name) :
    scan heap name fuel last p = none := by
  induction xs generalizing fuel last p with
  | nil =>
    obtain rfl : p = some b := h
    cases fuel with
    | zero => rfl
    | succ fuel => simp [scan, hs, hnull]
  | cons a xs ih =>
    rw [List.forall_mem_cons] at hxs
    obtain ⟨rfl, r, hr, hrest⟩ := h
    obtain ⟨t, ht, rfl⟩ := forwOf_eq hr
    cases fuel with
    | zero => rfl
    | succ fuel =>
      cases hcp : t.name with
      | none => simp [scan, ht, hcp]
      | some cp =>
        have hne : cp ≠ name := fun heq => hxs.1 t ht (heq ▸ hcp)
        rw [scan_pass ht hcp hne]
        exact ih hrest hxs.2

theorem symEnter_nameless (h : Chained code tp chains) (v : V) (arg : ℤ)
    (habsent : ∀ a ∈ chains (hashIndex code tp name), ∀ x, info tp a = some x → x.1 ≠ name)
    (hfuel : (chains (hashIndex code tp name)).length < fuel) (hb : tp.heap b = none) :
    ∃ tp', symEnter code fuel tp name v arg (some b) false = some (tp', some b) ∧
      tp'.hash_size = tp.hash_size ∧
      Segment (forwOf tp'.heap) (tp'.hash_table (hashIndex code tp name))
        (chains (hashIndex code tp name)) (some b) ∧
      (tp'.heap b).map Sym.name = some none ∧
      ∀ a ∈ chains (hashIndex code tp name),
        (tp'.heap a).map Sym.name = (tp.heap a).map Sym.name := by
  have hnew : b ∉ chains (hashIndex code tp name) := fun hmem =>
    h.named _ (h.hash_lt name) _ hmem (by rw [info, hb]; rfl)
  rcases h.symEnter_absent v arg false habsent hfuel hb with
    ⟨hempty, henter⟩ | ⟨ns, a, s, hns, ha, hab, henter⟩
  · refine ⟨_, henter, rfl, ?_, ?_, ?_⟩
    · rw [hempty]
      exact Function.update_self ..
    · simp [setHead, setSym]
    · rw [hempty]
      exact fun c hc => absurd hc List.not_mem_nil
  · have hlinks := h.links _ (h.hash_lt name)
    have hnodup := h.buckets.nodup _ (h.hash_lt name)
    refine ⟨_, henter, rfl, ?_, ?_, fun c hc => ?_⟩
    · rw [hns] at hlinks hnodup hnew ⊢
      simp only [setSym, forwOf_update]
      exact (segment_append.mp (hlinks.push hnodup hnew)).elim fun r hr => hr.2.1 ▸ hr.1
    · simp [setSym, Function.update_of_ne hab.symm]
    · have hcb : c ≠ b := by
        rintro rfl
        exact hnew hc
      by_cases hca : c = a
      · simp [setSym, hca, ha]
      · simp [setSym, Function.update_of_ne hca, Function.update_of_ne hcb]

/-- After every run the table answers as the bindings do: a lookup gives the value that was
last entered (but for the empty name, which is entered and never found), a deletion succeeds
for the names that have a value, entering fails only for a new name without memory, and every
call ends. Where there is no memory for the copy of a new name it is entered all the same, and
a lookup of any name without a value in that chain goes through a null pointer. -/
theorem run_bindings (h : Run Init (Step code) ts tp) (name : List Char) :
    ∃ n, ∀ fuel, n ≤ fuel →
      (∃ r, symLookup code fuel tp name = some r ∧ valueAt tp r = if name = [] then none
        else (bindings (ts.map Taken.event) name).map (name, ·)) ∧
      (name ≠ [] → ∃ tp' r, symDelete code fuel tp name = some (tp', r) ∧
        r = if bindings (ts.map Taken.event) name = none then -1 else 0) ∧
      (∀ v arg memory, (∀ b, memory = some b → tp.heap b = none) →
        ∃ tp' r, symEnter code fuel tp name v arg memory true = some (tp', r) ∧
          (r = none → memory = none ∧ bindings (ts.map Taken.event) name = none)) ∧
      ∀ v arg b, tp.heap b = none → bindings (ts.map Taken.event) name = none →
        ∃ tp', symEnter code fuel tp name v arg (some b) false = some (tp', some b) ∧
          ∀ name', name' ≠ [] → hashIndex code tp name' = hashIndex code tp name →
            bindings (ts.map Taken.event) name' = none →
              ∀ fuel', symLookup code fuel' tp' name' = none := by
  obtain ⟨chains, hchained, hholds⟩ := run_chained h
  refine ⟨(chains (hashIndex code tp name)).length + 1, fun fuel hfuel =>
    ⟨?_, fun _ => ?_, fun v arg memory hmemory => ?_, fun v arg b hb hnone => ?_⟩⟩
  · exact hchained.symLookup hholds hfuel
  · obtain ⟨tp', r, hdelete, -, hresult⟩ := hchained.symDelete hholds hfuel
    refine ⟨tp', r, hdelete, ?_⟩
    rcases hresult with ⟨rfl, -, hnone⟩ | ⟨rfl, hsome, -⟩
    · rw [if_pos hnone]
    · rw [if_neg hsome]
  · obtain ⟨tp', r, henter, -, hresult⟩ := hchained.symEnter v arg hholds hfuel hmemory
    refine ⟨tp', r, henter, ?_⟩
    rcases hresult with ⟨-, -, hmem, hnone⟩ | ⟨hvalue, -⟩
    · exact fun _ => ⟨hmem, hnone⟩
    · rintro rfl
      exact absurd hvalue nofun
  · have habsent : ∀ name', hashIndex code tp name' = hashIndex code tp name →
        bindings (ts.map Taken.event) name' = none → ∀ a ∈ chains (hashIndex code tp name),
          ∀ x, info tp a = some x → x.1 ≠ name' := by
      rintro name' hhash hnone' a ha ⟨_, x⟩ hx rfl
      exact absurd (hholds.present (hhash ▸ ha) hx) (hnone' ▸ nofun)
    obtain ⟨tp', henter, hsize, hlinks, hnull, hnames⟩ :=
      symEnter_nameless hchained v arg (habsent name rfl hnone) hfuel hb
    refine ⟨tp', henter, fun name' hname' hhash hnone' fuel' => ?_⟩
    obtain ⟨s, hs, hnull⟩ := Option.map_eq_some_iff.mp hnull
    have hhash' : hashIndex code tp' name' = hashIndex code tp name := by
      rw [← hhash, hashIndex, hashIndex, hsize]
    rw [symLookup, if_neg hname', hhash', scan_nameless hlinks hs hnull fun a ha t ht hcp => ?_]
    · rfl
    · obtain ⟨⟨cp, w, arg'⟩, hx⟩ := Option.ne_none_iff_exists'.mp
        (hchained.named _ (hchained.hash_lt name) a ha)
      obtain ⟨p, hp⟩ := info_eq hx
      have hname := hnames a ha
      rw [ht, hp, Option.map_some, Option.map_some, Option.some_inj, hcp, Option.some_inj] at hname
      exact habsent name' hhash hnone' a ha _ hx hname.symm

def ascii (c : Char) : BitVec 32 := BitVec.ofNat 32 c.toNat

def opened : Table ℕ where
  hash_size := 3
  hash_table := fun i => if i < 3 then none else some 99
  heap := fun _ => none

/-- A table of three entries with two names in one chain, and another address behind it. -/
def twoNames : Table ℕ :=
  let tp := setHead (setSym opened 10 (some ⟨none, some ['a'], 7, 1⟩)) 1 (some 10)
  setSym (setSym tp 11 (some ⟨none, some ['d'], 8, 0⟩)) 10 (some ⟨some 11, some ['a'], 7, 1⟩)

theorem twoNames_run : ∃ ts, Run Init (Step ascii) ts twoNames ∧
    ts.map Taken.event = [.enter ['a'] 7 1 true, .enter ['d'] 8 0 true] := by
  have hstart : Run Init (Step ascii) [] opened := .start ⟨by decide, fun _ hi => if_pos hi⟩
  have hfirst := hstart.snoc (@Step.enter ℕ ascii opened 1 ['a'] 7 1 (some 10) _ (some 10)
    (fun _ _ => rfl) rfl)
  have hsecond := hfirst.snoc (@Step.enter ℕ ascii _ 2 ['d'] 8 0 (some 11) twoNames (some 11)
    (fun _ hb => Option.some_inj.mp hb ▸ rfl) rfl)
  exact ⟨_, hsecond, rfl⟩

theorem run_bindings_twoNames : ∃ n, ∀ fuel, n ≤ fuel →
    (∃ r, symLookup ascii fuel twoNames ['d'] = some r ∧ valueAt twoNames r = some (['d'], 8, 0)) ∧
    (∃ tp' r, symDelete ascii fuel twoNames ['d'] = some (tp', r) ∧ r = 0) ∧
    ∃ tp', symEnter ascii fuel twoNames ['g'] 9 0 (some 12) false = some (tp', some 12) ∧
      ∀ fuel', symLookup ascii fuel' tp' ['j'] = none := by
  obtain ⟨ts, hrun, hevents⟩ := twoNames_run
  obtain ⟨n, hn⟩ := run_bindings hrun ['d']
  obtain ⟨n', hn'⟩ := run_bindings hrun ['g']
  rw [hevents] at hn hn'
  refine ⟨max n n', fun fuel hfuel => ?_⟩
  obtain ⟨hlookup, hdelete, -⟩ := hn fuel (Nat.le_trans (Nat.le_max_left n n') hfuel)
  obtain ⟨-, -, -, hnull⟩ := hn' fuel (Nat.le_trans (Nat.le_max_right n n') hfuel)
  obtain ⟨tp', henter, hafter⟩ := hnull 9 0 12 rfl rfl
  exact ⟨hlookup, hdelete nofun, tp', henter, hafter ['j'] nofun rfl rfl⟩

/-- After every run a traversal ends and visits one symbol for each name that has a value and
no others, wherever the cursor was and whatever stands behind the table. -/
theorem traverse_bindings (h : Run Init (Step code) ts tp) (c : Cursor) :
    ∃ n ns, (∀ fuel, n ≤ fuel → traverse fuel tp c = some ns) ∧ ns.Nodup ∧
      (∀ a ∈ ns, info tp a ≠ none) ∧ ∀ name v arg,
        bindings (ts.map Taken.event) name = some (v, arg) ↔
          ∃! a, a ∈ ns ∧ info tp a = some (name, v, arg) := by
  obtain ⟨chains, hchained, hholds⟩ := run_chained h
  refine ⟨_, (List.range tp.hash_size).flatMap chains, fun fuel => hchained.traverse c,
    hchained.buckets.nodup_all hchained.named, fun a ha => ?_,
    fun name v arg => ?_⟩
  · obtain ⟨i, hi, ha⟩ := List.mem_flatMap.mp ha
    exact hchained.named i (List.mem_range.mp hi) a ha
  · rw [hholds.mem_all hchained.buckets hchained.hash_lt]
    constructor
    · rintro ⟨a, ha, hx⟩
      exact ⟨a, ⟨ha, hx⟩, fun b hb => hchained.buckets.unique_all hb.1 ha hb.2 hx⟩
    · rintro ⟨a, ⟨ha, hx⟩, -⟩
      exact ⟨a, ha, hx⟩

theorem traverse_bindings_twoNames : ∃ n ns,
    (∀ fuel, n ≤ fuel → traverse fuel twoNames ⟨5, some 99⟩ = some ns) ∧
      (∃! a, a ∈ ns ∧ info twoNames a = some (['a'], 7, 1)) ∧
      ∃! a, a ∈ ns ∧ info twoNames a = some (['d'], 8, 0) := by
  obtain ⟨ts, hrun, hevents⟩ := twoNames_run
  obtain ⟨n, ns, htraverse, -, -, hall⟩ := traverse_bindings hrun ⟨5, some 99⟩
  rw [hevents] at hall
  exact ⟨n, ns, htraverse, (hall ['a'] 7 1).mp rfl, (hall ['d'] 8 0).mp rfl⟩

theorem noDivisor_iff {n k i : ℕ} :
    noDivisor n k i = true ↔ ∀ j, i ≤ j → j < i + k → ¬ j ∣ n := by
  induction k generalizing i with
  | zero => exact ⟨fun _ j hij hj => absurd hj (Nat.not_lt.mpr hij), fun _ => rfl⟩
  | succ k ih =>
    rw [noDivisor]
    by_cases hmod : n % i = 0
    · rw [if_pos hmod]
      exact ⟨nofun, fun h => absurd (Nat.dvd_of_mod_eq_zero hmod)
        (h i (Nat.le_refl i) (Nat.lt_add_of_pos_right k.succ_pos))⟩
    · rw [if_neg hmod, ih]
      constructor
      · intro h j hij hj
        rcases Nat.eq_or_lt_of_le hij with rfl | hlt
        · exact fun hdvd => hmod (Nat.mod_eq_zero_of_dvd hdvd)
        · exact h j hlt (by omega)
      · exact fun h j hij hj => h j (by omega) (by omega)

theorem isPrime_iff {n : ℕ} (hn : 2 ≤ n) : isPrime n = true ↔ n.Prime := by
  rw [isPrime, noDivisor_iff, Nat.prime_def_lt']
  refine ⟨fun h => ⟨hn, fun j hj hlt hdvd => ?_⟩, fun h j hj hlt => h.2 j hj (by omega)⟩
  -- a divisor other than the number is not more than its half
  obtain ⟨q, rfl⟩ := hdvd
  have hq : 2 ≤ q := by
    rcases q with _ | _ | q
    · omega
    · omega
    · omega
  have hhalf : j ≤ j * q / 2 := by
    rw [Nat.le_div_iff_mul_le Nat.zero_lt_two]
    exact Nat.mul_le_mul_left j hq
  exact h j hj (by omega) (Nat.dvd_mul_right j q)

theorem calcPrime_largest {size : ℕ} (hsize : 2 ≤ size) :
    (calcPrime size).Prime ∧ calcPrime size ≤ size ∧
      ∀ p, p.Prime → p ≤ size → p ≤ calcPrime size := by
  induction size, hsize using Nat.le_induction with
  | base => exact ⟨Nat.prime_two, Nat.le_refl 2, fun _ _ hp => hp⟩
  | succ size hsize ih =>
    obtain ⟨hprime, hle, hlargest⟩ := ih
    rw [calcPrime]
    by_cases hp : isPrime (size + 1) = true
    · rw [if_pos hp]
      exact ⟨(isPrime_iff (by omega)).mp hp, Nat.le_refl _, fun _ _ hp => hp⟩
    · rw [if_neg hp]
      refine ⟨hprime, Nat.le_succ_of_le hle, fun p hpp hps => ?_⟩
      rcases Nat.lt_or_eq_of_le hps with hlt | rfl
      · exact hlargest p hpp (Nat.le_of_lt_succ hlt)
      · exact absurd ((isPrime_iff (by omega)).mpr hpp) hp

theorem hAlloc_found (map : Option (HandleTable.Table Tabent)) :
    0 ≤ (HandleTable.hAlloc true map).2 := by
  cases map <;> simp only [HandleTable.hAlloc, HandleTable.ensureTable, if_true] <;> split <;>
    exact Int.natCast_nonneg _

theorem makeHash_small (found : Bool) (rest : ℕ → Option ℕ) {hash_size : ℕ} (hsize : 2 ≤ hash_size)
    (hbytes : hash_size < 2 ^ 29) : makeHash found rest hash_size = if found then
      some ⟨calcPrime hash_size, fun i => if i < calcPrime hash_size then none else rest i⟩
    else none := by
  have hle := (calcPrime_largest hsize).2.1
  have hmod : Int.bmod (calcPrime hash_size * 4) 4294967296 = calcPrime hash_size * 4 :=
    Int.bmod_eq_of_le_mul_two (by omega) (by omega)
  have hneg : ¬ (calcPrime hash_size * 4 : ℤ) < 0 := by omega
  have hentry : ∀ i : ℕ, 4 * (i : ℤ) < calcPrime hash_size * 4 ↔ i < calcPrime hash_size :=
    fun i => by omega
  unfold makeHash
  simp only [hmod, hneg, hentry, false_or]
  cases found
  · simp
  · simp

/-- A table of less than 2^29 entries is asked for. There is no memory for its handle or its
entry, and nothing changes, or the least handle that is not in use gets an empty table, with the
largest prime as its size that was asked for at most, which is more than the half of it. Where
there is no memory for the hash table the code goes through a null pointer. -/
theorem symOpen_size {s : HandleTable.State Tabent} {m : ℕ → Option Tabent}
    (h : HandleTable.Represents s m) (ok entry : Bool) (rest : ℕ → Option ℕ) {hash_size : ℕ}
    (hsize : 2 < hash_size) (hbytes : hash_size < 2 ^ 29) :
    ((ok = false ∨ entry = false) ∧ ∃ t, HandleTable.Represents t m ∧
      ∀ found, symOpen ok entry found rest s hash_size = some (t, -1)) ∨
    (entry = true ∧ symOpen ok entry false rest s hash_size = none ∧
      ∃ (t : HandleTable.State Tabent) (n : ℕ) (tp : Tabent),
        symOpen ok entry true rest s hash_size = some (t, (n : ℤ)) ∧
        (m n = none ∧ ∀ j, j < n → m j ≠ none) ∧
        HandleTable.Represents t (Function.update m n (some tp)) ∧
        (∀ heap : ℕ → Option (Sym V), Init ⟨tp, heap⟩) ∧ tp.hash_size.Prime ∧
        tp.hash_size ≤ hash_size ∧ (∀ p, p.Prime → p ≤ hash_size → p ≤ tp.hash_size) ∧
        hash_size < 2 * tp.hash_size) := by
  obtain ⟨htable, hmax⟩ := h
  have hhash := fun found => makeHash_small found rest (Nat.le_of_lt hsize) hbytes
  obtain ⟨hprime, hle, hlargest⟩ := calcPrime_largest (Nat.le_of_lt hsize)
  rcases htable.hAlloc ok with hfail | ⟨mp, n, halloc, hholds, hn, hnone, hleast⟩
  · refine .inl ⟨.inl ?_, s, ⟨htable, hmax⟩, fun found => ?_⟩
    · rw [← Bool.not_eq_true]
      rintro rfl
      have hfound := hAlloc_found s.map
      rw [hfail] at hfound
      exact Int.not_lt.mpr hfound (Int.negSucc_lt_zero 0)
    · rw [symOpen, hfail]
      rfl
  have hpos : ¬ (n : ℤ) < 0 := Int.not_lt.mpr (Int.natCast_nonneg n)
  cases entry with
  | false =>
    have hfailed : HandleTable.Holds mp m (if (m n).isSome then 0 else 1) := by
      rw [hnone]
      exact hholds
    obtain ⟨map, r, hfree, htable', hmax'⟩ := hfailed.hFree hn
    rw [← hnone, Function.update_eq_self] at htable' hmax'
    refine .inl ⟨.inr rfl, ⟨map, r⟩, ⟨htable', hmax'⟩, fun found => ?_⟩
    simp only [symOpen, halloc, if_neg hpos, Int.toNat_natCast, hfree]
    rfl
  | true =>
    refine .inr ⟨rfl, ?_, ⟨_, if (n : ℤ) ≥ s.max then n + 1 else s.max⟩, n,
      ⟨calcPrime hash_size, fun i => if i < calcPrime hash_size then none else rest i⟩, ?_,
      ⟨hnone, hleast⟩, ⟨hholds.set hn hnone _, hmax.entry (Option.some_ne_none _)⟩,
      fun heap => ⟨hprime.pos, fun _ hi => if_pos hi⟩, hprime, hle, hlargest, ?_⟩
    · simp only [symOpen, halloc, if_neg hpos, hhash]
      rfl
    · simp only [symOpen, halloc, if_neg hpos, hhash]
      rfl
    · obtain ⟨p, hp, hlt, hle'⟩ := Nat.exists_prime_lt_and_le_two_mul (hash_size / 2) (by omega)
      have hp' : p ≤ calcPrime hash_size := hlargest p hp (by omega)
      show hash_size < 2 * calcPrime hash_size
      omega

/-- A table of ten entries at most gets the first handle, and one that finds no memory for its
entry leaves no handle in use. -/
theorem symOpen_size_ten :
    (∃ t tp, symOpen true true true (fun _ => none) ⟨none, 0⟩ 10 = some (t, 0) ∧
      HandleTable.Represents t (Function.update (fun _ => none) 0 (some tp)) ∧
      tp.hash_size = 7) ∧
    ∃ t, HandleTable.Represents t (fun _ => none) ∧
      symOpen true false true (fun _ => none) ⟨none, 0⟩ 10 = some (t, -1) := by
  have hinit : HandleTable.Represents ⟨none, 0⟩ fun _ => (none : Option Tabent) :=
    HandleTable.init_represents rfl
  constructor
  · obtain ⟨hfail, -⟩ | ⟨-, -, t, n, tp, hopen, ⟨-, hleast⟩, hrep, -, hprime, hle, hlargest, -⟩ :=
      symOpen_size (V := ℕ) hinit true true (fun _ => none) (show 2 < 10 by decide) (by decide)
    · exact absurd hfail (by decide)
    obtain rfl : n = 0 := by
      by_contra hn
      exact hleast 0 (Nat.pos_of_ne_zero hn) rfl
    have hseven := hlargest 7 (by norm_num) (by decide)
    refine ⟨t, tp, hopen, hrep, ?_⟩
    interval_cases hsize : tp.hash_size
    · rfl
    · exact absurd hprime (by norm_num)
    · exact absurd hprime (by norm_num)
    · exact absurd hprime (by norm_num)
  · obtain ⟨-, t, hrep, hopen⟩ | ⟨hentry, -⟩ :=
      symOpen_size (V := ℕ) hinit true false (fun _ => none) (show 2 < 10 by decide) (by decide)
    · exact ⟨t, hrep, hopen true⟩
    · exact absurd hentry (by decide)

end SymTable

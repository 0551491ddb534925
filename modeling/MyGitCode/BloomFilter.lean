import MyGitCode.CrawlUrls
import MyGitCode.MarkFilter
import MyGitCode.UrlHash
import MyGitCode.WordBitmap

/-! # `BloomFilter.cpp`

A table of words, in which eight hashes of a URL name eight bits. The words count their
bits from the highest one, which mirrors the bitmaps indexed from the lowest. -/
namespace BloomFilter

open CrawlUrls MarkFilter UrlHash

def hashFuncs : ℕ := 8

def bloomTableSize : ℕ := 1000000

abbrev Table := WordBitmap.Bitmap bloomTableSize

def emptyTable : Table := WordBitmap.empty bloomTableSize

/-- `BloomFilter::hash`, whose value stays 0 for an id outside the switch. -/
def hash (id : ℕ) (strUrl : List Char) : Word :=
  match id with
  | 0 => times33 strUrl
  | 1 => timesnum strUrl 31#32
  | 2 => aphash strUrl
  | 3 => hash16777619 strUrl
  | 4 => mysqlhash strUrl
  | 5 => crc32 strUrl
  | 6 => timesnum strUrl 131#32
  | 7 => timesnum strUrl 1313#32
  | _ => 0#32

def position (strUrl : List Char) (id : ℕ) : ℕ := (hash id strUrl).toNat % (bloomTableSize * 32)

def mask (bit : ℕ) : Word := 0x80000000#32 >>> bit

/-- One round of the loop of `exist`: a bit that is set counts, any other is set. -/
def round (strUrl : List Char) (state : ℕ × Table) (id : ℕ) : ℕ × Table :=
  let (one, table) := state
  let idx := position strUrl id / 32
  let bit := position strUrl id % 32
  if h : idx < bloomTableSize then
    if table[idx] &&& mask bit ≠ 0#32 then (one + 1, table)
    else (one, Vector.set table idx (table[idx] ||| mask bit))
  else state

def exist (table : Table) (strUrl : List Char) : Bool × Table :=
  let (one, table) := (List.range hashFuncs).foldl (round strUrl) (0, table)
  (one = hashFuncs, table)

def bloomFilter : UrlFilter Table := ⟨exist⟩

def tableAfter (table : Table) (urls : List (List Char)) : Table :=
  urls.foldl (fun table url => (exist table url).2) table

def answersOf (table : Table) : List (List Char) → List Bool
  | [] => []
  | url :: urls => (exist table url).1 :: answersOf (exist table url).2 urls

def bitSet (table : Table) (p : ℕ) : Bool :=
  if h : p / 32 < bloomTableSize then table[p / 32] &&& mask (p % 32) != 0#32 else false

variable {table : Table} {url : List Char} {urls : List (List Char)} {p q id : ℕ}

def mirror (p : ℕ) : ℕ := p / 32 * 32 + (31 - p % 32)

theorem mirror_div : mirror p / 32 = p / 32 := by
  simp only [mirror]
  omega

theorem mirror_inj : mirror p = mirror q ↔ p = q := by
  simp only [mirror]
  omega

theorem mask_mirror : mask (p % 32) = WordBitmap.mask (mirror p) := by
  have hall : ∀ k : Fin 32, mask k = 1#32 <<< (31 - (k : ℕ)) := by decide
  have hmod : mirror p % 32 = 31 - p % 32 := by
    simp only [mirror]
    omega
  rw [WordBitmap.mask, hmod]
  exact hall ⟨p % 32, Nat.mod_lt _ (by decide)⟩

theorem bitSet_eq : bitSet table p = WordBitmap.isSet table (mirror p) := by
  rw [bitSet, WordBitmap.isSet, mask_mirror]
  simp only [mirror_div]

theorem bitSet_empty : bitSet emptyTable p = false := by
  rw [bitSet_eq, emptyTable, WordBitmap.isSet_empty]

def marks (table : Table) : Finset ℕ :=
  (Finset.range (bloomTableSize * 32)).filter fun p => bitSet table p = true

theorem mem_marks (hp : p < bloomTableSize * 32) : p ∈ marks table ↔ bitSet table p = true := by
  rw [marks, Finset.mem_filter, Finset.mem_range]
  exact and_iff_right hp

theorem marks_empty : marks emptyTable = ∅ := by
  apply Finset.filter_false_of_mem
  intro p _
  simp [bitSet_empty]

theorem position_lt : position url id < bloomTableSize * 32 := Nat.mod_lt _ (by decide)

theorem index_lt : position url id / 32 < bloomTableSize := by
  have hlt : position url id < bloomTableSize * 32 := position_lt
  omega

theorem set_mirror (hp : p / 32 < bloomTableSize) : WordBitmap.set table (mirror p) =
    Vector.set table (p / 32) (table[p / 32] ||| mask (p % 32)) := by
  rw [WordBitmap.set, dif_pos (by rwa [mirror_div]), ← mask_mirror]
  simp only [mirror_div]

theorem round_eq {one : ℕ} : round url (one, table) id =
    if bitSet table (position url id) then (one + 1, table)
    else (one, WordBitmap.set table (mirror (position url id))) := by
  rw [round, dif_pos index_lt, bitSet, dif_pos index_lt, set_mirror index_lt]
  simp only [bne_iff_ne]

theorem marks_set (hp : p < bloomTableSize * 32) :
    marks (WordBitmap.set table (mirror p)) = insert p (marks table) := by
  ext q
  have hidx : mirror p / 32 < bloomTableSize := by
    rw [mirror_div]
    omega
  rw [Finset.mem_insert, marks, marks, Finset.mem_filter, Finset.mem_filter, bitSet_eq, bitSet_eq,
    WordBitmap.isSet_set hidx]
  simp only [mirror_inj, Bool.or_eq_true, decide_eq_true_eq, Finset.mem_range]
  constructor
  · rintro ⟨hq, rfl | hset⟩
    · exact .inl rfl
    · exact .inr ⟨hq, hset⟩
  · rintro (rfl | ⟨hq, hset⟩)
    · exact ⟨hp, .inl rfl⟩
    · exact ⟨hq, .inr hset⟩

theorem marks_round {one : ℕ} :
    marks (round url (one, table) id).2 = insert (position url id) (marks table) := by
  rw [round_eq]
  split
  · rename_i hset
    rw [Finset.insert_eq_of_mem ((mem_marks position_lt).mpr hset)]
  · exact marks_set position_lt

theorem count_round {one : ℕ} :
    (position url id ∈ marks table → (round url (one, table) id).1 = one + 1) ∧
      (position url id ∉ marks table → (round url (one, table) id).1 = one) := by
  rw [round_eq, mem_marks position_lt]
  constructor
  · intro hset
    rw [if_pos hset]
  · intro hclear
    rw [if_neg hclear]

/-- A bit set earlier in the call may be counted, but then the one that set it was not, so
only a call that finds all its bits counts them all. -/
theorem rounds_spec (url : List Char) (ids : List ℕ) (table : Table) (one : ℕ) :
    marks (ids.foldl (round url) (one, table)).2 =
        marks table ∪ (ids.map (position url)).toFinset ∧
      (ids.foldl (round url) (one, table)).1 ≤ one + ids.length ∧
      ((ids.foldl (round url) (one, table)).1 = one + ids.length ↔
        ∀ id ∈ ids, position url id ∈ marks table) := by
  induction ids generalizing one table with
  | nil => simp
  | cons id ids ih =>
    have hmarks : marks (round url (one, table) id).2 = insert (position url id) (marks table) :=
      marks_round
    obtain ⟨h₁, h₂, h₃⟩ := ih (round url (one, table) id).2 (round url (one, table) id).1
    rw [Prod.mk.eta] at h₁ h₂ h₃
    rw [List.foldl_cons, List.length_cons, List.forall_mem_cons]
    refine ⟨?_, ?_⟩
    · rw [h₁, hmarks]
      ext p
      simp
    · by_cases hset : position url id ∈ marks table
      · rw [hmarks, Finset.insert_eq_of_mem hset] at h₃
        rw [count_round.1 hset] at h₂ h₃
        refine ⟨by omega, ?_⟩
        constructor
        · intro hall
          exact ⟨hset, h₃.mp (by omega)⟩
        · intro hall
          have := h₃.mpr hall.2
          omega
      · rw [count_round.2 hset] at h₂
        refine ⟨by omega, ?_⟩
        constructor
        · intro hall
          omega
        · intro hall
          exact absurd hall.1 hset

def positions (url : List Char) : List ℕ := (List.range hashFuncs).map (position url)

theorem exist_query : (exist table url).1 = (query positions (marks table) url).1 ∧
    marks (exist table url).2 = (query positions (marks table) url).2 := by
  obtain ⟨hmarks, -, hall⟩ := rounds_spec url (List.range hashFuncs) table 0
  refine ⟨?_, hmarks⟩
  rw [Nat.zero_add, List.length_range] at hall
  rw [Bool.eq_iff_iff, query_eq_true]
  simp only [exist, decide_eq_true_eq, hall, positions, List.forall_mem_map]

theorem marks_tableAfter :
    marks (tableAfter table urls) = marksAfter positions (marks table) urls := by
  induction urls generalizing table with
  | nil => rfl
  | cons url urls ih =>
    rw [tableAfter, List.foldl_cons, ← tableAfter, ih, marksAfter, exist_query.2]

theorem answersOf_eq : answersOf table urls = answers positions (marks table) urls := by
  induction urls generalizing table with
  | nil => rfl
  | cons url urls ih => rw [answersOf, answers, ih, exist_query.1, exist_query.2]

theorem bitSet_tableAfter : bitSet (tableAfter emptyTable urls) p = true ↔
    ∃ earlier ∈ urls, ∃ id < hashFuncs, position earlier id = p := by
  by_cases hp : p < bloomTableSize * 32
  · rw [← mem_marks hp, marks_tableAfter, marks_empty, mem_marksAfter]
    simp [positions]
  · have hout : ¬ p / 32 < bloomTableSize := by omega
    rw [bitSet, dif_neg hout]
    refine ⟨nofun, ?_⟩
    rintro ⟨earlier, -, id, -, rfl⟩
    exact absurd position_lt hp

theorem exist_eq_true : (exist table url).1 = true ↔
    ∀ id < hashFuncs, bitSet table (position url id) = true := by
  rw [exist_query.1, query_eq_true]
  simp [positions, mem_marks position_lt]

theorem bitSet_exist : bitSet (exist table url).2 p = true ↔
    bitSet table p = true ∨ ∃ id < hashFuncs, position url id = p := by
  by_cases hp : p < bloomTableSize * 32
  · rw [← mem_marks hp, ← mem_marks hp, exist_query.2]
    simp [query, positions]
  · have hout : ¬ p / 32 < bloomTableSize := by omega
    rw [bitSet, dif_neg hout, bitSet, dif_neg hout]
    constructor
    · intro hset
      cases hset
    · rintro (hset | ⟨id, -, rfl⟩)
      · cases hset
      · exact absurd position_lt hp

theorem bloomFilter_remembers : Remembers bloomFilter fun table url =>
    ∀ id < hashFuncs, bitSet table (position url id) = true where
  keeps _ _ _ hknown id hid := bitSet_exist.mpr (.inl (hknown id hid))
  learns _ _ id hid := bitSet_exist.mpr (.inr ⟨id, hid, rfl⟩)
  answers _ _ hknown := exist_eq_true.mpr hknown

/-- What a call answers after earlier ones, and what it leaves. -/
structure CallSound (earlier : List (List Char)) (url : List Char) : Prop where
  answer : (exist (tableAfter emptyTable earlier) url).1 = true ↔
    ∀ id < hashFuncs, bitSet (tableAfter emptyTable earlier) (position url id) = true
  set_by : ∀ p, bitSet (tableAfter emptyTable earlier) p = true ↔
    ∃ e ∈ earlier, ∃ id < hashFuncs, position e id = p
  sets : ∀ id < hashFuncs,
    bitSet (exist (tableAfter emptyTable earlier) url).2 (position url id) = true
  keeps : ∀ p, bitSet (tableAfter emptyTable earlier) p = true →
    bitSet (exist (tableAfter emptyTable earlier) url).2 p = true
  found : url ∈ earlier → (exist (tableAfter emptyTable earlier) url).1 = true
  index : ∀ id < hashFuncs, position url id / 32 < 1000000

/-- Every call is sound, at most 32000000 of any sequence of calls miss, and no URL string
is let through to the raw queue twice. -/
theorem exist_sound : (∀ earlier url, CallSound earlier url) ∧
    (∀ urls, (answersOf emptyTable urls).count false ≤ 32000000) ∧
    ∀ plugins urls, ((accepted bloomFilter plugins emptyTable urls).map (·.strUrl)).Nodup := by
  refine ⟨?_, ?_, ?_⟩
  · intro earlier url
    refine ⟨exist_eq_true, fun p => bitSet_tableAfter, ?_, ?_, ?_, fun id _ => index_lt⟩
    · intro id hid
      exact bitSet_exist.mpr (.inr ⟨id, hid, rfl⟩)
    · intro p hp
      exact bitSet_exist.mpr (.inl hp)
    · intro hurl
      rw [exist_query.1, marks_tableAfter]
      exact query_of_mem hurl
  · intro urls
    have hmisses : (answers positions ∅ urls).count false + (∅ : Finset ℕ).card ≤
        (marksAfter positions ∅ urls).card := misses_add_card
    have hcard : (marksAfter positions ∅ urls).card ≤ bloomTableSize * 32 := by
      rw [← marks_empty, ← marks_tableAfter]
      exact (Finset.card_filter_le _ _).trans (Finset.card_range _).le
    rw [answersOf_eq, marks_empty]
    have hsize : bloomTableSize * 32 = 32000000 := rfl
    omega
  · intro plugins urls
    exact bloomFilter_remembers.accepted_nodup

end BloomFilter

import MyGitCode.Balloc

/-! # The blocks of the allocator

Each block is handed out from the pool, in the queue of its class, or taken from `malloc`. What
the functions do to the blocks and the queues, from a memory where the blocks are apart. -/
namespace BallocBlocks

open Balloc ByteMemory LinkChains

inductive Status where
  | used | queued | malloced
  deriving DecidableEq, Repr

structure Block where
  q : ℕ
  status : Status
  deriving DecidableEq, Repr

def Block.bytes (x : Block) : ℕ := 2 ^ (B_SHIFT + x.q)

def Block.extent (L : Layout) (x : Block) : ℕ := x.bytes + L.bType

def Apart (a m b n : ℕ) : Prop := a + m ≤ b ∨ b + n ≤ a ∨ m = 0 ∨ n = 0

/-- What the code reads of the header of a block, but for the link of a queued one. -/
def HeaderOf (L : Layout) (mem : Memory Cell) (a : ℕ) (x : Block) : Prop :=
  match x.status with
  | .used => blockSize L mem a = some (x.bytes : ℤ) ∧ blockFlags L mem a = some B_INTEGRITY
  | .malloced => blockSize L mem a = some (x.bytes : ℤ) ∧
      blockFlags L mem a = some (B_MALLOCED ||| B_INTEGRITY)
  | .queued => blockFlags L mem a = some B_FILL_WORD

/-- The addresses of the pool are none that `malloc` can give out. -/
def Kept (reserved : Set ℕ) (s : State) (base : ℕ) : Prop :=
  s.heap base = some s.bFreeSize.toNat ∨
    ∀ x, base ≤ x → x < base + s.bFreeSize.toNat → x ∈ reserved

/-- The pool starts at `base`. The blocks that are not from `malloc` lie in the part of it that
has been handed out. -/
structure PoolAt (L : Layout) (reserved : Set ℕ) (s : State) (blocks : ℕ → Option Block)
    (base : ℕ) : Prop where
  buf : s.bFreeBuf = some base
  start : base ≤ s.bFreeNext
  left : (s.bFreeNext : ℤ) + s.bFreeLeft = base + s.bFreeSize
  left_nonneg : 0 ≤ s.bFreeLeft
  kept : Kept reserved s base
  inside : ∀ a x, blocks a = some x → x.status ≠ .malloced →
    base ≤ a ∧ a + x.extent L ≤ s.bFreeNext ∧ x.q < B_MAX_CLASS
  outside : ∀ a x, blocks a = some x → x.status = .malloced →
    s.heap a = some (x.extent L) ∧ Apart a (x.extent L) base s.bFreeSize.toNat

/-- The pool, the blocks and the queues. `reserved` is the memory of the program that is not
from `malloc`. -/
structure Sound (L : Layout) (reserved : Set ℕ) (s : State) (blocks : ℕ → Option Block)
    (queue : ℕ → List ℕ) : Prop where
  pool : ∃ base, PoolAt L reserved s blocks base
  apart : ∀ a b x y, blocks a = some x → blocks b = some y → a ≠ b →
    Apart a (x.extent L) b (y.extent L)
  headers : ∀ a x, blocks a = some x → HeaderOf L s.mem a x
  chains : ∀ q, Chain (blockNext L s.mem) (s.bQhead q) (queue q)
  queues : ∀ q, (queue q).Nodup ∧ ∀ a, a ∈ queue q ↔ blocks a = some ⟨q, .queued⟩

variable {L : Layout} {reserved : Set ℕ} {malloc : Malloc} {s t : State}
  {blocks : ℕ → Option Block} {queue : ℕ → List ℕ} {a b q : ℕ} {x y : Block}
  {mem mem' : Memory Cell}

theorem Apart.symm {m n : ℕ} (h : Apart a m b n) : Apart b n a m := by
  rw [Apart] at h ⊢
  omega

theorem extent_eq (L : Layout) (x : Block) : x.extent L = x.bytes + L.bType := rfl

theorem bytes_pos (x : Block) : 0 < x.bytes := Nat.two_pow_pos _

theorem HeaderOf.congr (h : HeaderOf L mem a x)
    (hsame : ∀ y, a ≤ y → y < a + L.bType → mem' y = mem y) : HeaderOf L mem' a x := by
  obtain ⟨-, hsize, hflags⟩ := header_congr hsame
  rw [HeaderOf] at h ⊢
  rw [hsize, hflags]
  exact h

theorem HeaderOf.held (h : HeaderOf L mem a x) (hx : x.status ≠ .queued) :
    blockSize L mem a = some (x.bytes : ℤ) ∧ ∃ bits, blockFlags L mem a = some bits ∧
      bits &&& B_INTEGRITY_MASK = B_INTEGRITY ∧
      (bits &&& B_MALLOCED ≠ 0 ↔ x.status = .malloced) := by
  obtain ⟨q, status⟩ := x
  cases status with
  | used => exact ⟨h.1, _, h.2, by decide, by simp [B_INTEGRITY, B_MALLOCED]⟩
  | malloced => exact ⟨h.1, _, h.2, by decide, by simp [B_INTEGRITY, B_MALLOCED]⟩
  | queued => exact absurd rfl hx

theorem Sound.congr (h : Sound L reserved s blocks queue)
    (hsame : ∀ a x, blocks a = some x → ∀ y, a ≤ y → y < a + L.bType → mem' y = s.mem y) :
    Sound L reserved { s with mem := mem' } blocks queue where
  pool := h.pool.imp fun _ p => ⟨p.buf, p.start, p.left, p.left_nonneg, p.kept, p.inside,
    p.outside⟩
  apart := h.apart
  headers := fun a x hx => (h.headers a x hx).congr (hsame a x hx)
  chains := fun q => Segment.congr (h.chains q) fun a ha =>
    (header_congr (hsame a _ (((h.queues q).2 a).mp ha))).1
  queues := h.queues

theorem Sound.data (h : Sound L reserved s blocks queue) (ha : blocks a = some x)
    (hsame : ∀ y, y < a + L.bType ∨ a + x.extent L ≤ y → mem' y = s.mem y) :
    Sound L reserved { s with mem := mem' } blocks queue := by
  refine h.congr fun b y hb z hz hz' => hsame z ?_
  by_cases hab : a = b
  · subst hab
    exact .inl hz'
  · have hapart := h.apart a b x y ha hb hab
    rw [Apart] at hapart
    rw [extent_eq L y] at hapart
    have := extent_eq L x
    omega

theorem Sound.headers_update (h : Sound L reserved s blocks queue) (hx : HeaderOf L mem' a x)
    (hsame : ∀ y, (y < a ∨ a + L.bType ≤ y) → mem' y = s.mem y)
    (hapart : ∀ b y, blocks b = some y → a ≠ b → Apart a (x.extent L) b (y.extent L)) :
    ∀ b y, Function.update blocks a (some x) b = some y → HeaderOf L mem' b y := by
  intro b y hb
  by_cases hab : b = a
  · subst hab
    rw [Function.update_self, Option.some_inj] at hb
    exact hb ▸ hx
  · rw [Function.update_of_ne hab] at hb
    refine (h.headers b y hb).congr fun z hz hz' => hsame z ?_
    have := hapart b y hb (Ne.symm hab)
    rw [Apart, extent_eq, extent_eq] at this
    omega

theorem apart_update
    (hblocks : ∀ a b x y, blocks a = some x → blocks b = some y → a ≠ b →
      Apart a (x.extent L) b (y.extent L))
    (hapart : ∀ b y, blocks b = some y → a ≠ b → Apart a (x.extent L) b (y.extent L)) :
    ∀ b c y z, Function.update blocks a (some x) b = some y →
      Function.update blocks a (some x) c = some z → b ≠ c →
      Apart b (y.extent L) c (z.extent L) := by
  intro b c y z hb hc hbc
  by_cases hab : b = a
  · subst hab
    rw [Function.update_self, Option.some_inj] at hb
    rw [Function.update_of_ne (Ne.symm hbc)] at hc
    exact hb ▸ hapart c z hc hbc
  · rw [Function.update_of_ne hab] at hb
    by_cases hac : c = a
    · subst hac
      rw [Function.update_self, Option.some_inj] at hc
      exact hc ▸ (hapart b y hb (Ne.symm hbc)).symm
    · rw [Function.update_of_ne hac] at hc
      exact hblocks b c y z hb hc hbc

theorem chain_update
    (hsame : ∀ y, (y < a ∨ a + L.bType ≤ y) → mem' y = s.mem y)
    (hapart : ∀ b y, blocks b = some y → a ≠ b → Apart a (x.extent L) b (y.extent L))
    {p : Option ℕ} {ns : List ℕ} (hns : ∀ b ∈ ns, blocks b ≠ none) (ha : a ∉ ns)
    (hchain : Chain (blockNext L s.mem) p ns) : Chain (blockNext L mem') p ns := by
  refine Segment.congr hchain fun b hb => (header_congr fun z hz hz' => hsame z ?_).1
  obtain ⟨y, hy⟩ := Option.ne_none_iff_exists'.mp (hns b hb)
  have hab : a ≠ b := fun hab => ha (hab ▸ hb)
  have := hapart b y hy hab
  rw [Apart, extent_eq, extent_eq] at this
  omega

theorem Sound.queued_some (h : Sound L reserved s blocks queue) (hb : b ∈ queue q) :
    blocks b ≠ none := by
  rw [((h.queues q).2 b).mp hb]
  exact nofun

theorem Sound.not_queued (h : Sound L reserved s blocks queue)
    (ha : ∀ x, blocks a = some x → x.status ≠ .queued) : a ∉ queue q :=
  fun hmem => ha _ (((h.queues q).2 a).mp hmem) rfl

theorem PoolAt.extend {base : ℕ} (h : PoolAt L reserved s blocks base)
    (hbuf : t.bFreeBuf = s.bFreeBuf) (hsize : t.bFreeSize = s.bFreeSize)
    (hnext : s.bFreeNext ≤ t.bFreeNext)
    (hleft : (t.bFreeNext : ℤ) + t.bFreeLeft = s.bFreeNext + s.bFreeLeft)
    (hnonneg : 0 ≤ t.bFreeLeft) (hheap : ∀ b n, s.heap b = some n → t.heap b = some n)
    (hinside : x.status ≠ .malloced →
      base ≤ a ∧ a + x.extent L ≤ t.bFreeNext ∧ x.q < B_MAX_CLASS)
    (houtside : x.status = .malloced →
      t.heap a = some (x.extent L) ∧ Apart a (x.extent L) base s.bFreeSize.toNat) :
    PoolAt L reserved t (Function.update blocks a (some x)) base where
  buf := hbuf.trans h.buf
  start := h.start.trans hnext
  left := by rw [hleft, h.left, hsize]
  left_nonneg := hnonneg
  kept := by
    rw [Kept, hsize]
    exact h.kept.imp_left (hheap base _)
  inside := fun b y hb hy => by
    by_cases hab : b = a
    · subst hab
      rw [Function.update_self, Option.some_inj] at hb
      subst hb
      exact hinside hy
    · rw [Function.update_of_ne hab] at hb
      obtain ⟨hstart, hend, hq⟩ := h.inside b y hb hy
      exact ⟨hstart, hend.trans hnext, hq⟩
  outside := fun b y hb hy => by
    rw [hsize]
    by_cases hab : b = a
    · subst hab
      rw [Function.update_self, Option.some_inj] at hb
      subst hb
      exact houtside hy
    · rw [Function.update_of_ne hab] at hb
      obtain ⟨hheapb, hapart⟩ := h.outside b y hb hy
      exact ⟨hheap b _ hheapb, hapart⟩

theorem Sound.hand (h : Sound L reserved s blocks queue) {queue' : ℕ → List ℕ} (base : ℕ)
    (hpool : PoolAt L reserved t (Function.update blocks a (some x)) base)
    (hx : HeaderOf L t.mem a x) (hstatus : x.status ≠ .queued)
    (hsame : ∀ y, (y < a ∨ a + L.bType ≤ y) → t.mem y = s.mem y)
    (hapart : ∀ b y, blocks b = some y → a ≠ b → Apart a (x.extent L) b (y.extent L))
    (hchains : ∀ q, Chain (blockNext L s.mem) (t.bQhead q) (queue' q))
    (hqueues : ∀ q, (queue' q).Nodup ∧ ∀ b, b ∈ queue' q ↔ b ≠ a ∧ b ∈ queue q) :
    Sound L reserved t (Function.update blocks a (some x)) queue' where
  pool := ⟨base, hpool⟩
  apart := apart_update h.apart hapart
  headers := h.headers_update hx hsame hapart
  chains := fun q => chain_update hsame hapart
    (fun _ hb => h.queued_some (((hqueues q).2 _).mp hb).2)
    (fun ha => (((hqueues q).2 a).mp ha).1 rfl) (hchains q)
  queues := fun q => by
    refine ⟨(hqueues q).1, fun b => ?_⟩
    rw [(hqueues q).2, (h.queues q).2]
    by_cases hb : b = a
    · subst hb
      rw [Function.update_self, Option.some_inj]
      exact ⟨fun hab => absurd rfl hab.1, fun hab => absurd (congrArg Block.status hab) hstatus⟩
    · rw [Function.update_of_ne hb]
      exact and_iff_right hb

/-- A block that was handed out: the first one of its queue, or one with new memory. -/
structure Handed (L : Layout) (reserved : Set ℕ) (s t : State) (blocks : ℕ → Option Block)
    (queue : ℕ → List ℕ) (q a : ℕ) (x : Block) : Prop where
  sound : Sound L reserved t (Function.update blocks a (some x))
    (Function.update queue q (queue q).tail)
  status : x.status ≠ .queued
  q_eq : x.q = q
  first : ∀ b ∈ (queue q).head?, a = b
  fresh : queue q = [] → blocks a = none
  same : ∀ y, (y < a ∨ a + L.bType ≤ y) → t.mem y = s.mem y
  count : t.bopenCount = s.bopenCount

theorem takeBlock_header {memSize : ℤ} {flags : BitVec 32} (hsize : memSize = x.extent L)
    (hflags : flags = if x.status = .malloced then B_MALLOCED else 0)
    (hstatus : x.status ≠ .queued) :
    HeaderOf L (takeBlock L s a memSize flags).1.mem a x := by
  obtain ⟨q, status⟩ := x
  have hbytes : memSize - L.bType = ((Block.mk q status).bytes : ℤ) := by
    rw [hsize, extent_eq]
    push_cast
    omega
  subst hflags
  cases status with
  | used => exact ⟨hbytes ▸ blockSize_storeHeader, blockFlags_storeHeader.trans (by simp)⟩
  | malloced => exact ⟨hbytes ▸ blockSize_storeHeader, blockFlags_storeHeader.trans (by simp)⟩
  | queued => exact absurd rfl hstatus

theorem takeBlock_same {memSize : ℤ} {flags : BitVec 32} :
    ∀ y, (y < a ∨ a + L.bType ≤ y) → (takeBlock L s a memSize flags).1.mem y = s.mem y :=
  fun _ hy => storeHeader_outside hy

theorem Sound.take_queued (h : Sound L reserved s blocks queue) {ns : List ℕ}
    (hq : queue q = a :: ns) :
    blockNext L s.mem a = some ns.head? ∧ s.bQhead q = some a ∧
      Handed L reserved s (takeBlock L { s with bQhead := Function.update s.bQhead q ns.head? } a
        (Block.extent L ⟨q, .used⟩) 0).1 blocks queue q a ⟨q, .used⟩ := by
  have hchain := h.chains q
  rw [hq] at hchain
  obtain ⟨hhead, p, hp, hrest⟩ := hchain
  have hstart : p = ns.head? := Chain.start hrest
  have ha : blocks a = some ⟨q, .queued⟩ := ((h.queues q).2 a).mp (hq ▸ List.mem_cons_self)
  have hnodup := (h.queues q).1
  rw [hq] at hnodup
  refine ⟨hstart ▸ hp, hhead, ?_, nofun, rfl, by simp [hq], by simp [hq], takeBlock_same,
    rfl⟩
  obtain ⟨base, hpool⟩ := h.pool
  refine h.hand base ?_ (takeBlock_header rfl rfl nofun) nofun takeBlock_same
    (fun b y hb hab => h.apart a b ⟨q, .queued⟩ y ha hb hab) ?_ ?_
  · exact hpool.extend rfl rfl (Nat.le_refl _) rfl hpool.left_nonneg (fun _ _ hb => hb)
      (fun _ => hpool.inside a ⟨q, .queued⟩ ha nofun) nofun
  · intro r
    by_cases hr : r = q
    · subst hr
      simp only [takeBlock, Function.update_self, hq, List.tail_cons, ← hstart]
      exact hrest
    · simpa [takeBlock, hr] using h.chains r
  · intro r
    by_cases hr : r = q
    · subst hr
      rw [List.nodup_cons] at hnodup
      simp only [Function.update_self, hq, List.tail_cons, List.mem_cons]
      refine ⟨hnodup.2, fun b => ⟨fun hb => ⟨?_, .inr hb⟩, fun hb => hb.2.resolve_left hb.1⟩⟩
      rintro rfl
      exact hnodup.1 hb
    · rw [Function.update_of_ne hr]
      refine ⟨(h.queues r).1, fun b => ⟨fun hb => ⟨?_, hb⟩, And.right⟩⟩
      rintro rfl
      have hclass := ha.symm.trans (((h.queues r).2 b).mp hb)
      exact hr (congrArg Block.q (Option.some_inj.mp hclass)).symm

theorem Sound.queues_new (h : Sound L reserved s blocks queue) (hq : queue q = [])
    (ha : blocks a = none) :
    (∀ r, Function.update queue q (queue q).tail r = queue r) ∧
      ∀ r, (queue r).Nodup ∧ ∀ b, b ∈ queue r ↔ b ≠ a ∧ b ∈ queue r := by
  refine ⟨fun r => ?_, fun r => ⟨(h.queues r).1, fun b => ⟨fun hb => ⟨?_, hb⟩, And.right⟩⟩⟩
  · rw [hq, List.tail_nil, ← hq, Function.update_eq_self]
  · rintro rfl
    exact h.queued_some hb ha

theorem Sound.take_pool (h : Sound L reserved s blocks queue) (hq : q < B_MAX_CLASS)
    (hempty : queue q = []) (hleft : (Block.extent L ⟨q, .used⟩ : ℤ) < s.bFreeLeft) :
    Handed L reserved s (takeBlock L
      { s with bFreeNext := s.bFreeNext + Block.extent L ⟨q, .used⟩
               bFreeLeft := s.bFreeLeft - Block.extent L ⟨q, .used⟩ } s.bFreeNext
      (Block.extent L ⟨q, .used⟩) 0).1 blocks queue q s.bFreeNext ⟨q, .used⟩ := by
  obtain ⟨base, hpool⟩ := h.pool
  have hpos := bytes_pos ⟨q, .used⟩
  have hextent := extent_eq L ⟨q, .used⟩
  have hstart := hpool.start
  have htotal := hpool.left
  have hapart : ∀ b y, blocks b = some y → Apart s.bFreeNext (Block.extent L ⟨q, .used⟩) b
      (y.extent L) := by
    intro b y hb
    by_cases hy : y.status = .malloced
    · have := (hpool.outside b y hb hy).2
      rw [Apart] at this ⊢
      omega
    · exact .inr (.inl (hpool.inside b y hb hy).2.1)
  have hnone : blocks s.bFreeNext = none := by
    by_contra hsome
    obtain ⟨y, hy⟩ := Option.ne_none_iff_exists'.mp hsome
    have := hapart _ y hy
    have := bytes_pos y
    have := extent_eq L y
    rw [Apart] at *
    omega
  obtain ⟨hsame, hqueues⟩ := h.queues_new hempty hnone
  refine ⟨?_, nofun, rfl, by simp [hempty], fun _ => hnone, takeBlock_same, rfl⟩
  rw [funext hsame]
  refine h.hand base (hpool.extend rfl rfl ?_ ?_ ?_ (fun _ _ hb => hb) (fun _ => ?_)
    nofun) (takeBlock_header rfl rfl nofun) nofun takeBlock_same (fun b y hb _ => hapart b y hb)
    (fun r => h.chains r) hqueues
  · exact Nat.le_add_right _ _
  · simp only [takeBlock]
    push_cast
    omega
  · simp only [takeBlock]
    omega
  · exact ⟨hstart, Nat.le_refl _, hq⟩

/-- What `malloc` gives has no byte in common with what it gave before or with the memory of
the program. -/
structure MallocOk (reserved : Set ℕ) (malloc : Malloc) : Prop where
  fresh : ∀ heap n a, malloc heap n = some a → heap a = none ∧
    (∀ b m, heap b = some m → Apart a n b m) ∧ ∀ x, a ≤ x → x < a + n → x ∉ reserved

theorem MallocOk.apart_pool (hm : MallocOk reserved malloc) {n base : ℕ} (hn : 0 < n)
    (ha : malloc s.heap n = some a) (hkept : Kept reserved s base) :
    Apart a n base s.bFreeSize.toNat := by
  obtain ⟨-, hapart, hreserved⟩ := hm.fresh _ _ _ ha
  rcases hkept with hheap | hpool
  · exact hapart _ _ hheap
  · by_contra hmeet
    rw [Apart] at hmeet
    have hmax := hreserved (max a base)
    exact hmax (by omega) (by omega) (hpool _ (by omega) (by omega))

theorem Sound.take_malloc (h : Sound L reserved s blocks queue) (hm : MallocOk reserved malloc)
    (hempty : queue q = []) (ha : malloc s.heap (Block.extent L ⟨q, .malloced⟩) = some a) :
    Handed L reserved s (takeBlock L
      { s with heap := Function.update s.heap a (some (Block.extent L ⟨q, .malloced⟩)) } a
      (Block.extent L ⟨q, .malloced⟩) B_MALLOCED).1 blocks queue q a ⟨q, .malloced⟩ := by
  obtain ⟨base, hpool⟩ := h.pool
  obtain ⟨hnone, hheap, -⟩ := hm.fresh _ _ _ ha
  have hpos := bytes_pos ⟨q, .malloced⟩
  have hextent := extent_eq L ⟨q, .malloced⟩
  have hout := hm.apart_pool (by omega) ha hpool.kept
  have hapart : ∀ b y, blocks b = some y → Apart a (Block.extent L ⟨q, .malloced⟩) b
      (y.extent L) := by
    intro b y hb
    by_cases hy : y.status = .malloced
    · exact hheap _ _ (hpool.outside b y hb hy).1
    · obtain ⟨hstart, hend, -⟩ := hpool.inside b y hb hy
      have := hpool.left
      have := hpool.left_nonneg
      rw [Apart] at *
      omega
  have hblock : blocks a = none := by
    by_contra hsome
    obtain ⟨y, hy⟩ := Option.ne_none_iff_exists'.mp hsome
    have := hapart _ y hy
    have := bytes_pos y
    have := extent_eq L y
    rw [Apart] at *
    omega
  obtain ⟨hsame, hqueues⟩ := h.queues_new hempty hblock
  refine ⟨?_, nofun, rfl, by simp [hempty], fun _ => hblock, takeBlock_same, rfl⟩
  rw [funext hsame]
  refine h.hand base (hpool.extend rfl rfl (Nat.le_refl _) rfl hpool.left_nonneg
    (fun b n hb => ?_) (fun hne => absurd rfl hne) fun _ => ⟨Function.update_self .., hout⟩)
    (takeBlock_header rfl rfl nofun) nofun takeBlock_same (fun b y hb _ => hapart b y hb)
    (fun r => h.chains r) hqueues
  have hne : b ≠ a := by
    rintro rfl
    exact absurd (hnone.symm.trans hb) nofun
  simp only [takeBlock, Function.update_of_ne hne, hb]

variable {size : ℤ}

theorem Sound.ensureOpen_eq (h : Sound L reserved s blocks queue) :
    ensureOpen malloc s = (s, 0) := by
  obtain ⟨base, hpool⟩ := h.pool
  rw [ensureOpen, hpool.buf]
  exact if_neg nofun

theorem Sound.mallocBlock (h : Sound L reserved s blocks queue) (hm : MallocOk reserved malloc)
    (hempty : queue q = []) :
    mallocBlock L malloc s (Block.extent L ⟨q, .malloced⟩) = (s, none) ∨
      ∃ t a x, mallocBlock L malloc s (Block.extent L ⟨q, .malloced⟩) =
        (t, some (a + L.bType)) ∧ Handed L reserved s t blocks queue q a x := by
  rw [Balloc.mallocBlock]
  split
  · exact .inl rfl
  · cases ha : malloc s.heap (Block.extent L ⟨q, .malloced⟩) with
    | none =>
      rw [sysMalloc_none ha]
      exact .inl rfl
    | some a =>
      rw [sysMalloc_some ha]
      exact .inr ⟨_, a, ⟨q, .malloced⟩, rfl, h.take_malloc hm hempty ha⟩

theorem Sound.takeClass (h : Sound L reserved s blocks queue) (hm : MallocOk reserved malloc)
    {n : ℕ} (hn : ∀ status, n = Block.extent L ⟨q, status⟩) :
    (takeClass L malloc s n q = some (s, none) ∧ queue q = []) ∨
      ∃ t a x, takeClass L malloc s n q = some (t, some (a + L.bType)) ∧
        Handed L reserved s t blocks queue q a x := by
  have hnew : queue q = [] → ∀ r, r = some (Balloc.mallocBlock L malloc s n) →
      (r = some (s, none) ∧ queue q = []) ∨ ∃ t a x, r = some (t, some (a + L.bType)) ∧
        Handed L reserved s t blocks queue q a x := by
    intro hempty r hr
    have hmalloc := h.mallocBlock hm hempty
    rw [← hn] at hmalloc
    rcases hmalloc with hfail | ⟨t, a, x, htake, hhand⟩
    · exact .inl ⟨hr.trans (congrArg some hfail), hempty⟩
    · exact .inr ⟨t, a, x, hr.trans (congrArg some htake), hhand⟩
  rw [Balloc.takeClass]
  by_cases hq : q ≥ B_MAX_CLASS
  · refine hnew ?_ _ (if_pos hq)
    obtain ⟨base, hpool⟩ := h.pool
    refine List.eq_nil_iff_forall_not_mem.mpr fun a ha => ?_
    exact absurd (hpool.inside a _ (((h.queues q).2 a).mp ha) nofun).2.2 (Nat.not_lt.mpr hq)
  rw [if_neg hq]
  cases hqueue : queue q with
  | cons a ns =>
    obtain ⟨hnext, hhead, hhand⟩ := h.take_queued hqueue
    rw [← hn] at hhand
    refine .inr ⟨_, a, ⟨q, .used⟩, ?_, hhand⟩
    simp only [hhead, hnext, Option.bind_eq_bind, Option.bind_some]
    rfl
  | nil =>
    have hchain := h.chains q
    rw [hqueue] at hchain hnew
    have hhead : s.bQhead q = none := hchain
    by_cases hleft : s.bFreeLeft > n
    · have hhand := h.take_pool (Nat.not_le.mp hq) hqueue (hn .used ▸ hleft)
      rw [← hn] at hhand
      refine .inr ⟨_, s.bFreeNext, ⟨q, .used⟩, ?_, hhand⟩
      simp only [hhead, if_pos hleft, Int.toNat_natCast]
      rfl
    · refine hnew rfl _ ?_
      simp only [hhead, if_neg hleft]
      rfl

theorem extent_classOf (L : Layout) (size : ℤ) : (2 : ℤ) ^ (B_SHIFT + classOf size) + L.bType =
    (Block.extent L ⟨classOf size, .used⟩ : ℕ) := by
  rw [extent_eq, Block.bytes]
  push_cast
  rfl

theorem Sound.balloc (h : Sound L reserved s blocks queue) (hm : MallocOk reserved malloc)
    (hsize : size ≤ 2 ^ 30) :
    (balloc L malloc s size = some (s, none) ∧ (size < 0 ∨ queue (classOf size) = [])) ∨
      ∃ t a x, balloc L malloc s size = some (t, some (a + L.bType)) ∧ 0 ≤ size ∧
        Handed L reserved s t blocks queue (classOf size) a x := by
  simp only [Balloc.balloc, h.ensureOpen_eq, ballocGetSize_eq hsize, Int.lt_irrefl, false_or]
  by_cases hneg : size < 0
  · exact .inl ⟨if_pos hneg, .inl hneg⟩
  rw [if_neg hneg, extent_classOf]
  have hany : ∀ status, Block.extent L ⟨classOf size, .used⟩ =
      Block.extent L ⟨classOf size, status⟩ := fun _ => rfl
  rcases h.takeClass hm hany with ⟨hfail, hempty⟩ | ⟨t, a, x, htake, hhand⟩
  · exact .inl ⟨hfail, .inr hempty⟩
  · exact .inr ⟨t, a, x, htake, Int.not_lt.mp hneg, hhand⟩

theorem Sound.balloc_queued (h : Sound L reserved s blocks queue) (malloc : Malloc)
    (hnonneg : 0 ≤ size) (hsize : size ≤ 2 ^ 30) {ns : List ℕ}
    (hqueue : queue (classOf size) = a :: ns) :
    ∃ t, Balloc.balloc L malloc s size = some (t, some (a + L.bType)) ∧
      Sound L reserved t (Function.update blocks a (some ⟨classOf size, .used⟩))
        (Function.update queue (classOf size) ns) ∧
      t.bFreeLeft = s.bFreeLeft ∧ t.heap = s.heap := by
  obtain ⟨base, hpool⟩ := h.pool
  have ha := ((h.queues _).2 a).mp (hqueue ▸ List.mem_cons_self)
  have hclass : ¬ classOf size ≥ B_MAX_CLASS := Nat.not_le.mpr (hpool.inside a _ ha nofun).2.2
  obtain ⟨hnext, hhead, hhand⟩ := h.take_queued hqueue
  have hsound := hhand.sound
  rw [hqueue, List.tail_cons] at hsound
  refine ⟨_, ?_, hsound, rfl, rfl⟩
  simp only [Balloc.balloc, h.ensureOpen_eq, ballocGetSize_eq hsize, Int.lt_irrefl, false_or,
    if_neg (Int.not_lt.mpr hnonneg), Balloc.takeClass, if_neg hclass, hhead, hnext, extent_classOf,
    Option.bind_eq_bind, Option.bind_some]
  rfl

theorem classOf_bytes (x : Block) : classOf (x.bytes : ℤ) = x.q := by
  rw [Block.bytes]
  push_cast
  exact classOf_pow x.q

theorem queueBlock_same : ∀ y, (y < a ∨ a + L.bType ≤ y) → (queueBlock L s a q).mem y = s.mem y :=
  fun _ hy => storeHeader_outside hy

theorem Sound.queueBlock (h : Sound L reserved s blocks queue) (ha : blocks a = some ⟨q, .used⟩) :
    Sound L reserved (queueBlock L s a q) (Function.update blocks a (some ⟨q, .queued⟩))
      (Function.update queue q (a :: queue q)) := by
  obtain ⟨base, hpool⟩ := h.pool
  have hapart : ∀ b y, blocks b = some y → a ≠ b → Apart a (Block.extent L ⟨q, .queued⟩) b
      (y.extent L) := fun b y hb hab => h.apart a b ⟨q, .used⟩ y ha hb hab
  have hnew : ∀ r, a ∉ queue r := fun r => h.not_queued fun x hx => by
    rw [ha, Option.some_inj] at hx
    exact hx ▸ nofun
  have hrest : ∀ r, Chain (blockNext L (Balloc.queueBlock L s a q).mem) (s.bQhead r) (queue r) :=
    fun r => chain_update queueBlock_same hapart (fun _ hb => h.queued_some hb) (hnew r)
      (h.chains r)
  refine ⟨⟨base, hpool.extend rfl rfl (Nat.le_refl _) rfl hpool.left_nonneg (fun _ _ hb => hb)
    (fun _ => hpool.inside a ⟨q, .used⟩ ha nofun) nofun⟩, apart_update h.apart hapart,
    h.headers_update blockFlags_storeHeader queueBlock_same hapart, fun r => ?_, fun r => ?_⟩
  · by_cases hr : r = q
    · subst hr
      rw [Function.update_self]
      exact ⟨Function.update_self .., _, blockNext_storeHeader, hrest r⟩
    · rw [Function.update_of_ne hr]
      have hhead : (Balloc.queueBlock L s a q).bQhead r = s.bQhead r := Function.update_of_ne hr ..
      exact hhead ▸ hrest r
  · by_cases hr : r = q
    · subst hr
      rw [Function.update_self, List.nodup_cons]
      refine ⟨⟨hnew r, (h.queues r).1⟩, fun b => ?_⟩
      by_cases hb : b = a
      · subst hb
        simp
      · rw [List.mem_cons, Function.update_of_ne hb, ← (h.queues r).2]
        simp [hb]
    · rw [Function.update_of_ne hr]
      refine ⟨(h.queues r).1, fun b => ?_⟩
      by_cases hb : b = a
      · subst hb
        simp [hnew r, Ne.symm hr]
      · rw [Function.update_of_ne hb]
        exact (h.queues r).2 b

theorem Sound.release (h : Sound L reserved s blocks queue)
    (ha : blocks a = some ⟨q, .malloced⟩) :
    Sound L reserved { s with heap := Function.update s.heap a none }
      (Function.update blocks a none) queue := by
  obtain ⟨base, hpool⟩ := h.pool
  have hpos := bytes_pos ⟨q, .malloced⟩
  have hextent := extent_eq L ⟨q, .malloced⟩
  obtain ⟨hheap, hout⟩ := hpool.outside a _ ha rfl
  have hback : ∀ b y, Function.update blocks a none b = some y → b ≠ a ∧ blocks b = some y := by
    intro b y hb
    by_cases hab : b = a
    · subst hab
      exact absurd (Function.update_self b none blocks ▸ hb) nofun
    · exact ⟨hab, Function.update_of_ne hab none blocks ▸ hb⟩
  refine ⟨⟨base, hpool.buf, hpool.start, hpool.left, hpool.left_nonneg, ?_, fun b y hb =>
    hpool.inside b y (hback b y hb).2, fun b y hb hy => ?_⟩, fun b c y z hb hc =>
    h.apart b c y z (hback b y hb).2 (hback c z hc).2, fun b y hb => h.headers b y (hback b y hb).2,
    h.chains, fun r => ⟨(h.queues r).1, fun b => ?_⟩⟩
  · refine hpool.kept.imp_left fun hbase => ?_
    have hne : base ≠ a := by
      rintro rfl
      have hsize := Option.some_inj.mp (hbase.symm.trans hheap)
      rw [Apart] at hout
      omega
    exact (Function.update_of_ne hne ..).trans hbase
  · obtain ⟨hne, hb⟩ := hback b y hb
    obtain ⟨hheapb, hapart⟩ := hpool.outside b y hb hy
    exact ⟨(Function.update_of_ne hne ..).trans hheapb, hapart⟩
  · by_cases hab : b = a
    · subst hab
      have hnew : b ∉ queue r := h.not_queued fun x hx => by
        rw [ha, Option.some_inj] at hx
        exact hx ▸ nofun
      simp [hnew]
    · rw [Function.update_of_ne hab]
      exact (h.queues r).2 b

/-- What freeing a block does: it goes to the head of the queue of its class or back to
`malloc`, and nothing happens if it is in a queue already. -/
theorem Sound.bfree (h : Sound L reserved s blocks queue) (ha : blocks a = some x) :
    bfree L s (a + L.bType) = match x.status with
      | .used => some (Balloc.queueBlock L s a x.q)
      | .malloced => some { s with heap := Function.update s.heap a none }
      | .queued => some s := by
  obtain ⟨base, hpool⟩ := h.pool
  have hheader := h.headers a x ha
  obtain ⟨q, status⟩ := x
  rw [Balloc.bfree, Nat.add_sub_cancel]
  cases status with
  | queued =>
    simp only [show blockFlags L s.mem a = some B_FILL_WORD from hheader]
    rfl
  | used =>
    obtain ⟨hsize, hflags⟩ := hheader
    have hq : ¬ q ≥ B_MAX_CLASS := Nat.not_le.mpr (hpool.inside a _ ha nofun).2.2
    simp only [hsize, hflags, Option.bind_eq_bind, Option.bind_some, ballocGetSize, classOf_bytes,
      if_neg hq]
    rfl
  | malloced =>
    obtain ⟨hsize, hflags⟩ := hheader
    have hheap := (hpool.outside a _ ha rfl).1
    simp only [hsize, hflags, Option.bind_eq_bind, Option.bind_some, sysFree, hheap]
    rfl

theorem Sound.free (h : Sound L reserved s blocks queue) (ha : blocks a = some x)
    (hx : x.status ≠ .queued) :
    ∃ t blocks' queue', Balloc.bfree L s (a + L.bType) = some t ∧
      Sound L reserved t blocks' queue' ∧ (∀ b, b ≠ a → blocks' b = blocks b) ∧
      (∀ y, (y < a ∨ a + L.bType ≤ y) → t.mem y = s.mem y) ∧ t.bopenCount = s.bopenCount := by
  have hfree := h.bfree ha
  obtain ⟨q, status⟩ := x
  cases status with
  | used => exact ⟨_, _, _, hfree, h.queueBlock ha, fun b hb => Function.update_of_ne hb _ _,
      queueBlock_same, rfl⟩
  | malloced => exact ⟨_, _, _, hfree, h.release ha, fun b hb => Function.update_of_ne hb _ _,
      fun _ _ => rfl, rfl⟩
  | queued => exact absurd rfl hx

theorem Sound.data_apart (h : Sound L reserved s blocks queue) (ha : blocks a = some x)
    (hb : blocks b = some y) (hab : a ≠ b) {i : ℕ} (hi : i < x.bytes) :
    a + L.bType + i < b ∨ b + y.extent L ≤ a + L.bType + i := by
  have hapart := h.apart a b x y ha hb hab
  have := extent_eq L x
  have := bytes_pos y
  have := extent_eq L y
  rw [Apart] at hapart
  omega

theorem Handed.new (hhand : Handed L reserved s t blocks queue q b y)
    (h : Sound L reserved s blocks queue) (ha : blocks a = some x) (hx : x.status ≠ .queued) :
    a ≠ b := by
  rintro rfl
  cases hqueue : queue q with
  | nil => exact absurd (ha.symm.trans (hhand.fresh hqueue)) nofun
  | cons c ns =>
    have hc : a = c := hhand.first c (by rw [hqueue]; rfl)
    have hqueued := ((h.queues q).2 c).mp (hqueue ▸ List.mem_cons_self)
    rw [← hc, ha, Option.some_inj] at hqueued
    exact hx (congrArg Block.status hqueued)

/-- A block that is too small is copied to a new one and freed, or stays where there is none. -/
theorem Sound.brealloc (h : Sound L reserved s blocks queue) (hm : MallocOk reserved malloc)
    {newsize : ℤ} (hsize : newsize ≤ 2 ^ 30) (ha : blocks a = some x) (hx : x.status ≠ .queued) :
    (newsize ≤ x.bytes ∧
      brealloc L malloc s (some (a + L.bType)) newsize = some (s, some (a + L.bType))) ∨
    (brealloc L malloc s (some (a + L.bType)) newsize = some (s, none)) ∨
    ∃ t blocks' queue' b y,
      brealloc L malloc s (some (a + L.bType)) newsize = some (t, some (b + L.bType)) ∧
      Sound L reserved t blocks' queue' ∧ a ≠ b ∧ (∀ x, blocks b = some x → x.status = .queued) ∧
      blocks' b = some y ∧ y.status ≠ .queued ∧ newsize ≤ y.bytes ∧ x.bytes ≤ y.bytes ∧
      (∀ c, c ≠ a → c ≠ b → blocks' c = blocks c) ∧ t.bopenCount = s.bopenCount ∧
      (∀ i, i < x.bytes → t.mem (b + L.bType + i) = s.mem (a + L.bType + i)) ∧
      ∀ c z, blocks c = some z → z.status ≠ .queued → c ≠ a → ∀ i, i < z.bytes →
        t.mem (c + L.bType + i) = s.mem (c + L.bType + i) := by
  obtain ⟨hblock, -⟩ := (h.headers a x ha).held hx
  simp only [Balloc.brealloc, Nat.add_sub_cancel, hblock, Option.bind_eq_bind, Option.bind_some]
  by_cases hfits : (x.bytes : ℤ) ≥ newsize
  · exact .inl ⟨hfits, if_pos hfits⟩
  simp only [if_neg hfits]
  rcases h.balloc hm hsize with ⟨hfail, -⟩ | ⟨t, b, y, htake, hnonneg, hhand⟩
  · exact .inr (.inl (by simp only [hfail, Option.bind_some]; rfl))
  have hab : a ≠ b := hhand.new h ha hx
  have ha' : Function.update blocks b (some y) a = some x :=
    (Function.update_of_ne hab ..).trans ha
  have hb' : Function.update blocks b (some y) b = some y := Function.update_self ..
  have hroom : newsize ≤ y.bytes := by
    have hclass := size_le_class newsize
    rw [Block.bytes, hhand.q_eq]
    push_cast
    exact hclass
  have hmore : x.bytes ≤ y.bytes := by omega
  obtain ⟨hblock', -⟩ := (hhand.sound.headers a x ha').held hx
  have hcopy := @memcpy_same t.mem x.bytes (b + L.bType) (a + L.bType)
  have hsound := hhand.sound.data hb' fun z hz => hcopy z (by have := extent_eq L y; omega)
  obtain ⟨u, blocks', queue', hfree, hsound', hblocks', hmem, hcount⟩ := hsound.free ha' hx
  replace hmem : ∀ z, (z < a ∨ a + L.bType ≤ z) →
    u.mem z = memcpy t.mem (b + L.bType) (a + L.bType) x.bytes z := hmem
  refine .inr (.inr ⟨u, blocks', queue', b, y, ?_, hsound', hab, fun x' hx' => ?_,
    (hblocks' b (Ne.symm hab)).trans hb', hhand.status, hroom, hmore, fun c hca hcb => ?_,
    hcount.trans hhand.count, fun i hi => ?_, fun c z hc hz hca i hi => ?_⟩)
  · simp only [htake, Option.bind_some, hblock', Int.toNat_natCast, hfree]
    rfl
  · by_contra hused
    exact hhand.new h hx' hused rfl
  · exact (hblocks' c hca).trans (Function.update_of_ne hcb ..)
  · have hout := hhand.sound.data_apart (L := L) hb' ha' (Ne.symm hab) (i := i) (by omega)
    have := extent_eq L x
    have hin := hhand.sound.data_apart (L := L) ha' hb' hab hi
    have := extent_eq L y
    rw [hmem _ (by omega), memcpy_copied hi, hhand.same _ (by omega)]
  · have hcb : c ≠ b := hhand.new h hc hz
    have hc' : Function.update blocks b (some y) c = some z :=
      (Function.update_of_ne hcb ..).trans hc
    have hout := hhand.sound.data_apart hc' hb' hcb hi
    have hout' := hhand.sound.data_apart hc' ha' hca hi
    have := extent_eq L x
    have := extent_eq L y
    rw [hmem _ (by omega), hcopy _ (by omega), hhand.same _ (by omega)]

/-- Before the first `bopen`, whatever else is in memory. -/
def Closed (s : State) : Prop := s.bFreeBuf = none ∧ s.bopenCount = 0

theorem setPool_sound {base : ℕ} {bufsize : ℤ} (hsize : 0 ≤ bufsize)
    (hkept : Kept reserved (setPool s base bufsize) base) :
    Sound L reserved (setPool s base bufsize) (fun _ => none) fun _ => [] where
  pool := ⟨base, rfl, Nat.le_refl _, rfl, hsize, hkept, nofun, nofun⟩
  apart := nofun
  headers := nofun
  chains := fun _ => rfl
  queues := fun _ => ⟨.nil, fun _ => ⟨nofun, nofun⟩⟩

theorem openPool_sound {buf : Option ℕ} {bufsize : ℤ} (hnone : s.bFreeBuf = none)
    (hcount : s.bopenCount = 1)
    (hbuf : ∀ b, buf = some b → 0 ≤ bufsize ∧ ∀ x, b ≤ x → x < b + bufsize.toNat → x ∈ reserved) :
    ∃ t result, openPool malloc s buf bufsize = (t, result) ∧
      ((Closed t ∧ result < 0) ∨ (0 < t.bopenCount ∧ result = 0 ∧
        Sound L reserved t (fun _ => none) fun _ => [])) := by
  have hopen : 0 < s.bopenCount := by omega
  have hfail : Closed { s with bopenCount := s.bopenCount - 1 } := ⟨hnone, by simp [hcount]⟩
  cases buf with
  | some b =>
    obtain ⟨hsize, hreserved⟩ := hbuf b rfl
    exact ⟨_, _, rfl, .inr ⟨hopen, rfl, setPool_sound hsize (.inr hreserved)⟩⟩
  | none =>
    simp only [openPool]
    generalize (if bufsize = 0 then B_DEFAULT_MEM else bufsize) = n
    by_cases hn : n < 0
    · simp only [sysMalloc, if_pos hn]
      exact ⟨_, _, rfl, .inl ⟨hfail, by decide⟩⟩
    · obtain ⟨n, rfl⟩ := Int.eq_ofNat_of_zero_le (Int.not_lt.mp hn)
      cases ha : malloc s.heap n with
      | none =>
        simp only [sysMalloc_none ha]
        exact ⟨_, _, rfl, .inl ⟨hfail, by decide⟩⟩
      | some a =>
        simp only [sysMalloc_some ha]
        refine ⟨_, _, rfl, .inr ⟨hopen, rfl, setPool_sound (Int.natCast_nonneg n) (.inl ?_)⟩⟩
        exact Function.update_self ..

theorem bopen_sound (L : Layout) (malloc : Malloc) {buf : Option ℕ} {bufsize : ℤ}
    (flags : BitVec 32) (hclosed : Closed s)
    (hbuf : ∀ b, buf = some b → 0 ≤ bufsize ∧ ∀ x, b ≤ x → x < b + bufsize.toNat → x ∈ reserved) :
    ∃ t result, bopen malloc s buf bufsize flags = (t, result) ∧
      ((Closed t ∧ result < 0) ∨ (0 < t.bopenCount ∧ result = 0 ∧
        Sound L reserved t (fun _ => none) fun _ => [])) := by
  obtain ⟨hnone, hcount⟩ := hclosed
  have hfirst : ¬ s.bopenCount + 1 > 1 := by omega
  simp only [bopen, if_neg hfirst]
  exact openPool_sound hnone (by simp only [hcount]; rfl) hbuf

theorem Sound.bopen (h : Sound L reserved s blocks queue) (hcount : 0 < s.bopenCount)
    (malloc : Malloc) (buf : Option ℕ) (bufsize : ℤ) (flags : BitVec 32) :
    bopen malloc s buf bufsize flags =
      ({ s with bFlags := flags, bopenCount := s.bopenCount + 1 }, 0) ∧
      Sound L reserved { s with bFlags := flags, bopenCount := s.bopenCount + 1 } blocks queue := by
  have hagain : s.bopenCount + 1 > 1 := by omega
  refine ⟨?_, h.pool.imp fun _ p => ⟨p.buf, p.start, p.left, p.left_nonneg, p.kept, p.inside,
    p.outside⟩, h.apart, h.headers, h.chains, h.queues⟩
  simp only [Balloc.bopen, if_pos hagain]

theorem Sound.bclose (h : Sound L reserved s blocks queue) (hcount : 1 < s.bopenCount) :
    bclose s = some { s with bopenCount := s.bopenCount - 1 } ∧
      Sound L reserved { s with bopenCount := s.bopenCount - 1 } blocks queue := by
  refine ⟨?_, h.pool.imp fun _ p => ⟨p.buf, p.start, p.left, p.left_nonneg, p.kept, p.inside,
    p.outside⟩, h.apart, h.headers, h.chains, h.queues⟩
  rw [Balloc.bclose]
  exact if_neg fun hlast => by
    simp only at hlast
    omega

theorem balloc_closed (L : Layout) (reserved : Set ℕ) (hclosed : Closed s) (size : ℤ) :
    (∃ t, balloc L malloc s size = some (t, none) ∧ Closed t) ∨
      ∃ t, 0 < t.bopenCount ∧ Sound L reserved t (fun _ => none) (fun _ => []) ∧
        balloc L malloc s size = balloc L malloc t size := by
  have hbuf : ∀ b, (none : Option ℕ) = some b → 0 ≤ (B_DEFAULT_MEM : ℤ) ∧
      ∀ x, b ≤ x → x < b + (B_DEFAULT_MEM : ℤ).toNat → x ∈ reserved := nofun
  obtain ⟨t, result, hopen, hresult⟩ := bopen_sound L malloc 0 hclosed hbuf
  have hensure : ensureOpen malloc s = (t, result) := by
    rw [ensureOpen, if_pos hclosed.1, hopen]
  rcases hresult with ⟨hfail, hneg⟩ | ⟨hcount, rfl, hsound⟩
  · refine .inl ⟨t, ?_, hfail⟩
    simp only [Balloc.balloc, hensure]
    exact if_pos (.inl hneg)
  · refine .inr ⟨t, hcount, hsound, ?_⟩
    simp only [Balloc.balloc, hensure, hsound.ensureOpen_eq]

end BallocBlocks

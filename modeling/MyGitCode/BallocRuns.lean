import MyGitCode.BallocBlocks
import MyGitCode.TransitionRuns

/-! # Runs of the block allocator

The blocks and the rest of the pool have no byte in common, whatever is asked and freed and
whatever the callers write to their blocks, until the last `bclose` gives the pool back. -/
namespace BallocRuns

open Balloc BallocBlocks ByteMemory LinkChains TransitionRuns

/-- What the callers asked for, at each address they got and have not freed. -/
structure System where
  state : State
  held : ℕ → Option ℕ

inductive Event where
  | bopen (buf : Option ℕ) (bufsize : ℤ) (flags : BitVec 32)
  | bclose
  | balloc (size : ℤ) (mp : Option ℕ)
  | bfree (mp : ℕ)
  | brealloc (mp : Option ℕ) (newsize : ℤ) (newbuf : Option ℕ)
  | write (mp i : ℕ) (v : UInt8)
  deriving DecidableEq

def hold (held : ℕ → Option ℕ) (size : ℤ) : Option ℕ → ℕ → Option ℕ
  | none => held
  | some mp => Function.update held mp (some size.toNat)

def moved (held : ℕ → Option ℕ) : Option ℕ → Option ℕ → ℕ → Option ℕ
  | some mp, some _ => Function.update held mp none
  | _, _ => held

/-- A buffer for the pool is memory of the program, and the last `bclose` ends a run. The
requests are of at most 2^30 bytes, and a caller writes no more bytes than it asked for. -/
inductive Step (L : Layout) (reserved : Set ℕ) : System → Event → System → Prop where
  | bopen {S malloc buf bufsize flags} : MallocOk reserved malloc →
      (∀ b, buf = some b → 0 ≤ bufsize ∧ ∀ x, b ≤ x → x < b + bufsize.toNat → x ∈ reserved) →
      Step L reserved S (.bopen buf bufsize flags)
        { S with state := (Balloc.bopen malloc S.state buf bufsize flags).1 }
  | bclose {S t} : 1 < S.state.bopenCount → Balloc.bclose S.state = some t →
      Step L reserved S .bclose { S with state := t }
  | balloc {S malloc size t mp} : MallocOk reserved malloc → size ≤ 2 ^ 30 →
      Balloc.balloc L malloc S.state size = some (t, mp) →
      Step L reserved S (.balloc size mp) ⟨t, hold S.held size mp⟩
  | bfree {S mp t} : S.held mp ≠ none → Balloc.bfree L S.state mp = some t →
      Step L reserved S (.bfree mp) ⟨t, Function.update S.held mp none⟩
  | brealloc {S malloc mp newsize t newbuf} : MallocOk reserved malloc →
      (∀ a, mp = some a → S.held a ≠ none) → 0 ≤ newsize → newsize ≤ 2 ^ 30 →
      Balloc.brealloc L malloc S.state mp newsize = some (t, newbuf) →
      Step L reserved S (.brealloc mp newsize newbuf)
        ⟨t, hold (moved S.held mp newbuf) newsize newbuf⟩
  | write {S mp n i v} : S.held mp = some n → i < n →
      Step L reserved S (.write mp i v)
        { S with state := { S.state with
                              mem := Function.update S.state.mem (mp + i) (.byte v) } }

def Init (S : System) : Prop := Closed S.state ∧ ∀ mp, S.held mp = none

/-- Each address that is held is behind the header of a block with room for the request. -/
def HoldsBlocks (L : Layout) (held : ℕ → Option ℕ) (blocks : ℕ → Option Block) : Prop :=
  ∀ mp n, held mp = some n → ∃ a x, mp = a + L.bType ∧ blocks a = some x ∧
    x.status ≠ .queued ∧ n ≤ x.bytes

def Invariant (L : Layout) (reserved : Set ℕ) (S : System) : Prop :=
  Init S ∨ (0 < S.state.bopenCount ∧ ∃ blocks queue,
    Sound L reserved S.state blocks queue ∧ HoldsBlocks L S.held blocks)

variable {L : Layout} {reserved : Set ℕ} {malloc : Malloc} {s t : State}
  {blocks : ℕ → Option Block} {queue : ℕ → List ℕ} {a b q : ℕ} {x y : Block}
  {S T : System} {e : Event} {held : ℕ → Option ℕ} {mp n : ℕ}

/-- A byte of a block after a step that the block survives. -/
def byteAfter (S : System) (e : Event) (mp i : ℕ) : Cell :=
  match e with
  | .write mp' i' v => if mp' + i' = mp + i then .byte v else S.state.mem (mp + i)
  | _ => S.state.mem (mp + i)

/-- What the callers see of a step. -/
structure Seen (S : System) (e : Event) (T : System) : Prop where
  bytes : ∀ mp n, S.held mp = some n → T.held mp ≠ none → ∀ i, i < n →
    T.state.mem (mp + i) = byteAfter S e mp i
  fresh : ∀ size mp, e = .balloc size (some mp) ∨ e = .brealloc none size (some mp) →
    S.held mp = none
  copied : ∀ mp newsize newbuf n, e = .brealloc (some mp) newsize (some newbuf) →
    S.held mp = some n → (newbuf = mp ∨ S.held newbuf = none) ∧
      ∀ i, i < n → T.state.mem (newbuf + i) = S.state.mem (mp + i)

theorem HoldsBlocks.hand (hheld : HoldsBlocks L held blocks) {blocks' : ℕ → Option Block}
    (hb : blocks' b = some y) (hy : y.status ≠ .queued) (hn : n ≤ y.bytes)
    (hblocks : ∀ mp m, held mp = some m → mp ≠ b + L.bType → ∀ a, mp = a + L.bType →
      blocks' a = blocks a) :
    HoldsBlocks L (Function.update held (b + L.bType) (some n)) blocks' := by
  intro mp m hmp
  by_cases hnew : mp = b + L.bType
  · subst hnew
    rw [Function.update_self, Option.some_inj] at hmp
    exact ⟨b, y, rfl, hb, hy, hmp ▸ hn⟩
  · rw [Function.update_of_ne hnew] at hmp
    obtain ⟨a, x, hmpa, ha, hx, hm⟩ := hheld mp m hmp
    exact ⟨a, x, hmpa, (hblocks mp m hmp hnew a hmpa).trans ha, hx, hm⟩

theorem HoldsBlocks.drop (hheld : HoldsBlocks L held blocks) {blocks' : ℕ → Option Block}
    (hblocks : ∀ b, b ≠ a → blocks' b = blocks b) :
    HoldsBlocks L (Function.update held (a + L.bType) none) blocks' := by
  intro mp m hmp
  by_cases hold : mp = a + L.bType
  · subst hold
    exact absurd (Function.update_self (a + L.bType) none held ▸ hmp) nofun
  · rw [Function.update_of_ne hold] at hmp
    obtain ⟨b, x, hmpb, hb, hx, hm⟩ := hheld mp m hmp
    have hne : b ≠ a := by
      rintro rfl
      exact hold hmpb
    exact ⟨b, x, hmpb, (hblocks b hne).trans hb, hx, hm⟩

theorem balloc_step (h : Sound L reserved s blocks queue) (hm : MallocOk reserved malloc)
    (hheld : HoldsBlocks L held blocks) {size : ℤ} (hsize : size ≤ 2 ^ 30) {mp : Option ℕ}
    (hballoc : balloc L malloc s size = some (t, mp)) :
    t.bopenCount = s.bopenCount ∧ (∃ blocks' queue', Sound L reserved t blocks' queue' ∧
      HoldsBlocks L (hold held size mp) blocks') ∧ (∀ a, mp = some a → held a = none) ∧
      ∀ a n, held a = some n → ∀ i, i < n → t.mem (a + i) = s.mem (a + i) := by
  rcases h.balloc hm hsize with ⟨hfail, -⟩ | ⟨u, b, y, htake, hnonneg, hhand⟩
  · obtain ⟨rfl, rfl⟩ := Prod.mk.inj (Option.some_inj.mp (hfail.symm.trans hballoc))
    exact ⟨rfl, ⟨blocks, queue, h, hheld⟩, nofun, fun _ _ _ _ _ => rfl⟩
  obtain ⟨rfl, rfl⟩ := Prod.mk.inj (Option.some_inj.mp (htake.symm.trans hballoc))
  have hroom : size.toNat ≤ y.bytes := by
    have hclass := size_le_class size
    have hbytes : (y.bytes : ℤ) = 2 ^ (B_SHIFT + classOf size) := by
      rw [Block.bytes, hhand.q_eq]
      push_cast
      rfl
    omega
  refine ⟨hhand.count, ⟨_, _, hhand.sound, hheld.hand (Function.update_self ..) hhand.status hroom
    fun mp m hmp hne a hmpa => Function.update_of_ne ?_ ..⟩, fun a ha => ?_, fun a n ha i hi => ?_⟩
  · rintro rfl
    exact hne hmpa
  · obtain rfl := Option.some_inj.mp ha
    by_contra hold
    obtain ⟨n, hn⟩ := Option.ne_none_iff_exists'.mp hold
    obtain ⟨a, x, hba, ha, hx, -⟩ := hheld _ n hn
    exact hhand.new h ha hx (Nat.add_right_cancel hba).symm
  · obtain ⟨c, x, rfl, hc, hx, hn⟩ := hheld a n ha
    have hcb := hhand.new h hc hx
    have hapart := hhand.sound.data_apart ((Function.update_of_ne hcb ..).trans hc)
      (Function.update_self ..) hcb (Nat.lt_of_lt_of_le hi hn)
    have := extent_eq L y
    exact hhand.same _ (by omega)

theorem seen_of_none (hnone : ∀ mp, S.held mp = none) : Seen S e T where
  bytes := fun mp _ hmp => absurd ((hnone mp).symm.trans hmp) nofun
  fresh := fun _ mp _ => hnone mp
  copied := fun mp _ _ _ _ hmp => absurd ((hnone mp).symm.trans hmp) nofun

theorem balloc_invariant (h : Invariant L reserved S) (hm : MallocOk reserved malloc) {size : ℤ}
    (hsize : size ≤ 2 ^ 30) {mp : Option ℕ}
    (hballoc : balloc L malloc S.state size = some (t, mp)) :
    Invariant L reserved ⟨t, hold S.held size mp⟩ ∧ (∀ a, mp = some a → S.held a = none) ∧
      ∀ a n, S.held a = some n → ∀ i, i < n → t.mem (a + i) = S.state.mem (a + i) := by
  rcases h with ⟨hclosed, hnone⟩ | ⟨hcount, blocks, queue, hsound, hheld⟩
  · have hvacuous : ∀ a n, S.held a = some n → ∀ i, i < n → t.mem (a + i) = S.state.mem (a + i) :=
      fun a _ ha => absurd ((hnone a).symm.trans ha) nofun
    rcases balloc_closed L reserved hclosed size with ⟨u, hfail, hu⟩ | ⟨u, hopen, hu, hsame⟩
    · obtain ⟨rfl, rfl⟩ := Prod.mk.inj (Option.some_inj.mp (hfail.symm.trans hballoc))
      exact ⟨.inl ⟨hu, hnone⟩, nofun, hvacuous⟩
    · have hheld : HoldsBlocks L S.held fun _ => none :=
        fun a _ ha => absurd ((hnone a).symm.trans ha) nofun
      obtain ⟨hcount, hblocks, -, -⟩ := balloc_step hu hm hheld hsize (hsame.symm.trans hballoc)
      exact ⟨.inr ⟨hcount ▸ hopen, hblocks⟩, fun a _ => hnone a, hvacuous⟩
  · obtain ⟨hsame, hblocks, hfresh, hbytes⟩ := balloc_step hsound hm hheld hsize hballoc
    exact ⟨.inr ⟨hsame ▸ hcount, hblocks⟩, hfresh, hbytes⟩

theorem brealloc_step (h : Sound L reserved s blocks queue) (hm : MallocOk reserved malloc)
    (hheld : HoldsBlocks L held blocks) {newsize : ℤ} (hsize : newsize ≤ 2 ^ 30)
    (hmp : held mp = some n) {newbuf : Option ℕ}
    (hbrealloc : brealloc L malloc s (some mp) newsize = some (t, newbuf)) :
    t.bopenCount = s.bopenCount ∧ (∃ blocks' queue', Sound L reserved t blocks' queue' ∧
      HoldsBlocks L (hold (moved held (some mp) newbuf) newsize newbuf) blocks') ∧
      (∀ b, newbuf = some b → (b = mp ∨ held b = none) ∧
        ∀ i, i < n → t.mem (b + i) = s.mem (mp + i)) ∧
      ∀ a m, held a = some m → hold (moved held (some mp) newbuf) newsize newbuf a ≠ none →
        ∀ i, i < m → t.mem (a + i) = s.mem (a + i) := by
  obtain ⟨a, x, rfl, ha, hx, hn⟩ := hheld mp n hmp
  rcases h.brealloc hm hsize ha hx with ⟨hfits, hstay⟩ | hfail |
    ⟨u, blocks', queue', b, y, hmove, hsound, hab, hbx, hb, hy, hroom, hmore, hothers, hcount,
      hcopied, hbytes⟩
  · obtain ⟨rfl, rfl⟩ := Prod.mk.inj (Option.some_inj.mp (hstay.symm.trans hbrealloc))
    refine ⟨rfl, ⟨blocks, queue, h, ?_⟩, fun b hb => ?_, fun _ _ _ _ _ _ => rfl⟩
    · exact (hheld.drop fun _ _ => rfl).hand ha hx (by omega) fun _ _ _ _ _ _ => rfl
    · obtain rfl := Option.some_inj.mp hb
      exact ⟨.inl rfl, fun _ _ => rfl⟩
  · obtain ⟨rfl, rfl⟩ := Prod.mk.inj (Option.some_inj.mp (hfail.symm.trans hbrealloc))
    exact ⟨rfl, ⟨blocks, queue, h, hheld⟩, nofun, fun _ _ _ _ _ _ => rfl⟩
  · obtain ⟨rfl, rfl⟩ := Prod.mk.inj (Option.some_inj.mp (hmove.symm.trans hbrealloc))
    have hne : ∀ c, c ≠ a → c + L.bType ≠ a + L.bType := fun c hc hsum =>
      hc (Nat.add_right_cancel hsum)
    have hold : held (b + L.bType) = none := by
      by_contra hsome
      obtain ⟨m, hm⟩ := Option.ne_none_iff_exists'.mp hsome
      obtain ⟨c, z, hbc, hc, hz, -⟩ := hheld _ m hm
      obtain rfl := Nat.add_right_cancel hbc
      exact hz (hbx z hc)
    have hkept : ∀ a' m, Function.update held (a + L.bType) none a' = some m → ∀ c,
        a' = c + L.bType → c ≠ a := by
      rintro a' m ha' c rfl rfl
      exact absurd (Function.update_self (c + L.bType) none held ▸ ha') nofun
    refine ⟨hcount, ⟨blocks', queue', hsound, ?_⟩, fun b' hb' => ?_, fun a' m ha' hnew i hi => ?_⟩
    · refine (hheld.drop fun _ _ => rfl).hand hb hy (by omega) fun a' m ha' hnew c hc => ?_
      exact hothers c (hkept a' m ha' c hc) fun hcb => hnew (hcb ▸ hc)
    · obtain rfl := Option.some_inj.mp hb'
      exact ⟨.inr hold, fun i hi => hcopied i (by omega)⟩
    · obtain ⟨c, z, rfl, hc, hz, hm⟩ := hheld a' m ha'
      refine hbytes c z hc hz ?_ i (by omega)
      rintro rfl
      refine hnew ?_
      simp only [BallocRuns.hold, moved]
      rw [Function.update_of_ne (fun hsum => hab (Nat.add_right_cancel hsum)),
        Function.update_self]

/-- Every step keeps the blocks apart and the bytes of the blocks that survive it. -/
theorem bopen_seen (h : Invariant L reserved S) {buf : Option ℕ} {bufsize : ℤ}
    (flags : BitVec 32) (hbuf : ∀ b, buf = some b →
      0 ≤ bufsize ∧ ∀ x, b ≤ x → x < b + bufsize.toNat → x ∈ reserved) :
    Invariant L reserved { S with state := (bopen malloc S.state buf bufsize flags).1 } ∧
      Seen S (.bopen buf bufsize flags)
        { S with state := (bopen malloc S.state buf bufsize flags).1 } := by
  rcases h with ⟨hclosed, hnone⟩ | ⟨hcount, blocks, queue, hsound, hheld⟩
  · obtain ⟨t, result, hopen, hresult⟩ := bopen_sound L malloc flags hclosed hbuf
    rw [hopen]
    refine ⟨?_, seen_of_none hnone⟩
    rcases hresult with ⟨hfail, -⟩ | ⟨hcount, -, hsound⟩
    · exact .inl ⟨hfail, hnone⟩
    · exact .inr ⟨hcount, _, _, hsound, fun a _ ha => absurd ((hnone a).symm.trans ha) nofun⟩
  · obtain ⟨hopen, hsound'⟩ := hsound.bopen hcount malloc buf bufsize flags
    rw [hopen]
    refine ⟨.inr ⟨?_, blocks, queue, hsound', hheld⟩, fun _ _ _ _ _ _ => rfl, by simp, nofun⟩
    simp only
    omega

theorem bclose_seen (h : Invariant L reserved S) (hcount : 1 < S.state.bopenCount)
    (hclose : bclose S.state = some t) :
    Invariant L reserved { S with state := t } ∧ Seen S .bclose { S with state := t } := by
  rcases h with ⟨hclosed, -⟩ | ⟨-, blocks, queue, hsound, hheld⟩
  · have := hclosed.2
    omega
  · obtain ⟨hsame, hsound'⟩ := hsound.bclose hcount
    obtain rfl := Option.some_inj.mp (hsame.symm.trans hclose)
    refine ⟨.inr ⟨?_, blocks, queue, hsound', hheld⟩, fun _ _ _ _ _ _ => rfl, by simp, nofun⟩
    simp only
    omega

theorem balloc_seen (h : Invariant L reserved S) (hm : MallocOk reserved malloc) {size : ℤ}
    (hsize : size ≤ 2 ^ 30) {mp : Option ℕ}
    (hballoc : balloc L malloc S.state size = some (t, mp)) :
    Invariant L reserved ⟨t, hold S.held size mp⟩ ∧
      Seen S (.balloc size mp) ⟨t, hold S.held size mp⟩ ∧
      Seen S (.brealloc none size mp) ⟨t, hold S.held size mp⟩ := by
  obtain ⟨hinv, hfresh, hbytes⟩ := balloc_invariant h hm hsize hballoc
  refine ⟨hinv, ⟨fun a n ha _ => hbytes a n ha, fun size a heq => ?_, nofun⟩,
    ⟨fun a n ha _ => hbytes a n ha, fun size a heq => ?_, nofun⟩⟩
  · rcases heq with heq | heq
    · injection heq with _ ha
      exact hfresh a ha
    · cases heq
  · rcases heq with heq | heq
    · cases heq
    · injection heq with _ _ ha
      exact hfresh a ha

theorem bfree_seen (h : Invariant L reserved S) (hmp : S.held mp ≠ none)
    (hfree : bfree L S.state mp = some t) :
    Invariant L reserved ⟨t, Function.update S.held mp none⟩ ∧
      Seen S (.bfree mp) ⟨t, Function.update S.held mp none⟩ := by
  rcases h with ⟨-, hnone⟩ | ⟨hcount, blocks, queue, hsound, hheld⟩
  · exact absurd (hnone mp) hmp
  obtain ⟨n, hn⟩ := Option.ne_none_iff_exists'.mp hmp
  obtain ⟨a, x, rfl, ha, hx, -⟩ := hheld mp n hn
  obtain ⟨u, blocks', queue', hu, hsound', hblocks', hmem, hsame⟩ := hsound.free ha hx
  obtain rfl := Option.some_inj.mp (hu.symm.trans hfree)
  refine ⟨.inr ⟨hsame ▸ hcount, blocks', queue', hsound', hheld.drop hblocks'⟩,
    fun mp m hmp hkept i hi => ?_, by simp, nofun⟩
  obtain ⟨b, y, rfl, hb, hy, hm⟩ := hheld mp m hmp
  have hba : b ≠ a := by
    rintro rfl
    exact hkept (Function.update_self ..)
  have hapart := hsound.data_apart hb ha hba (Nat.lt_of_lt_of_le hi hm)
  have := extent_eq L x
  exact hmem _ (by omega)

theorem brealloc_seen (h : Invariant L reserved S) (hm : MallocOk reserved malloc)
    (hmp : S.held mp ≠ none) {newsize : ℤ} (hsize : newsize ≤ 2 ^ 30) {newbuf : Option ℕ}
    (hbrealloc : brealloc L malloc S.state (some mp) newsize = some (t, newbuf)) :
    Invariant L reserved ⟨t, hold (moved S.held (some mp) newbuf) newsize newbuf⟩ ∧
      Seen S (.brealloc (some mp) newsize newbuf)
        ⟨t, hold (moved S.held (some mp) newbuf) newsize newbuf⟩ := by
  obtain ⟨n, hn⟩ := Option.ne_none_iff_exists'.mp hmp
  rcases h with ⟨-, hnone⟩ | ⟨hcount, blocks, queue, hsound, hheld⟩
  · exact absurd (hnone mp) hmp
  obtain ⟨hsame, hblocks, hcopied, hbytes⟩ := brealloc_step hsound hm hheld hsize hn hbrealloc
  refine ⟨.inr ⟨hsame ▸ hcount, hblocks⟩, hbytes, by simp, fun mp' size b m heq hm => ?_⟩
  injection heq with hmp' _ hb
  obtain rfl := Option.some_inj.mp hmp'
  obtain rfl := Option.some_inj.mp (hn.symm.trans hm)
  exact hcopied b hb

theorem write_seen (h : Invariant L reserved S) (hmp : S.held mp = some n) {i : ℕ} (hi : i < n)
    (v : UInt8) {T : System} (hT : T = { S with state := { S.state with
      mem := Function.update S.state.mem (mp + i) (.byte v) } }) :
    Invariant L reserved T ∧ Seen S (.write mp i v) T := by
  subst hT
  rcases h with ⟨-, hnone⟩ | ⟨hcount, blocks, queue, hsound, hheld⟩
  · exact absurd ((hnone mp).symm.trans hmp) nofun
  obtain ⟨a, x, rfl, ha, hx, hn⟩ := hheld mp n hmp
  have hsame : ∀ z, z < a + L.bType ∨ a + x.extent L ≤ z →
      Function.update S.state.mem (a + L.bType + i) (.byte v) z = S.state.mem z := fun z hz =>
    Function.update_of_ne (by have := extent_eq L x; omega) ..
  refine ⟨.inr ⟨hcount, blocks, queue, hsound.data ha hsame, hheld⟩, fun mp m _ _ j _ => ?_,
    by simp, nofun⟩
  simp only [byteAfter, Function.update_apply, eq_comm]

theorem step_spec (h : Invariant L reserved S) (he : Step L reserved S e T) :
    Invariant L reserved T ∧ Seen S e T := by
  cases he with
  | bopen _ hbuf => exact bopen_seen h _ hbuf
  | bclose hcount hclose => exact bclose_seen h hcount hclose
  | balloc hm hsize hballoc =>
    obtain ⟨hinv, hseen, -⟩ := balloc_seen h hm hsize hballoc
    exact ⟨hinv, hseen⟩
  | bfree hmp hfree => exact bfree_seen h hmp hfree
  | @brealloc _ mp _ _ _ hm hheld _ hsize hbrealloc =>
    cases mp with
    | none =>
      -- without a block it is a `balloc`
      obtain ⟨hinv, -, hseen⟩ := balloc_seen h hm hsize hbrealloc
      exact ⟨hinv, hseen⟩
    | some mp => exact brealloc_seen h hm (hheld mp rfl) hsize hbrealloc
  | write hmp hi => exact write_seen h hmp hi _ rfl

theorem init_invariant (h : Init S) : Invariant L reserved S := .inl h

theorem reachable_invariant (h : Reachable Init (Step L reserved) S) : Invariant L reserved S :=
  h.invariant (fun _ => init_invariant) fun _ _ _ hs he => (step_spec hs he).1

/-- The blocks that are held, with their headers, have no byte in common with each other, with
the rest of the pool or with a block of a queue. -/
structure Separate (L : Layout) (S : System) : Prop where
  apart : ∀ mp mp' n n', S.held mp = some n → S.held mp' = some n' → mp ≠ mp' →
    mp + n ≤ mp' - L.bType ∨ mp' + n' ≤ mp - L.bType
  room : ∀ mp n, S.held mp = some n → L.bType ≤ mp ∧
    ∃ size, blockSize L S.state.mem (mp - L.bType) = some size ∧ n ≤ size
  place : ∀ mp n, S.held mp = some n → ∃ base, S.state.bFreeBuf = some base ∧
    ((base + L.bType ≤ mp ∧ mp + n ≤ S.state.bFreeNext ∧
        (S.state.bFreeNext : ℤ) ≤ base + S.state.bFreeSize) ∨
      ∃ m, S.state.heap (mp - L.bType) = some m ∧ L.bType + n ≤ m ∧
        Apart (mp - L.bType) (L.bType + n) base S.state.bFreeSize.toNat)
  queues : S.state.bFreeBuf ≠ none → ∀ q, ∃ ns, ns.Nodup ∧
    Chain (blockNext L S.state.mem) (S.state.bQhead q) ns ∧ ∀ a ∈ ns, ∀ mp n,
      S.held mp = some n → Apart a (2 ^ (B_SHIFT + q) + L.bType) (mp - L.bType) (L.bType + n)

theorem held_separate (h : Reachable Init (Step L reserved) S) : Separate L S := by
  rcases reachable_invariant h with ⟨⟨hclosed, -⟩, hnone⟩ | ⟨-, blocks, queue, hsound, hheld⟩
  · have hvacuous : ∀ mp n, S.held mp ≠ some n := fun mp n hmp =>
      absurd ((hnone mp).symm.trans hmp) nofun
    exact ⟨fun mp _ n _ hmp => absurd hmp (hvacuous mp n),
      fun mp n hmp => absurd hmp (hvacuous mp n), fun mp n hmp => absurd hmp (hvacuous mp n),
      fun hopen => absurd hclosed hopen⟩
  obtain ⟨base, hpool⟩ := hsound.pool
  constructor
  · intro mp mp' n n' hmp hmp' hne
    obtain ⟨a, x, rfl, ha, hx, hn⟩ := hheld mp n hmp
    obtain ⟨b, y, rfl, hb, hy, hn'⟩ := hheld mp' n' hmp'
    have hab : a ≠ b := fun hab => hne (hab ▸ rfl)
    have hapart := hsound.apart a b x y ha hb hab
    have := bytes_pos x
    have := bytes_pos y
    rw [Apart, extent_eq, extent_eq] at hapart
    omega
  · intro mp n hmp
    obtain ⟨a, x, rfl, ha, hx, hn⟩ := hheld mp n hmp
    rw [Nat.add_sub_cancel]
    exact ⟨Nat.le_add_left _ _, _, ((hsound.headers a x ha).held hx).1, Int.ofNat_le.mpr hn⟩
  · intro mp n hmp
    obtain ⟨a, x, rfl, ha, hx, hn⟩ := hheld mp n hmp
    have hextent := extent_eq L x
    have hleft := hpool.left
    have hnonneg := hpool.left_nonneg
    refine ⟨base, hpool.buf, ?_⟩
    by_cases hmalloc : x.status = .malloced
    · obtain ⟨hheap, hapart⟩ := hpool.outside a x ha hmalloc
      have := bytes_pos x
      rw [Apart] at hapart
      rw [Nat.add_sub_cancel]
      exact .inr ⟨_, hheap, by omega, by rw [Apart]; omega⟩
    · obtain ⟨hstart, hend, -⟩ := hpool.inside a x ha hmalloc
      exact .inl ⟨by omega, by omega, by omega⟩
  · intro _ q
    refine ⟨queue q, (hsound.queues q).1, hsound.chains q, fun a ha mp n hmp => ?_⟩
    have haq := ((hsound.queues q).2 a).mp ha
    obtain ⟨b, y, rfl, hb, hy, hn⟩ := hheld mp n hmp
    have hab : a ≠ b := by
      rintro rfl
      exact hy (congrArg Block.status (Option.some_inj.mp (hb.symm.trans haq)))
    have hapart := hsound.apart a b _ y haq hb hab
    have hbytes : Block.bytes ⟨q, .queued⟩ = 2 ^ (B_SHIFT + q) := rfl
    rw [Apart, extent_eq, extent_eq, hbytes] at hapart
    rw [Apart, Nat.add_sub_cancel]
    omega

def firstBlock : System where
  state := (takeBlock .ilp32 { mem := fun _ => .byte 0, heap := fun _ => none,
                               bQhead := fun _ => none, bFreeBuf := some 1000, bFreeNext := 1024,
                               bFreeSize := 100, bFreeLeft := 76, bFlags := B_USER_BUF,
                               bopenCount := 1 } 1000 24 0).1
  held := hold (fun _ => none) 5 (some 1008)

def twoBlocks : System where
  state := (takeBlock .ilp32 { firstBlock.state with bFreeNext := 1048, bFreeLeft := 52 }
    1024 24 0).1
  held := hold firstBlock.held 9 (some 1032)

theorem classOf_small {size : ℤ} (hsize : size ≤ 16) : classOf size = 0 := by
  have hzero : (size.toNat - 1) / 2 ^ B_SHIFT = 0 := Nat.div_eq_of_lt (by
    rw [show 2 ^ B_SHIFT = 16 from rfl]
    omega)
  rw [classOf, hzero, shifts, if_pos rfl]

theorem firstBlock_reachable :
    Reachable Init (Step .ilp32 {x | 1000 ≤ x ∧ x < 1100}) firstBlock := by
  have hm : MallocOk {x | 1000 ≤ x ∧ x < 1100} fun _ _ => none := ⟨nofun⟩
  have hstart : Init ⟨⟨fun _ => .byte 0, fun _ => none, fun _ => none, none, 0, 0, 0, 0, 0⟩,
      fun _ => none⟩ := ⟨⟨rfl, rfl⟩, fun _ => rfl⟩
  have hopen := (Reachable.start hstart).next
    (@Step.bopen .ilp32 _ _ _ (some 1000) 100 0 hm fun _ hb =>
      ⟨by decide, Option.some_inj.mp hb ▸ fun _ hx hx' => ⟨hx, hx'⟩⟩)
  have hsize : ballocGetSize .ilp32 5 = (24, 0) := by
    rw [ballocGetSize_eq (by decide), classOf_small (by decide)]
    rfl
  refine hopen.next (.balloc hm (by decide) ?_)
  simp only [balloc, hsize]
  rfl

theorem twoBlocks_reachable :
    Reachable Init (Step .ilp32 {x | 1000 ≤ x ∧ x < 1100}) twoBlocks := by
  have hsize : ballocGetSize .ilp32 9 = (24, 0) := by
    rw [ballocGetSize_eq (by decide), classOf_small (by decide)]
    rfl
  have hm : MallocOk {x | 1000 ≤ x ∧ x < 1100} fun _ _ => none := ⟨nofun⟩
  refine firstBlock_reachable.next (.balloc hm (by decide) ?_)
  simp only [balloc, hsize]
  rfl

theorem held_separate_first : Separate .ilp32 twoBlocks :=
  held_separate twoBlocks_reachable

/-- From every state of a run, a step changes no byte of a block that survives it but those the
caller writes, gives no address that is held, and moves a block with all that was written. -/
theorem step_seen (h : Reachable Init (Step L reserved) S) (he : Step L reserved S e T) :
    Seen S e T :=
  (step_spec (reachable_invariant h) he).2

theorem step_seen_write : Seen firstBlock (.write 1008 2 7)
    { firstBlock with state := { firstBlock.state with
        mem := Function.update firstBlock.state.mem (1008 + 2) (.byte 7) } } :=
  step_seen firstBlock_reachable (.write (n := 5) rfl (by decide))

def freeAll (L : Layout) (s : State) : List ℕ → Option State
  | [] => some s
  | mp :: mps => (bfree L s mp).bind fun s => freeAll L s mps

def ballocAll (L : Layout) (malloc : Malloc) (s : State) :
    List ℤ → Option (State × List (Option ℕ))
  | [] => some (s, [])
  | size :: sizes => do
    let (s, mp) ← balloc L malloc s size
    let (s, mps) ← ballocAll L malloc s sizes
    return (s, mp :: mps)

theorem freeAll_queued {as : List ℕ} (h : Sound L reserved s blocks queue) (hnodup : as.Nodup)
    (has : ∀ a ∈ as, blocks a = some ⟨q, .used⟩) :
    ∃ t blocks', freeAll L s (as.map (· + L.bType)) = some t ∧
      Sound L reserved t blocks' (Function.update queue q (as.reverse ++ queue q)) ∧
      t.bFreeLeft = s.bFreeLeft ∧ t.heap = s.heap := by
  induction as generalizing s blocks queue with
  | nil => exact ⟨s, blocks, rfl, by simpa using h, rfl, rfl⟩
  | cons a as ih =>
    rw [List.nodup_cons] at hnodup
    rw [List.forall_mem_cons] at has
    have hrest : ∀ b ∈ as, Function.update blocks a (some ⟨q, .queued⟩) b = some ⟨q, .used⟩ := by
      intro b hb
      have hne : b ≠ a := by
        rintro rfl
        exact hnodup.1 hb
      exact (Function.update_of_ne hne ..).trans (has.2 b hb)
    obtain ⟨t, blocks', hfree, hsound, hleft, hheap⟩ := ih (h.queueBlock has.1) hnodup.2 hrest
    refine ⟨t, blocks', ?_, ?_, hleft, hheap⟩
    · rw [List.map_cons, freeAll, h.bfree has.1, Option.bind_some]
      exact hfree
    · simpa only [Function.update_self, Function.update_idem, List.reverse_cons, List.append_assoc,
        List.singleton_append] using hsound

theorem ballocAll_queued (malloc : Malloc) {as rest : List ℕ} {sizes : List ℤ}
    (h : Sound L reserved s blocks queue)
    (hqueue : queue q = as ++ rest) (hlength : sizes.length = as.length)
    (hsizes : ∀ size ∈ sizes, 0 ≤ size ∧ size ≤ 2 ^ 30 ∧ classOf size = q) :
    ∃ t, ballocAll L malloc s sizes = some (t, as.map fun a => some (a + L.bType)) ∧
      t.bFreeLeft = s.bFreeLeft ∧ t.heap = s.heap := by
  induction as generalizing s blocks queue sizes with
  | nil =>
    obtain rfl := List.length_eq_zero_iff.mp hlength
    exact ⟨s, rfl, rfl, rfl⟩
  | cons a as ih =>
    cases sizes with
    | nil => exact absurd hlength nofun
    | cons size sizes =>
      rw [List.forall_mem_cons] at hsizes
      obtain ⟨⟨hnonneg, hsize, hclass⟩, hsizes⟩ := hsizes
      subst hclass
      obtain ⟨t, htake, hsound, hleft, hheap⟩ := h.balloc_queued malloc hnonneg hsize hqueue
      obtain ⟨u, hrest, hleft', hheap'⟩ := ih hsound (Function.update_self ..)
        (Nat.succ_injective hlength) hsizes
      refine ⟨u, ?_, hleft'.trans hleft, hheap'.trans hheap⟩
      simp only [ballocAll, htake, hrest, Option.bind_eq_bind, Option.bind_some]
      rfl

/-- Blocks of the pool that are freed one after the other are given out again in the opposite
order to requests of their class, and nothing else is used. -/
theorem reuse (h : Reachable Init (Step L reserved) S) {mps : List ℕ} (hnodup : mps.Nodup)
    (hmps : ∀ mp ∈ mps, S.held mp ≠ none ∧
      blockFlags L S.state.mem (mp - L.bType) = some B_INTEGRITY ∧
      ∃ size, blockSize L S.state.mem (mp - L.bType) = some size ∧ classOf size = q)
    {sizes : List ℤ} (hlength : sizes.length = mps.length)
    (hsizes : ∀ size ∈ sizes, 0 ≤ size ∧ size ≤ 2 ^ 30 ∧ classOf size = q) :
    ∃ t u, freeAll L S.state mps = some t ∧
      ballocAll L malloc t sizes = some (u, mps.reverse.map some) ∧
      u.bFreeLeft = S.state.bFreeLeft ∧ u.heap = S.state.heap := by
  rcases reachable_invariant h with ⟨-, hnone⟩ | ⟨-, blocks, queue, hsound, hheld⟩
  · cases mps with
    | nil =>
      obtain rfl := List.length_eq_zero_iff.mp hlength
      exact ⟨S.state, S.state, rfl, rfl, rfl, rfl⟩
    | cons mp mps => exact absurd (hnone mp) (hmps mp List.mem_cons_self).1
  have hblocks : ∀ mp ∈ mps, L.bType ≤ mp ∧ blocks (mp - L.bType) = some ⟨q, .used⟩ := by
    intro mp hmp
    obtain ⟨hsome, hflags, size, hsize, hclass⟩ := hmps mp hmp
    obtain ⟨n, hn⟩ := Option.ne_none_iff_exists'.mp hsome
    obtain ⟨a, x, rfl, ha, hx, -⟩ := hheld mp n hn
    rw [Nat.add_sub_cancel] at hflags hsize ⊢
    refine ⟨Nat.le_add_left _ _, ?_⟩
    obtain ⟨hsize', bits, hbits, -, hmalloc⟩ := (hsound.headers a x ha).held hx
    obtain rfl := Option.some_inj.mp (hsize.symm.trans hsize')
    obtain rfl := Option.some_inj.mp (hflags.symm.trans hbits)
    rw [classOf_bytes] at hclass
    obtain ⟨q', status⟩ := x
    cases status with
    | used => exact hclass ▸ ha
    | malloced => exact absurd rfl (hmalloc.not.mp (by decide))
    | queued => exact absurd rfl hx
  obtain ⟨as, rfl⟩ : ∃ as : List ℕ, mps = as.map (· + L.bType) := by
    refine ⟨mps.map (· - L.bType), ?_⟩
    rw [List.map_map]
    refine (List.map_congr_left (g := id) fun mp hmp => ?_).trans (List.map_id mps) |>.symm
    exact Nat.sub_add_cancel (hblocks mp hmp).1
  have has : ∀ a ∈ as, blocks a = some ⟨q, .used⟩ := fun a ha =>
    Nat.add_sub_cancel a L.bType ▸ (hblocks _ (List.mem_map_of_mem ha)).2
  obtain ⟨t, blocks', hfree, hsound', hleft, hheap⟩ :=
    freeAll_queued hsound (List.Nodup.of_map _ hnodup) has
  have hreverse : as.reverse.length = as.length := List.length_reverse
  rw [List.length_map, ← hreverse] at hlength
  obtain ⟨u, htake, hleft', hheap'⟩ := ballocAll_queued malloc hsound'
    (Function.update_self ..) hlength hsizes
  refine ⟨t, u, hfree, ?_, hleft'.trans hleft, hheap'.trans hheap⟩
  rw [htake, ← List.map_reverse, List.map_map]
  rfl

theorem reuse_first : ∃ t u, freeAll .ilp32 twoBlocks.state [1008, 1032] = some t ∧
    ballocAll .ilp32 (fun _ _ => none) t [16, 3] = some (u, [some 1032, some 1008]) ∧
      u.bFreeLeft = 52 ∧ u.heap = twoBlocks.state.heap := by
  refine reuse (q := 0) twoBlocks_reachable (by decide) ?_ rfl ?_
  · intro mp hmp
    rw [List.mem_cons, List.mem_singleton] at hmp
    rcases hmp with rfl | rfl
    · exact ⟨Option.some_ne_none _, rfl, 16, rfl, classOf_small (by decide)⟩
    · exact ⟨Option.some_ne_none _, blockFlags_storeHeader, 16, blockSize_storeHeader,
        classOf_small (by decide)⟩
  · intro size hsize
    rw [List.mem_cons, List.mem_singleton] at hsize
    rcases hsize with rfl | rfl <;> exact ⟨by decide, by decide, classOf_small (by decide)⟩

end BallocRuns

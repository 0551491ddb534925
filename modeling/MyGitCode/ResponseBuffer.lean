import MyGitCode.Base64
import Mathlib.Data.List.TakeWhile
import MyGitCode.DelimitedRuns

/-! # `run.c`: collecting the response of a request

`send_post_cb` gets the body in pieces and puts them one behind the other in memory that it
extends with each piece. -/
namespace ResponseBuffer

open Base64

def ptrdiffMax : ℕ := 2 ^ 63 - 1

/-- The block at `p_json_result`, NULL at first, the length kept in an `int`, and what each call
prints of the block. A byte is none before it was written. -/
structure Collector where
  block : Option (List (Option Byte))
  len : ℤ
  printed : List (Option (List Byte))
  deriving DecidableEq

def start : Collector := ⟨none, 0, []⟩

def realloc (block : Option (List (Option Byte))) (size : ℕ) : Option (List (Option Byte)) :=
  if size ≤ ptrdiffMax then
    let old := block.getD []
    some (old.take size ++ List.replicate (size - old.length) none)
  else none

/-- The `n` bytes that `strncpy` writes of a piece of `n` bytes. -/
def strncpyBytes (piece : List Byte) : List Byte :=
  let text := piece.takeWhile (· ≠ 0#8)
  text ++ List.replicate (piece.length - text.length) 0#8

def writeAt (block : List (Option Byte)) (offset : ℤ) (bytes : List Byte) :
    Option (List (Option Byte)) :=
  if 0 ≤ offset ∧ offset + bytes.length ≤ block.length then
    some (block.take offset.toNat ++ bytes.map some ++
      block.drop (offset.toNat + bytes.length))
  else none

/-- The text at the start of a block, none where no NUL ends it inside. -/
def textOf : List (Option Byte) → Option (List Byte)
  | [] => none
  | none :: _ => none
  | some v :: rest => if v = 0#8 then some [] else (textOf rest).map (v :: ·)

/-- One call; none where it writes outside the block. The sum of `size_t` and `int` is a
`size_t`, and goes back to an `int`. -/
def sendPostCb (s : Collector) (piece : List Byte) : Option Collector := do
  let size := ((piece.length + s.len) % 2 ^ 64).toNat
  let block ← realloc s.block size
  let block ← writeAt block s.len (strncpyBytes piece)
  return ⟨some block, int (s.len + piece.length), s.printed ++ [textOf block]⟩

def sendPost (pieces : List (List Byte)) : Option Collector := pieces.foldlM sendPostCb start

def Collected (body : List Byte) (s : Collector) : Prop :=
  ∃ block rest, s.block = some block ∧ block = body.map some ++ some 0#8 :: rest

variable {s t : Collector} {piece : List Byte} {pieces : List (List Byte)}
  {block : List (Option Byte)}

def bytes (s : Collector) : List (Option Byte) := s.block.getD []

/-- No byte of the block is a NUL, nor unwritten. -/
structure Unterminated (s : Collector) : Prop where
  written : ∀ b ∈ bytes s, ∃ v, b = some v ∧ v ≠ 0#8
  len_le : s.len ≤ (bytes s).length
  printed : ∀ text ∈ s.printed, text = none

theorem unterminated_start : Unterminated start where
  written := nofun
  len_le := Int.le_refl 0
  printed := nofun

theorem int_le {x : ℤ} (h : 0 ≤ x) : int x ≤ x := by
  rw [int, Int.bmod]
  split
  · omega
  · omega

theorem strncpyBytes_eq (h : 0#8 ∉ piece) : strncpyBytes piece = piece := by
  have htext : piece.takeWhile (· ≠ 0#8) = piece := DelimitedRuns.takeWhile_ne_eq_self h
  simp only [strncpyBytes, htext, Nat.sub_self, List.replicate_zero, List.append_nil]

theorem textOf_eq_none (h : ∀ b ∈ block, ∃ v, b = some v ∧ v ≠ 0#8) : textOf block = none := by
  induction block with
  | nil => rfl
  | cons b rest ih =>
    obtain ⟨v, rfl, hv⟩ := h b List.mem_cons_self
    rw [textOf, if_neg hv, ih fun b hb => h b (List.mem_cons_of_mem _ hb)]
    rfl

theorem length_realloc {size : ℕ} (h : realloc s.block size = some block) :
    block.length = size := by
  simp only [realloc, Option.ite_none_right_eq_some, Option.some.injEq] at h
  rw [← h.2, List.length_append, List.length_take, List.length_replicate]
  omega

theorem take_realloc {size k : ℕ} (h : realloc s.block size = some block) (hk : k ≤ size)
    (hold : k ≤ (bytes s).length) : block.take k = (bytes s).take k := by
  simp only [realloc, Option.ite_none_right_eq_some, Option.some.injEq] at h
  rw [← h.2, List.take_append_of_le_length, List.take_take, Nat.min_eq_left hk, bytes]
  rw [List.length_take]
  exact Nat.le_min.mpr ⟨hk, hold⟩

theorem sendPostCb_eq (hpiece : 0#8 ∉ piece) (hlen : s.len ≤ (bytes s).length)
    (h : sendPostCb s piece = some t) :
    0 ≤ s.len ∧ t.len = int (s.len + piece.length) ∧
      bytes t = (bytes s).take s.len.toNat ++ piece.map some ∧
      t.printed = s.printed ++ [textOf (bytes t)] := by
  simp only [sendPostCb, strncpyBytes_eq hpiece, writeAt, Option.bind_eq_bind,
    Option.bind_eq_some_iff, Option.ite_none_right_eq_some, Option.some.injEq] at h
  obtain ⟨block, hblock, _, ⟨⟨hpos, hfit⟩, rfl⟩, h⟩ := h
  obtain rfl := Option.some_inj.mp h
  have hsize := length_realloc hblock
  obtain ⟨k, hk⟩ := Int.eq_ofNat_of_zero_le hpos
  have htotal : block.length = k + piece.length := by
    rw [hk] at hsize hfit
    omega
  have hdrop : block.drop (k + piece.length) = [] :=
    List.drop_eq_nil_of_le (Nat.le_of_eq htotal)
  have htake : block.take k = (bytes s).take k :=
    take_realloc hblock (by omega) (by omega)
  have hbytes : block.take s.len.toNat ++ piece.map some ++
      block.drop (s.len.toNat + piece.length) =
        (bytes s).take s.len.toNat ++ piece.map some := by
    rw [hk, Int.toNat_natCast, hdrop, htake, List.append_nil]
  exact ⟨hpos, rfl, hbytes, rfl⟩

theorem Unterminated.next (hpiece : 0#8 ∉ piece) (hs : Unterminated s)
    (h : sendPostCb s piece = some t) : Unterminated t := by
  obtain ⟨hpos, hlen, hbytes, hprinted⟩ := sendPostCb_eq hpiece hs.len_le h
  have hwritten : ∀ b ∈ bytes t, ∃ v, b = some v ∧ v ≠ 0#8 := by
    intro b hb
    rw [hbytes] at hb
    rcases List.mem_append.mp hb with hb | hb
    · exact hs.written b (List.mem_of_mem_take hb)
    · obtain ⟨v, hv, rfl⟩ := List.mem_map.mp hb
      exact ⟨v, rfl, fun h0 => hpiece (h0 ▸ hv)⟩
  constructor
  · exact hwritten
  · have hold := hs.len_le
    have hint : int (s.len + piece.length) ≤ s.len + piece.length := int_le (by omega)
    rw [hlen, hbytes, List.length_append, List.length_take, List.length_map]
    omega
  · intro text htext
    rw [hprinted] at htext
    rcases List.mem_append.mp htext with htext | htext
    · exact hs.printed text htext
    · rw [List.mem_singleton.mp htext]
      exact textOf_eq_none hwritten

theorem Unterminated.run (hs : Unterminated s) (hpieces : ∀ piece ∈ pieces, 0#8 ∉ piece)
    (h : pieces.foldlM sendPostCb s = some t) : Unterminated t := by
  induction pieces generalizing s with
  | nil =>
    obtain rfl := Option.some_inj.mp h
    exact hs
  | cons piece pieces ih =>
    obtain ⟨u, hu, hrest⟩ := Option.bind_eq_some_iff.mp h
    have hnext := hs.next (hpieces piece List.mem_cons_self) hu
    exact ih hnext (fun p hp => hpieces p (List.mem_cons_of_mem _ hp)) hrest

theorem Unterminated.not_collected (hs : Unterminated s) (body : List Byte) :
    ¬ Collected body s := by
  intro hcol
  obtain ⟨block, rest, hblock, heq⟩ := hcol
  have hmem : some 0#8 ∈ bytes s := by
    rw [bytes, hblock, Option.getD_some, heq]
    exact List.mem_append_right _ List.mem_cons_self
  obtain ⟨v, hv, hne⟩ := hs.written _ hmem
  exact hne (Option.some_inj.mp hv).symm

structure Holds (body : List Byte) (s : Collector) : Prop where
  held : bytes s = body.map some
  len : s.len = body.length

theorem Holds.next {body : List Byte} (hs : Holds body s) (hpiece : 0#8 ∉ piece)
    (hfit : body.length + piece.length < 2 ^ 31) :
    ∃ t, sendPostCb s piece = some t ∧ Holds (body ++ piece) t := by
  have hold : (bytes s).length = body.length := by rw [hs.held, List.length_map]
  have hlen : s.len ≤ (bytes s).length := by rw [hs.len, hold]
  have hsize : ((piece.length + s.len) % 2 ^ 64).toNat = body.length + piece.length := by
    rw [hs.len]
    omega
  have hgrant : body.length + piece.length ≤ ptrdiffMax := by
    simp only [ptrdiffMax]
    omega
  obtain ⟨block, hblock⟩ : ∃ block, realloc s.block (body.length + piece.length) = some block :=
    ⟨_, if_pos hgrant⟩
  have hin : 0 ≤ s.len ∧ s.len + piece.length ≤ block.length := by
    rw [length_realloc hblock, hs.len]
    omega
  obtain ⟨t, ht⟩ : ∃ t, sendPostCb s piece = some t := by
    simp only [sendPostCb, hsize, hblock, strncpyBytes_eq hpiece, writeAt, if_pos hin,
      Option.bind_eq_bind, Option.bind_some]
    exact ⟨_, rfl⟩
  obtain ⟨-, hint, hbytes, -⟩ := sendPostCb_eq hpiece hlen ht
  refine ⟨t, ht, ?_, ?_⟩
  · rw [hbytes, hs.held, hs.len, Int.toNat_natCast, ← List.map_take, List.take_length,
      List.map_append]
  · rw [hint, hs.len, int, Int.bmod_eq_of_le (by omega) (by omega), List.length_append]
    rfl

theorem Holds.run {body : List Byte} (hs : Holds body s)
    (hpieces : ∀ piece ∈ pieces, 0#8 ∉ piece)
    (hfit : body.length + pieces.flatten.length < 2 ^ 31) :
    ∃ t, pieces.foldlM sendPostCb s = some t ∧ Holds (body ++ pieces.flatten) t := by
  induction pieces generalizing s body with
  | nil => exact ⟨s, rfl, by rwa [List.flatten_nil, List.append_nil]⟩
  | cons piece pieces ih =>
    rw [List.flatten_cons, List.length_append] at hfit
    obtain ⟨u, hu, hnext⟩ := hs.next (hpieces piece List.mem_cons_self) (by omega)
    have hrest : (body ++ piece).length + pieces.flatten.length < 2 ^ 31 := by
      rw [List.length_append]
      omega
    obtain ⟨t, ht, hholds⟩ :=
      ih hnext (fun p hp => hpieces p (List.mem_cons_of_mem _ hp)) hrest
    refine ⟨t, ?_, ?_⟩
    · rw [List.foldlM_cons, hu]
      exact ht
    · rwa [List.flatten_cons, ← List.append_assoc]

theorem holds_start : Holds [] start := ⟨rfl, rfl⟩

/-- However the body is cut, no NUL ends it in the block: what is printed and parsed has no end
inside. Up to the largest length of an `int` the block is the body, whatever the cuts. -/
theorem response_unterminated (pieces : List (List Byte)) (h : ∀ piece ∈ pieces, 0#8 ∉ piece) :
    (∀ t, sendPost pieces = some t →
      ¬ Collected pieces.flatten t ∧ textOf (bytes t) = none ∧ ∀ text ∈ t.printed, text = none) ∧
    (pieces.flatten.length < 2 ^ 31 →
      ∃ t, sendPost pieces = some t ∧ bytes t = pieces.flatten.map some) := by
  constructor
  · intro t ht
    have hun : Unterminated t := unterminated_start.run h ht
    exact ⟨hun.not_collected _, textOf_eq_none hun.written, hun.printed⟩
  · intro hfit
    obtain ⟨t, ht, hholds⟩ := holds_start.run h (by simpa using hfit)
    exact ⟨t, ht, hholds.held⟩

theorem response_in_two_pieces : ∃ t, sendPost [[123#8], [125#8]] = some t ∧
    bytes t = [some 123#8, some 125#8] :=
  (response_unterminated [[123#8], [125#8]] (by decide)).2 (by decide)

/-- The body of one byte: the block has that byte alone. -/
theorem one_byte_unterminated :
    (sendPost [[123#8]]).map bytes = some [some 123#8] ∧
    ¬ ∃ t, sendPost [[123#8]] = some t ∧ Collected [123#8] t := by
  have hrun : sendPost [[123#8]] = some ⟨some [some 123#8], 1, [none]⟩ := by decide +kernel
  refine ⟨by rw [hrun]; rfl, ?_⟩
  rintro ⟨t, ht, block, rest, hblock, heq⟩
  rw [hrun] at ht
  obtain rfl := Option.some_inj.mp ht
  obtain rfl := Option.some_inj.mp hblock
  exact absurd heq (by simp)

end ResponseBuffer

import MyGitCode.Base64
import MyGitCode.CFormat
import Mathlib.Data.BitVec
import Mathlib.Data.List.Chain

/-! # The default password of a hub, mark_program/web_passwd.c -/
namespace PasswordText

open Base64 CFormat

abbrev Word := BitVec 64

def adminDic : List Byte := "34679abcdefghikmnpqrtuvwxy".toList.map byte

/-- `randseed = atoll(seed)`. -/
def janRandInitSeed (seed : List Char) : Word := BitVec.ofInt 64 (atoll seed)

def janRand (randseed : Word) : Word × Word :=
  let r := randseed * 9223 + 12345678
  ((r <<< 32) ||| ((r >>> 32) &&& 0xFFFFFFFF), r)

/-- `idx = jan_rand() % dic_size`: the size goes to 64 bits without a sign, the remainder to an
int. -/
def pick (r : Word) (dicSize : ℤ) : Option ℤ :=
  let d := BitVec.ofInt 64 dicSize
  if d = 0 then none else some (((r % d).toNat : ℤ).bmod (2 ^ 32))

def get (dic : List Byte) (idx : ℤ) : Option Byte :=
  if 0 ≤ idx then dic[idx.toNat]? else none

def store (randStr : List Byte) (i : ℕ) (c : Byte) : Option (List Byte) :=
  if i < randStr.length then some (randStr.set i c) else none

def fillFrom (dic : List Byte) (dicSize : ℤ) :
    ℕ → ℕ → Word → List Byte → Option (List Byte × Word)
  | 0, _, randseed, randStr => some (randStr, randseed)
  | k + 1, i, randseed, randStr => do
    let (r, randseed) := janRand randseed
    let idx ← pick r dicSize
    let c ← get dic idx
    let randStr ← store randStr i c
    let randStr ←
      if i ≠ 0 ∧ randStr[i - 1]? = randStr[i]? then do
        let c ← get dic ((idx + 1).tmod dicSize)
        store randStr i c
      else some randStr
    fillFrom dic dicSize k (i + 1) randseed randStr

structure Outcome where
  result : ℤ
  randStr : Option (List Byte)
  randseed : Word
  deriving DecidableEq

/-- A pointer is none where it is NULL; there is no outcome where the code leaves an array or
divides by zero. -/
def janGetHubRandomStringAlgo (randseed : Word) (randStr : Option (List Byte)) (randStrLen : ℤ)
    (imei : Option (List Char)) (dic : Option (List Byte)) (dicSize : ℤ) : Option Outcome :=
  match randStr, imei, dic with
  | some buf, some imei, some dic => do
    let (buf, randseed) ← fillFrom dic dicSize randStrLen.toNat 0 (janRandInitSeed imei) buf
    if 0 ≤ randStrLen then
      let buf ← store buf randStrLen.toNat 0#8
      return ⟨0, some buf, randseed⟩
    else none
  | _, _, _ => some ⟨-1, randStr, randseed⟩

variable {dic out rest : List Byte} {c : Byte} {r randseed : Word} {i k : ℕ}

theorem length_le_of_nodup (h : dic.Nodup) : dic.length ≤ 256 := by
  have hmap : (dic.map BitVec.toFin).Nodup := h.map fun _ _ => BitVec.toFin_inj.mp
  have := hmap.length_le_card
  simpa using this

theorem pick_eq (h : dic.Nodup) (hpos : 0 < dic.length) :
    ∃ j, j < dic.length ∧ pick r dic.length = some (j : ℤ) := by
  have hle := length_le_of_nodup h
  have hd : (BitVec.ofInt 64 (dic.length : ℤ)).toNat = dic.length := by
    rw [BitVec.ofInt_natCast, BitVec.toNat_ofNat]
    omega
  have hne : BitVec.ofInt 64 (dic.length : ℤ) ≠ 0 := by
    intro h0
    rw [h0] at hd
    exact absurd hd (Nat.ne_of_lt hpos)
  have hlt : (r % BitVec.ofInt 64 (dic.length : ℤ)).toNat < dic.length := by
    rw [BitVec.toNat_umod, hd]
    exact Nat.mod_lt _ hpos
  refine ⟨_, hlt, ?_⟩
  rw [pick, if_neg hne, Int.bmod_eq_of_le (by omega) (by omega)]

theorem get_natCast : get dic i = dic[i]? := by
  rw [get, if_pos (Int.natCast_nonneg i), Int.toNat_natCast]

theorem getElem_next_ne (h : dic.Nodup) (htwo : 2 ≤ dic.length) (hi : i < dic.length) :
    ∃ hn : (i + 1) % dic.length < dic.length, dic[(i + 1) % dic.length] ≠ dic[i] := by
  refine ⟨Nat.mod_lt _ (by omega), ?_⟩
  intro heq
  have hidx : (i + 1) % dic.length = i := (h.getElem_inj_iff).mp heq
  rcases Nat.lt_or_ge (i + 1) dic.length with hlt | hge
  · rw [Nat.mod_eq_of_lt hlt] at hidx
    omega
  · have hlast : i + 1 = dic.length := by omega
    rw [hlast, Nat.mod_self] at hidx
    omega

theorem store_append {b : Byte} (h : out.length = i) :
    store (out ++ b :: rest) i c = some (out ++ c :: rest) := by
  subst h
  have hlt : out.length < (out ++ b :: rest).length := by simp
  rw [store, if_pos hlt, List.set_append_right _ _ (Nat.le_refl _), Nat.sub_self,
    List.set_cons_zero]

theorem clash_iff (h : out.length = i) :
    (i ≠ 0 ∧ (out ++ c :: rest)[i - 1]? = (out ++ c :: rest)[i]?) ↔ out.getLast? = some c := by
  subst h
  have hat : (out ++ c :: rest)[out.length]? = some c := by
    rw [List.getElem?_append_right (Nat.le_refl _), Nat.sub_self]
    rfl
  rw [hat, List.getLast?_eq_getElem?]
  by_cases hout : out = []
  · subst hout
    simp
  · have hpos : 0 < out.length := List.length_pos_iff.mpr hout
    rw [List.getElem?_append_left (Nat.sub_lt hpos Nat.one_pos)]
    simp [hout]

theorem fillFrom_succ (h : dic.Nodup) (htwo : 2 ≤ dic.length) (hi : out.length = i)
    (hrest : rest ≠ []) :
    ∃ c ∈ dic, out.getLast? ≠ some c ∧
      fillFrom dic dic.length (k + 1) i randseed (out ++ rest) =
        fillFrom dic dic.length k (i + 1) (janRand randseed).2 (out ++ [c] ++ rest.tail) := by
  obtain ⟨j, hj, hpick⟩ := pick_eq (r := (janRand randseed).1) h (by omega)
  obtain ⟨hn, hne⟩ := getElem_next_ne h htwo hj
  obtain ⟨b, rest, rfl⟩ := List.exists_cons_of_ne_nil hrest
  have hget : get dic (j : ℤ) = some dic[j] := by
    rw [get_natCast, List.getElem?_eq_getElem hj]
  have hmod : ((j : ℤ) + 1).tmod dic.length = ((j + 1) % dic.length : ℕ) := rfl
  have hnext : get dic (((j : ℤ) + 1).tmod dic.length) = some dic[(j + 1) % dic.length] := by
    rw [hmod, get_natCast, List.getElem?_eq_getElem hn]
  by_cases hclash : out.getLast? = some dic[j]
  · refine ⟨dic[(j + 1) % dic.length], List.getElem_mem hn, ?_, ?_⟩
    · rw [hclash]
      exact fun heq => hne (Option.some_inj.mp heq).symm
    · simp only [fillFrom, hpick, hget, store_append hi, Option.bind_eq_bind, Option.bind_some,
        if_pos ((clash_iff hi).mpr hclash), hnext, List.tail_cons, List.append_assoc,
        List.singleton_append]
  · refine ⟨dic[j], List.getElem_mem hj, hclash, ?_⟩
    simp only [fillFrom, hpick, hget, store_append hi, Option.bind_eq_bind, Option.bind_some,
      if_neg (mt (clash_iff hi).mp hclash), List.tail_cons, List.append_assoc,
      List.singleton_append]

/-- A text the loop may have written: characters of the dictionary, no two neighbours equal. -/
structure Drawn (dic out : List Byte) : Prop where
  mem : ∀ c ∈ out, c ∈ dic
  neighbours : out.IsChain (· ≠ ·)

theorem Drawn.append (h : Drawn dic out) (hc : c ∈ dic) (hne : out.getLast? ≠ some c) :
    Drawn dic (out ++ [c]) where
  mem := by
    intro b hb
    rcases List.mem_append.mp hb with hb | hb
    · exact h.mem b hb
    · rw [List.mem_singleton.mp hb]
      exact hc
  neighbours := by
    rw [List.isChain_append]
    refine ⟨h.neighbours, List.isChain_singleton c, ?_⟩
    intro a ha b hb
    obtain rfl : c = b := by simpa using hb
    rintro rfl
    exact hne ha

theorem fillFrom_drawn (h : dic.Nodup) (htwo : 2 ≤ dic.length) (hi : out.length = i)
    (hrest : k ≤ rest.length) (hout : Drawn dic out) :
    ∃ text seed, fillFrom dic dic.length k i randseed (out ++ rest) =
        some (text ++ rest.drop k, seed) ∧ text.length = i + k ∧ Drawn dic text := by
  induction k generalizing i randseed out rest with
  | zero => exact ⟨out, randseed, rfl, hi, hout⟩
  | succ k ih =>
    have hne : rest ≠ [] := by
      rintro rfl
      exact absurd hrest (Nat.not_succ_le_zero k)
    obtain ⟨c, hc, hlast, hstep⟩ := @fillFrom_succ dic out rest randseed i k h htwo hi hne
    have hlen : (out ++ [c]).length = i + 1 := by
      rw [List.length_append, List.length_singleton, hi]
    have htail : k ≤ rest.tail.length := by
      rw [List.length_tail]
      omega
    obtain ⟨text, seed, hfill, htext, hdrawn⟩ :=
      ih hlen htail (hout.append hc hlast)
    refine ⟨text, seed, ?_, ?_, hdrawn⟩
    · rw [hstep, hfill, List.drop_tail]
    · omega

theorem algo_drawn (randseed : Word) (imei : List Char) {buf : List Byte} {n : ℕ}
    (h : dic.Nodup) (htwo : 2 ≤ dic.length) (hbuf : n < buf.length) :
    ∃ text seed, janGetHubRandomStringAlgo randseed (some buf) n (some imei) (some dic)
        dic.length = some ⟨0, some (text ++ 0#8 :: buf.drop (n + 1)), seed⟩ ∧
      text.length = n ∧ Drawn dic text := by
  obtain ⟨text, seed, hfill, hlen, hdrawn⟩ : ∃ text seed,
      fillFrom dic dic.length n 0 (janRandInitSeed imei) ([] ++ buf) =
        some (text ++ buf.drop n, seed) ∧ text.length = 0 + n ∧ Drawn dic text :=
    fillFrom_drawn h htwo rfl (Nat.le_of_lt hbuf) ⟨nofun, .nil⟩
  rw [Nat.zero_add] at hlen
  have hstore : store (text ++ buf.drop n) n 0#8 = some (text ++ 0#8 :: buf.drop (n + 1)) := by
    rw [List.drop_eq_getElem_cons hbuf, store_append hlen]
  refine ⟨text, seed, ?_, hlen, hdrawn⟩
  rw [List.nil_append] at hfill
  simp only [janGetHubRandomStringAlgo, Int.toNat_natCast, hfill, Option.bind_eq_bind,
    Option.bind_some, if_pos (Int.natCast_nonneg n), hstore]
  rfl

/-- The number an IMEI stands for, within the limits of `long long`. -/
def imeiValue (imei : List Char) : ℤ := max (-2 ^ 63) (min (parseInt imei) (2 ^ 63 - 1))

/-- The password fills its characters, without equal neighbours, and depends on the IMEI through
the number it stands for within the limits of `long long`. -/
theorem password_filled (randseed : Word) (imei : List Char) (dic buf : List Byte) (n : ℕ)
    (h : dic.Nodup) (htwo : 2 ≤ dic.length) (hbuf : n < buf.length) :
    (∃ text seed, janGetHubRandomStringAlgo randseed (some buf) n (some imei) (some dic)
        dic.length = some ⟨0, some (text ++ 0#8 :: buf.drop (n + 1)), seed⟩ ∧
      text.length = n ∧ Drawn dic text) ∧
    ∀ imei' : List Char, imeiValue imei' = imeiValue imei →
      janGetHubRandomStringAlgo randseed (some buf) n (some imei') (some dic) dic.length =
        janGetHubRandomStringAlgo randseed (some buf) n (some imei) (some dic) dic.length := by
  refine ⟨algo_drawn randseed imei h htwo hbuf, ?_⟩
  intro imei' heq
  have hseed : janRandInitSeed imei' = janRandInitSeed imei :=
    congrArg (BitVec.ofInt 64) (show atoll imei' = atoll imei from heq)
  simp only [janGetHubRandomStringAlgo, hseed]

theorem password_of_main : ∃ text seed,
    janGetHubRandomStringAlgo 0 (some (List.replicate 32 0#8)) (8 : ℕ)
      (some "861234567890123".toList) (some adminDic) adminDic.length =
        some ⟨0, some (text ++ 0#8 :: (List.replicate 32 0#8).drop (8 + 1)), seed⟩ ∧
      text.length = 8 ∧ Drawn adminDic text :=
  (password_filled 0 "861234567890123".toList adminDic (List.replicate 32 0#8) 8 (by decide)
    (by decide) (by decide)).1

/-- 18446744073709551617 is 1 modulo 2^64, but `atoll` stops at 2^63 - 1: one character of the
password is `t` for the one and `3` for the other. -/
theorem imei_beyond_atoll :
    ¬ ∀ imei imei' : List Char, (parseInt imei - parseInt imei') % 2 ^ 64 = 0 →
      (janGetHubRandomStringAlgo 0 (some [0#8, 0#8]) 1 (some imei) (some adminDic)
          adminDic.length).map Outcome.randStr =
        (janGetHubRandomStringAlgo 0 (some [0#8, 0#8]) 1 (some imei') (some adminDic)
          adminDic.length).map Outcome.randStr := by
  intro hall
  have hlarge : (janGetHubRandomStringAlgo 0 (some [0#8, 0#8]) 1
      (some "18446744073709551617".toList) (some adminDic) adminDic.length).map Outcome.randStr =
        some (some [byte 't', 0#8]) := by decide +kernel
  have hone : (janGetHubRandomStringAlgo 0 (some [0#8, 0#8]) 1 (some "1".toList)
      (some adminDic) adminDic.length).map Outcome.randStr = some (some [byte '3', 0#8]) := by
    decide +kernel
  have heq := hall "18446744073709551617".toList "1".toList (by decide +kernel)
  rw [hlarge, hone] at heq
  exact absurd heq (by decide)

end PasswordText

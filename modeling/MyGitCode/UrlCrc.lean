import MyGitCode.ReflectedCrc
import MyGitCode.UrlHash

/-! # `Hash::crc32` and the check it tabulates

The table of the constructor holds eight division steps of each byte, so a turn of the loop is
eight steps of the CRC-32 of polynomial `0xEDB88320`. -/
namespace UrlCrc

open UrlHash

abbrev polynomial : Word := 0xEDB88320#32

def octet (c : Char) : BitVec 8 := BitVec.ofNat 8 c.toNat

def turn (val : Word) (c : Char) : Word :=
  crcTable.getD ((val &&& 0xFF#32) ^^^ byte c).toNat 0#32 ^^^ (val >>> 8)

theorem crcStep_eq (crc : Word) : crcStep crc = ReflectedCrc.shift polynomial crc := by
  have hlow : (crc &&& 1#32 ≠ 0#32) ↔ crc.getLsbD 0 = true := by
    rw [BitVec.and_one_eq_setWidth_ofBool_getLsbD]
    cases crc.getLsbD 0 <;> decide
  simp only [crcStep, ReflectedCrc.shift, hlow]

theorem iterate_crcStep (n : ℕ) (crc : Word) :
    Nat.iterate crcStep n crc = (ReflectedCrc.shift polynomial)^[n] crc := by
  rw [funext crcStep_eq]

theorem crcTable_getD {i : ℕ} (hi : i < 256) :
    crcTable.getD i 0#32 = (ReflectedCrc.shift polynomial)^[8] (BitVec.ofNat 32 i) := by
  have hget : crcTable.getD i 0#32 = Nat.iterate crcStep 8 (BitVec.ofNat 32 i) := by
    simp [crcTable, Vector.getD, hi]
  rw [hget, iterate_crcStep]

theorem index_eq (val : Word) (c : Char) :
    (val &&& 0xFF#32) ^^^ byte c = (val.setWidth 8 ^^^ octet c).setWidth 32 := by
  have hval : val &&& 0xFF#32 = (val.setWidth 8).setWidth 32 := by
    apply BitVec.eq_of_toNat_eq
    rw [BitVec.toNat_and, BitVec.toNat_setWidth, BitVec.toNat_setWidth]
    have hmask := Nat.and_two_pow_sub_one_eq_mod val.toNat 8
    have hlt := Nat.mod_lt val.toNat (show 0 < 2 ^ 8 by decide)
    rw [Nat.mod_eq_of_lt (show val.toNat % 2 ^ 8 < 2 ^ 32 by omega), ← hmask]
    rfl
  have hbyte : byte c = (octet c).setWidth 32 := by
    apply BitVec.eq_of_toNat_eq
    simp [byte, octet]
  rw [hval, hbyte, BitVec.setWidth_xor]

theorem turn_eq (val : Word) (c : Char) :
    turn val c = (ReflectedCrc.bitsOf (octet c)).foldl (ReflectedCrc.feed polynomial) val := by
  have hlt : ((val.setWidth 8 ^^^ octet c).setWidth 32).toNat < 256 := by
    rw [BitVec.toNat_setWidth]
    have := (val.setWidth 8 ^^^ octet c).isLt
    omega
  rw [turn, index_eq, crcTable_getD hlt, BitVec.ofNat_toNat, BitVec.setWidth_eq,
    ReflectedCrc.foldl_feed_byte (by decide)]

theorem foldl_turn (str : List Char) (val : Word) :
    str.foldl turn val =
      ((str.map octet).flatMap ReflectedCrc.bitsOf).foldl (ReflectedCrc.feed polynomial) val := by
  induction str generalizing val with
  | nil => rfl
  | cons c str ih =>
    rw [List.foldl_cons, ih, turn_eq, List.map_cons, List.flatMap_cons, List.foldl_append]

/-- The table-driven check of every string is the one taken bit by bit. -/
theorem crc32_eq_checksum (str : List Char) :
    crc32 str = ReflectedCrc.checksum polynomial (str.map octet) := by
  have hloop : crc32 str = ~~~ str.foldl turn (BitVec.allOnes 32) := rfl
  rw [hloop, foldl_turn, ReflectedCrc.checksum]

example : ReflectedCrc.checksum polynomial ("123456789".toList.map octet) = 0xCBF43926#32 := by
  decide +kernel

end UrlCrc

import Mathlib.Data.Nat.Notation
import Mathlib.Logic.Function.Iterate

/-! # The hashes of `Hash.cpp`

A string is a list of characters whose codes are its bytes. -/
namespace UrlHash

abbrev Word := BitVec 32

/-- The value of `(unsigned char)str[i]` in an `unsigned int`. -/
def byte (c : Char) : Word := BitVec.ofNat 32 (c.toNat % 256)

def times33 (str : List Char) : Word :=
  str.foldl (fun val c => (val <<< 5) + val + byte c) 0#32

def timesnum (str : List Char) (num : Word) : Word :=
  str.foldl (fun val c => val * num + byte c) 0#32

def aphash (str : List Char) : Word :=
  let mix (val : Word) : Char × ℕ → Word
    | (c, i) =>
      if i % 2 = 1 then val ^^^ ~~~((val <<< 11) ^^^ byte c ^^^ (val >>> 5))
      else val ^^^ ((val <<< 7) ^^^ byte c ^^^ (val >>> 3))
  str.zipIdx.foldl mix 0#32 &&& 0x7FFFFFFF#32

def hash16777619 (str : List Char) : Word :=
  str.foldl (fun val c => (val * 16777619#32) ^^^ byte c) 0#32

def mysqlhash (str : List Char) : Word :=
  let mix : Word × Word → Char → Word × Word
    | (nr1, nr2), c =>
      (nr1 ^^^ (((nr1 &&& 63#32) + nr2) * byte c + (nr1 <<< 8)), nr2 + 3#32)
  (str.foldl mix (1#32, 4#32)).1

def crcStep (crc : Word) : Word :=
  if crc &&& 1#32 ≠ 0#32 then (crc >>> 1) ^^^ 0xEDB88320#32 else crc >>> 1

def crcTable : Vector Word 256 := Vector.ofFn fun i => Nat.iterate crcStep 8 (BitVec.ofNat 32 i)

def crc32 (str : List Char) : Word :=
  ~~~ str.foldl (fun val c =>
    crcTable.getD ((val &&& 0xFF#32) ^^^ byte c).toNat 0#32 ^^^ (val >>> 8)) 0xFFFFFFFF#32

end UrlHash

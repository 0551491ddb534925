import Mathlib.Data.BitVec
import MyGitCode.CFormat
import MyGitCode.CrawlUrls
import MyGitCode.DelimitedRuns

/-! # The parts of a URL

The constructor of `DnsUrl` with the port it reads, and the four shapes of a URL. -/
namespace UrlParts

open CrawlUrls DelimitedRuns

/-- A `DnsUrl` with its port, a `short`. -/
structure ServerUrl extends DnsUrl where
  port : BitVec 16
  deriving DecidableEq

/-- The number behind the last colon of the domain, if there is one and it is not zero. -/
def portOf (domain : List Char) : BitVec 16 :=
  if ':' ∈ domain then
    let port := BitVec.ofInt 16 (CFormat.atoi (domain.reverse.takeWhile (· ≠ ':')).reverse)
    if port = 0#16 then 80#16 else port
  else 80#16

def ServerUrl.ofRaw (rawUrl : RawUrl) : ServerUrl where
  toDnsUrl := DnsUrl.ofRaw rawUrl
  port := portOf (DnsUrl.ofRaw rawUrl).domain

/-- What `htons (m_port)` puts into the address, read as the port number it is. -/
def ServerUrl.sinPort (url : ServerUrl) : ℕ := url.port.toNat

/-- The name given to `gethostbyname`, and sent as the `Host` of the request. -/
def ServerUrl.hostName (url : ServerUrl) : List Char := url.domain

structure Shape where
  host : List Char
  port : Option (List Char)
  path : Option (List Char)
  host_nonempty : host ≠ []
  host_plain : ∀ c ∈ host, c ≠ ':' ∧ c ≠ '/'
  port_decimal : ∀ digits ∈ port, digits ≠ [] ∧ ∀ c ∈ digits, c.isDigit = true
  port_range : ∀ digits ∈ port, 1 ≤ Nat.ofDigitChars 10 digits 0 ∧
    Nat.ofDigitChars 10 digits 0 ≤ 65535

variable {s : Shape}

def Shape.portText (s : Shape) : List Char := s.port.elim [] fun digits => ':' :: digits

def Shape.url (s : Shape) : List Char :=
  s.host ++ s.portText ++ s.path.elim [] fun path => '/' :: path

def Shape.portNumber (s : Shape) : ℕ := s.port.elim 80 fun digits => Nat.ofDigitChars 10 digits 0

/-- The host alone as the name, the port and the path of the shape. -/
structure Decomposed (url : ServerUrl) (s : Shape) : Prop where
  host : url.hostName = s.host
  port : url.sinPort = s.portNumber
  path : url.path = s.path.getD []

theorem digit_ne {c : Char} (h : c.isDigit = true) : c ≠ ':' ∧ c ≠ '/' := by
  constructor
  · rintro rfl
    cases h
  · rintro rfl
    cases h

theorem Shape.no_slash (s : Shape) : ∀ c ∈ s.host ++ s.portText, c ≠ '/' := by
  intro c hc
  rcases List.mem_append.mp hc with hc | hc
  · exact (s.host_plain c hc).2
  · rw [portText] at hc
    cases hport : s.port with
    | none =>
      rw [hport] at hc
      cases hc
    | some digits =>
      rw [hport] at hc
      rcases List.mem_cons.mp hc with rfl | hc
      · decide
      · exact (digit_ne ((s.port_decimal digits hport).2 c hc)).2

theorem ofRaw_parts (s : Shape) (type : UrlType) (depth : ℤ) :
    (DnsUrl.ofRaw ⟨s.url, type, depth⟩).domain = s.host ++ s.portText ∧
      (DnsUrl.ofRaw ⟨s.url, type, depth⟩).path = s.path.getD [] := by
  have hplain : ∀ c ∈ s.host ++ s.portText, (decide (c ≠ '/')) = true := by
    intro c hc
    simpa using s.no_slash c hc
  have hdrop : (s.host ++ s.portText).dropWhile (fun c => decide (c ≠ '/')) = [] := by
    rwa [List.dropWhile_eq_nil_iff]
  simp only [DnsUrl.ofRaw, Shape.url]
  cases hpath : s.path with
  | none =>
    simp only [Option.elim_none, List.append_nil]
    rw [List.takeWhile_eq_self_iff.mpr hplain, hdrop]
    exact ⟨rfl, rfl⟩
  | some path =>
    simp only [Option.elim_some]
    rw [takeWhile_append_stop path (by decide), dropWhile_append_stop path (by decide),
      List.takeWhile_eq_self_iff.mpr hplain, hdrop]
    exact ⟨rfl, rfl⟩

theorem atoi_digits {digits : List Char} (hdigits : ∀ c ∈ digits, c.isDigit = true)
    (hlt : Nat.ofDigitChars 10 digits 0 < 2 ^ 31) :
    CFormat.atoi digits = Nat.ofDigitChars 10 digits 0 := by
  have hvalue : CFormat.digits digits = Nat.ofDigitChars 10 digits 0 := by
    rw [CFormat.digits, List.takeWhile_eq_self_iff.mpr hdigits]
  have hparse : CFormat.parseInt digits = CFormat.digits digits := CFormat.parseInt_digits hdigits
  rw [CFormat.atoi_eq (by omega) (by omega), hparse, hvalue]

theorem portOf_digits {host digits : List Char} (hdigits : ∀ c ∈ digits, c.isDigit = true)
    (hlow : 1 ≤ Nat.ofDigitChars 10 digits 0)
    (hhigh : Nat.ofDigitChars 10 digits 0 ≤ 65535) :
    (portOf (host ++ ':' :: digits)).toNat = Nat.ofDigitChars 10 digits 0 := by
  have hcolon : ∀ c ∈ digits.reverse, (decide (c ≠ ':')) = true := by
    intro c hc
    simpa using (digit_ne (hdigits c (List.mem_reverse.mp hc))).1
  have hlast : ((host ++ ':' :: digits).reverse.takeWhile (· ≠ ':')).reverse = digits := by
    rw [List.reverse_append, List.reverse_cons, List.append_assoc, List.singleton_append,
      takeWhile_append_stop _ (by decide), List.takeWhile_eq_self_iff.mpr hcolon,
      List.reverse_reverse]
  have hmem : ':' ∈ host ++ ':' :: digits := List.mem_append_right _ List.mem_cons_self
  have hport : (BitVec.ofInt 16 (CFormat.atoi digits)).toNat = Nat.ofDigitChars 10 digits 0 := by
    rw [atoi_digits hdigits (by omega), BitVec.ofInt_natCast, BitVec.toNat_ofNat,
      Nat.mod_eq_of_lt (by omega)]
  have hzero : BitVec.ofInt 16 (CFormat.atoi digits) ≠ 0#16 := by
    intro h
    rw [h] at hport
    have : (0#16).toNat = 0 := rfl
    omega
  rw [portOf, if_pos hmem, hlast]
  simp only [if_neg hzero, hport]

theorem ofRaw_port (s : Shape) (type : UrlType) (depth : ℤ) :
    (ServerUrl.ofRaw ⟨s.url, type, depth⟩).sinPort = s.portNumber := by
  rw [ServerUrl.sinPort, ServerUrl.ofRaw]
  simp only [(ofRaw_parts s type depth).1, Shape.portText, Shape.portNumber]
  cases hport : s.port with
  | none =>
    have hcolon : ':' ∉ s.host ++ [] := by
      rw [List.append_nil]
      exact fun h => (s.host_plain _ h).1 rfl
    simp only [Option.elim_none]
    rw [portOf, if_neg hcolon]
    rfl
  | some digits =>
    obtain ⟨hlow, hhigh⟩ := s.port_range digits hport
    exact portOf_digits (s.port_decimal digits hport).2 hlow hhigh

/-- A URL is taken apart into host, port and path exactly when it names no port. -/
theorem decomposed_iff (s : Shape) (type : UrlType) (depth : ℤ) :
    Decomposed (ServerUrl.ofRaw ⟨s.url, type, depth⟩) s ↔ s.port = none := by
  obtain ⟨hdomain, hpath⟩ := ofRaw_parts s type depth
  constructor
  · intro h
    have hhost : s.host ++ s.portText = s.host := hdomain.symm.trans h.host
    cases hport : s.port with
    | none => rfl
    | some digits =>
      rw [Shape.portText, hport] at hhost
      simp at hhost
  · intro hport
    refine ⟨?_, ofRaw_port s type depth, hpath⟩
    have hhost : s.host ++ s.portText = s.host := by
      rw [Shape.portText, hport]
      exact List.append_nil _
    exact hdomain.trans hhost

def localHost : Shape where
  host := "localhost".toList
  port := some "8080".toList
  path := some "a/b".toList
  host_nonempty := by decide
  host_plain := by simp
  port_decimal := by simp
  port_range := by
    intro digits h
    cases h
    decide

/-- The name looked up is `localhost:8080`. -/
theorem port_stays_in_name :
    localHost.url = "localhost:8080/a/b".toList ∧
    (ServerUrl.ofRaw ⟨localHost.url, .html, 0⟩).hostName = "localhost:8080".toList ∧
    ¬ Decomposed (ServerUrl.ofRaw ⟨localHost.url, .html, 0⟩) localHost := by
  refine ⟨rfl, by decide, ?_⟩
  intro h
  exact absurd h.host (by decide)

end UrlParts

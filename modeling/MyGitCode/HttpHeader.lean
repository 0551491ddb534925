import MyGitCode.CFormat
import MyGitCode.StrKit

/-! # Parsing the header of a response

`Socket::parseHeader`, as it runs when no other thread calls `strtok` in between. The state
between two calls of `split` is a `Resume`, so that the calls can be interleaved. -/
namespace HttpHeader

open CFormat (atoi)
open StrKit

structure Header where
  statusCode : ℤ
  contentType : List Char
  deriving DecidableEq, Repr

def findCrLf : List Char → Option ℕ
  | [] => none
  | c :: str => if "\r\n".toList.isPrefixOf (c :: str) then some 0 else (findCrLf str).map (· + 1)

theorem findCrLf_lt {str : List Char} {pos : ℕ} (h : findCrLf str = some pos) :
    pos < str.length := by
  induction str generalizing pos with
  | nil => cases h
  | cons c str ih =>
    rw [findCrLf] at h
    split at h
    · cases h
      simp
    · obtain ⟨n, hn, rfl⟩ := Option.map_eq_some_iff.mp h
      have := ih hn
      simp only [List.length_cons]
      omega

def strcasecmp (a b : List Char) : Bool := a.map Char.toLower = b.map Char.toLower

structure Call where
  str : List Char
  delim : List Char
  limit : ℤ
  deriving DecidableEq, Repr

/-- Where `parseHeader` goes on after a call of `split`, with the text not yet parsed. -/
inductive Resume where
  | status (rest : List Char)
  | field (header : Header) (rest : List Char)
  deriving DecidableEq, Repr

inductive Outcome where
  | call (call : Call) (resume : Resume)
  | done (header : Header)
  deriving DecidableEq, Repr

/-- The next turn of the loop over the header lines. -/
def nextField (header : Header) (str : List Char) : Outcome :=
  match findCrLf str with
  | some pos => .call ⟨str.take pos, ":".toList, 1⟩ (.field header (str.drop (pos + 2)))
  | none => .done header

def begin (str : List Char) : Outcome :=
  match findCrLf str with
  | some pos => .call ⟨str.take pos, " ".toList, 2⟩ (.status (str.drop (pos + 2)))
  | none => nextField ⟨0, []⟩ str

def statusHeader (strv : List (List Char)) : Header :=
  match strv with
  | [_, code, _] => ⟨atoi code, []⟩
  | _ => ⟨600, []⟩

def contentType (strv : List (List Char)) : Option (List Char) :=
  match strv with
  | [name, value] => if strcasecmp name "content-type".toList then some value else none
  | _ => none

def Resume.next (strv : List (List Char)) : Resume → Outcome
  | .status rest => nextField (statusHeader strv) rest
  | .field header rest =>
    match contentType strv with
    | some value => .done { header with contentType := value }
    | none => nextField header rest

def parseFields (header : Header) (str : List Char) : Header :=
  match _h : findCrLf str with
  | some pos =>
    match contentType (split (str.take pos) ":".toList 1) with
    | some value => { header with contentType := value }
    | none => parseFields header (str.drop (pos + 2))
  | none => header
termination_by str.length
decreasing_by
  have := findCrLf_lt _h
  rw [List.length_drop]
  omega

theorem parseFields_some {header : Header} {str : List Char} {pos : ℕ}
    (h : findCrLf str = some pos) : parseFields header str =
      match contentType (split (str.take pos) ":".toList 1) with
      | some value => { header with contentType := value }
      | none => parseFields header (str.drop (pos + 2)) := by
  rw [parseFields]
  split
  · rename_i pos' hpos
    obtain rfl : pos' = pos := Option.some.inj (hpos.symm.trans h)
    rfl
  · rename_i hpos
    rw [h] at hpos
    cases hpos

theorem parseFields_none {header : Header} {str : List Char} (h : findCrLf str = none) :
    parseFields header str = header := by
  rw [parseFields]
  split
  · rename_i hpos
    rw [h] at hpos
    cases hpos
  · rfl

def parseHeader (str : List Char) : Header :=
  match findCrLf str with
  | some pos =>
    parseFields (statusHeader (split (str.take pos) " ".toList 2)) (str.drop (pos + 2))
  | none => parseFields ⟨0, []⟩ str

def Resume.header (strv : List (List Char)) : Resume → Header
  | .status rest => parseFields (statusHeader strv) rest
  | .field header rest =>
    match contentType strv with
    | some value => { header with contentType := value }
    | none => parseFields header rest

def Outcome.header : Outcome → Header
  | .call c resume => resume.header (split c.str c.delim c.limit)
  | .done header => header

theorem nextField_header (header : Header) (str : List Char) :
    (nextField header str).header = parseFields header str := by
  rw [parseFields]
  cases h : findCrLf str <;> simp [nextField, h, Outcome.header, Resume.header]

theorem next_header (strv : List (List Char)) (resume : Resume) :
    (resume.next strv).header = resume.header strv := by
  cases resume with
  | status rest => exact nextField_header _ rest
  | field header rest =>
    simp only [Resume.next, Resume.header]
    split
    · rfl
    · exact nextField_header _ rest

theorem begin_header (str : List Char) : (begin str).header = parseHeader str := by
  rw [begin, parseHeader]
  split
  · rfl
  · exact nextField_header _ str

theorem nextField_delim {header : Header} {str : List Char} {c : Call} {resume : Resume}
    (h : nextField header str = .call c resume) : nul ∉ c.delim := by
  rw [nextField] at h
  split at h <;> cases h
  exact (by decide : nul ∉ ":".toList)

theorem begin_delim {str : List Char} {c : Call} {resume : Resume}
    (h : begin str = .call c resume) : nul ∉ c.delim := by
  rw [begin] at h
  split at h
  · cases h
    exact (by decide : nul ∉ " ".toList)
  · exact nextField_delim h

theorem next_delim {strv : List (List Char)} {resume resume' : Resume} {c : Call}
    (h : resume.next strv = .call c resume') : nul ∉ c.delim := by
  cases resume with
  | status rest => exact nextField_delim h
  | field header rest =>
    simp only [Resume.next] at h
    split at h
    · cases h
    · exact nextField_delim h

example : parseHeader "HTTP/1.1 200 OK\r\nContent-Type: text/html\r\nConnection: close".toList =
    ⟨200, "text/html".toList⟩ := by decide +kernel

end HttpHeader

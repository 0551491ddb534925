import MyGitCode.Base64
import Mathlib.Data.BitVec

/-! # `base64.c`: the texts that `base64_decode` accepts

A text without an output limit is read group by group. The padded group ends the reading, so
whatever stands behind it is ignored. -/
namespace Base64Grammar

open Base64

/-- Complete groups of four characters of the alphabet, and behind them what `ending` allows. -/
inductive Framed (ending : List Byte → Prop) : List Byte → Prop where
  | ending {text : List Byte} (h : ending text) : Framed ending text
  | group {c₀ c₁ c₂ c₃ : Byte} {rest : List Byte} (h₀ : c₀ ∈ alphabet) (h₁ : c₁ ∈ alphabet)
      (h₂ : c₂ ∈ alphabet) (h₃ : c₃ ∈ alphabet) (h : Framed ending rest) :
      Framed ending (c₀ :: c₁ :: c₂ :: c₃ :: rest)

def Padded : List Byte → Prop
  | c₀ :: c₁ :: c₂ :: c₃ :: _ =>
    c₀ ∈ alphabet ∧ c₁ ∈ alphabet ∧ (c₂ = byte '=' ∨ c₂ ∈ alphabet) ∧ c₃ = byte '='
  | _ => False

def Grammar (text : List Byte) : Prop := Framed (fun rest => rest = [] ∨ Padded rest) text

/-- A group `xx=` in front whose fourth character is not the second `=`. -/
def HalfPadded : List Byte → Prop
  | c₀ :: c₁ :: c₂ :: c₃ :: _ =>
    c₀ ∈ alphabet ∧ c₁ ∈ alphabet ∧ c₂ = byte '=' ∧ c₃ ≠ byte '='
  | _ => False

def EndsHalfPadded (text : List Byte) : Prop := Framed HalfPadded text

/-- What is accepted: the third character alone decides on the padding, where it is `=`. -/
def Accepted (text : List Byte) : Prop :=
  Framed (fun rest => rest = [] ∨ Padded rest ∨ HalfPadded rest) text

variable {text rest out : List Byte} {c c₀ c₁ c₂ c₃ : Byte} {ending ending' : List Byte → Prop}

theorem pad_not_mem : byte '=' ∉ alphabet := by
  decide +kernel

theorem Framed.mono (h : Framed ending text) (himp : ∀ rest, ending rest → ending' rest) :
    Framed ending' text := by
  induction h with
  | ending h => exact .ending (himp _ h)
  | group h₀ h₁ h₂ h₃ _ ih => exact .group h₀ h₁ h₂ h₃ ih

theorem framed_short (h : text.length < 4) : Framed ending text ↔ ending text := by
  constructor
  · intro hf
    cases hf with
    | ending h => exact h
    | group =>
      simp only [List.length_cons] at h
      omega
  · exact .ending

theorem framed_group (h₀ : c₀ ∈ alphabet) (h₁ : c₁ ∈ alphabet) (h₂ : c₂ ∈ alphabet)
    (h₃ : c₃ ∈ alphabet) (hno : ¬ ending (c₀ :: c₁ :: c₂ :: c₃ :: rest)) :
    Framed ending (c₀ :: c₁ :: c₂ :: c₃ :: rest) ↔ Framed ending rest := by
  constructor
  · intro hf
    cases hf with
    | ending h => exact absurd h hno
    | group _ _ _ _ h => exact h
  · exact .group h₀ h₁ h₂ h₃

theorem accepted_iff : Accepted text ↔ Grammar text ∨ EndsHalfPadded text := by
  constructor
  · intro h
    induction h with
    | ending h =>
      rcases h with h | h | h
      · exact .inl (.ending (.inl h))
      · exact .inl (.ending (.inr h))
      · exact .inr (.ending h)
    | group h₀ h₁ h₂ h₃ _ ih => exact ih.imp (.group h₀ h₁ h₂ h₃) (.group h₀ h₁ h₂ h₃)
  · intro hcase
    rcases hcase with h | h
    · exact h.mono fun _ h => h.imp id .inl
    · exact h.mono fun _ h => .inr (.inr h)

theorem HalfPadded.not_padded (h : HalfPadded text) : ¬ (text = [] ∨ Padded text) := by
  intro hcase
  rcases hcase with rfl | hp
  · exact h
  · rcases text with _ | ⟨c₀, _ | ⟨c₁, _ | ⟨c₂, _ | ⟨c₃, rest⟩⟩⟩⟩
    · exact h
    · exact h
    · exact h
    · exact h
    · exact h.2.2.2 hp.2.2.2

theorem EndsHalfPadded.not_grammar (h : EndsHalfPadded text) : ¬ Grammar text := by
  induction h with
  | @ending text h =>
    intro hg
    cases hg with
    | ending hp => exact h.not_padded hp
    | group _ _ h₂ _ _ => exact pad_not_mem (h.2.2.1 ▸ h₂)
  | group h₀ h₁ h₂ h₃ _ ih =>
    intro hg
    refine ih ((framed_group h₀ h₁ h₂ h₃ ?_).1 hg)
    intro hcase
    rcases hcase with h | h
    · cases h
    · exact pad_not_mem (h.2.2.2 ▸ h₃)

theorem decode64_back : ∀ n : Fin 256, (decode64 (BitVec.ofNat 8 n)).toInt = bad ∨
    Digit (decode64 (BitVec.ofNat 8 n)) ∧
      encode64 (decode64 (BitVec.ofNat 8 n)) = BitVec.ofNat 8 n := by
  unfold Digit
  decide +kernel

theorem bad_iff : (decode64 c).toInt = bad ↔ c ∉ alphabet := by
  constructor
  · intro hbad hmem
    obtain ⟨d, hd, rfl⟩ := List.mem_map.1 hmem
    obtain ⟨k, hk, rfl⟩ := List.mem_iff_getElem.1 hd
    have hdecode := decode64_byte ⟨k, by simpa using hk⟩
    have hdigit := (byte_digit ⟨k, by simpa using hk⟩).2.2
    rw [← hdecode] at hdigit
    exact hdigit hbad
  · intro hno
    by_contra hbad
    have hback : Digit (decode64 c) ∧ encode64 (decode64 c) = c := by
      have h := decode64_back c.toFin
      simp only [BitVec.val_toFin, BitVec.ofNat_toNat, BitVec.setWidth_eq] at h
      exact h.resolve_left hbad
    have hmem := hback.1.mem_alphabet
    rw [hback.2] at hmem
    exact hno hmem

theorem get_of_mem (h : c ∈ alphabet) {next : Byte → Coded} :
    get c out next = next (decode64 c) := by
  rw [Base64.get, if_neg]
  exact fun hbad => bad_iff.1 hbad h

theorem get_of_not_mem (h : c ∉ alphabet) {next : Byte → Coded} :
    get c out next = fail wrongFormat out := by
  rw [Base64.get, if_pos (bad_iff.2 h)]

theorem room_zero {k : ℤ} {next : Coded} : room 0 k out next = next := room_pos (.inl rfl)

def Refused (result : Coded) : Prop := result.ret < 0 ∧ result.out.head? = some 0#8

def Judged (accepted : Prop) (result : Coded) : Prop :=
  (accepted ∧ 0 ≤ result.ret) ∨ (¬ accepted ∧ Refused result)

theorem refused_fail : Refused (fail wrongFormat out) := by
  constructor
  · exact Int.negSucc_lt_zero 1
  · simp [fail]

theorem judged_fail (h : ¬ Accepted text) : Judged (Accepted text) (fail wrongFormat out) :=
  .inr ⟨h, refused_fail⟩

theorem accepted_group : Accepted (c₀ :: c₁ :: c₂ :: c₃ :: rest) ↔
    c₀ ∈ alphabet ∧ c₁ ∈ alphabet ∧ (c₂ = byte '=' ∨ c₂ ∈ alphabet ∧
      (c₃ = byte '=' ∨ c₃ ∈ alphabet ∧ Accepted rest)) := by
  constructor
  · intro h
    cases h with
    | ending h =>
      rcases h with h | ⟨h₀, h₁, h₂, h₃⟩ | ⟨h₀, h₁, h₂, -⟩
      · cases h
      · exact ⟨h₀, h₁, h₂.imp id fun h₂ => ⟨h₂, .inl h₃⟩⟩
      · exact ⟨h₀, h₁, .inl h₂⟩
    | group h₀ h₁ h₂ h₃ h => exact ⟨h₀, h₁, .inr ⟨h₂, .inr ⟨h₃, h⟩⟩⟩
  · rintro ⟨h₀, h₁, h₂ | ⟨h₂, h₃ | ⟨h₃, h⟩⟩⟩
    · by_cases h₃ : c₃ = byte '='
      · exact .ending (.inr (.inl ⟨h₀, h₁, .inl h₂, h₃⟩))
      · exact .ending (.inr (.inr ⟨h₀, h₁, h₂, h₃⟩))
    · exact .ending (.inr (.inl ⟨h₀, h₁, .inr h₂, h₃⟩))
    · exact .group h₀ h₁ h₂ h₃ h

theorem not_accepted_short (h : text.length < 4) (hne : text ≠ []) : ¬ Accepted text := by
  intro ha
  rcases (framed_short h).1 ha with h' | h'
  · exact hne h'
  · rcases text with _ | ⟨c₀, _ | ⟨c₁, _ | ⟨c₂, _ | ⟨c₃, rest⟩⟩⟩⟩
    · exact hne rfl
    · exact h'.elim id id
    · exact h'.elim id id
    · exact h'.elim id id
    · simp only [List.length_cons] at h
      omega

theorem judged_terminate {k : ℤ} (h : Accepted text) (hk : 0 ≤ k) :
    Judged (Accepted text) (terminate k out) :=
  .inl ⟨h, hk⟩

theorem judged_get {next : Byte → Coded} (hmem : Accepted text → c ∈ alphabet)
    (hnext : c ∈ alphabet → Judged (Accepted text) (next (decode64 c))) :
    Judged (Accepted text) (get c out next) := by
  by_cases h : c ∈ alphabet
  · rw [get_of_mem h]
    exact hnext h
  · rw [get_of_not_mem h]
    exact judged_fail fun ha => h (hmem ha)

theorem decodeLoop_judged : ∀ (text : List Byte) {k : ℤ} {out : List Byte}, 0 ≤ k →
    k + text.length < 2 ^ 31 → Judged (Accepted text) (decodeLoop 0 text k out)
  | [], k, out, h₀, _ => judged_terminate (.ending (.inl rfl)) h₀
  | [_], k, out, _, _ => judged_fail (not_accepted_short (by simp) (by simp))
  | [_, _], k, out, _, _ => judged_fail (not_accepted_short (by simp) (by simp))
  | [_, _, _], k, out, _, _ => judged_fail (not_accepted_short (by simp) (by simp))
  | c₀ :: c₁ :: c₂ :: c₃ :: rest, k, out, h₀, hk => by
    simp only [List.length_cons] at hk
    rw [decodeLoop, room_zero]
    apply judged_get fun h => (accepted_group.1 h).1
    intro hc₀
    apply judged_get fun h => (accepted_group.1 h).2.1
    intro hc₁
    dsimp only
    split
    · rename_i hc₂
      rw [int_eq (by omega) (by omega)]
      exact judged_terminate (accepted_group.2 ⟨hc₀, hc₁, .inl hc₂⟩) (by omega)
    · rename_i hc₂
      rw [room_zero]
      apply judged_get fun h => ((accepted_group.1 h).2.2.resolve_left hc₂).1
      intro hc₂'
      split
      · rename_i hc₃
        rw [int_eq (by omega) (by omega)]
        exact judged_terminate (accepted_group.2 ⟨hc₀, hc₁, .inr ⟨hc₂', .inl hc₃⟩⟩) (by omega)
      · rename_i hc₃
        rw [room_zero]
        apply judged_get fun h =>
          (((accepted_group.1 h).2.2.resolve_left hc₂).2.resolve_left hc₃).1
        intro hc₃'
        have hiff : Accepted (c₀ :: c₁ :: c₂ :: c₃ :: rest) ↔ Accepted rest := by
          rw [accepted_group]
          simp only [hc₀, hc₁, hc₂, hc₂', hc₃, hc₃', true_and, false_or]
        rw [int_eq (by omega) (by omega), hiff]
        exact decodeLoop_judged rest (by omega) (by omega)

structure Text where
  bytes : List Byte
  fits : bytes.length < 2 ^ 31

/-- A length for the texts of the grammar, and a refusal for every other one. -/
def Decides (text : Text) : Prop :=
  (0 ≤ (base64Decode text.bytes 0).ret ↔ Grammar text.bytes) ∧
    (¬ Grammar text.bytes → Refused (base64Decode text.bytes 0))

theorem judged (text : Text) : Judged (Accepted text.bytes) (base64Decode text.bytes 0) := by
  have h := text.fits
  exact decodeLoop_judged text.bytes (Int.le_refl 0) (by omega)

theorem EndsHalfPadded.not_decides {text : Text} (h : EndsHalfPadded text.bytes) :
    ¬ Decides text := by
  intro hd
  rcases judged text with ⟨-, hret⟩ | ⟨hno, -⟩
  · exact h.not_grammar (hd.1.1 hret)
  · exact hno (accepted_iff.2 (.inr h))

/-- The decoder decides the grammar but for a group `xx=` that ends in no second `=`. -/
theorem decides_iff (text : Text) : Decides text ↔ ¬ EndsHalfPadded text.bytes := by
  constructor
  · intro hd hs
    exact hs.not_decides hd
  · intro hs
    have hiff : Accepted text.bytes ↔ Grammar text.bytes := by
      rw [accepted_iff, or_iff_left hs]
    have hj := judged text
    rw [hiff] at hj
    rcases hj with ⟨hg, hret⟩ | ⟨hg, hrefused⟩
    · exact ⟨⟨fun _ => hg, fun _ => hret⟩, fun hno => absurd hg hno⟩
    · refine ⟨⟨fun hret => absurd hret ?_, fun h => absurd h hg⟩, fun _ => hrefused⟩
      exact Int.not_le.2 hrefused.1

/-- `QQ=Q` is accepted. -/
theorem half_padded_accepted :
    ¬ Decides ⟨[byte 'Q', byte 'Q', byte '=', byte 'Q'], by decide⟩ := by
  have hQ : byte 'Q' ∈ alphabet := List.mem_map_of_mem (by decide)
  exact EndsHalfPadded.not_decides (.ending ⟨hQ, hQ, rfl, by decide⟩)

end Base64Grammar

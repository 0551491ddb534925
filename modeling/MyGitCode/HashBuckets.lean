import Mathlib.Data.List.Nodup
import Mathlib.Logic.Function.Basic
import Mathlib.Tactic.Common

/-! # Buckets of a hash table

Each bucket is a list of places, and a place holds a key with a value. A key is in the bucket
of its hash, at one place at most, so that the buckets stand for a partial function. -/
namespace HashBuckets

variable {α κ β : Type*}

structure Buckets (hash : κ → ℕ) (n : ℕ) (chains : ℕ → List α) (info : α → Option (κ × β)) :
    Prop where
  nodup : ∀ i, i < n → (chains i).Nodup
  place : ∀ i, i < n → ∀ a ∈ chains i, ∀ x, info a = some x → hash x.1 = i
  unique : ∀ i, i < n → ∀ a ∈ chains i, ∀ b ∈ chains i, ∀ x y, info a = some x →
    info b = some y → x.1 = y.1 → a = b

/-- The buckets hold the values of `m`. -/
def Holds (hash : κ → ℕ) (chains : ℕ → List α) (info : α → Option (κ × β)) (m : κ → Option β) :
    Prop :=
  ∀ k v, m k = some v ↔ ∃ a ∈ chains (hash k), info a = some (k, v)

variable {hash : κ → ℕ} {n i j : ℕ} {chains : ℕ → List α} {info : α → Option (κ × β)}
  {m : κ → Option β} {k : κ} {v w : β} {a b : α} {xs ys : List α}

theorem buckets_empty : Buckets hash n (fun _ => []) info := ⟨fun _ _ => .nil, nofun, nofun⟩

theorem holds_empty : Holds hash (fun _ => []) info fun _ => none := fun _ _ => ⟨nofun, nofun⟩

theorem Holds.absent (hm : Holds hash chains info m)
    (h : ∀ a ∈ chains (hash k), ∀ x, info a = some x → x.1 ≠ k) : m k = none := by
  by_contra hsome
  obtain ⟨v, hv⟩ := Option.ne_none_iff_exists'.mp hsome
  obtain ⟨a, ha, hx⟩ := (hm k v).mp hv
  exact h a ha _ hx rfl

theorem Holds.present (hm : Holds hash chains info m) (ha : a ∈ chains (hash k))
    (hx : info a = some (k, v)) : m k = some v :=
  (hm k v).mpr ⟨a, ha, hx⟩

theorem Buckets.find (h : Buckets hash n chains info) (hk : hash k < n) :
    (∀ a ∈ chains (hash k), ∀ x, info a = some x → x.1 ≠ k) ∨
      ∃ xs a ys v, chains (hash k) = xs ++ a :: ys ∧
        (∀ b ∈ xs, ∀ x, info b = some x → x.1 ≠ k) ∧ info a = some (k, v) := by
  by_cases hfound : ∃ a ∈ chains (hash k), ∃ v, info a = some (k, v)
  · obtain ⟨a, ha, v, hv⟩ := hfound
    obtain ⟨xs, ys, hsplit⟩ := List.append_of_mem ha
    refine .inr ⟨xs, a, ys, v, hsplit, fun b hb x hx hkey => ?_, hv⟩
    have hnodup := h.nodup _ hk
    obtain rfl := h.unique _ hk b (hsplit ▸ List.mem_append_left _ hb) a ha x _ hx hv hkey
    rw [hsplit, List.nodup_append'] at hnodup
    exact hnodup.2.2 hb List.mem_cons_self
  · refine .inl fun a ha x hx hkey => hfound ⟨a, ha, x.2, ?_⟩
    rw [hx, ← hkey]

theorem Buckets.one (h : Buckets hash n chains info) (hi : i < n) (hj : j < n)
    (ha : a ∈ chains i) (ha' : a ∈ chains j) (hx : info a ≠ none) : i = j := by
  obtain ⟨x, hx⟩ := Option.ne_none_iff_exists'.mp hx
  exact (h.place i hi a ha x hx).symm.trans (h.place j hj a ha' x hx)

theorem Buckets.nodup_all (h : Buckets hash n chains info)
    (hsome : ∀ i, i < n → ∀ a ∈ chains i, info a ≠ none) :
    ((List.range n).flatMap chains).Nodup := by
  refine List.nodup_flatMap.mpr ⟨fun i hi => h.nodup i (List.mem_range.mp hi), ?_⟩
  refine List.pairwise_iff_getElem.mpr fun i j hi hj hij a ha ha' => ?_
  rw [List.length_range] at hi hj
  rw [List.getElem_range] at ha ha'
  exact absurd (h.one hi hj ha ha' (hsome i hi a ha)) (Nat.ne_of_lt hij)

theorem Holds.mem_all (hm : Holds hash chains info m) (h : Buckets hash n chains info)
    (hhash : ∀ k, hash k < n) :
    m k = some v ↔ ∃ a ∈ (List.range n).flatMap chains, info a = some (k, v) := by
  rw [hm]
  constructor
  · rintro ⟨a, ha, hx⟩
    exact ⟨a, List.mem_flatMap.mpr ⟨_, List.mem_range.mpr (hhash k), ha⟩, hx⟩
  · rintro ⟨a, ha, hx⟩
    obtain ⟨i, hi, ha⟩ := List.mem_flatMap.mp ha
    obtain rfl : hash k = i := h.place i (List.mem_range.mp hi) a ha _ hx
    exact ⟨a, ha, hx⟩

theorem Buckets.unique_all (h : Buckets hash n chains info)
    (ha : a ∈ (List.range n).flatMap chains) (hb : b ∈ (List.range n).flatMap chains)
    (hx : info a = some (k, v)) (hy : info b = some (k, w)) : a = b := by
  obtain ⟨i, hi, ha⟩ := List.mem_flatMap.mp ha
  obtain ⟨j, hj, hb⟩ := List.mem_flatMap.mp hb
  rw [List.mem_range] at hi hj
  obtain rfl : hash k = i := h.place i hi a ha _ hx
  obtain rfl : hash k = j := h.place j hj b hb _ hy
  exact h.unique _ hi a ha b hb _ _ hx hy rfl

theorem Buckets.nodup_split (h : Buckets hash n chains info) (hhash : ∀ k, hash k < n)
    (hsplit : chains (hash k) = xs ++ a :: ys) : a ∉ xs ++ ys ∧ (xs ++ ys).Nodup := by
  have hnodup := h.nodup _ (hhash k)
  rwa [hsplit, List.nodup_middle, List.nodup_cons] at hnodup

theorem mem_append_of_mem (ha : a ∈ chains i) :
    a ∈ Function.update chains j (chains j ++ [b]) i := by
  by_cases hij : i = j
  · subst hij
    rw [Function.update_self]
    exact List.mem_append_left _ ha
  · rwa [Function.update_of_ne hij]

/-- The places that are left are the other ones. -/
theorem Buckets.mem_removed (h : Buckets hash n chains info) (hhash : ∀ k, hash k < n)
    (hsplit : chains (hash k) = xs ++ a :: ys) (hx : info a ≠ none) (hi : i < n) :
    b ∈ Function.update chains (hash k) (xs ++ ys) i ↔ b ≠ a ∧ b ∈ chains i := by
  by_cases hik : i = hash k
  · subst hik
    rw [Function.update_self, hsplit, (List.perm_middle).mem_iff, List.mem_cons]
    constructor
    · intro hb
      refine ⟨?_, .inr hb⟩
      rintro rfl
      exact (h.nodup_split hhash hsplit).1 hb
    · exact fun hb => hb.2.resolve_left hb.1
  · rw [Function.update_of_ne hik]
    refine ⟨fun hb => ⟨?_, hb⟩, And.right⟩
    rintro rfl
    exact hik (h.one hi (hhash k) hb (hsplit ▸ List.mem_append_right _ List.mem_cons_self) hx)

variable [DecidableEq α]

/-- An old place keeps what it holds, and the new one is in the bucket of its key. -/
theorem mem_appended (info : α → Option (κ × β)) (v : β) (hb : ∀ i, i < n → b ∉ chains i)
    (hi : i < n) (ha : a ∈ Function.update chains (hash k) (chains (hash k) ++ [b]) i) :
    (a ≠ b ∧ a ∈ chains i ∧ Function.update info b (some (k, v)) a = info a) ∨
      (a = b ∧ i = hash k ∧ Function.update info b (some (k, v)) a = some (k, v)) := by
  by_cases hab : a = b
  · subst hab
    refine .inr ⟨rfl, ?_, Function.update_self ..⟩
    by_contra hne
    rw [Function.update_of_ne hne] at ha
    exact hb i hi ha
  · refine .inl ⟨hab, ?_, Function.update_of_ne hab ..⟩
    by_cases hik : i = hash k
    · subst hik
      rw [Function.update_self, List.mem_append, List.mem_singleton] at ha
      exact ha.resolve_right hab
    · rwa [Function.update_of_ne hik] at ha

theorem Buckets.append (h : Buckets hash n chains info)
    (habsent : ∀ a ∈ chains (hash k), ∀ x, info a = some x → x.1 ≠ k)
    (hb : ∀ i, i < n → b ∉ chains i) :
    Buckets hash n (Function.update chains (hash k) (chains (hash k) ++ [b]))
      (Function.update info b (some (k, v))) := by
  refine ⟨fun i hi => ?_, fun i hi a ha x hx => ?_, fun i hi a ha c hc x y hx hy hkey => ?_⟩
  · by_cases hik : i = hash k
    · subst hik
      rw [Function.update_self, List.nodup_append']
      exact ⟨h.nodup _ hi, List.nodup_singleton b, by simpa using hb _ hi⟩
    · rw [Function.update_of_ne hik]
      exact h.nodup i hi
  · rcases mem_appended info v hb hi ha with ⟨-, ha', hinfo⟩ | ⟨-, rfl, hinfo⟩
    · exact h.place i hi a ha' x (hinfo ▸ hx)
    · exact Option.some_inj.mp (hinfo.symm.trans hx) ▸ rfl
  · rcases mem_appended info v hb hi ha with ⟨-, ha', hinfo⟩ | ⟨rfl, rfl, hinfo⟩
    · rcases mem_appended info v hb hi hc with ⟨-, hc', hinfo'⟩ | ⟨rfl, rfl, hinfo'⟩
      · exact h.unique i hi a ha' c hc' x y (hinfo ▸ hx) (hinfo' ▸ hy) hkey
      · obtain rfl := Option.some_inj.mp (hinfo'.symm.trans hy)
        exact absurd hkey (habsent a ha' x (hinfo ▸ hx))
    · rcases mem_appended info v hb hi hc with ⟨-, hc', hinfo'⟩ | ⟨rfl, -, -⟩
      · obtain rfl := Option.some_inj.mp (hinfo.symm.trans hx)
        exact absurd hkey.symm (habsent c hc' y (hinfo' ▸ hy))
      · rfl

theorem Buckets.remove (h : Buckets hash n chains info) (hhash : ∀ k, hash k < n)
    (hsplit : chains (hash k) = xs ++ a :: ys) (hx : info a ≠ none) :
    Buckets hash n (Function.update chains (hash k) (xs ++ ys))
      (Function.update info a none) := by
  refine ⟨fun i hi => ?_, fun i hi b hb x hb' => ?_, fun i hi b hb c hc x y hx' hy' => ?_⟩
  · by_cases hik : i = hash k
    · rw [hik, Function.update_self]
      exact (h.nodup_split hhash hsplit).2
    · rw [Function.update_of_ne hik]
      exact h.nodup i hi
  · obtain ⟨hne, hb⟩ := (h.mem_removed hhash hsplit hx hi).mp hb
    rw [Function.update_of_ne hne] at hb'
    exact h.place i hi b hb x hb'
  · obtain ⟨hne, hb⟩ := (h.mem_removed hhash hsplit hx hi).mp hb
    obtain ⟨hne', hc⟩ := (h.mem_removed hhash hsplit hx hi).mp hc
    rw [Function.update_of_ne hne] at hx'
    rw [Function.update_of_ne hne'] at hy'
    exact h.unique i hi b hb c hc x y hx' hy'

variable [DecidableEq κ]

theorem Buckets.update (h : Buckets hash n chains info) (hm : Holds hash chains info m)
    (hhash : ∀ k, hash k < n) (ha : a ∈ chains (hash k)) (hx : info a = some (k, w)) :
    Buckets hash n chains (Function.update info a (some (k, v))) ∧
      Holds hash chains (Function.update info a (some (k, v))) (Function.update m k (some v)) := by
  -- the keys stay
  have hold : ∀ b x, Function.update info a (some (k, v)) b = some x →
      ∃ y, info b = some y ∧ y.1 = x.1 ∧ (b ≠ a → y = x) := by
    intro b x hb
    by_cases hab : b = a
    · subst hab
      rw [Function.update_self, Option.some_inj] at hb
      exact ⟨_, hx, hb ▸ rfl, fun hne => absurd rfl hne⟩
    · rw [Function.update_of_ne hab] at hb
      exact ⟨x, hb, rfl, fun _ => rfl⟩
  refine ⟨⟨h.nodup, fun i hi b hb x hx => ?_, fun i hi b hb c hc x y hx hy hkey => ?_⟩,
    fun k' v' => ?_⟩
  · obtain ⟨y, hy, hkey, -⟩ := hold b x hx
    exact hkey ▸ h.place i hi b hb y hy
  · obtain ⟨x', hx', hkeyx, -⟩ := hold b x hx
    obtain ⟨y', hy', hkeyy, -⟩ := hold c y hy
    exact h.unique i hi b hb c hc x' y' hx' hy' (hkeyx.trans (hkey.trans hkeyy.symm))
  · by_cases hkey : k' = k
    · subst hkey
      rw [Function.update_self, Option.some_inj]
      constructor
      · rintro rfl
        exact ⟨a, ha, Function.update_self ..⟩
      · rintro ⟨b, hb, hbx⟩
        obtain ⟨y, hy, hykey, -⟩ := hold b _ hbx
        obtain rfl := h.unique _ (hhash k') b hb a ha y _ hy hx hykey
        rw [Function.update_self, Option.some_inj, Prod.mk.injEq] at hbx
        exact hbx.2
    · rw [Function.update_of_ne hkey, hm]
      refine exists_congr fun b => and_congr_right fun _ => ?_
      by_cases hab : b = a
      · subst hab
        rw [Function.update_self, hx, Option.some_inj, Option.some_inj, Prod.mk.injEq,
          Prod.mk.injEq]
        exact ⟨fun heq => absurd heq.1.symm hkey, fun heq => absurd heq.1.symm hkey⟩
      · rw [Function.update_of_ne hab]

theorem Holds.append (hm : Holds hash chains info m) (hhash : ∀ k, hash k < n)
    (habsent : ∀ a ∈ chains (hash k), ∀ x, info a = some x → x.1 ≠ k)
    (hb : ∀ i, i < n → b ∉ chains i) :
    Holds hash (Function.update chains (hash k) (chains (hash k) ++ [b]))
      (Function.update info b (some (k, v))) (Function.update m k (some v)) := by
  intro k' v'
  by_cases hkey : k' = k
  · subst hkey
    rw [Function.update_self, Option.some_inj]
    constructor
    · rintro rfl
      refine ⟨b, ?_, Function.update_self ..⟩
      rw [Function.update_self]
      exact List.mem_append_right _ List.mem_cons_self
    · rintro ⟨a, ha, hx⟩
      rcases mem_appended info v hb (hhash k') ha with ⟨-, ha', hinfo⟩ | ⟨-, -, hinfo⟩
      · exact absurd rfl (habsent a ha' _ (hinfo ▸ hx))
      · exact congrArg Prod.snd (Option.some_inj.mp (hinfo.symm.trans hx))
  · rw [Function.update_of_ne hkey, hm]
    constructor
    · rintro ⟨a, ha, hx⟩
      have hab : a ≠ b := by
        rintro rfl
        exact hb _ (hhash k') ha
      exact ⟨a, mem_append_of_mem ha, (Function.update_of_ne hab ..).trans hx⟩
    · rintro ⟨a, ha, hx⟩
      rcases mem_appended info v hb (hhash k') ha with ⟨-, ha', hinfo⟩ | ⟨-, -, hinfo⟩
      · exact ⟨a, ha', hinfo ▸ hx⟩
      · exact absurd (congrArg Prod.fst (Option.some_inj.mp (hinfo.symm.trans hx))).symm hkey

theorem Holds.remove (hm : Holds hash chains info m) (h : Buckets hash n chains info)
    (hhash : ∀ k, hash k < n) (hsplit : chains (hash k) = xs ++ a :: ys)
    (hx : info a = some (k, w)) :
    Holds hash (Function.update chains (hash k) (xs ++ ys)) (Function.update info a none)
      (Function.update m k none) := by
  intro k' v'
  have ha : a ∈ chains (hash k) := hsplit ▸ List.mem_append_right _ List.mem_cons_self
  have hsome : info a ≠ none := hx ▸ Option.some_ne_none _
  have hplaces : (∃ b ∈ Function.update chains (hash k) (xs ++ ys) (hash k'),
      Function.update info a none b = some (k', v')) ↔
      ∃ b ∈ chains (hash k'), b ≠ a ∧ info b = some (k', v') := by
    refine exists_congr fun b => ?_
    rw [h.mem_removed hhash hsplit hsome (hhash k')]
    constructor
    · rintro ⟨⟨hne, hb⟩, hb'⟩
      rw [Function.update_of_ne hne] at hb'
      exact ⟨hb, hne, hb'⟩
    · rintro ⟨hb, hne, hb'⟩
      exact ⟨⟨hne, hb⟩, (Function.update_of_ne hne ..).trans hb'⟩
  rw [hplaces]
  by_cases hkey : k' = k
  · subst hkey
    rw [Function.update_self]
    refine ⟨nofun, ?_⟩
    rintro ⟨b, hb, hne, hb'⟩
    exact absurd (h.unique _ (hhash k') b hb a ha _ _ hb' hx rfl) hne
  · rw [Function.update_of_ne hkey, hm]
    refine exists_congr fun b => and_congr_right fun _ => ⟨fun hb' => ⟨?_, hb'⟩, And.right⟩
    rintro rfl
    exact hkey (congrArg Prod.fst (Option.some_inj.mp (hx.symm.trans hb'))).symm

end HashBuckets

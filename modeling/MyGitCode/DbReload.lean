import MyGitCode.DbParams

/-! # Resetting a parameter to the factory value

Which parameter a reset acts on, and when it leaves the field, the user database and the factory
database with one value. -/
namespace DbReload

open CFormat SqlTokens SqlStatements SqlTables DbStatements DbParams

/-- The parameters that the id of `__db_reload_value` selects, by their place in the table. -/
def Reloads (id : ℤ) (i : ℕ) : Prop := id = i

instance (id : ℤ) (i : ℕ) : Decidable (Reloads id i) := inferInstanceAs (Decidable (_ = _))

def reloadCommand (tblName key value : List Char) : Command :=
  ⟨"update %s set value='%s' where items='%s'".toList, [.s tblName, .s value, .s key]⟩

/-- What the loop does with the selected parameter: its field, and the statement for the user
database if a factory value was found. A NULL pointer cannot be written into the statement. -/
def reloadParam (engine : Engine) (opened : Bool) (factory : Database) (tblName : TableName)
    (p : Param) (sqlCmd : Option (List Char)) : Option (Param × Option (List Char)) :=
  (azResult engine opened factory tblName p.key).bind fun
    | none => some (p, sqlCmd)
    | some pResult => pResult[1]?.bind fun text =>
      (readParam p.paramType p.paramLen text p.param).bind fun v =>
        text.bind fun s => (reloadCommand tblName.chars p.key.chars s).text.map fun sqlCmd =>
          (p.assign v, some sqlCmd)

def reloadLoop (engine : Engine) (opened : Bool) (factory : Database) (tblName : TableName)
    (id : ℤ) : ℕ → List Param → Option (List Char) → Option (List Param × Option (List Char))
  | _, [], sqlCmd => some ([], sqlCmd)
  | i, p :: rest, sqlCmd =>
    if Reloads id i then
      (reloadParam engine opened factory tblName p sqlCmd).bind fun r =>
        (reloadLoop engine opened factory tblName id (i + 1) rest r.2).map fun rs =>
          (r.1 :: rs.1, rs.2)
    else
      (reloadLoop engine opened factory tblName id (i + 1) rest sqlCmd).map fun rs =>
        (p :: rs.1, rs.2)

/-- The fields and the user database afterwards. The factory database is only read. -/
def dbReloadValue (engine : Engine) (openedFactory openedUser : Bool) (tbl : ParamTable) (id : ℤ)
    (user factory : Database) : Option (List Param × Database × ℤ) :=
  (reloadLoop engine openedFactory factory tbl.tableName id 0 tbl.paramTable none).map fun r =>
    match r.2 with
    | none => (r.1, user, -1)
    | some sqlCmd => (r.1, updateItemToDb engine openedUser user sqlCmd)

def SameParams (id : ℤ) (params : List Param) : Prop :=
  ∀ i p, params[i]? = some p → (Reloads id i ↔ Updates id p)

/-- The text stands for the value. A number is what the text begins with. -/
def Denotes : (type : ParamType) → List Char → type.Value → Prop
  | .u8, s, v | .bool, s, v => parseInt s = v.toNat
  | .u16, s, v => parseInt s = v.toNat
  | .int, s, v | .enum, s, v => parseInt s = v.toInt
  | .u32, s, v => parseInt s = v.toNat
  | .u64, s, v => parseInt s = v.toNat
  | .i64, s, v => parseInt s = v.toInt
  | .str, s, v => s = v
  | .null, _, _ | .f32, _, _ | .object, _, _ | .objectData, _, _ | .arrayData, _, _
  | .max, _, _ => False

def storedText (engine : Engine) (db : Database) (tblName : TableName) (key : Key) :
    Option (List Char) :=
  (stored db tblName key).bind engine.print

/-- The copies of the selected parameter are equal, and the other parameters are as they were. -/
def Consistent (engine : Engine) (tbl : ParamTable) (id : ℤ) (user factory : Database)
    (params' : List Param) (user' : Database) : Prop :=
  ∀ i p, tbl.paramTable[i]? = some p →
    if Reloads id i then
      ∃ s v, storedText engine factory tbl.tableName p.key = some s ∧
        storedText engine user' tbl.tableName p.key = some s ∧
        params'[i]? = some (p.assign v) ∧ Denotes p.paramType s v
    else
      params'[i]? = some p ∧ stored user' tbl.tableName p.key = stored user tbl.tableName p.key

/-- The text stands for a value that the field takes. A field of a type that has no case must
have the value already. -/
def Fits : (type : ParamType) → ℤ → List Char → type.Value → Prop
  | .u8, _, s, _ | .bool, _, s, _ => 0 ≤ parseInt s ∧ parseInt s < 2 ^ 8
  | .u16, _, s, _ => 0 ≤ parseInt s ∧ parseInt s < 2 ^ 16
  | .int, _, s, _ | .enum, _, s, _ => -2 ^ 31 ≤ parseInt s ∧ parseInt s < 2 ^ 31
  | .u64, _, s, _ => 0 ≤ parseInt s ∧ parseInt s < 2 ^ 63
  | .str, len, s, _ => s.length < len
  | .u32, _, s, before => parseInt s = before.toNat
  | .i64, _, s, before => parseInt s = before.toInt
  | .null, _, _, _ | .f32, _, _, _ | .object, _, _, _ | .objectData, _, _, _
  | .arrayData, _, _, _ | .max, _, _, _ => False

variable {engine : Engine} {opened openedUser : Bool} {user user' factory : Database}
  {tbl : TableName} {key key' : Key} {p : Param} {params params' pre post : List Param} {id : ℤ}
  {type : ParamType} {len : ℤ} {before value : type.Value} {s : List Char}
  {sqlCmd : Option (List Char)} {i : ℕ}

theorem place_unique {β : Type*} {f : Param → β} {j : ℕ} {q : Param}
    (hnodup : (params.map f).Nodup) (hi : params[i]? = some p) (hj : params[j]? = some q)
    (h : f p = f q) : i = j := by
  have hplace {k : ℕ} {r : Param} (hk : params[k]? = some r) :
      (params.map f)[k]? = some (f r) := by
    rw [List.getElem?_map, hk]
    rfl
  refine (List.getElem?_inj (List.getElem?_eq_some_iff.mp (hplace hi)).1 hnodup).mp ?_
  rw [hplace hi, hplace hj, h]

/-- With distinct ids, both functions act on one parameter exactly when it stands at the place
of its id. -/
theorem sameParams_iff (hids : (params.map Param.paramId).Nodup)
    (hnamed : ∃ p ∈ params, p.paramId = id) :
    SameParams id params ↔
      ∃ (i : ℕ) (p : Param), params[i]? = some p ∧ p.paramId = id ∧ id = i := by
  constructor
  · intro h
    obtain ⟨p, hp, hid⟩ := hnamed
    obtain ⟨i, hi⟩ := List.getElem?_of_mem hp
    exact ⟨i, p, hi, hid, (h i p hi).mpr (.inr hid.symm)⟩
  · rintro ⟨j, q, hj, hq, hid⟩ i p hi
    constructor
    · intro hreload
      obtain rfl : i = j := by simpa [Reloads, hid] using hreload.symm
      rw [hi, Option.some.injEq] at hj
      exact .inr (hj ▸ hq.symm)
    · rintro (hneg | hpid)
      · omega
      · have hij : i = j := place_unique hids hi hj (hpid.symm.trans hq.symm)
        rw [Reloads, hid, hij]

theorem reloadLoop_of_not (h : ∀ k < params.length, id ≠ ↑(i + k)) :
    reloadLoop engine opened factory tbl id i params sqlCmd = some (params, sqlCmd) := by
  induction params generalizing i with
  | nil => rfl
  | cons p params ih =>
    have hhead : ¬ Reloads id i := h 0 (Nat.succ_pos _)
    rw [reloadLoop, if_neg hhead, ih]
    · rfl
    · intro k hk
      have hnext := h (k + 1) (Nat.succ_lt_succ hk)
      rwa [Nat.add_assoc, Nat.add_comm 1]

theorem reloadLoop_at {k : ℕ} (hk : params[k]? = some p) (hid : id = ↑(i + k)) :
    reloadLoop engine opened factory tbl id i params sqlCmd =
      (reloadParam engine opened factory tbl p sqlCmd).map fun r => (params.set k r.1, r.2) := by
  induction params generalizing i k with
  | nil => cases hk
  | cons q params ih =>
    cases k with
    | zero =>
      cases hk
      have hrest {sqlCmd : Option (List Char)} :
          reloadLoop engine opened factory tbl id (i + 1) params sqlCmd = some (params, sqlCmd) :=
        reloadLoop_of_not fun k _ => by omega
      rw [reloadLoop, if_pos (show Reloads id i from hid)]
      simp only [hrest, Option.map_some, List.set_cons_zero]
      exact Option.map_eq_bind.symm
    | succ k =>
      have hne : ¬ Reloads id i := by
        rw [Reloads]
        omega
      rw [reloadLoop, if_neg hne, ih hk (by omega), Option.map_map]
      rfl

def reloadPieces : List (List Char × Directive) :=
  [("update ".toList, .s), (" set value=".toList ++ ['\''], .s),
    ('\'' :: (" where items=".toList ++ ['\'']), .s)]

def reloadSlots (tbl : TableName) (key value : List Char) : List Slot :=
  [tableSlot tbl "update ".toList " set value=".toList [keyword "update"]
      [keyword "set", .word valueColumn, .symbol '='] value (by decide +kernel)
      (by decide +kernel) ⟨' ', _, rfl, by decide⟩ ⟨'u', _, rfl, by decide⟩,
    closedSlot " where items=".toList [keyword "where", .word items, .symbol '='] key
      (by decide +kernel) ⟨' ', _, rfl, by decide⟩]

theorem spells_reloadCommand : Spells (reloadCommand tbl.chars key.chars s).written
    (updateValueStmt tbl.chars key.chars s) ↔ '\'' ∉ s := by
  have hformat : "update %s set value='%s' where items='%s'".toList =
      formatOf reloadPieces ['\''] := by decide +kernel
  have hfill : filled reloadPieces [.s tbl.chars, .s s, .s key.chars] ['\''] =
      fill (reloadSlots tbl key.chars s) [] := by
    simp only [filled, reloadPieces, reloadSlots, fill, tableSlot, closedSlot, Arg.text,
      List.append_assoc, List.cons_append, List.nil_append]
  have hspells := spells_sprintf_iff hformat (by decide +kernel) rfl hfill (by simp)
    (show (updateValueStmt tbl.chars key.chars s).tokens = _ from rfl) (.inl rfl)
  refine Iff.trans hspells ?_
  rw [reloadSlots, List.forall_mem_cons, List.forall_mem_singleton]
  exact and_iff_left key.plain

theorem eq_toNat_iff {w : ℕ} {z a : ℤ} (h : 0 ≤ z → z < 2 ^ w → a = z) :
    z = (BitVec.ofInt w a).toNat ↔ 0 ≤ z ∧ z < 2 ^ w := by
  constructor
  · intro hz
    rw [hz]
    exact ⟨Int.natCast_nonneg _, by exact_mod_cast BitVec.isLt _⟩
  · rintro ⟨hlow, hhigh⟩
    have hpow : ((2 ^ w : ℕ) : ℤ) = 2 ^ w := by norm_cast
    rw [h hlow hhigh, BitVec.toNat_ofInt, hpow, Int.emod_eq_of_lt hlow hhigh,
      Int.toNat_of_nonneg hlow]

theorem eq_toInt_iff {z a : ℤ} (h : -2 ^ 31 ≤ z → z < 2 ^ 31 → a = z) :
    z = (BitVec.ofInt 32 a).toInt ↔ -2 ^ 31 ≤ z ∧ z < 2 ^ 31 := by
  constructor
  · intro hz
    rw [hz]
    exact ⟨BitVec.le_toInt _, BitVec.toInt_lt⟩
  · rintro ⟨hlow, hhigh⟩
    rw [h hlow hhigh, BitVec.toInt_ofInt, Int.bmod_eq_of_le] <;> omega

theorem denotes_iff (hread : readParam type len (some s) before = some value) :
    Denotes type s value ↔ Fits type len s before := by
  cases type with
  | u8 | bool | u16 =>
    obtain rfl := Option.some.inj hread
    exact eq_toNat_iff fun hlow hhigh => atoi_eq (by omega) (by omega)
  | int | enum =>
    obtain rfl := Option.some.inj hread
    exact eq_toInt_iff atoi_eq
  | u64 =>
    obtain rfl := Option.some.inj hread
    simp only [Denotes, Fits, safeAtoll, Option.elim_some]
    by_cases hsmall : parseInt s < 2 ^ 63
    · rw [eq_toNat_iff fun hlow _ => atoll_eq (by omega) hsmall]
      omega
    · refine iff_of_false (fun h => ?_) (by omega)
      rw [atoll_of_le (by omega)] at h
      have hmax : (BitVec.ofInt 64 (2 ^ 63 - 1)).toNat = 2 ^ 63 - 1 := by decide
      omega
  | str =>
    rw [readParam, Option.bind_some, Option.ite_none_right_eq_some, Option.some.injEq] at hread
    obtain ⟨hlen, rfl⟩ := hread
    rw [Denotes, Fits, eq_comm, List.take_eq_self_iff]
    omega
  | u32 | i64 =>
    obtain rfl := Option.some.inj hread
    exact Iff.rfl
  | null | f32 | object | objectData | arrayData | max => exact Iff.rfl

theorem assign_inj {v w : p.paramType.Value} (h : p.assign v = p.assign w) : v = w := by
  simpa [Param.assign] using h

structure Success (engine : Engine) (openedUser : Bool) (tbl : ParamTable) (id : ℤ)
    (user factory : Database) (params' : List Param) (user' : Database) (i : ℕ) (p : Param)
    (s : List Char) (v : p.paramType.Value) : Prop where
  place : tbl.paramTable[i]? = some p
  selected : Reloads id i
  factory : storedText engine factory tbl.tableName p.key = some s
  read : readParam p.paramType p.paramLen (some s) p.param = some v
  params : params' = tbl.paramTable.set i (p.assign v)
  user : user' = (engine.exec user (reloadCommand tbl.tableName.chars p.key.chars s).written).db

theorem reloadParam_eq_some {q : Param} {sqlCmd : List Char}
    (h : reloadParam engine opened factory tbl p none = some (q, some sqlCmd)) :
    ∃ s v, storedText engine factory tbl p.key = some s ∧
      readParam p.paramType p.paramLen (some s) p.param = some v ∧ q = p.assign v ∧
      sqlCmd = (reloadCommand tbl.chars p.key.chars s).written := by
  obtain ⟨result, hresult, h⟩ := Option.bind_eq_some_iff.mp h
  obtain ⟨text, htext, -⟩ := Option.map_eq_some_iff.mp hresult
  rcases azResult_cases (text_eq_some.mp htext).1 with
    ⟨-, hnone⟩ | ⟨w, texts, hfound, hsome, htexts⟩
  · cases hnone.symm.trans hresult
    cases h
  · cases hsome.symm.trans hresult
    simp only [htexts, Option.bind_some, Option.bind_eq_some_iff, Option.map_eq_some_iff,
      Prod.mk.injEq, Option.some.injEq] at h
    obtain ⟨v, hread, s, hprint, _, hwritten, rfl, rfl⟩ := h
    rw [hprint] at hread
    refine ⟨s, v, ?_, hread, rfl, (text_eq_some.mp hwritten).2.symm⟩
    cases opened with
    | false => cases hfound
    | true =>
      have hstored : stored factory tbl p.key = some w := hfound
      rw [storedText, hstored, Option.bind_some, hprint]

theorem reload_success {tbl : ParamTable} (h : dbReloadValue engine opened openedUser tbl id user
    factory = some (params', user', noError)) :
    ∃ i p s v, Success engine openedUser tbl id user factory params' user' i p s v := by
  rw [dbReloadValue, Option.map_eq_some_iff] at h
  obtain ⟨⟨fields, sqlCmd⟩, hloop, hresult⟩ := h
  by_cases hplace : ∃ k < tbl.paramTable.length, id = ↑(0 + k)
  · obtain ⟨i, hi, hid⟩ := hplace
    rw [reloadLoop_at (List.getElem?_eq_getElem hi) hid, Option.map_eq_some_iff] at hloop
    obtain ⟨⟨q, turn⟩, hturn, heq⟩ := hloop
    cases heq
    cases turn with
    | none => cases congrArg (fun r => r.2.2) hresult
    | some sqlCmd =>
      obtain ⟨s, v, hfactory, hread, rfl, rfl⟩ := reloadParam_eq_some hturn
      rw [Prod.mk.injEq] at hresult
      obtain ⟨rfl, hupdate⟩ := hresult
      refine ⟨i, _, s, v, List.getElem?_eq_getElem hi, by simpa [Reloads] using hid, hfactory,
        hread, rfl, ?_⟩
      rw [← (updateItemToDb_noError (congrArg Prod.snd hupdate)).2]
      exact (congrArg Prod.fst hupdate).symm
  · rw [reloadLoop_of_not fun k hk heq => hplace ⟨k, hk, heq⟩, Option.some.injEq,
      Prod.mk.injEq] at hloop
    obtain ⟨rfl, rfl⟩ := hloop
    cases congrArg (fun r => r.2.2) hresult

theorem Success.records {tbl : ParamTable} {v : p.paramType.Value}
    (h : Success engine openedUser tbl id user factory params' user' i p s v) (hplain : '\'' ∉ s) :
    stored user' tbl.tableName key =
      if key = p.key then (stored user tbl.tableName key).map fun _ => .text s
      else stored user tbl.tableName key := by
  rw [h.user, engine.exec_spells _ _ _ updateValueStmt_wf (spells_reloadCommand.mpr hplain),
    stored_updateValue]

theorem Success.consistent_iff {tbl : ParamTable} {v : p.paramType.Value}
    (h : Success engine openedUser tbl id user factory params' user' i p s v) (hplain : '\'' ∉ s) :
    Consistent engine tbl id user factory params' user' ↔
      (stored user tbl.tableName p.key).isSome = true ∧
        Fits p.paramType p.paramLen s p.param := by
  have hlen : i < tbl.paramTable.length := (List.getElem?_eq_some_iff.mp h.place).1
  constructor
  · intro hconsistent
    have hp := hconsistent i p h.place
    rw [if_pos h.selected] at hp
    obtain ⟨s', v', hfactory, huser, hfield, hdenotes⟩ := hp
    obtain rfl : s = s' := Option.some.inj (h.factory.symm.trans hfactory)
    constructor
    · rw [storedText, h.records hplain, if_pos rfl] at huser
      cases hstored : stored user tbl.tableName p.key with
      | none => simp [hstored] at huser
      | some _ => rfl
    · rw [h.params, List.getElem?_set_self hlen, Option.some.injEq] at hfield
      obtain rfl := assign_inj hfield
      exact (denotes_iff h.read).mp hdenotes
  · rintro ⟨hrecord, hfits⟩ j q hj
    by_cases hselected : Reloads id j
    · obtain rfl : i = j := by exact_mod_cast h.selected.symm.trans hselected
      obtain rfl : p = q := Option.some.inj (h.place.symm.trans hj)
      rw [if_pos hselected]
      refine ⟨s, v, h.factory, ?_, ?_, (denotes_iff h.read).mpr hfits⟩
      · obtain ⟨w, hw⟩ := Option.isSome_iff_exists.mp hrecord
        rw [storedText, h.records hplain, if_pos rfl, hw]
        rfl
      · rw [h.params, List.getElem?_set_self hlen]
    · have hij : i ≠ j := fun hij => hselected (hij ▸ h.selected)
      have hkey : q.key ≠ p.key := fun hkey => hij (place_unique tbl.keys h.place hj hkey.symm)
      rw [if_neg hselected, h.params, List.getElem?_set_ne hij, h.records hplain, if_neg hkey]
      exact ⟨hj, rfl⟩

/-- A reset by an id acts on the parameter that is saved by it exactly when the parameter stands
at the place of its id. A successful one leaves equal copies exactly when the user database has
the record and the field takes the factory value, which has to be without apostrophes for the
statement to store it. -/
theorem reload_agrees_with_save (engine : Engine) (tbl : ParamTable) (id : ℤ)
    (hids : (tbl.paramTable.map Param.paramId).Nodup)
    (hnamed : ∃ p ∈ tbl.paramTable, p.paramId = id) :
    (SameParams id tbl.paramTable ↔
      ∃ (i : ℕ) (p : Param), tbl.paramTable[i]? = some p ∧ p.paramId = id ∧ id = i) ∧
    ∀ (openedFactory openedUser : Bool) (user factory user' : Database) (params' : List Param),
      dbReloadValue engine openedFactory openedUser tbl id user factory =
        some (params', user', noError) →
      ∃ i p s, tbl.paramTable[i]? = some p ∧ Reloads id i ∧
        storedText engine factory tbl.tableName p.key = some s ∧
        ('\'' ∉ s → (Consistent engine tbl id user factory params' user' ↔
          (stored user tbl.tableName p.key).isSome = true ∧
            Fits p.paramType p.paramLen s p.param)) := by
  refine ⟨sameParams_iff hids hnamed, ?_⟩
  intro openedFactory openedUser user factory user' params' hreload
  obtain ⟨i, p, s, v, hsuccess⟩ := reload_success hreload
  exact ⟨i, p, s, hsuccess.place, hsuccess.selected, hsuccess.factory, hsuccess.consistent_iff⟩

theorem label_reset : ∃ user' params',
    dbReloadValue fragment true true ⟨settings, [volume, label], by decide⟩ 1
      (settingsOf [record "label" "home"]) (settingsOf [record "label" "new"]) =
        some (params', user', noError) ∧
    SameParams 1 [volume, label] ∧
    Consistent fragment ⟨settings, [volume, label], by decide⟩ 1
      (settingsOf [record "label" "home"]) (settingsOf [record "label" "new"]) params' user' := by
  have hok : (dbReloadValue fragment true true ⟨settings, [volume, label], by decide⟩ 1
      (settingsOf [record "label" "home"]) (settingsOf [record "label" "new"])).map
        (fun r => r.2.2) = some noError := by decide +kernel
  obtain ⟨⟨params', user', rc⟩, hreload, rfl⟩ := Option.map_eq_some_iff.mp hok
  obtain ⟨hsame, hcopies⟩ := reload_agrees_with_save fragment
    ⟨settings, [volume, label], by decide⟩ 1 (by decide) ⟨label, by decide, rfl⟩
  refine ⟨user', params', hreload, hsame.mpr ⟨1, label, rfl, rfl, rfl⟩, ?_⟩
  obtain ⟨i, p, s, hplace, hselected, hfactory, hiff⟩ := hcopies _ _ _ _ _ _ hreload
  have hone : (1 : ℤ) = i := hselected
  obtain rfl : 1 = i := by exact_mod_cast hone
  obtain rfl : label = p := Option.some.inj hplace
  have htext : storedText fragment (settingsOf [record "label" "new"]) settings label.key =
      some "new".toList := by decide +kernel
  obtain rfl := Option.some.inj (htext.symm.trans hfactory)
  exact (hiff (by decide)).mpr ⟨by decide +kernel, show (3 : ℤ) < 8 by decide⟩

/-- The parameter saved by the id 1 stands first, and a reset by that id acts on the second. -/
theorem reset_takes_place_for_id :
    let first : Param := { volume with paramId := 1 }
    let second : Param := { label with paramId := 0 }
    ([first, second].map Param.paramId).Nodup ∧ Updates 1 first ∧ ¬ SameParams 1 [first, second] ∧
    ∃ r, dbReloadValue fragment true true ⟨settings, [first, second], by decide⟩ 1
        (settingsOf [record "volume" "5", record "label" "home"])
        (settingsOf [record "volume" "1", record "label" "new"]) = some r ∧
      r.2.2 = noError ∧ r.1 = [first, second.assign "new".toList] := by
  refine ⟨by decide, .inr rfl, fun h => ?_, ?_⟩
  · exact absurd ((h 0 _ rfl).mpr (.inr rfl)) (by decide)
  · exact ⟨_, (Option.some_get (by decide +kernel)).symm, by decide +kernel⟩

end DbReload

import DigitalCip.Wire.Envelopes

/-!
# Any `dict` through the retry queue

A queue takes any text, and a worker that fails for now publishes what it has read once
more.  The Python workers publish the `dict`, with the fields the pipeline knows and any
others.  Strings and keys are as `json.loads` makes them (`Json.Loaded`), so unless there
are floats among the values (`Json.Plain`), `json.dumps` writes the `dict` and `json.loads`
reads it again, lone surrogates and the order of its keys included (`retries_keep_body`).
-/

namespace DigitalCip.Python
open JsonText (Value Joined AllElements AllMembers)

mutual

/-- There is no float in the value. -/
def Json.Plain : Json → Prop
  | .float _ => False
  | .list xs => PlainElements xs
  | .dict fields => PlainFields fields
  | _ => True

def PlainElements : List Json → Prop
  | [] => True
  | x :: xs => x.Plain ∧ PlainElements xs

def PlainFields : List (Str × Json) → Prop
  | [] => True
  | (_, x) :: fields => x.Plain ∧ PlainFields fields

end

mutual

/-- The strings of the value are joined, and no `dict` in it has a key twice. -/
def Json.Loaded : Json → Prop
  | .str s => Joined s
  | .list xs => LoadedElements xs
  | .dict fields => (fields.map Prod.fst).Nodup ∧ LoadedFields fields
  | _ => True

def LoadedElements : List Json → Prop
  | [] => True
  | x :: xs => x.Loaded ∧ LoadedElements xs

def LoadedFields : List (Str × Json) → Prop
  | [] => True
  | (key, x) :: fields => Joined key ∧ x.Loaded ∧ LoadedFields fields

end

/-! ## Setting a key -/

section Set
variable {key : Str} {x : Json} {fields : Dict}

theorem mem_keys_set {k : Str} (h : k ∈ (Dict.set key x fields).map Prod.fst) :
    k = key ∨ k ∈ fields.map Prod.fst := by
  induction fields with
  | nil => exact Or.inl (List.mem_singleton.mp h)
  | cons field fields ih =>
    obtain ⟨k', v⟩ := field
    unfold Dict.set at h
    split at h
    · exact Or.inr h
    · rcases List.mem_cons.mp h with rfl | h
      · exact Or.inr (List.mem_cons_self ..)
      · exact (ih h).imp_right (List.mem_cons_of_mem _)

theorem lookup_set_ne {k : Str} (hk : k ≠ key) :
    (Dict.set key x fields).lookup k = fields.lookup k := by
  have hbeq : (k == key) = false := beq_eq_false_iff_ne.mpr hk
  induction fields with
  | nil => rw [Dict.set, List.lookup_cons, hbeq]
  | cons field fields ih =>
    obtain ⟨k', v⟩ := field
    unfold Dict.set
    split
    · rename_i he
      rw [List.lookup_cons, List.lookup_cons, he, hbeq]
    · rw [List.lookup_cons, List.lookup_cons, ih]

theorem nodup_set (h : (fields.map Prod.fst).Nodup) :
    ((Dict.set key x fields).map Prod.fst).Nodup := by
  induction fields with
  | nil => exact List.nodup_singleton key
  | cons field fields ih =>
    obtain ⟨k, v⟩ := field
    rw [List.map_cons, List.nodup_cons] at h
    unfold Dict.set
    split
    · exact List.nodup_cons.mpr h
    · rename_i hk
      refine List.nodup_cons.mpr ⟨fun hmem => ?_, ih h.2⟩
      exact (mem_keys_set hmem).elim hk h.1

theorem LoadedFields.set (h : LoadedFields fields) (hkey : Joined key) (hx : x.Loaded) :
    LoadedFields (Dict.set key x fields) := by
  induction fields with
  | nil => exact ⟨hkey, hx, trivial⟩
  | cons field fields ih =>
    obtain ⟨k, v⟩ := field
    unfold Dict.set
    split
    · exact ⟨h.1, hx, h.2.2⟩
    · exact ⟨h.1, h.2.1, ih h.2.2⟩

theorem PlainFields.set (h : PlainFields fields) (hx : x.Plain) :
    PlainFields (Dict.set key x fields) := by
  induction fields with
  | nil => exact ⟨hx, trivial⟩
  | cons field fields ih =>
    obtain ⟨k, v⟩ := field
    unfold Dict.set
    split
    · exact ⟨hx, h.2⟩
    · exact ⟨h.1, ih h.2⟩

end Set

/-! ## What is read -/

mutual

theorem loaded_ofValue : ∀ {v : Value}, v.All Joined → (ofValue v).Loaded
  | .null, _ | .bool _, _ => trivial
  | .string _, h => h
  | .number n, _ => by
    unfold ofValue ofNumber
    split <;> trivial
  | .array _, h => loaded_ofElements h
  | .object members, h => loaded_ofMembers members h [] List.nodup_nil trivial

theorem loaded_ofElements : ∀ {xs : List Value}, AllElements Joined xs →
    LoadedElements (ofElements xs)
  | [], _ => trivial
  | _ :: _, ⟨hx, hxs⟩ => ⟨loaded_ofValue hx, loaded_ofElements hxs⟩

theorem loaded_ofMembers : ∀ members : List (Str × Value), AllMembers Joined members →
    ∀ dict : Dict, (dict.map Prod.fst).Nodup → LoadedFields dict →
    (Json.dict (ofMembers dict members)).Loaded
  | [], _, _, hnodup, hloaded => ⟨hnodup, hloaded⟩
  | (key, x) :: members, ⟨hkey, hx, hmembers⟩, dict, hnodup, hloaded =>
    loaded_ofMembers members hmembers (dict.set key (ofValue x)) (nodup_set hnodup)
      (hloaded.set hkey (loaded_ofValue hx))

end

theorem loaded_of_loads {text : BodyText} {x : Json} (h : loads text = some x) : x.Loaded := by
  obtain ⟨v, hv, rfl⟩ := Option.map_eq_some_iff.mp h
  exact loaded_ofValue (JsonText.joined_of_parse hv)

/-! ## What is written -/

mutual

theorem exists_toValue : ∀ x : Json, x.Plain → x.Loaded →
    ∃ v, toValue x = some v ∧ v.All Joined ∧ ofValue v = x
  | .null, _, _ => ⟨_, rfl, trivial, rfl⟩
  | .bool _, _, _ => ⟨_, rfl, trivial, rfl⟩
  | .int n, _, _ => ⟨_, rfl, trivial, by rw [ofValue, ofNumber_ofInt]⟩
  | .str _, _, hloaded => ⟨_, rfl, hloaded, rfl⟩
  | .list xs, hplain, hloaded => by
    obtain ⟨vs, hvs, hjoined, hback⟩ := exists_toElements xs hplain hloaded
    exact ⟨.array vs, by rw [toValue, hvs, Option.map_some], hjoined, by rw [ofValue, hback]⟩
  | .dict fields, hplain, hloaded => by
    obtain ⟨vs, hvs, hjoined, hkeys, hback⟩ := exists_toMembers fields hplain hloaded.2
    refine ⟨.object vs, by rw [toValue, hvs, Option.map_some], hjoined, ?_⟩
    rw [ofValue, ofMembers_of_nodup, hback]
    · rfl
    · rw [hkeys]
      exact hloaded.1

theorem exists_toElements : ∀ xs : List Json, PlainElements xs → LoadedElements xs →
    ∃ vs, toElements xs = some vs ∧ AllElements Joined vs ∧ ofElements vs = xs
  | [], _, _ => ⟨[], rfl, trivial, rfl⟩
  | x :: xs, hplain, hloaded => by
    obtain ⟨v, hv, hjoined, hback⟩ := exists_toValue x hplain.1 hloaded.1
    obtain ⟨vs, hvs, hjoineds, hbacks⟩ := exists_toElements xs hplain.2 hloaded.2
    refine ⟨v :: vs, ?_, ⟨hjoined, hjoineds⟩, by rw [ofElements, hback, hbacks]⟩
    rw [toElements, hv, hvs]
    rfl

theorem exists_toMembers : ∀ fields : List (Str × Json), PlainFields fields →
    LoadedFields fields → ∃ members, toMembers fields = some members ∧
      AllMembers Joined members ∧ members.map Prod.fst = fields.map Prod.fst ∧
      members.map (fun m => (m.1, ofValue m.2)) = fields
  | [], _, _ => ⟨[], rfl, trivial, rfl, rfl⟩
  | (key, x) :: fields, hplain, hloaded => by
    obtain ⟨v, hv, hjoined, hback⟩ := exists_toValue x hplain.1 hloaded.2.1
    obtain ⟨members, hmembers, hjoineds, hkeys, hbacks⟩ :=
      exists_toMembers fields hplain.2 hloaded.2.2
    refine ⟨(key, v) :: members, ?_, ⟨hloaded.1, hjoined, hjoineds⟩, ?_, ?_⟩
    · rw [toMembers, hv, hmembers]
      rfl
    · rw [List.map_cons, List.map_cons, hkeys]
    · rw [List.map_cons, hback, hbacks]

end

/-- `json.dumps` escapes every surrogate. -/
theorem escape_surrogate {n : Nat} (hge : 0xD800 ≤ n) (hle : n ≤ 0xDFFF) :
    style.escape n = '\\' :: 'u' :: JsonText.hex4 n := by
  have hshort : shortFor n = none := by
    unfold shortFor
    split_ifs <;> first | rfl | omega
  show escape n = _
  unfold escape
  rw [hshort]
  dsimp only
  rw [if_neg (by omega), if_pos (by omega)]

/-- **What was written is read again.** -/
theorem loads_of_dumps {x : Json} (hplain : x.Plain) (hloaded : x.Loaded) :
    ∃ text, dumps x = some text ∧ loads text = some x := by
  obtain ⟨v, hv, hjoined, hback⟩ := exists_toValue x hplain hloaded
  have hwrites : v.All style.Writes :=
    hjoined.imp fun _ => JsonText.writes_of_joined fun _ => escape_surrogate
  refine ⟨v.print style, by rw [dumps, hv, Option.map_some], ?_⟩
  rw [loads, JsonText.parse_print_of_writes style hwrites, Option.map_some, hback]

/-! ## Retries -/

/-- The body of the retry that is published for the body `text`, if the consumer gets as far. -/
def retryText (text : BodyText) : Option BodyText :=
  match loads text with
  | some (.dict envelope) => dumps (.dict (bodyCodec.bump envelope))
  | _ => none

section Retries
variable {text : BodyText} {envelope : Dict} {a : Int}

theorem bump_of_attempt (h : envelope.attempt = .int a) :
    bodyCodec.bump envelope = Dict.set (Python.str "attempt") (.int (a + 1)) envelope := by
  show Dict.set _ envelope.attempt.addOne envelope = _
  rw [h]
  rfl

theorem loads_retryText (hread : loads text = some (.dict envelope)) (hplain : PlainFields envelope)
    (h : envelope.attempt = .int a) :
    ∃ text', retryText text = some text' ∧
      loads text' = some (.dict (bodyCodec.bump envelope)) ∧
      PlainFields (bodyCodec.bump envelope) := by
  obtain ⟨hnodup, hloaded⟩ : (Json.dict envelope).Loaded := loaded_of_loads hread
  have hplain' : PlainFields (bodyCodec.bump envelope) := by
    rw [bump_of_attempt h]
    exact hplain.set trivial
  have hloaded' : (Json.dict (bodyCodec.bump envelope)).Loaded := by
    rw [bump_of_attempt h]
    have hkey : Joined (Python.str "attempt") :=
      JsonText.joined_of_scalar (scalar_codes "attempt".toList)
    exact ⟨nodup_set hnodup, hloaded.set hkey trivial⟩
  obtain ⟨text', hdump, hback⟩ :=
    loads_of_dumps (x := .dict (bodyCodec.bump envelope)) hplain' hloaded'
  refine ⟨text', ?_, hback, hplain'⟩
  unfold retryText
  rw [hread]
  exact hdump

theorem loads_iterate_retryText (hread : loads text = some (.dict envelope))
    (hplain : PlainFields envelope) (h : envelope.attempt = .int a) (n : Nat) :
    ∃ text', (· >>= retryText)^[n] (some text) = some text' ∧
      loads text' = some (.dict (bodyCodec.bump^[n] envelope)) ∧
      PlainFields (bodyCodec.bump^[n] envelope) := by
  induction n with
  | zero => exact ⟨text, rfl, hread, hplain⟩
  | succ n ih =>
    obtain ⟨text₁, htext₁, hread₁, hplain₁⟩ := ih
    obtain ⟨text', htext', hread', hplain'⟩ :=
      loads_retryText hread₁ hplain₁ (attempt_iterate_bump h n)
    rw [Function.iterate_succ_apply', Function.iterate_succ_apply', htext₁]
    exact ⟨text', htext', hread', hplain'⟩

theorem lookup_iterate_bump (h : envelope.attempt = .int a) {key : Str}
    (hkey : key ≠ Python.str "attempt") (n : Nat) :
    (bodyCodec.bump^[n] envelope).lookup key = envelope.lookup key := by
  induction n with
  | zero => rfl
  | succ n ih =>
    rw [Function.iterate_succ_apply', bump_of_attempt (attempt_iterate_bump h n),
      lookup_set_ne hkey, ih]

/-- **Retries keep every body.**  Whatever `dict` was read, with whatever fields in whatever
order, after any number of retries it is read again, and all that has changed is its
attempt. -/
theorem retries_keep_body (hread : loads text = some (.dict envelope))
    (hplain : PlainFields envelope) (h : envelope.attempt = .int a) (n : Nat) :
    ∃ text', (· >>= retryText)^[n] (some text) = some text' ∧
      loads text' = some (.dict (bodyCodec.bump^[n] envelope)) ∧
      Dict.attempt (bodyCodec.bump^[n] envelope) = .int (a + n) ∧
      ∀ key ≠ Python.str "attempt",
        (bodyCodec.bump^[n] envelope).lookup key = envelope.lookup key := by
  obtain ⟨text', htext', hread', -⟩ := loads_iterate_retryText hread hplain h n
  exact ⟨text', htext', hread', attempt_iterate_bump h n,
    fun key hkey => lookup_iterate_bump h hkey n⟩

/-- A message of somebody else's, with half of a pair of surrogates in it. -/
def foreignDict (attempt : Int) : Dict :=
  [(Python.str "attempt", .int attempt), (Python.str "flags", .list [.null, .str [0xD83D]])]

theorem loaded_foreignDict : (Json.dict (foreignDict 2)).Loaded := by
  have hjoined : ∀ t : Text, Joined (codes t) := fun t => JsonText.joined_of_scalar (scalar_codes t)
  have hlone : Joined [0xD83D] := ⟨by decide, List.isChain_singleton _⟩
  exact ⟨by decide, hjoined "attempt".toList, trivial, hjoined "flags".toList,
    ⟨trivial, hlone, trivial⟩, trivial⟩

/-- After five retries. -/
theorem retries_keep_body_foreign :
    ∃ text text', loads text = some (.dict (foreignDict 2)) ∧
      (· >>= retryText)^[5] (some text) = some text' ∧
      loads text' = some (.dict (foreignDict 7)) := by
  have hplain : PlainFields (foreignDict 2) := ⟨trivial, ⟨trivial, trivial, trivial⟩, trivial⟩
  obtain ⟨text, -, hread⟩ := loads_of_dumps (x := .dict (foreignDict 2)) hplain loaded_foreignDict
  obtain ⟨text', hretried, hread', -, -⟩ := retries_keep_body hread hplain rfl 5
  exact ⟨text, text', hread, hretried, hread'⟩

end Retries
end DigitalCip.Python

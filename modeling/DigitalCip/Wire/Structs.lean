import DigitalCip.Wire.Envelopes

/-!
# Any struct through the retry queue

The chunker publishes a retry of the struct it has read.  What it has read is well formed
(`Received`), so the nine fields come through, the payload with its keys in order
(`Canonical`), and any other member of the object is gone (`retries_keep_fields`).
-/

namespace DigitalCip.Chunker
open JsonText (IsScalar Joined AllElements AllMembers ScalarElements ScalarMembers)

/-- The envelope that `handle` goes on with. -/
def counted (env : RawEnvelope) : RawEnvelope :=
  if env.attempt = 0 then { env with attempt := 1 } else env

/-- The body that `publishRetry` publishes. -/
def retryBody (env : RawEnvelope) : Option BodyText :=
  marshal { counted env with attempt := (counted env).attempt + 1 }

/-- The attempt of the retry, when `a` was read. -/
def nextAttempt (a : Int) : Int := (if a = 0 then 1 else a) + 1

/-! ## Members in order -/

section Members
variable {key : Str} {x : JsonText.Value} {members : List (Str × JsonText.Value)}

/-- The keys are in order, each once. -/
def Ordered (members : List (Str × JsonText.Value)) : Prop :=
  members.Pairwise fun m m' => m.1 < m'.1

theorem lt_of_not_lt {k k' : Str} (hne : k ≠ k') (h : ¬ k < k') : k' < k :=
  (List.le_iff_lt_or_eq.mp (List.not_lt.mp h)).resolve_right (Ne.symm hne)

theorem mem_insertMember {m : Str × JsonText.Value} (h : m ∈ insertMember key x members) :
    m = (key, x) ∨ m ∈ members := by
  induction members with
  | nil => exact Or.inl (List.mem_singleton.mp h)
  | cons member members ih =>
    obtain ⟨k, y⟩ := member
    unfold insertMember at h
    split at h
    · exact Or.inr h
    split at h
    · exact List.mem_cons.mp h
    · rcases List.mem_cons.mp h with rfl | h
      · exact Or.inr (List.mem_cons_self ..)
      · exact (ih h).imp_right (List.mem_cons_of_mem _)

theorem Ordered.insertMember (h : Ordered members) : Ordered (insertMember key x members) := by
  induction members with
  | nil => exact List.pairwise_singleton ..
  | cons member members ih =>
    obtain ⟨k, y⟩ := member
    obtain ⟨hk, hmembers⟩ := List.pairwise_cons.mp h
    unfold Chunker.insertMember
    split
    · exact h
    rename_i hne
    split
    · rename_i hlt
      refine List.pairwise_cons.mpr ⟨fun m hm => ?_, h⟩
      rcases List.mem_cons.mp hm with rfl | hm
      · exact hlt
      · exact List.lt_trans hlt (hk m hm)
    · rename_i hlt
      refine List.pairwise_cons.mpr ⟨fun m hm => ?_, ih hmembers⟩
      rcases mem_insertMember hm with rfl | hm
      · exact lt_of_not_lt hne hlt
      · exact hk m hm

/-- In front of what comes after it a member stays in front. -/
theorem insertMember_of_lt (h : ∀ m ∈ members, key < m.1) :
    insertMember key x members = (key, x) :: members := by
  cases members with
  | nil => rfl
  | cons member members =>
    obtain ⟨k, y⟩ := member
    have hlt : key < k := h _ (List.mem_cons_self ..)
    have hne : key ≠ k := by
      rintro rfl
      exact List.lt_irrefl key hlt
    rw [insertMember, if_neg hne, if_pos hlt]

end Members

/-! ## What is read -/

/-- There is no surrogate in a string. -/
def Scalar (s : Str) : Prop := ∀ n ∈ s, IsScalar n

mutual

/-- The strings of the value, the keys among them, have no surrogates. -/
def Value.Decoded : Value → Prop
  | .string s => Scalar s
  | .array xs => DecodedElements xs
  | .object members => DecodedMembers members
  | _ => True

def DecodedElements : List Value → Prop
  | [] => True
  | x :: xs => x.Decoded ∧ DecodedElements xs

def DecodedMembers : List (Str × Value) → Prop
  | [] => True
  | (key, x) :: members => Scalar key ∧ x.Decoded ∧ DecodedMembers members

end

theorem scalar_ofString {s : Str} (h : Joined s) : Scalar (ofString s) := by
  intro n hn
  obtain ⟨m, hm, rfl⟩ := List.mem_map.mp hn
  have hlt := h.points m hm
  rw [JsonText.isScalar_iff]
  split_ifs <;> omega

mutual

theorem decoded_ofValue : ∀ {v : JsonText.Value}, v.All Joined → (ofValue v).Decoded
  | .null, _ | .bool _, _ | .number _, _ => trivial
  | .string _, h => scalar_ofString h
  | .array _, h => decoded_ofElements h
  | .object _, h => decoded_ofMembers h

theorem decoded_ofElements : ∀ {xs : List JsonText.Value}, AllElements Joined xs →
    DecodedElements (ofElements xs)
  | [], _ => trivial
  | _ :: _, ⟨hx, hxs⟩ => ⟨decoded_ofValue hx, decoded_ofElements hxs⟩

theorem decoded_ofMembers : ∀ {members : List (Str × JsonText.Value)},
    AllMembers Joined members → DecodedMembers (ofMembers members)
  | [], _ => trivial
  | _ :: _, ⟨hkey, hx, hmembers⟩ =>
    ⟨scalar_ofString hkey, decoded_ofValue hx, decoded_ofMembers hmembers⟩

end

/-- The struct as `json.Unmarshal` fills it: its numbers are `int64`s, and its strings have
no surrogates. -/
structure Received (env : RawEnvelope) : Prop where
  documentId : -2 ^ 63 ≤ env.documentId ∧ env.documentId < 2 ^ 63
  attempt : -2 ^ 63 ≤ env.attempt ∧ env.attempt < 2 ^ 63
  messageId : Scalar env.messageId
  idempotencyKey : Scalar env.idempotencyKey
  traceId : Scalar env.traceId
  stage : Scalar env.stage
  tenantId : Scalar env.tenantId
  publishedAt : Scalar env.publishedAt
  payload : DecodedMembers env.payload

theorem received_zero : Received {} := by
  have hnil : Scalar [] := fun n hn => absurd hn List.not_mem_nil
  exact ⟨by decide, by decide, hnil, hnil, hnil, hnil, hnil, hnil, trivial⟩

theorem bounds_of_toInt64 {q : ℚ} {whole : Bool} {n : Int} (h : toInt64 q whole = some n) :
    -2 ^ 63 ≤ n ∧ n < 2 ^ 63 := by
  unfold toInt64 at h
  split at h
  · rename_i hq
    exact Option.some.inj h ▸ hq.2
  · cases h

theorem decodedMembers_append {ms ms' : List (Str × Value)} (h : DecodedMembers ms)
    (h' : DecodedMembers ms') : DecodedMembers (ms ++ ms') := by
  induction ms with
  | nil => exact h'
  | cons member ms ih => exact ⟨h.1, h.2.1, ih h.2.2⟩

theorem Received.setMember {env env' : RawEnvelope} {member : Str × Value} (h : Received env)
    (hmember : member.2.Decoded) (hset : setMember env member = some env') : Received env' := by
  obtain ⟨key, x⟩ := member
  unfold Chunker.setMember at hset
  split at hset
  all_goals subst_vars
  case h_1 => exact Option.some.inj hset ▸ h
  case h_2 => exact Option.some.inj hset ▸ { h with payload := trivial }
  case h_3 => exact Option.some.inj hset ▸ h
  case h_4 => exact Option.some.inj hset ▸ { h with messageId := hmember }
  case h_5 => exact Option.some.inj hset ▸ { h with idempotencyKey := hmember }
  case h_6 => exact Option.some.inj hset ▸ { h with traceId := hmember }
  case h_7 => exact Option.some.inj hset ▸ { h with stage := hmember }
  case h_8 =>
    obtain ⟨n, hn, rfl⟩ := Option.map_eq_some_iff.mp hset
    exact { h with documentId := bounds_of_toInt64 hn }
  case h_9 => exact Option.some.inj hset ▸ { h with tenantId := hmember }
  case h_10 =>
    obtain ⟨n, hn, rfl⟩ := Option.map_eq_some_iff.mp hset
    exact { h with attempt := bounds_of_toInt64 hn }
  case h_11 => exact Option.some.inj hset ▸ { h with publishedAt := hmember }
  case h_12 =>
    split at hset
    · exact Option.some.inj hset ▸
        { h with payload := decodedMembers_append h.payload hmember }
    · cases hset
  case h_13 => cases hset

theorem Received.foldlM {env env' : RawEnvelope} {members : List (Str × Value)}
    (h : Received env) (hmembers : DecodedMembers members)
    (hfold : members.foldlM Chunker.setMember env = some env') : Received env' := by
  induction members generalizing env with
  | nil => exact Option.some.inj hfold ▸ h
  | cons member members ih =>
    rw [List.foldlM_cons] at hfold
    obtain ⟨env₁, hset, hfold⟩ := Option.bind_eq_some_iff.mp hfold
    exact ih (h.setMember hmembers.2.1 hset) hmembers.2.2 hfold

theorem received_of_unmarshalText {text : BodyText} {env : RawEnvelope}
    (h : unmarshalText text = some env) : Received env := by
  have hdecoded : ∀ v, (JsonText.parse text).map ofValue = some v → v.Decoded := by
    intro v hv
    obtain ⟨v', hv', rfl⟩ := Option.map_eq_some_iff.mp hv
    exact decoded_ofValue (JsonText.joined_of_parse hv')
  unfold unmarshalText unmarshal at h
  split at h
  · exact Option.some.inj h ▸ received_zero
  · rename_i members hv
    exact received_zero.foldlM (hdecoded _ hv) h
  · cases h

/-! ## What is stored is written the same way again -/

/-- Stored and written again, the value is the same. -/
structure Canonical (x : JsonText.Value) : Prop where
  scalar : x.Scalar
  again : toValue (ofValue x) = some x
  fits : (ofValue x).fitsAny = true

theorem lt_maxFloat : (2 ^ 53 : ℚ) < 2 ^ 1024 - 2 ^ 970 := by
  have hsmall : (2 ^ 53 : ℚ) < 2 ^ 970 := pow_lt_pow_right₀ (by norm_num) (by norm_num)
  refine lt_sub_iff_add_lt.mpr ?_
  calc (2 ^ 53 : ℚ) + 2 ^ 970 < 2 ^ 970 + 2 ^ 970 := (add_lt_add_iff_right _).mpr hsmall
    _ = 2 ^ 971 := by rw [← two_mul, ← pow_succ']
    _ ≤ 2 ^ 1024 := pow_le_pow_right₀ (by norm_num) (by norm_num)

theorem canonical_ofInt {n : Int} (h : n.natAbs ≤ 2 ^ 53) : Canonical (.number (.ofInt n)) := by
  have hsign : ¬ ((n : ℚ) = 0 ∧ decide (n < 0) = true) := by
    rintro ⟨hzero, hneg⟩
    have hn : n = 0 := by exact_mod_cast hzero
    have hlt := of_decide_eq_true hneg
    omega
  have hnum : toValue (.number n true (decide (n < 0))) = some (.number (.ofInt n)) := by
    rw [toValue, if_neg hsign]
    exact if_pos ⟨rfl, h⟩
  have hof : ofValue (.number (.ofInt n)) = .number n true (decide (n < 0)) := by
    rw [ofValue, JsonText.Number.value_ofInt, JsonText.Number.isWhole_ofInt]
    rfl
  have hle : (n : ℚ) ≤ 2 ^ 53 := by exact_mod_cast (by omega : n ≤ 2 ^ 53)
  have hge : -(2 ^ 53 : ℚ) ≤ n := by exact_mod_cast (by omega : -(2 ^ 53) ≤ n)
  refine ⟨trivial, by rw [hof, hnum], ?_⟩
  rw [hof]
  show fitsFloat n = true
  unfold fitsFloat
  rw [Bool.and_eq_true, decide_eq_true_eq, decide_eq_true_eq]
  exact ⟨lt_of_lt_of_le (neg_lt_neg lt_maxFloat) hge, lt_of_le_of_lt hle lt_maxFloat⟩

theorem ofValue_negativeZero : ofValue (.number .negativeZero) = .number 0 true true := by
  rw [ofValue, JsonText.Number.value_negativeZero]
  rfl

theorem canonical_negativeZero : Canonical (.number .negativeZero) := by
  refine ⟨trivial, ?_, ?_⟩
  · rw [ofValue_negativeZero, toValue, if_pos ⟨rfl, rfl⟩]
  · rw [ofValue_negativeZero]
    show fitsFloat 0 = true
    have hpos : (0 : ℚ) < 2 ^ 1024 - 2 ^ 970 := lt_trans (by norm_num) lt_maxFloat
    unfold fitsFloat
    rw [Bool.and_eq_true, decide_eq_true_eq, decide_eq_true_eq]
    exact ⟨neg_lt_zero.mpr hpos, hpos⟩

/-- The members of a map as they are written: in order, and canonical. -/
structure CanonicalMembers (members : List (Str × JsonText.Value)) : Prop where
  ordered : Ordered members
  keys : ∀ m ∈ members, Scalar m.1
  values : ∀ m ∈ members, Canonical m.2

theorem CanonicalMembers.again {members : List (Str × JsonText.Value)}
    (h : CanonicalMembers members) : ScalarMembers members ∧
      toMembers (ofMembers members) = some members ∧
      fitsAnyMembers (ofMembers members) = true := by
  induction members with
  | nil => exact ⟨trivial, rfl, rfl⟩
  | cons member members ih =>
    obtain ⟨key, x⟩ := member
    obtain ⟨hfront, hordered⟩ := List.pairwise_cons.mp h.ordered
    obtain ⟨hkey, hkeys⟩ := List.forall_mem_cons.mp h.keys
    obtain ⟨hx, hvalues⟩ := List.forall_mem_cons.mp h.values
    obtain ⟨hscalar, hagain, hfits⟩ := ih ⟨hordered, hkeys, hvalues⟩
    refine ⟨⟨hkey, hx.scalar, hscalar⟩, ?_, ?_⟩
    · rw [ofMembers, ofString_of_scalar hkey, toMembers, hx.again, hagain]
      exact congrArg some (insertMember_of_lt hfront)
    · rw [ofMembers, fitsAnyMembers, hx.fits, hfits]
      rfl

mutual

theorem canonical_of_toValue : ∀ (v : Value) {x : JsonText.Value}, v.Decoded →
    toValue v = some x → Canonical x
  | .null, x, _, h => by
    cases Option.some.inj h
    exact ⟨trivial, rfl, rfl⟩
  | .bool b, x, _, h => by
    cases Option.some.inj h
    exact ⟨trivial, rfl, rfl⟩
  | .number q whole negative, x, _, h => by
    unfold toValue at h
    split at h
    · cases Option.some.inj h
      exact canonical_negativeZero
    split at h
    · rename_i hq
      cases Option.some.inj h
      exact canonical_ofInt hq.2
    · cases h
  | .string s, x, hdecoded, h => by
    cases Option.some.inj h
    refine ⟨hdecoded, ?_, rfl⟩
    rw [ofValue, ofString_of_scalar hdecoded]
    rfl
  | .array vs, x, hdecoded, h => by
    obtain ⟨xs, hxs, rfl⟩ := Option.map_eq_some_iff.mp h
    obtain ⟨hscalar, hagain, hfits⟩ := canonical_of_toElements vs hdecoded hxs
    exact ⟨hscalar, by rw [ofValue, toValue, hagain, Option.map_some], hfits⟩
  | .object ms, x, hdecoded, h => by
    obtain ⟨members, hmembers, rfl⟩ := Option.map_eq_some_iff.mp h
    obtain ⟨hscalar, hagain, hfits⟩ := (canonical_of_toMembers ms hdecoded hmembers).again
    exact ⟨hscalar, by rw [ofValue, toValue, hagain, Option.map_some], hfits⟩

theorem canonical_of_toElements : ∀ (vs : List Value) {xs : List JsonText.Value},
    DecodedElements vs → toElements vs = some xs → ScalarElements xs ∧
      toElements (ofElements xs) = some xs ∧ fitsAnyAll (ofElements xs) = true
  | [], xs, _, h => by
    cases Option.some.inj h
    exact ⟨trivial, rfl, rfl⟩
  | v :: vs, xs, hdecoded, h => by
    obtain ⟨x, hx, h⟩ := Option.bind_eq_some_iff.mp h
    obtain ⟨xs, hxs, h⟩ := Option.bind_eq_some_iff.mp h
    cases Option.some.inj h
    have hcanonical := canonical_of_toValue v hdecoded.1 hx
    obtain ⟨hscalar, hagain, hfits⟩ := canonical_of_toElements vs hdecoded.2 hxs
    refine ⟨⟨hcanonical.scalar, hscalar⟩, ?_, ?_⟩
    · rw [ofElements, toElements, hcanonical.again, hagain]
      rfl
    · rw [ofElements, fitsAnyAll, hcanonical.fits, hfits]
      rfl

theorem canonical_of_toMembers : ∀ (ms : List (Str × Value))
    {members : List (Str × JsonText.Value)}, DecodedMembers ms → toMembers ms = some members →
    CanonicalMembers members
  | [], members, _, h => by
    cases Option.some.inj h
    exact ⟨List.Pairwise.nil, fun m hm => absurd hm List.not_mem_nil,
      fun m hm => absurd hm List.not_mem_nil⟩
  | (key, v) :: ms, members, ⟨hkey, hv, hms⟩, h => by
    obtain ⟨x, hx, h⟩ := Option.bind_eq_some_iff.mp h
    obtain ⟨rest, hrest, h⟩ := Option.bind_eq_some_iff.mp h
    cases Option.some.inj h
    have hcanonical := canonical_of_toMembers ms hms hrest
    refine ⟨hcanonical.ordered.insertMember, fun m hm => ?_, fun m hm => ?_⟩
    · rcases mem_insertMember hm with rfl | hm
      · exact hkey
      · exact hcanonical.keys m hm
    · rcases mem_insertMember hm with rfl | hm
      · exact canonical_of_toValue v hv hx
      · exact hcanonical.values m hm

end

/-! ## Retries -/

/-- The body of the retry that is published for the body `text`, if the consumer gets as far. -/
def retryText (text : BodyText) : Option BodyText := (unmarshalText text).bind retryBody

theorem nextAttempt_bounds (a : Int) : a ≤ nextAttempt a ∧ nextAttempt a ≤ max 1 a + 1 := by
  unfold nextAttempt
  split <;> omega

theorem iterate_nextAttempt_bounds (a : Int) (n : Nat) :
    a ≤ nextAttempt^[n] a ∧ nextAttempt^[n] a ≤ max 1 a + n := by
  induction n with
  | zero => exact ⟨le_rfl, (le_max_right 1 a).trans (by omega)⟩
  | succ n ih =>
    rw [Function.iterate_succ_apply']
    have hnext := nextAttempt_bounds (nextAttempt^[n] a)
    omega

section Retries
variable {text : BodyText} {env : RawEnvelope} {members : List (Str × JsonText.Value)} {a : Int}

/-- The struct can be written and read with any attempt that is an `int64`. -/
theorem Received.scalar (h : Received env) (hmembers : ScalarMembers members) :
    (envelopeValue { env with attempt := a } (.object members)).Scalar :=
  ⟨scalar_codes _, h.messageId, scalar_codes _, h.idempotencyKey, scalar_codes _, h.traceId,
    scalar_codes _, h.stage, scalar_codes _, trivial, scalar_codes _, h.tenantId, scalar_codes _,
    trivial, scalar_codes _, h.publishedAt, scalar_codes _, hmembers, trivial⟩

/-- One retry of a body that is read as `env`. -/
theorem retryText_of_unmarshal (hread : unmarshalText text = some env)
    (hmembers : toMembers env.payload = some members) (hne : members ≠ []) :
    retryText text = some ((envelopeValue { env with attempt := nextAttempt env.attempt }
      (.object members)).print style) := by
  have hpayload : env.payload ≠ [] := by
    intro he
    rw [he] at hmembers
    exact hne (Option.some.inj hmembers).symm
  have hbody : retryBody env = marshal { env with attempt := nextAttempt env.attempt } := by
    unfold retryBody counted nextAttempt
    split <;> rfl
  unfold retryText
  rw [hread, Option.bind_some, hbody]
  exact marshal_of_toMembers hpayload hmembers

/-- What the chunker wrote is read as it was. -/
theorem unmarshalText_rewritten (henv : Received env) (hmembers : CanonicalMembers members)
    (ha : -2 ^ 63 ≤ a ∧ a < 2 ^ 63) :
    unmarshalText ((envelopeValue { env with attempt := a } (.object members)).print style) =
        some { env with attempt := a, payload := ofMembers members } := by
  obtain ⟨hscalar, -, hfits⟩ := hmembers.again
  unfold unmarshalText
  rw [JsonText.parse_print style (henv.scalar hscalar), Option.map_some]
  exact unmarshal_envelopeValue henv.documentId ha (henv.scalar hscalar) hfits

/-- The attempt stays an `int64`. -/
theorem int64_nextAttempt (henv : Received env) (n : Nat) (hn : max 1 env.attempt + n < 2 ^ 63) :
    -2 ^ 63 ≤ nextAttempt^[n] env.attempt ∧ nextAttempt^[n] env.attempt < 2 ^ 63 := by
  obtain ⟨hge, hle⟩ := iterate_nextAttempt_bounds env.attempt n
  exact ⟨henv.attempt.1.trans hge, lt_of_le_of_lt hle hn⟩

theorem iterate_retryText (hread : unmarshalText text = some env)
    (hmembers : toMembers env.payload = some members) (hne : members ≠ []) (n : Nat)
    (hn : max 1 env.attempt + n < 2 ^ 63) :
    (· >>= retryText)^[n + 1] (some text) = some ((envelopeValue
      { env with attempt := nextAttempt^[n + 1] env.attempt } (.object members)).print style) := by
  induction n with
  | zero => exact retryText_of_unmarshal hread hmembers hne
  | succ n ih =>
    have henv := received_of_unmarshalText hread
    have hcanonical := canonical_of_toMembers env.payload henv.payload hmembers
    have hread' := unmarshalText_rewritten henv hcanonical (int64_nextAttempt henv (n + 1) hn)
    have hretry := retryText_of_unmarshal hread' hcanonical.again.2.1 hne
    rw [Function.iterate_succ_apply', ih (by omega),
      Function.iterate_succ_apply' nextAttempt (n + 1)]
    show retryText _ = _
    exact hretry

/-- **Retries keep the fields of the struct.**  Whatever object was read, after any number of
retries it has the nine members of an envelope and no others, each but the attempt as it was
read. -/
theorem retries_keep_fields (hread : unmarshalText text = some env)
    (hmembers : toMembers env.payload = some members) (hne : members ≠ []) (n : Nat)
    (hn : max 1 env.attempt + (n + 1) < 2 ^ 63) :
    ∃ text', (· >>= retryText)^[n + 1] (some text) = some text' ∧
      JsonText.parse text' = some (envelopeValue
        { env with attempt := nextAttempt^[n + 1] env.attempt } (.object members)) ∧
      unmarshalText text' = some
        { env with attempt := nextAttempt^[n + 1] env.attempt, payload := ofMembers members } := by
  have henv := received_of_unmarshalText hread
  have hcanonical := canonical_of_toMembers env.payload henv.payload hmembers
  exact ⟨_, iterate_retryText hread hmembers hne n (by omega),
    JsonText.parse_print style (henv.scalar hcanonical.again.1),
    unmarshalText_rewritten henv hcanonical (int64_nextAttempt henv (n + 1) (by omega))⟩

/-- A payload with a negative zero. -/
def urgentPayload : List (Str × JsonText.Value) :=
  [(str "object_key", .string (str "k")), (str "shift", .number .negativeZero)]

/-- A message of somebody else's, with a member that no envelope has. -/
def urgentValue : JsonText.Value :=
  .object
    [(str "attempt", .number (.ofInt 2)), (str "urgent", .bool true),
      (str "payload", .object urgentPayload)]

theorem parse_urgentValue :
    JsonText.parse (urgentValue.print Python.style) = some urgentValue :=
  JsonText.parse_print Python.style
    ⟨scalar_codes _, trivial, scalar_codes _, trivial, scalar_codes _,
      ⟨scalar_codes _, scalar_codes _, scalar_codes _, trivial, trivial⟩, trivial⟩

theorem canonical_urgentPayload : CanonicalMembers urgentPayload where
  ordered := by
    unfold Ordered
    decide
  keys := by
    simp only [urgentPayload, List.forall_mem_cons]
    exact ⟨scalar_codes _, scalar_codes _, by simp⟩
  values := by
    simp only [urgentPayload, List.forall_mem_cons]
    refine ⟨⟨scalar_codes _, ?_, rfl⟩, canonical_negativeZero, by simp⟩
    rw [ofValue, show ofString (str "k") = str "k" from ofString_codes _]
    rfl

/-- After four retries it is gone, and the payload is what it was. -/
theorem retries_keep_fields_urgent :
    ∃ text', (· >>= retryText)^[4] (some (urgentValue.print Python.style)) = some text' ∧
      JsonText.parse text' = some (envelopeValue { attempt := 6 } (.object urgentPayload)) := by
  have hkeys : fieldOf (str "attempt") = some .attempt ∧ fieldOf (str "urgent") = none ∧
      fieldOf (str "payload") = some .payload := by decide
  have hstr : ∀ s : String, ofString (str s) = str s := fun s => ofString_codes s.toList
  obtain ⟨-, hagain, hfits⟩ := canonical_urgentPayload.again
  have hread : unmarshalText (urgentValue.print Python.style) = some
      { attempt := 2, payload := ofMembers urgentPayload } := by
    unfold unmarshalText
    rw [parse_urgentValue, Option.map_some]
    unfold urgentValue
    simp only [ofValue, ofMembers, hstr, unmarshal, List.foldlM_cons, List.foldlM_nil, setMember,
      hkeys, Option.bind_eq_bind, Option.bind_some, toInt64_ofInt (n := 2) (by decide) (by decide),
      Option.map_some, hfits]
    rfl
  obtain ⟨text', hretried, hparse, -⟩ :=
    retries_keep_fields hread hagain (List.cons_ne_nil _ _) 3 (by decide)
  exact ⟨text', hretried, hparse⟩

end Retries
end DigitalCip.Chunker

import DigitalCip.Api.Operations
import DigitalCip.Ocr.Worker
import DigitalCip.Wire.Bodies

/-!
# Envelopes on the wire

An envelope as the members of a JSON object, and what Python and Go make of it: a `dict`
with nine keys, and the nine fields of a struct.  The texts in an envelope have no
surrogates, so nothing of it is lost on the way.
-/

namespace DigitalCip
open JsonText

/-- The code points of a text. -/
def codes (t : Text) : Str := t.map Char.toNat

/-- A whole number in decimal. -/
def decimal (n : Int) : Text := (if n < 0 then ['-'] else []) ++ Nat.toDigits 10 n.natAbs

/-- `<document_id>:<stage>`. -/
def IdempotencyKey.text (key : IdempotencyKey) : Text :=
  decimal key.documentId ++ ':' :: (Api.stageName key.stage).toList

section Wire
variable (spell : ObjectKey → Text)

/-- The payload; `spell` spells the object keys. -/
def Payload.members (payload : Payload) : List (Str × Value) :=
  (payload.objectKey.map fun k =>
      (Python.str "object_key", Value.string (codes (spell k)))).toList ++
    (payload.chunks.map fun n => (Python.str "chunks", Value.number (.ofInt n))).toList

/-- The envelope, published at the time `publishedAt`. -/
def Envelope.value (publishedAt : Text) (e : Envelope) : Value :=
  .object
    [(Python.str "message_id", .string (codes e.messageId)),
      (Python.str "idempotency_key", .string (codes e.idempotencyKey.text)),
      (Python.str "trace_id", .string (codes e.traceId)),
      (Python.str "stage", .string (codes (Api.stageName e.stage).toList)),
      (Python.str "document_id", .number (.ofInt e.documentId)),
      (Python.str "tenant_id", .string (codes e.tenantId)),
      (Python.str "attempt", .number (.ofInt e.attempt)),
      (Python.str "published_at", .string (codes publishedAt)),
      (Python.str "payload", .object (e.payload.members spell))]

/-- The payload in Python. -/
def Payload.dict (payload : Payload) : Python.Dict :=
  (payload.objectKey.map fun k =>
      (Python.str "object_key", Python.Json.str (codes (spell k)))).toList ++
    (payload.chunks.map fun n => (Python.str "chunks", Python.Json.int n)).toList

/-- The envelope in Python. -/
def Envelope.dict (publishedAt : Text) (e : Envelope) : Python.Dict :=
  [(Python.str "message_id", .str (codes e.messageId)),
    (Python.str "idempotency_key", .str (codes e.idempotencyKey.text)),
    (Python.str "trace_id", .str (codes e.traceId)),
    (Python.str "stage", .str (codes (Api.stageName e.stage).toList)),
    (Python.str "document_id", .int e.documentId),
    (Python.str "tenant_id", .str (codes e.tenantId)),
    (Python.str "attempt", .int e.attempt),
    (Python.str "published_at", .str (codes publishedAt)),
    (Python.str "payload", .dict (e.payload.dict spell))]

/-- The payload in Go. -/
def Payload.map (payload : Payload) : List (Str × Chunker.Value) :=
  Chunker.ofMembers (payload.members spell)

/-- The envelope in Go. -/
def Envelope.raw (publishedAt : Text) (e : Envelope) : Chunker.RawEnvelope where
  messageId := codes e.messageId
  idempotencyKey := codes e.idempotencyKey.text
  traceId := codes e.traceId
  stage := codes (Api.stageName e.stage).toList
  documentId := e.documentId
  tenantId := codes e.tenantId
  attempt := e.attempt
  publishedAt := codes publishedAt
  payload := e.payload.map spell

end Wire

/-! ## In Python -/

section Python
variable {spell : ObjectKey → Text} {publishedAt : Text} {e : Envelope}

theorem Python.set_of_not_mem {key : Str} {x : Python.Json} {dict : Python.Dict}
    (h : key ∉ List.map Prod.fst dict) : Python.Dict.set key x dict = dict ++ [(key, x)] := by
  induction dict with
  | nil => rfl
  | cons field dict ih =>
    obtain ⟨k, v⟩ := field
    rw [List.map_cons, List.mem_cons] at h
    push Not at h
    rw [Python.Dict.set, if_neg h.1.symm, ih h.2]
    rfl

/-- An object with each key once is a `dict` with its members. -/
theorem Python.ofMembers_of_nodup {members : List (Str × Value)} {dict : Python.Dict}
    (h : (dict.map Prod.fst ++ members.map Prod.fst).Nodup) :
    Python.ofMembers dict members = dict ++ members.map fun m => (m.1, Python.ofValue m.2) := by
  induction members generalizing dict with
  | nil => rw [Python.ofMembers, List.map_nil, List.append_nil]
  | cons member members ih =>
    obtain ⟨key, x⟩ := member
    have hnew : key ∉ dict.map Prod.fst := fun hmem =>
      (List.disjoint_of_nodup_append h) hmem (List.mem_cons_self ..)
    rw [Python.ofMembers, Python.set_of_not_mem hnew, ih, List.append_assoc]
    · rfl
    · rwa [List.map_append, List.append_assoc]

@[simp] theorem Python.ofNumber_ofInt (n : Int) : Python.ofNumber (.ofInt n) = .int n := by
  unfold Python.ofNumber
  rw [Number.value_ofInt]
  rfl

theorem Payload.ofMembers_members (payload : Payload) :
    Python.ofMembers [] (payload.members spell) = payload.dict spell := by
  obtain ⟨objectKey, chunks⟩ := payload
  rw [Python.ofMembers_of_nodup]
  · cases objectKey <;> cases chunks <;> simp [members, dict, Python.ofValue]
  · cases objectKey <;> cases chunks <;> simp [members, Python.str]

/-- The nine keys. -/
def envelopeKeys : List Str :=
  [Python.str "message_id", Python.str "idempotency_key", Python.str "trace_id",
    Python.str "stage", Python.str "document_id", Python.str "tenant_id", Python.str "attempt",
    Python.str "published_at", Python.str "payload"]

theorem nodup_envelopeKeys : envelopeKeys.Nodup := by decide

theorem Envelope.ofValue_value :
    Python.ofValue (e.value spell publishedAt) = .dict (e.dict spell publishedAt) := by
  unfold Envelope.value
  rw [Python.ofValue, Python.ofMembers_of_nodup]
  · simp only [List.map_cons, List.map_nil, List.nil_append, Python.ofValue,
      Python.ofNumber_ofInt, Payload.ofMembers_members]
    rfl
  · exact nodup_envelopeKeys

theorem Payload.toMembers_dict (payload : Payload) :
    Python.toMembers (payload.dict spell) = some (payload.members spell) := by
  obtain ⟨objectKey, chunks⟩ := payload
  cases objectKey <;> cases chunks <;> rfl

/-- `json.dumps` writes the envelope. -/
theorem Envelope.toValue_dict :
    Python.toValue (.dict (e.dict spell publishedAt)) = some (e.value spell publishedAt) := by
  unfold Envelope.dict
  simp only [Python.toValue, Python.toMembers, Payload.toMembers_dict, Option.pure_def,
    Option.bind_eq_bind, Option.bind_some, Option.map_some]
  rfl

end Python

/-! ## What a `dict` tells -/

section Injective
variable {spell : ObjectKey → Text}

theorem codes_injective : Function.Injective codes :=
  List.map_injective_iff.mpr fun _ _ h => Char.toNat_inj.mp h

theorem stageName_injective {S S' : Stage}
    (h : (Api.stageName S).toList = (Api.stageName S').toList) : S = S' := by
  revert h
  cases S <;> cases S' <;> decide

/-- The number ends at the colon. -/
theorem IdempotencyKey.text_injective : Function.Injective IdempotencyKey.text := by
  rintro ⟨d, S⟩ ⟨d', S'⟩ h
  have htext : ∀ (d : DocId) (S : Stage), IdempotencyKey.text ⟨d, S⟩ =
      Nat.toDigits 10 d ++ ':' :: (Api.stageName S).toList := fun d S => by
    have hd : ¬ ((d : Nat) : Int) < 0 := by omega
    unfold IdempotencyKey.text decimal
    rw [if_neg hd]
    rfl
  have hdigits : ':' ∉ Nat.toDigits 10 d := fun hmem => by
    cases isDigit_toDigits d _ hmem
  have hname : ':' ∉ (Api.stageName S).toList := by
    cases S <;> decide
  rw [htext, htext] at h
  obtain ⟨hd, -, hS⟩ := (List.append_cons_inj_of_notMem hdigits hname).mp h
  have hnat : d = d' := by
    rw [← Nat.ofDigitChars_ten_toDigits (n := d), hd, Nat.ofDigitChars_ten_toDigits]
  rw [hnat, stageName_injective hS]

theorem Payload.dict_injective (hspell : Function.Injective spell) :
    Function.Injective (Payload.dict spell) := by
  rintro ⟨k, n⟩ ⟨k', n'⟩ h
  have hkeys : Python.str "object_key" ≠ Python.str "chunks" := by decide
  cases k <;> cases k' <;> cases n <;> cases n' <;>
    simp_all [Payload.dict, codes_injective.eq_iff, hspell.eq_iff, hkeys.symm]

/-- **A `dict` tells which envelope it is**, and when it was published. -/
theorem Envelope.dict_injective (hspell : Function.Injective spell)
    {publishedAt publishedAt' : Text} {e e' : Envelope}
    (h : e.dict spell publishedAt = e'.dict spell publishedAt') : e = e' := by
  simp only [Envelope.dict, List.cons.injEq, Prod.mk.injEq, true_and, and_true,
    Python.Json.str.injEq, Python.Json.int.injEq, Python.Json.dict.injEq,
    codes_injective.eq_iff] at h
  obtain ⟨hmessage, hkey, htrace, hstage, hid, htenant, hattempt, -, hpayload⟩ := h
  have hkey' := IdempotencyKey.text_injective hkey
  have hstage' := stageName_injective hstage
  have hpayload' := Payload.dict_injective hspell hpayload
  cases e
  cases e'
  simp_all

end Injective

/-! ## In any style -/

section Text
variable {spell : ObjectKey → Text} {publishedAt : Text} {e : Envelope}

theorem scalar_codes (t : Text) : ∀ n ∈ codes t, IsScalar n := by
  intro n hn
  obtain ⟨c, -, rfl⟩ := List.mem_map.mp hn
  exact c.valid

theorem Envelope.scalar_value : (e.value spell publishedAt).Scalar := by
  have hpayload : ScalarMembers (e.payload.members spell) := by
    obtain ⟨objectKey, chunks⟩ := e.payload
    cases objectKey with
    | none =>
      cases chunks with
      | none => trivial
      | some n => exact ⟨scalar_codes _, trivial, trivial⟩
    | some k =>
      cases chunks with
      | none => exact ⟨scalar_codes _, scalar_codes _, trivial⟩
      | some n => exact ⟨scalar_codes _, scalar_codes _, scalar_codes _, trivial, trivial⟩
  exact ⟨scalar_codes _, scalar_codes _, scalar_codes _, scalar_codes _, scalar_codes _,
    scalar_codes _, scalar_codes _, scalar_codes _, scalar_codes _, trivial, scalar_codes _,
    scalar_codes _, scalar_codes _, trivial, scalar_codes _, scalar_codes _, scalar_codes _,
    hpayload, trivial⟩

/-- Whoever wrote the envelope, the value is read back. -/
theorem Envelope.parse_print (style : Style) :
    parse ((e.value spell publishedAt).print style) = some (e.value spell publishedAt) :=
  JsonText.parse_print style Envelope.scalar_value

/-- **Python reads the envelope**, whoever wrote it. -/
theorem Envelope.loads_print (style : Style) :
    Python.loads ((e.value spell publishedAt).print style) =
      some (.dict (e.dict spell publishedAt)) := by
  unfold Python.loads
  rw [Envelope.parse_print, Option.map_some, Envelope.ofValue_value]

end Text

/-! ## In Go -/

namespace Chunker
variable {spell : ObjectKey → Text} {publishedAt : Text} {e : Envelope}

/-- There is no surrogate to replace. -/
theorem ofString_of_scalar {s : Str} (h : ∀ n ∈ s, IsScalar n) : ofString s = s := by
  unfold ofString
  refine (List.map_congr_left fun n hn => ?_).trans (List.map_id _)
  have hscalar := JsonText.isScalar_iff.mp (h n hn)
  exact if_neg (by omega)

theorem ofString_codes (t : Text) : ofString (codes t) = codes t :=
  ofString_of_scalar (scalar_codes t)

theorem toInt64_ofInt {n : Int} (hge : -2 ^ 63 ≤ n) (hlt : n < 2 ^ 63) :
    toInt64 (Number.ofInt n).value (Number.ofInt n).isWhole = some n := by
  rw [Number.value_ofInt, Number.isWhole_ofInt]
  exact if_pos ⟨rfl, hge, hlt⟩

/-- The nine fields, in their order. -/
theorem fields_envelopeKeys : envelopeKeys.map fieldOf =
    [some .messageId, some .idempotencyKey, some .traceId, some .stage, some .documentId,
      some .tenantId, some .attempt, some .publishedAt, some .payload] := by decide

/-- A payload with an object key only can be stored. -/
theorem fitsAny_map {payload : Payload} (h : payload.chunks = none) :
    fitsAnyMembers (payload.map spell) = true := by
  obtain ⟨objectKey, chunks⟩ := payload
  obtain rfl : chunks = none := h
  cases objectKey with
  | none => rfl
  | some k => rfl

/-- Go reads the struct that it has written. -/
theorem unmarshal_envelopeValue {env : RawEnvelope} {members : List (Str × JsonText.Value)}
    (hid : -2 ^ 63 ≤ env.documentId ∧ env.documentId < 2 ^ 63)
    (hattempt : -2 ^ 63 ≤ env.attempt ∧ env.attempt < 2 ^ 63)
    (hscalar : (envelopeValue env (.object members)).Scalar)
    (hfits : fitsAnyMembers (ofMembers members) = true) :
    unmarshal (some (ofValue (envelopeValue env (.object members)))) =
      some { env with payload := ofMembers members } := by
  have hkeys := fields_envelopeKeys
  simp only [envelopeKeys, List.map_cons, List.cons.injEq, List.map_nil, and_true] at hkeys
  obtain ⟨h₁, h₂, h₃, h₄, h₅, h₆, h₇, h₈, h₉⟩ := hkeys
  obtain ⟨-, hmessage, -, hkey, -, htrace, -, hstage, -, -, -, htenant, -, -, -, htime, -⟩ :=
    hscalar
  have hint := toInt64_ofInt hid.1 hid.2
  have hattempt' := toInt64_ofInt hattempt.1 hattempt.2
  have hstr : ∀ s : String, ofString (str s) = Python.str s := fun s => ofString_codes s.toList
  unfold envelopeValue
  simp only [ofValue, ofMembers, hstr, ofString_of_scalar hmessage, ofString_of_scalar hkey,
    ofString_of_scalar htrace, ofString_of_scalar hstage, ofString_of_scalar htenant,
    ofString_of_scalar htime]
  simp only [unmarshal, List.foldlM_cons, List.foldlM_nil, setMember, h₁, h₂, h₃, h₄, h₅, h₆, h₇,
    h₈, h₉, Option.bind_eq_bind, Option.bind_some, hint, hattempt', Option.map_some, hfits, if_true,
    List.nil_append, Option.pure_def]

theorem unmarshal_value (hid : e.documentId < 2 ^ 63) (hge : -2 ^ 63 ≤ e.attempt)
    (hlt : e.attempt < 2 ^ 63) (hchunks : e.payload.chunks = none) :
    unmarshal (some (ofValue (e.value spell publishedAt))) = some (e.raw spell publishedAt) := by
  have hcast : (e.documentId : Int) < 2 ^ 63 := by exact_mod_cast hid
  have hpos : -2 ^ 63 ≤ (e.documentId : Int) := by omega
  have hread : unmarshal (some (ofValue
      (envelopeValue (e.raw spell publishedAt) (.object (e.payload.members spell))))) =
        some (e.raw spell publishedAt) :=
    unmarshal_envelopeValue ⟨hpos, hcast⟩ ⟨hge, hlt⟩ Envelope.scalar_value (fitsAny_map hchunks)
  exact hread

/-- **Go reads a chunk envelope**, whoever wrote it. -/
theorem unmarshalText_print (style : Style) (hid : e.documentId < 2 ^ 63)
    (hge : -2 ^ 63 ≤ e.attempt) (hlt : e.attempt < 2 ^ 63) (hchunks : e.payload.chunks = none) :
    unmarshalText ((e.value spell publishedAt).print style) = some (e.raw spell publishedAt) := by
  unfold unmarshalText
  rw [Envelope.parse_print, Option.map_some, unmarshal_value hid hge hlt hchunks]

theorem marshal_of_toMembers {env : RawEnvelope} {members : List (Str × JsonText.Value)}
    (hne : env.payload ≠ []) (h : toMembers env.payload = some members) :
    marshal env = some ((envelopeValue env (.object members)).print style) := by
  unfold marshal
  split
  · exact absurd ‹env.payload = []› hne
  · rw [h, Option.map_some]

/-- `json.Marshal` writes an envelope with an object key. -/
theorem marshal_raw {k : ObjectKey} (hkey : e.payload = { objectKey := some k }) :
    marshal (e.raw spell publishedAt) = some ((e.value spell publishedAt).print style) := by
  have hmap : (e.raw spell publishedAt).payload =
      [(codes "object_key".toList, .string (codes (spell k)))] := by
    show e.payload.map spell = _
    rw [hkey]
    show [(ofString (codes "object_key".toList), Value.string (ofString (codes (spell k))))] = _
    rw [ofString_codes, ofString_codes]
  have hmembers : e.payload.members spell =
      [(codes "object_key".toList, .string (codes (spell k)))] := by
    rw [hkey]
    rfl
  rw [marshal_of_toMembers (by rw [hmap]; exact List.cons_ne_nil _ _) (by rw [hmap]; rfl)]
  unfold Envelope.value
  rw [hmembers]
  rfl

end Chunker
end DigitalCip

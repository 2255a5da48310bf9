import ExtensionHost.Client.Receive
import ExtensionHost.Proofs.Number.Value
import ExtensionHost.Proofs.Schema.Reading

namespace ExtensionHost

section Fields

variable {o body : Object} {field s : String} {v message : Json}

theorem SortedMap.present?_eq_some :
    o.present? field = some v ↔ o.get? field = some v ∧ v ≠ .null := by
  rw [present?, Option.filter_eq_some_iff]
  cases v <;> simp [Json.isNull]

theorem SortedMap.requiredString_eq_ok :
    o.requiredString field = .ok s ↔ o.nonemptyString? field = some s := by
  unfold requiredString nonemptyString? string? present?
  cases o.get? field with
  | none => simp
  | some v =>
    cases v with
    | string t => by_cases ht : t.isEmpty <;> simp [Json.isNull, Json.asString?, ht, Option.filter]
    | _ => simp [Json.isNull, Json.asString?, Option.filter]

theorem Json.body_eq_ok : message.body = .ok body ↔ message.asObject? = some body := by
  unfold Json.body
  cases message.asObject? <;> simp

theorem Method.ofName?_eq_some {m : Method} : ofName? s = some m ↔ s = m.name := by
  constructor
  · intro h
    have hname := List.find?_some h
    exact (beq_iff_eq.1 hname).symm
  · rintro rfl
    exact ofName?_name m

theorem ResourceState.isSome_ofName? :
    (ofName? s).isSome ↔ ∃ state : ResourceState, state.name = s := by
  constructor
  · intro h
    obtain ⟨state, hstate⟩ := Option.isSome_iff_exists.1 h
    have hname := List.find?_some hstate
    exact ⟨state, beq_iff_eq.1 hname⟩
  · rintro ⟨state, rfl⟩
    cases state <;> decide

end Fields

theorem CommandResponse.decodeId_eq_ok {body : Object} {id : UInt64} :
    decodeId body = .ok id ↔
      ∃ n, body.get? "id" = some (.number n) ∧ idOfNumber? n = some id := by
  unfold decodeId SortedMap.present?
  cases body.get? "id" with
  | none => simp
  | some v =>
    cases v with
    | number n => cases hid : idOfNumber? n <;> simp [Json.isNull, Option.filter, hid]
    | _ => simp [Json.isNull, Option.filter]

theorem EventMessage.isOk_decodePayload {body : Object} :
    (∃ payload, decodePayload body = .ok payload) ↔
      ∀ v, body.present? "payload" = some v → (v.asObject?).isSome := by
  unfold decodePayload
  cases body.present? "payload" with
  | none => simp
  | some v => cases hv : v.asObject? <;> simp [hv]

theorem LiveUpdate.decodeOperations_eq_ok {body : Object} {operations : List Json} :
    decodeOperations body = .ok operations ↔ body.get? "operations" = some (.array operations) := by
  unfold decodeOperations SortedMap.present?
  cases body.get? "operations" with
  | none => simp
  | some v => cases v <;> simp [Json.isNull, Option.filter]

section Decoding

variable {message : Json} {body : Object} (hbody : message.asObject? = some body)

include hbody

theorem RegisterSuccess.decode_eq_ok {r : RegisterSuccess} :
    decode message = .ok r ↔ body.nonemptyString? "token" = some r.token ∧
      body.present? "schema" = some r.schema ∧
      (body.get? "environment").bind Json.asObject? = r.environment := by
  simp only [decode, bind_eq_ok, Json.body_eq_ok, hbody, Option.some.injEq, exists_eq_left',
    SortedMap.requiredString_eq_ok]
  constructor
  · rintro ⟨token, htoken, h⟩
    split at h
    · exact (throw_ne_ok h).elim
    · rename_i schema hschema
      cases h
      exact ⟨htoken, hschema, rfl⟩
  · rintro ⟨htoken, hschema, henvironment⟩
    refine ⟨_, htoken, ?_⟩
    simp only [hschema, henvironment]
    rfl

theorem CommandResponse.decode_eq_ok {method : Method} {r : CommandResponse} :
    decode method message = .ok r ↔ decodeId body = .ok r.id ∧
      (method == .commandSuccess) = r.success ∧ body.present? "result" = r.result := by
  simp only [decode, bind_eq_ok, Json.body_eq_ok, hbody, Option.some.injEq, exists_eq_left',
    pure_eq_ok]
  constructor
  · rintro ⟨id, hid, rfl⟩
    exact ⟨hid, rfl, rfl⟩
  · rintro ⟨hid, hsuccess, hresult⟩
    exact ⟨r.id, hid, by rw [hsuccess, hresult]⟩

theorem EventMessage.decode_eq_ok {e : EventMessage} :
    decode message = .ok e ↔ body.nonemptyString? "name" = some e.name ∧
      body.nonemptyString? "target" = some e.target ∧ decodePayload body = .ok e.payload ∧
      body.string? "resourceId" = e.resourceId := by
  simp only [decode, bind_eq_ok, Json.body_eq_ok, hbody, Option.some.injEq, exists_eq_left',
    SortedMap.requiredString_eq_ok, pure_eq_ok]
  constructor
  · rintro ⟨name, hname, target, htarget, payload, hpayload, rfl⟩
    exact ⟨hname, htarget, hpayload, rfl⟩
  · rintro ⟨hname, htarget, hpayload, hid⟩
    exact ⟨_, hname, _, htarget, _, hpayload, by rw [hid]⟩

theorem LiveUpdate.decode_eq_ok {u : LiveUpdate} :
    decode message = .ok u ↔ body.nonemptyString? "name" = some u.name ∧
      body.nonemptyString? "target" = some u.target ∧
      body.get? "operations" = some (.array u.operations) := by
  simp only [decode, bind_eq_ok, Json.body_eq_ok, hbody, Option.some.injEq, exists_eq_left',
    SortedMap.requiredString_eq_ok, decodeOperations_eq_ok, pure_eq_ok]
  constructor
  · rintro ⟨name, hname, target, htarget, operations, hoperations, rfl⟩
    exact ⟨hname, htarget, hoperations⟩
  · rintro ⟨hname, htarget, hoperations⟩
    exact ⟨_, hname, _, htarget, _, hoperations, rfl⟩

theorem ComponentResponse.isOk_decode {method : Method} :
    (∃ r, decode method message = .ok r) ↔
      ∀ s, body.string? "state" = some s → ∃ state : ResourceState, state.name = s := by
  cases hs : body.string? "state" with
  | none =>
    simp [decode, bind_eq_ok, Json.body_eq_ok, hbody, hs, pure_eq_ok]
  | some s =>
    simp only [decode, bind_eq_ok, Json.body_eq_ok, hbody, hs, pure_eq_ok, decodeState,
      Option.some.injEq, exists_eq_left', forall_eq', ← ResourceState.isSome_ofName?]
    cases ResourceState.ofName? s <;> simp [Except.map]

end Decoding

namespace Client

variable {c : Client} {method : Method} {message : Json} {body : Object}

theorem methodOf_eq_ok (hbody : message.asObject? = some body) :
    c.methodOf message = .ok method ↔ body.string? "version" = some c.config.interfaceVersion ∧
      body.string? "method" = some method.name := by
  have hread : Envelope.read message = .ok ⟨body.string? "version", body.string? "method"⟩ := by
    simp [Envelope.read, Json.body, hbody, Except.map]
  have hversion : ∀ e : Envelope, e.checkVersion c.config.interfaceVersion = .ok () ↔
      e.version = some c.config.interfaceVersion := by
    intro e
    unfold Envelope.checkVersion
    split <;> simp [*]
  have hmethod : ∀ e : Envelope, e.requireMethod = .ok method ↔
      e.methodName = some method.name := by
    intro e
    unfold Envelope.requireMethod
    cases e.methodName with
    | none => simp
    | some name =>
      rw [Option.some.injEq, ← Method.ofName?_eq_some]
      cases hname : Method.ofName? name <;> simp [hname]
  simp only [methodOf, bind_eq_ok, hread, Except.ok.injEq, exists_eq_left', hversion, hmethod]
  exact ⟨fun ⟨_, hv, hm⟩ => ⟨hv, hm⟩, fun ⟨hv, hm⟩ => ⟨(), hv, hm⟩⟩

theorem asObject?_of_methodOf (h : c.methodOf message = .ok method) :
    ∃ body, message.asObject? = some body := by
  simp only [methodOf, bind_eq_ok] at h
  obtain ⟨envelope, henvelope, -⟩ := h
  cases hbody : message.asObject? with
  | some body => exact ⟨body, rfl⟩
  | none => simp [Envelope.read, Json.body, hbody, Except.map] at henvelope

end Client

namespace CommandResponse

theorem toNat_ofNat_min (k : ℕ) : (UInt64.ofNat (min k 0xffffffffffffffff)).toNat =
    min k (2 ^ 64 - 1) := by
  have hlt : min k 0xffffffffffffffff < UInt64.size := by
    rw [UInt64.size]
    omega
  rw [UInt64.toNat_ofNat_of_lt' hlt]
  omega

theorem ofNat_min_eq_iff {k : ℕ} {id : UInt64} :
    UInt64.ofNat (min k 0xffffffffffffffff) = id ↔ id.toNat = min k (2 ^ 64 - 1) := by
  rw [← UInt64.toNat_inj, toNat_ofNat_min, eq_comm]

/-- What is written as a negative integer is refused: it is rounded to a double, and the sign stays
with it. -/
theorem idOfNumber?_of_negative {n : ℤ} {h} (hn : n < 0) : idOfNumber? (.integer n h) = none := by
  have hword : (Number.integer n h).toUInt64? = none := if_neg (by omega)
  unfold idOfNumber?
  rw [hword]
  cases hd : (Number.integer n h).toBinary64 with
  | finite d =>
    obtain ⟨hsign, hzero⟩ := Binary64.ofInt_eq_finite hd
    have hnot : d.isZero = false := by
      by_contra hz
      have := hzero (by simpa using hz)
      omega
    simp [hsign, hnot, hn]
  | infinity | nan => rfl

theorem idOfNumber?_of_nonneg {n : ℤ} {h} (hn : 0 ≤ n) :
    idOfNumber? (.integer n h) = some (UInt64.ofNat n.toNat) := by
  have hword : (Number.integer n h).toUInt64? = some (UInt64.ofNat n.toNat) := if_pos hn
  unfold idOfNumber?
  rw [hword]

theorem idOfNumber?_double (d : Double) : idOfNumber? (.double d) =
    if 0 ≤ d.value ∧ d.isIntegral ∧ d.trunc ≤ 2 ^ 64 then
      some (UInt64.ofNat (min d.trunc.toNat 0xffffffffffffffff))
    else none := by
  have hsign : (d.isZero || !d.negative) = true ↔ 0 ≤ d.value := by
    simp [d.value_nonneg_iff]
  simp only [idOfNumber?, Number.toUInt64?, Number.toBinary64, hsign]
  rfl

/-- The numbers that stand for an id are the natural ones up to `2 ^ 64`. The last of them is one
too many and has to make do with the id below it. -/
theorem idOfNumber?_eq_some_iff {n : Number} {id : UInt64} : idOfNumber? n = some id ↔
    ∃ k : ℕ, n.value = k ∧ k ≤ 2 ^ 64 ∧ id.toNat = min k (2 ^ 64 - 1) := by
  cases n with
  | integer n h =>
    have hcast : ∀ k : ℕ, (Number.integer n h).value = k ↔ n = k := fun k => by
      simp only [Number.value]
      norm_cast
    simp only [hcast]
    rcases lt_or_ge n 0 with hn | hn
    · rw [idOfNumber?_of_negative hn]
      constructor
      · intro hnone
        cases hnone
      · rintro ⟨k, rfl, -⟩
        omega
    · obtain ⟨k, rfl⟩ := Int.eq_ofNat_of_zero_le hn
      have hmin : k = min k 0xffffffffffffffff := by omega
      rw [idOfNumber?_of_nonneg hn, Int.toNat_natCast, Option.some.injEq, hmin, ofNat_min_eq_iff,
        ← hmin]
      constructor
      · intro hid
        exact ⟨k, rfl, by omega, hid⟩
      · rintro ⟨j, hj, -, hid⟩
        obtain rfl : k = j := by exact_mod_cast hj
        exact hid
  | double d =>
    rw [idOfNumber?_double]
    constructor
    · intro hsome
      obtain ⟨⟨hsign, hintegral, hmax⟩, hid⟩ := Option.ite_none_right_eq_some.1 hsome
      have hvalue := (d.value_eq_intCast_iff d.trunc).2 ⟨hintegral, rfl⟩
      have hnonneg : 0 ≤ d.trunc := by
        rw [hvalue] at hsign
        exact_mod_cast hsign
      obtain ⟨k, hk⟩ := Int.eq_ofNat_of_zero_le hnonneg
      rw [hk, Int.toNat_natCast, Option.some.injEq, ofNat_min_eq_iff] at hid
      refine ⟨k, ?_, by omega, hid⟩
      rw [Number.value, hvalue, hk]
      rfl
    · rintro ⟨k, hvalue, hmax, hid⟩
      rw [Number.value] at hvalue
      obtain ⟨hintegral, htrunc⟩ := (d.value_eq_intCast_iff k).1 (by simpa using hvalue)
      have hsign : 0 ≤ d.value := hvalue ▸ Nat.cast_nonneg k
      rw [if_pos ⟨hsign, hintegral, by omega⟩, htrunc, Int.toNat_natCast, Option.some.injEq,
        ofNat_min_eq_iff]
      exact hid

theorem idOfNumber?_eq_some_iff_value {n : Number} {id : UInt64} : idOfNumber? n = some id ↔
    n.value = id.toNat ∨ n.value = 2 ^ 64 ∧ id.toNat = 2 ^ 64 - 1 := by
  have hid := id.toNat_lt
  rw [idOfNumber?_eq_some_iff]
  constructor
  · rintro ⟨k, hvalue, hmax, hk⟩
    rcases hmax.eq_or_lt with rfl | hlt
    · exact .inr ⟨by rw [hvalue]; norm_num, by omega⟩
    · exact .inl (by rw [hvalue, hk, Nat.min_eq_left (by omega)])
  · rintro (hvalue | ⟨hvalue, hk⟩)
    · exact ⟨id.toNat, hvalue, hid.le, by omega⟩
    · exact ⟨2 ^ 64, by rw [hvalue]; norm_num, le_rfl, by omega⟩

end CommandResponse

/-- The message answers command `id` with the result. A number counts as an id by its value, however
it is written, and `2 ^ 64` as the largest id. A null result is none. -/
structure CommandAnswer (message : Json) (id : UInt64) (result : Option Json) : Prop where
  method : message.fields.string? "method" = some "CommandSuccess" ∨
    message.fields.string? "method" = some "CommandFailure"
  id : ∃ n, message.fields.get? "id" = some (.number n) ∧
    (n.value = id.toNat ∨ n.value = 2 ^ 64 ∧ id.toNat = 2 ^ 64 - 1)
  result : ∀ v, result = some v ↔ message.fields.get? "result" = some v ∧ v ≠ .null

/-- The message of the extension raises the event. -/
structure RaisedEvent (message : Json) (uri : String) (schema : Schema) (e : Event) : Prop where
  name : message.fields.string? "name" = some e.name
  uri : e.uri = uri
  payload : e.payload = ((message.fields.get? "payload").bind Json.asObject?).getD .empty
  mode : ∃ mode, schema.eventMode? e.name = some mode ∧ (e.fast = true ↔ mode = .fast)
  resourceId : e.resourceId = message.fields.string? "resourceId"

/-- What an operation says in its fields. -/
structure Operation.Reads (operation : Json) (op : Operation) : Prop where
  kind : operation.fields.string? "type" = some op.kind.name
  key : op.key = operation.fields.nonemptyString? "key"
  index : ∀ i, op.index = some i ↔
    ∃ n, operation.fields.get? "index" = some (.number n) ∧ n.toClampedInt = i
  item : ∀ v, op.item = some v ↔ operation.fields.get? "item" = some v ∧ v ≠ .null
  count : ∀ i, op.count = some i ↔
    ∃ n, operation.fields.get? "count" = some (.number n) ∧ n.toClampedInt = i

section Readings

variable {c : Client} {method : Method} {message operation : Json} {op : Operation}

theorem Method.name_eq_iff {m m' : Method} : m.name = m'.name ↔ m = m' := by
  rw [← ofName?_eq_some, ofName?_name, Option.some.injEq]

theorem OperationKind.ofName?_eq_some {s : String} {k : OperationKind} :
    ofName? s = some k ↔ s = k.name := by
  constructor
  · intro h
    have hname := List.find?_some h
    exact (beq_iff_eq.1 hname).symm
  · rintro rfl
    cases k <;> decide

theorem SortedMap.present?_eq_iff {o : Object} {field : String} {v : Option Json} :
    o.present? field = v ↔ ∀ w, v = some w ↔ o.get? field = some w ∧ w ≠ .null := by
  constructor
  · rintro rfl w
    exact present?_eq_some
  · intro h
    exact Option.ext fun w => present?_eq_some.trans (h w).symm

theorem SortedMap.integer?_eq_iff {o : Object} {field : String} {i : Option Int} :
    (o.get? field).bind Operation.integer? = i ↔
      ∀ j, i = some j ↔ ∃ n, o.get? field = some (.number n) ∧ n.toClampedInt = j := by
  have hsome : ∀ j, (o.get? field).bind Operation.integer? = some j ↔
      ∃ n, o.get? field = some (.number n) ∧ n.toClampedInt = j := by
    intro j
    rw [Option.bind_eq_some_iff]
    constructor
    · rintro ⟨v, hv, hj⟩
      cases v with
      | number n => exact ⟨n, hv, Option.some.inj hj⟩
      | _ => cases hj
    · rintro ⟨n, hn, rfl⟩
      exact ⟨_, hn, rfl⟩
  constructor
  · rintro rfl j
    exact hsome j
  · intro h
    exact Option.ext fun j => (hsome j).trans (h j).symm

theorem commandAnswer_iff (hm : c.methodOf message = .ok method) {id : UInt64}
    {result : Option Json} : CommandAnswer message id result ↔
      (method = .commandSuccess ∨ method = .commandFailure) ∧
        ∃ r, CommandResponse.decode method message = .ok r ∧ r.id = id ∧ r.result = result := by
  obtain ⟨body, hbody⟩ := Client.asObject?_of_methodOf hm
  have hname := ((Client.methodOf_eq_ok hbody).1 hm).2
  have hfields := Json.fields_of_asObject? hbody
  have hmethod : ∀ m : Method, message.fields.string? "method" = some m.name ↔ method = m := by
    intro m
    rw [hfields, hname, Option.some.injEq, Method.name_eq_iff]
  simp only [CommandResponse.decode_eq_ok hbody, CommandResponse.decodeId_eq_ok,
    CommandResponse.idOfNumber?_eq_some_iff_value, ← hfields]
  constructor
  · intro h
    refine ⟨h.method.imp (hmethod .commandSuccess).1 (hmethod .commandFailure).1,
      ⟨id, method == .commandSuccess, result⟩, ⟨h.id, rfl, ?_⟩, rfl, rfl⟩
    exact SortedMap.present?_eq_iff.2 h.result
  · rintro ⟨hanswer, r, ⟨hid, -, hresult⟩, rfl, rfl⟩
    exact ⟨hanswer.imp (hmethod .commandSuccess).2 (hmethod .commandFailure).2, hid,
      SortedMap.present?_eq_iff.1 hresult⟩

theorem EventMessage.decodePayload_eq {body payload : Object}
    (h : decodePayload body = .ok payload) :
    payload = ((body.get? "payload").bind Json.asObject?).getD .empty := by
  unfold decodePayload at h
  split at h
  · rename_i hnone
    cases h
    cases hget : body.get? "payload" with
    | none => rfl
    | some v =>
      -- What is there and does not count is null.
      cases v <;> simp_all [SortedMap.present?, Json.isNull, Option.filter, Json.asObject?]
  · rename_i v hv
    rw [(SortedMap.present?_eq_some.1 hv).1]
    split at h
    · rename_i o ho
      cases h
      simp [ho]
    · cases h

theorem raisedEvent_of_decode {e : EventMessage} (he : EventMessage.decode message = .ok e)
    (uri : String) {schema : Schema} {mode : EventMode}
    (hmode : schema.eventMode? e.name = some mode) :
    RaisedEvent message uri schema ⟨uri, e.name, e.payload, mode == .fast, e.resourceId⟩ := by
  obtain ⟨body, hbody, -⟩ := bind_eq_ok.1 he
  rw [Json.body_eq_ok] at hbody
  obtain ⟨hname, -, hpayload, hresource⟩ := (EventMessage.decode_eq_ok hbody).1 he
  have hfields := Json.fields_of_asObject? hbody
  refine ⟨?_, rfl, ?_, ⟨mode, hmode, ?_⟩, ?_⟩
  · rw [hfields]
    exact (Option.filter_eq_some_iff.1 hname).1
  · rw [hfields]
    exact EventMessage.decodePayload_eq hpayload
  · exact beq_iff_eq
  · rw [hfields, hresource]

theorem Operation.decodeKind_eq_ok {body : Object} {kind : OperationKind} :
    decodeKind body = .ok kind ↔ body.string? "type" = some kind.name := by
  unfold decodeKind SortedMap.present? SortedMap.string?
  cases body.get? "type" with
  | none => simp
  | some v =>
    cases v with
    | string name =>
      cases hname : OperationKind.ofName? name with
      | none =>
        have hno : ∀ k, name ≠ OperationKind.name k := fun k hk => by
          rw [OperationKind.ofName?_eq_some.2 hk] at hname
          cases hname
        simp [Json.isNull, Json.asString?, Option.filter, hname, hno]
      | some k =>
        obtain rfl := OperationKind.ofName?_eq_some.1 hname
        simp [Json.isNull, Json.asString?, Option.filter, hname, ← OperationKind.ofName?_eq_some]
    | _ => simp [Json.isNull, Json.asString?, Option.filter]

theorem Operation.decode_eq_ok_iff : decode operation = .ok op ↔ Reads operation op := by
  have hbody : operation.body = .ok operation.fields ∨ operation.fields = .empty := by
    unfold Json.body
    cases ho : operation.asObject? with
    | none => exact .inr (Json.fields_of_asObject?_eq_none ho)
    | some o => exact .inl (by rw [Json.fields_of_asObject? ho])
  constructor
  · intro h
    obtain ⟨body, hfields, h⟩ := bind_eq_ok.1 h
    obtain ⟨kind, hkind, h⟩ := bind_eq_ok.1 h
    cases h
    rw [Json.body_eq_ok] at hfields
    rw [← Json.fields_of_asObject? hfields] at hkind ⊢
    exact ⟨decodeKind_eq_ok.1 hkind, rfl, SortedMap.integer?_eq_iff.1 rfl,
      SortedMap.present?_eq_iff.1 rfl, SortedMap.integer?_eq_iff.1 rfl⟩
  · intro h
    rcases hbody with hbody | hempty
    · rw [decode, hbody]
      simp only [bind, Except.bind, decodeKind_eq_ok.2 h.kind, ← h.key,
        SortedMap.integer?_eq_iff.2 h.index, SortedMap.present?_eq_iff.2 h.item,
        SortedMap.integer?_eq_iff.2 h.count]
      rfl
    · -- Without fields there is no kind either.
      have hkind := h.kind
      rw [hempty] at hkind
      cases hkind

end Readings

end ExtensionHost

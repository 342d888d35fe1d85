import IeumChain.RlpDecoding
import IeumChain.StandIn

/-!
# Other encodings of a raw transaction

The decoder takes long headers for short items and numbers with leading zeros, and the
signature is checked over the shortest encoding of the values it has read. The identifier of
the transaction is made from the bytes as they came. Everybody can therefore rewrite a signed
raw transaction, and only the form of the items tells two encodings of it apart.
-/
namespace IeumChain.RawTransaction

open ByteCodec Text Outcome MachineWords

/-! ## Values and forms -/

/-- The values of the nine fields; the scalars are padded. -/
structure LegacyValues where
  nonce : ℕ
  gasPrice : ℕ
  gasLimit : ℕ
  receiver : Bytes
  amount : ℕ
  data : Bytes
  v : ℕ
  r : Bytes
  s : Bytes
  deriving Repr, DecidableEq

def fieldValues : List Bytes → Except String LegacyValues
  | [f0, f1, f2, f3, f4, f5, f6, f7, f8] => do
      let nonce ← valueU64 f0 "nonce"
      let gasPrice ← valueU64 f1 "gasPrice"
      let gasLimit ← valueU64 f2 "gasLimit"
      let amount ← valueU128 f4 "value"
      let v ← valueU64 f6 "v"
      let r ← paddedScalar f7 "r"
      let s ← paddedScalar f8 "s"
      pure { nonce, gasPrice, gasLimit, receiver := f3, amount, data := f5, v, r, s }
  | _ => .error "v0.0.4는 EIP-155 legacy RLP 거래만 지원합니다."

theorem nine_of_fieldValues {fields : List Bytes} {values : LegacyValues}
    (h : fieldValues fields = .ok values) :
    ∃ f0 f1 f2 f3 f4 f5 f6 f7 f8, fields = [f0, f1, f2, f3, f4, f5, f6, f7, f8] := by
  unfold fieldValues at h
  split at h
  · exact ⟨_, _, _, _, _, _, _, _, _, rfl⟩
  · cases h

def itemForms : ℕ → Bytes → List (UInt8 × ℕ)
  | turns + 1, b :: bytes =>
      match decodeItem (b :: bytes) false with
      | .ok (_, size) => (b, size) :: itemForms turns ((b :: bytes).drop size)
      | .error _ => []
  | _, _ => []

/-- The first byte of the list and of each of its items, and how many bytes they take. -/
def forms (raw : Bytes) : List (UInt8 × ℕ) :=
  match raw, decodeItem raw true with
  | b :: _, .ok (payload, size) => (b, size) :: itemForms payload.length payload
  | _, _ => []

section
variable [Crypto]

/-- What the values of the fields are good for, whatever their encoding was. -/
def acceptValues (values : LegacyValues) (expectedChainId : ℕ) : Except String Transaction := do
  reject (values.receiver.length ≠ 20) "현재는 20바이트 수신 주소 송금만 지원합니다."
  let action ← decodeAction values.receiver values.data
  reject (values.v < 35) "EIP-155 체인 ID가 없는 거래는 재생 공격 방지를 위해 거부합니다."
  let chainId := (values.v - 35) / 2
  reject (chainId ≠ expectedChainId)
    ("체인 ID 불일치: 기대 " ++ decimal expectedChainId ++ ", 입력 " ++ decimal chainId)
  reject (¬Crypto.secp256k1SignatureValid (values.r ++ values.s)) "ECDSA r/s가 잘못되었습니다."
  let signing := encodeList [encodeU64 values.nonce, encodeU64 values.gasPrice,
    encodeU64 values.gasLimit, encodeBytes values.receiver, encodeU128 values.amount,
    encodeBytes values.data, encodeU64 chainId, encodeBytes [], encodeBytes []]
  let key ← okOr (Crypto.secp256k1Recover (Crypto.keccak256 signing) (values.r ++ values.s)
      ((values.v - 35) % 2)) "raw transaction 서명에서 공개키를 복구하지 못했습니다."
  let fee ← okOr (checkedMul u128Max values.gasPrice values.gasLimit)
    "gasPrice와 gasLimit의 곱이 u128 범위를 넘습니다."
  pure
    { sender := ethereumAddress key, receiver := "0x" ++ hexEncode values.receiver
      amount := values.amount, fee, nonce := values.nonce, action, signature := "" }

/-- The bytes as they came are only in the signature. -/
theorem decodeFields_eq_ok {raw : Bytes} {fields : List Bytes} {chainId : ℕ} {tx : Transaction} :
    decodeFields raw fields chainId = .ok tx ↔
      ∃ values tx₀, fieldValues fields = .ok values ∧ acceptValues values chainId = .ok tx₀ ∧
        { tx₀ with signature := ethrawMarker ++ hexEncode raw } = tx := by
  unfold decodeFields
  split
  · simp only [fieldValues, bind_eq_ok, exists_const, reject_eq_ok, not_not, pure_eq_ok, acceptValues]
    constructor
    · rintro ⟨nonce, hnonce, gasPrice, hgasPrice, gasLimit, hgasLimit, hreceiver, amount, hamount,
        action, haction, v, hv, hlow, hchain, r, hr, s, hs, hvalid, key, hkey, fee, hfee, rfl⟩
      exact ⟨_, _, ⟨nonce, hnonce, gasPrice, hgasPrice, gasLimit, hgasLimit, amount, hamount, v, hv,
        r, hr, s, hs, rfl⟩, ⟨hreceiver, action, haction, hlow, hchain, hvalid, key, hkey, fee, hfee,
        rfl⟩, rfl⟩
    · rintro ⟨values, tx₀, ⟨nonce, hnonce, gasPrice, hgasPrice, gasLimit, hgasLimit, amount, hamount,
        v, hv, r, hr, s, hs, rfl⟩, ⟨hreceiver, action, haction, hlow, hchain, hvalid, key, hkey, fee,
        hfee, rfl⟩, rfl⟩
      exact ⟨nonce, hnonce, gasPrice, hgasPrice, gasLimit, hgasLimit, hreceiver, amount, hamount,
        action, haction, v, hv, hlow, hchain, r, hr, s, hs, hvalid, key, hkey, fee, hfee, rfl⟩
  · rename_i hnot
    constructor
    · intro h
      cases h
    · rintro ⟨values, tx₀, h, -⟩
      obtain ⟨f0, f1, f2, f3, f4, f5, f6, f7, f8, hnine⟩ := nine_of_fieldValues h
      exact (hnot _ _ _ _ _ _ _ _ _ hnine).elim

/-- The bytes are decoded to these values and this transaction. -/
structure Accepted (raw : Bytes) (chainId : ℕ) (values : LegacyValues) (tx : Transaction) :
    Prop where
  decoded : decodeLegacy (hexEncode raw) chainId = .ok tx
  values : (decodeList raw >>= fieldValues) = .ok values

theorem accepted_iff {raw : Bytes} {chainId : ℕ} {values : LegacyValues} {tx : Transaction} :
    Accepted raw chainId values tx ↔
      ∃ fields tx₀, decodeList raw = .ok fields ∧ fieldValues fields = .ok values ∧
        acceptValues values chainId = .ok tx₀ ∧
        { tx₀ with signature := ethrawMarker ++ hexEncode raw } = tx := by
  have hdecode : decodeLegacy (hexEncode raw) chainId = .ok tx ↔
      ∃ fields, decodeList raw = .ok fields ∧ decodeFields raw fields chainId = .ok tx := by
    simp only [decodeLegacy, trimHexMarkers_hexEncode, hexDecode_hexEncode, bind_eq_ok, okOr_eq_ok,
      Option.some.injEq, exists_eq_left']
  constructor
  · rintro ⟨hdecoded, hvalues⟩
    obtain ⟨fields, hfields, hdecoded⟩ := hdecode.1 hdecoded
    obtain ⟨values', tx₀, hvalues', haccept, rfl⟩ := decodeFields_eq_ok.1 hdecoded
    rw [hfields, bind_eq_ok] at hvalues
    obtain ⟨fields', heq, hvalues⟩ := hvalues
    cases heq
    cases hvalues.symm.trans hvalues'
    exact ⟨fields, tx₀, hfields, hvalues', haccept, rfl⟩
  · rintro ⟨fields, tx₀, hfields, hvalues, haccept, rfl⟩
    exact ⟨hdecode.2 ⟨fields, hfields, decodeFields_eq_ok.2 ⟨values, tx₀, hvalues, haccept, rfl⟩⟩,
      bind_eq_ok.2 ⟨fields, hfields, hvalues⟩⟩

end

/-! ## Forms determine the encoding -/

/-- What the first byte says about an item. -/
theorem Header.first_byte {l : Bool} {header value : Bytes} {first : UInt8}
    (h : Header l header value) (hfirst : (header ++ value).head? = some first) :
    (first.toNat ≤ 0x7f ∧ header = [] ∧ value.length = 1) ∨
      (first.toNat = shortBase l + value.length ∧ value.length ≤ 55 ∧ header = [first]) ∨
      ∃ lengthBytes, first.toNat = longBase l + lengthBytes.length ∧ 0 < lengthBytes.length ∧
        lengthBytes.length ≤ 8 ∧ header = first :: lengthBytes ∧
        beValue lengthBytes = value.length := by
  have hbase : shortBase l ≤ 0xc0 ∧ longBase l ≤ 0xf7 := by
    cases l <;> simp [shortBase, longBase]
  cases h with
  | single hlist hb =>
      cases hfirst
      exact .inl ⟨hb, rfl, rfl⟩
  | short hshort =>
      cases hfirst
      exact .inr (.inl ⟨toNat_ofNat_lt (by omega), hshort, rfl⟩)
  | long hpos hle hvalue =>
      cases hfirst
      exact .inr (.inr ⟨_, toNat_ofNat_lt (by omega), hpos, hle, rfl, hvalue⟩)

/-- The first byte and the length of an item determine its header. -/
theorem Header.eq_of_form {l : Bool} {header header' value value' : Bytes} {first : UInt8}
    (h : Header l header value) (h' : Header l header' value')
    (hfirst : (header ++ value).head? = some first)
    (hfirst' : (header' ++ value').head? = some first)
    (hlength : header.length + value.length = header'.length + value'.length) :
    header = header' ∧ value.length = value'.length := by
  have hbase : 0x80 ≤ shortBase l ∧ longBase l = shortBase l + 55 := by
    cases l <;> simp [shortBase, longBase]
  rcases h.first_byte hfirst with ⟨hb, rfl, hv⟩ | ⟨hb, hle, rfl⟩ | ⟨bytes, hb, hpos, -, rfl, hv⟩ <;>
    rcases h'.first_byte hfirst' with
      ⟨hb', rfl, hv'⟩ | ⟨hb', hle', rfl⟩ | ⟨bytes', hb', hpos', -, rfl, hv'⟩
  · exact ⟨rfl, hv.trans hv'.symm⟩
  · omega
  · omega
  · omega
  · exact ⟨rfl, by omega⟩
  · omega
  · omega
  · omega
  · have hwidth : bytes.length = bytes'.length := by omega
    rw [List.length_cons, List.length_cons, hwidth] at hlength
    have hvalue : value.length = value'.length := by omega
    rw [beValue_inj hwidth (hv.trans (hvalue.trans hv'.symm))]
    exact ⟨rfl, hvalue⟩

theorem itemForms_nil (turns : ℕ) : itemForms turns [] = [] := by
  cases turns <;> rfl

theorem itemForms_cons {header value rest : Bytes} {turns : ℕ} (h : Header false header value)
    (hturns : (header ++ value ++ rest).length ≤ turns)
    (hword : (header ++ value ++ rest).length ≤ u64Max) :
    ∃ first turns', (header ++ value).head? = some first ∧ rest.length ≤ turns' ∧
      rest.length ≤ u64Max ∧ itemForms turns (header ++ value ++ rest) =
        (first, header.length + value.length) :: itemForms turns' rest := by
  have hpos := h.pos
  obtain ⟨first, tail, hitem⟩ : ∃ first tail, header ++ value = first :: tail :=
    List.exists_cons_of_length_pos (by rw [List.length_append]; omega)
  rw [List.length_append, List.length_append] at hword hturns
  obtain ⟨turns', rfl⟩ : ∃ turns', turns = turns' + 1 := ⟨turns - 1, by omega⟩
  have hdecode : decodeItem (header ++ value ++ rest) false =
      .ok (value, header.length + value.length) :=
    decodeItem_eq_ok.2 ⟨header, rest, h, rfl, rfl, by omega⟩
  have hdrop : (header ++ value ++ rest).drop (header.length + value.length) = rest := by
    rw [← List.length_append, List.drop_left]
  refine ⟨first, turns', by rw [hitem]; rfl, by omega, by omega, ?_⟩
  rw [hitem, List.cons_append] at hdecode hdrop ⊢
  rw [itemForms, hdecode]
  simp only [hdrop]

/-- Items of the same forms have fields of the same lengths, and are the same if these are. -/
theorem Items.eq_of_forms {payload payload' : Bytes} {fields fields' : List Bytes}
    {turns turns' : ℕ} (h : Items payload fields) (h' : Items payload' fields')
    (hturns : payload.length ≤ turns) (hturns' : payload'.length ≤ turns')
    (hword : payload.length ≤ u64Max) (hword' : payload'.length ≤ u64Max)
    (hforms : itemForms turns payload = itemForms turns' payload') :
    fields.map List.length = fields'.map List.length ∧ (fields = fields' → payload = payload') := by
  induction h generalizing payload' fields' turns turns' with
  | nil =>
      cases h' with
      | nil => exact ⟨rfl, fun _ => rfl⟩
      | cons first' later' =>
          obtain ⟨b', rest', -, -, -, hcons'⟩ := itemForms_cons first' hturns' hword'
          rw [itemForms_nil, hcons'] at hforms
          cases hforms
  | @cons header value rest values first later ih =>
      obtain ⟨b, left, hfirst, hleft, hbytes, hcons⟩ := itemForms_cons first hturns hword
      cases h' with
      | nil =>
          rw [itemForms_nil, hcons] at hforms
          cases hforms
      | @cons header' value' rest' values' first' later' =>
          obtain ⟨b', left', hfirst', hleft', hbytes', hcons'⟩ :=
            itemForms_cons first' hturns' hword'
          rw [hcons, hcons', List.cons.injEq, Prod.mk.injEq] at hforms
          obtain ⟨⟨rfl, hlength⟩, hforms⟩ := hforms
          obtain ⟨rfl, hvalue⟩ := first.eq_of_form first' hfirst hfirst' hlength
          obtain ⟨hlengths, hsame⟩ := ih later' hleft hleft' hbytes hbytes' hforms
          rw [List.map_cons, List.map_cons, hvalue, hlengths]
          refine ⟨rfl, fun heq => ?_⟩
          obtain ⟨rfl, hvalues⟩ := List.cons.inj heq
          rw [hsame hvalues]

/-- The same for the list around the items. -/
theorem eq_of_forms {raw raw' : Bytes} {fields fields' : List Bytes}
    (hword : raw.length ≤ u64Max) (hword' : raw'.length ≤ u64Max)
    (h : decodeList raw = .ok fields) (h' : decodeList raw' = .ok fields')
    (hforms : forms raw = forms raw') :
    fields.map List.length = fields'.map List.length ∧ (fields = fields' → raw = raw') := by
  have hsplit : ∀ {bytes : Bytes} {fields : List Bytes}, bytes.length ≤ u64Max →
      decodeList bytes = .ok fields → ∃ header payload first, Header true header payload ∧
        bytes = header ++ payload ∧ Items payload fields ∧ payload.length ≤ u64Max ∧
        (header ++ payload).head? = some first ∧ forms bytes =
          (first, header.length + payload.length) :: itemForms payload.length payload := by
    intro bytes fields hword hdecode
    obtain ⟨header, payload, hheader, rfl, hitems⟩ := (decodeList_eq_ok hword).1 hdecode
    have hpos := hheader.pos
    rw [List.length_append] at hword
    have hitem : decodeItem (header ++ payload) true =
        .ok (payload, header.length + payload.length) :=
      decodeItem_eq_ok.2 ⟨header, [], hheader, (List.append_nil _).symm, rfl, hword⟩
    obtain ⟨first, tail, hcons⟩ : ∃ first tail, header ++ payload = first :: tail :=
      List.exists_cons_of_length_pos (by rw [List.length_append]; omega)
    refine ⟨header, payload, first, hheader, rfl, hitems, by omega, by rw [hcons]; rfl, ?_⟩
    rw [hcons] at hitem ⊢
    simp only [forms, hitem]
  obtain ⟨header, payload, first, hheader, rfl, hitems, hbytes, hfirst, heq⟩ := hsplit hword h
  obtain ⟨header', payload', first', hheader', rfl, hitems', hbytes', hfirst', heq'⟩ :=
    hsplit hword' h'
  rw [heq, heq', List.cons.injEq, Prod.mk.injEq] at hforms
  obtain ⟨⟨rfl, hlength⟩, hforms⟩ := hforms
  obtain ⟨rfl, -⟩ := hheader.eq_of_form hheader' hfirst hfirst' hlength
  obtain ⟨hlengths, hsame⟩ := hitems.eq_of_forms hitems' le_rfl le_rfl hbytes hbytes' hforms
  exact ⟨hlengths, fun heq => by rw [hsame heq]⟩

theorem valueNat_inj {width n : ℕ} {word name name' : String} {a b : Bytes}
    (hlength : a.length = b.length) (ha : valueNat width word a name = .ok n)
    (hb : valueNat width word b name' = .ok n) : a = b := by
  simp only [valueNat, bind_eq_ok, exists_const, reject_eq_ok, pure_eq_ok] at ha hb
  exact beValue_inj hlength (ha.2.trans hb.2.symm)

theorem paddedScalar_inj {name name' : String} {a b r : Bytes} (hlength : a.length = b.length)
    (ha : paddedScalar a name = .ok r) (hb : paddedScalar b name' = .ok r) : a = b := by
  simp only [paddedScalar, bind_eq_ok, exists_const, reject_eq_ok, pure_eq_ok] at ha hb
  obtain ⟨-, rfl⟩ := ha
  obtain ⟨-, hb⟩ := hb
  exact (List.append_inj hb (by rw [hlength])).2.symm

/-- Fields of the same lengths with the same values are the same. -/
theorem fieldValues_inj {fields fields' : List Bytes} {values : LegacyValues}
    (hlengths : fields.map List.length = fields'.map List.length)
    (h : fieldValues fields = .ok values) (h' : fieldValues fields' = .ok values) :
    fields = fields' := by
  unfold fieldValues at h h'
  split at h
  · split at h'
    · simp only [bind_eq_ok, pure_eq_ok] at h h'
      obtain ⟨nonce, hnonce, gasPrice, hgasPrice, gasLimit, hgasLimit, amount, hamount, v, hv, r, hr,
        s, hs, rfl⟩ := h
      obtain ⟨nonce', hnonce', gasPrice', hgasPrice', gasLimit', hgasLimit', amount', hamount', v',
        hv', r', hr', s', hs', heq⟩ := h'
      cases heq
      simp only [List.map_cons, List.map_nil, List.cons.injEq, and_true] at hlengths
      obtain ⟨h0, h1, h2, -, h4, -, h6, h7, h8⟩ := hlengths
      rw [valueNat_inj h0 hnonce hnonce', valueNat_inj h1 hgasPrice hgasPrice',
        valueNat_inj h2 hgasLimit hgasLimit', valueNat_inj h4 hamount hamount',
        valueNat_inj h6 hv hv', paddedScalar_inj h7 hr hr', paddedScalar_inj h8 hs hs']
    · cases h'
  · cases h

/-! ## Every accepted encoding has another one -/

/-- Another header for a short field. -/
theorem exists_other_header (header : Bytes) {value : Bytes} (hvalue : value.length ≤ 55) :
    ∃ header', Header false header' value ∧ header' ≠ header ∧ header'.length ≤ 9 := by
  have hlong : Header false (UInt8.ofNat (longBase false + (beBytes 8 value.length).length) ::
      beBytes 8 value.length) value :=
    .long (by simp) (by simp) (beValue_beBytes (by norm_num; omega))
  by_cases hheader : header = [UInt8.ofNat (shortBase false + value.length)]
  · refine ⟨_, hlong, ?_, by simp⟩
    rw [hheader]
    intro heq
    have hlength := congrArg List.length heq
    simp at hlength
  · exact ⟨_, .short hvalue, Ne.symm hheader, by simp⟩

/-- The first field can be written in another way, and the list around it. -/
theorem exists_other_encoding {raw f : Bytes} {fields : List Bytes} (hraw : raw.length < 2 ^ 63)
    (h : decodeList raw = .ok (f :: fields)) (hshort : f.length ≤ 55) :
    ∃ raw', raw' ≠ raw ∧ decodeList raw' = .ok (f :: fields) := by
  obtain ⟨header, payload, hheader, rfl, hitems⟩ := (decodeList_eq_ok (by unfold u64Max; omega)).1 h
  cases hitems with
  | @cons first _ rest _ hfirst hlater =>
      obtain ⟨first', hfirst', hne, hnine⟩ := exists_other_header first hshort
      rw [List.length_append, List.length_append, List.length_append] at hraw
      have hpayload : (first' ++ f ++ rest).length < 256 ^ 8 := by
        rw [List.length_append, List.length_append]
        norm_num
        omega
      have hlist : Header true (UInt8.ofNat (longBase true +
          (beBytes 8 (first' ++ f ++ rest).length).length) ::
            beBytes 8 (first' ++ f ++ rest).length) (first' ++ f ++ rest) :=
        .long (by simp) (by simp) (beValue_beBytes hpayload)
      have hword : (UInt8.ofNat (longBase true + (beBytes 8 (first' ++ f ++ rest).length).length) ::
          beBytes 8 (first' ++ f ++ rest).length ++ (first' ++ f ++ rest)).length ≤ u64Max := by
        simp only [List.length_append, List.length_cons, length_beBytes]
        unfold u64Max
        omega
      refine ⟨_, fun heq => hne ?_, (decodeList_eq_ok hword).2
        ⟨_, _, hlist, rfl, .cons hfirst' hlater⟩⟩
      -- The same bytes have one payload.
      have hitem := decodeItem_eq_ok.2 ⟨_, [], hheader, (List.append_nil _).symm, rfl,
        (by simp only [List.length_append]; unfold u64Max; omega)⟩
      have hitem' := decodeItem_eq_ok.2 ⟨_, [], hlist, (List.append_nil _).symm, rfl,
        List.length_append ▸ hword⟩
      rw [heq, hitem, Except.ok.injEq, Prod.mk.injEq] at hitem'
      exact (List.append_cancel_right (List.append_cancel_right hitem'.1)).symm

theorem exists_short_field {fields : List Bytes} {values : LegacyValues}
    (h : fieldValues fields = .ok values) :
    ∃ f rest, fields = f :: rest ∧ f.length ≤ 55 := by
  unfold fieldValues at h
  split at h
  · simp only [bind_eq_ok, valueU64, valueNat, reject_eq_ok] at h
    obtain ⟨-, ⟨-, hshort, -⟩, -⟩ := h
    exact ⟨_, _, rfl, by omega⟩
  · cases h

theorem signature_inj {a b : Bytes}
    (h : ethrawMarker ++ hexEncode a = ethrawMarker ++ hexEncode b) : a = b := by
  have hchars := congrArg String.toList h
  rw [String.toList_append, String.toList_append] at hchars
  exact hexEncode_injective (String.toList_inj.1 (List.append_cancel_left hchars))

section
variable [Crypto] {chainId : ℕ}

/-- Two accepted encodings of the same values are the same exactly if every item has the same
first byte and the same length in both; and every accepted encoding has another one, which gives
another transaction. -/
theorem encodings_equal_iff {raw raw' : Bytes} {values : LegacyValues} {tx tx' : Transaction}
    (hraw : raw.length < 2 ^ 63) (hraw' : raw'.length < 2 ^ 63)
    (h : Accepted raw chainId values tx) (h' : Accepted raw' chainId values tx') :
    (raw = raw' ↔ forms raw = forms raw') ∧ (tx = tx' ↔ forms raw = forms raw') ∧
      ∃ other, other ≠ raw ∧ ∃ tx₁, Accepted other chainId values tx₁ ∧ tx₁ ≠ tx ∧
        tx₁ = { tx with signature := ethrawMarker ++ hexEncode other } := by
  obtain ⟨fields, tx₀, hfields, hvalues, haccept, rfl⟩ := accepted_iff.1 h
  obtain ⟨fields', tx₀', hfields', hvalues', haccept', rfl⟩ := accepted_iff.1 h'
  cases haccept.symm.trans haccept'
  have hbytes : raw = raw' ↔ forms raw = forms raw' := by
    refine ⟨congrArg forms, fun hforms => ?_⟩
    obtain ⟨hlengths, hsame⟩ := eq_of_forms (by unfold u64Max; omega) (by unfold u64Max; omega)
      hfields hfields' hforms
    exact hsame (fieldValues_inj hlengths hvalues hvalues')
  refine ⟨hbytes, ?_, ?_⟩
  · rw [← hbytes]
    exact ⟨fun heq => signature_inj (congrArg Transaction.signature heq), fun heq => by rw [heq]⟩
  · obtain ⟨f, rest, rfl, hshort⟩ := exists_short_field hvalues
    obtain ⟨other, hne, hother⟩ := exists_other_encoding hraw hfields hshort
    exact ⟨other, hne, _, accepted_iff.2 ⟨_, tx₀, hother, hvalues, haccept, rfl⟩,
      fun heq => hne (signature_inj (congrArg Transaction.signature heq)), rfl⟩

end

end IeumChain.RawTransaction

/-! A transfer whose nonce zero is written as a zero byte instead of an empty text. -/

namespace IeumChain.Rewritten

open ByteCodec Text Outcome MachineWords RawTransaction

local instance rewrittenCrypto : Crypto := StandIn.crypto StandIn.digest

def receiver : Bytes := List.replicate 20 0x11

/-- Nonce, gas price, gas limit, receiver, value, no data, the chain and the signature. -/
def fields (nonce : Bytes) : List Bytes :=
  [nonce, [1], [0x52, 0x08], receiver, [5], [], [0xa4, 0x3d], [1], [2]]

def values : LegacyValues :=
  { nonce := 0, gasPrice := 1, gasLimit := 21000, receiver, amount := 5, data := [], v := 42045
    r := List.replicate 31 0 ++ [1], s := List.replicate 31 0 ++ [2] }

/-- The nonce stands before the last bytes. -/
def raw (nonce : UInt8) : Bytes :=
  0xe1 :: nonce :: ([1, 0x82, 0x52, 0x08, 0x94] ++ receiver ++ [5, 0x80, 0x82, 0xa4, 0x3d, 1, 2])

theorem decodeList_raw : decodeList (raw 0x80) = .ok (fields []) ∧
    decodeList (raw 0) = .ok (fields [0]) := by
  decide

theorem exists_accepted : ∃ tx₀, acceptValues values 21005 = .ok tx₀ := ⟨_, rfl⟩

theorem accepted_raw : ∃ tx tx', Accepted (raw 0x80) 21005 values tx ∧
    Accepted (raw 0) 21005 values tx' := by
  obtain ⟨tx₀, haccept⟩ := exists_accepted
  exact ⟨_, _, accepted_iff.2 ⟨_, tx₀, decodeList_raw.1, rfl, haccept, rfl⟩,
    accepted_iff.2 ⟨_, tx₀, decodeList_raw.2, rfl, haccept, rfl⟩⟩

/-- One signature, and two transactions. -/
theorem two_encodings : ∃ tx tx', Accepted (raw 0x80) 21005 values tx ∧
    Accepted (raw 0) 21005 values tx' ∧ raw 0x80 ≠ raw 0 ∧ tx ≠ tx' := by
  obtain ⟨tx, tx', h, h'⟩ := accepted_raw
  refine ⟨tx, tx', h, h', by decide, fun heq => ?_⟩
  obtain ⟨-, tx₀, -, -, -, rfl⟩ := accepted_iff.1 h
  obtain ⟨-, tx₀', -, -, -, rfl⟩ := accepted_iff.1 h'
  have hsame : raw 0x80 = raw 0 := signature_inj (congrArg Transaction.signature heq)
  exact absurd hsame (by decide)

theorem encodings_equal_iff_raw : ∃ tx tx',
    (raw 0x80 = raw 0 ↔ forms (raw 0x80) = forms (raw 0)) ∧
      (tx = tx' ↔ forms (raw 0x80) = forms (raw 0)) ∧
      ∃ other, other ≠ raw 0x80 ∧ ∃ tx₁, Accepted other 21005 values tx₁ ∧ tx₁ ≠ tx ∧
        tx₁ = { tx with signature := ethrawMarker ++ hexEncode other } := by
  obtain ⟨tx, tx', h, h'⟩ := accepted_raw
  exact ⟨tx, tx', encodings_equal_iff (by decide) (by decide) h h'⟩

end IeumChain.Rewritten

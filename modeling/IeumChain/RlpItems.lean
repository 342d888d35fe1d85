import IeumChain.RawTransaction

/-!
# RLP items

An item is a payload behind a header: nothing for a small byte, one byte that holds the
length, or one byte that holds the width of the length that follows. The decoder takes every
header that fits its payload, the encoder writes the shortest one.
-/
namespace IeumChain.RawTransaction

open ByteCodec Text Outcome MachineWords

/-! ## Numbers in bytes -/

theorem beValue_concat (bytes : Bytes) (b : UInt8) :
    beValue (bytes ++ [b]) = beValue bytes * 256 + b.toNat := by
  rw [beValue, List.foldl_append, ← beValue, List.foldl_cons, List.foldl_nil]

theorem beValue_append (a b : Bytes) :
    beValue (a ++ b) = beValue a * 256 ^ b.length + beValue b := by
  induction b using List.reverseRecOn with
  | nil => simp [beValue]
  | append_singleton b x ih =>
      rw [← List.append_assoc, beValue_concat, beValue_concat, ih, List.length_append,
        List.length_singleton, pow_succ]
      ring

theorem beValue_lt (bytes : Bytes) : beValue bytes < 256 ^ bytes.length := by
  induction bytes using List.reverseRecOn with
  | nil => simp [beValue]
  | append_singleton bytes x ih =>
      have hx := x.toNat_lt
      rw [beValue_concat, List.length_append, List.length_singleton, pow_succ]
      omega

theorem beValue_beBytes {width n : ℕ} (h : n < 256 ^ width) : beValue (beBytes width n) = n := by
  induction width generalizing n with
  | zero =>
      rw [pow_zero, Nat.lt_one_iff] at h
      rw [h]
      rfl
  | succ width ih =>
      have hhigh : n / 256 < 256 ^ width := by
        rw [pow_succ, mul_comm] at h
        exact Nat.div_lt_of_lt_mul h
      rw [beBytes, beValue_concat, ih hhigh, UInt8.toNat_ofNat']
      omega

/-- Numbers written in the same number of bytes are written alike. -/
theorem beValue_inj {a b : Bytes} (hlength : a.length = b.length) (h : beValue a = beValue b) :
    a = b := by
  induction a using List.reverseRecOn generalizing b with
  | nil => exact (List.length_eq_zero_iff.1 hlength.symm).symm
  | append_singleton a x ih =>
      induction b using List.reverseRecOn with
      | nil => simp at hlength
      | append_singleton b y _ =>
          have hx := x.toNat_lt
          have hy := y.toNat_lt
          rw [beValue_concat, beValue_concat] at h
          rw [List.length_append, List.length_append, List.length_singleton,
            List.length_singleton] at hlength
          have hbytes : a = b := ih (by omega) (by omega)
          have hlast : x = y := UInt8.toNat_inj.1 (by omega)
          rw [hbytes, hlast]

theorem beValue_dropZeros (bytes : Bytes) : beValue (dropZeros bytes) = beValue bytes := by
  induction bytes with
  | nil => rfl
  | cons b bytes ih =>
      rw [dropZeros]
      split_ifs with hzero
      · rw [ih, hzero, ← List.singleton_append, beValue_append]
        simp [beValue]
      · rfl

theorem length_dropZeros_le (bytes : Bytes) : (dropZeros bytes).length ≤ bytes.length := by
  induction bytes with
  | nil => exact le_rfl
  | cons b bytes ih =>
      rw [dropZeros, List.length_cons]
      split_ifs with hzero
      · omega
      · exact le_rfl

/-! ## Headers -/

def shortBase (isList : Bool) : ℕ := if isList then 0xc0 else 0x80
def longBase (isList : Bool) : ℕ := if isList then 0xf7 else 0xb7

/-- The headers that a payload can have. -/
inductive Header (isList : Bool) : Bytes → Bytes → Prop
  | single {b : UInt8} (hlist : isList = false) (hb : b.toNat ≤ 0x7f) : Header isList [] [b]
  | short {payload : Bytes} (h : payload.length ≤ 55) :
      Header isList [UInt8.ofNat (shortBase isList + payload.length)] payload
  | long {lengthBytes payload : Bytes} (hpos : 0 < lengthBytes.length)
      (hle : lengthBytes.length ≤ 8) (h : beValue lengthBytes = payload.length) :
      Header isList (UInt8.ofNat (longBase isList + lengthBytes.length) :: lengthBytes) payload

variable {isList : Bool} {header value input rest : Bytes} {size : ℕ}

theorem Header.pos (h : Header isList header value) : 0 < header.length + value.length := by
  cases h with
  | single hlist hb => exact Nat.one_pos
  | short h => simp
  | long hpos hle h => simp

theorem toNat_ofNat_lt {n : ℕ} (h : n < 256) : (UInt8.ofNat n).toNat = n := by
  rw [UInt8.toNat_ofNat']
  exact Nat.mod_eq_of_lt h

theorem ofNat_of_toNat {b : UInt8} {n : ℕ} (h : b.toNat = n) : b = UInt8.ofNat n := by
  rw [← h, UInt8.ofNat_toNat]

/-- The end of the decoder: the kind of the item is checked, and its payload cut out. -/
def takeItem (input : Bytes) (requireList isList : Bool) (start length : ℕ) :
    Except String (Bytes × ℕ) := do
  reject (requireList ≠ isList) "예상한 RLP 항목 종류와 다릅니다."
  let stop ← okOr (checkedAdd u64Max start length) "RLP 길이가 넘쳤습니다."
  reject (input.length < stop) "RLP 길이가 실제 데이터보다 큽니다."
  pure ((input.take stop).drop start, stop)

theorem takeItem_eq_ok {requireList : Bool} {start length : ℕ} :
    takeItem input requireList isList start length = .ok (value, size) ↔
      requireList = isList ∧ start + length = size ∧ size ≤ u64Max ∧ size ≤ input.length ∧
        (input.take size).drop start = value := by
  simp only [takeItem, bind_eq_ok, exists_const, reject_eq_ok, not_not, okOr_eq_ok,
    checkedAdd_eq_some, pure_eq_ok, Prod.mk.injEq, not_lt]
  constructor
  · rintro ⟨hlist, stop, ⟨rfl, hword⟩, hle, rfl, rfl⟩
    exact ⟨hlist, rfl, hword, hle, rfl⟩
  · rintro ⟨hlist, rfl, hword, hle, rfl⟩
    exact ⟨hlist, _, ⟨rfl, hword⟩, hle, rfl, rfl⟩

/-- The five ranges of a first byte. -/
theorem decodeItem_cons (first : UInt8) (tail : Bytes) (requireList : Bool) :
    decodeItem (first :: tail) requireList =
      if first.toNat ≤ 0x7f then takeItem (first :: tail) requireList false 0 1
      else if first.toNat ≤ 0xb7 then
        takeItem (first :: tail) requireList false 1 (first.toNat - 0x80)
      else if first.toNat ≤ 0xbf then
        readLength (first :: tail) 1 (first.toNat - 0xb7) >>=
          takeItem (first :: tail) requireList false (1 + (first.toNat - 0xb7))
      else if first.toNat ≤ 0xf7 then
        takeItem (first :: tail) requireList true 1 (first.toNat - 0xc0)
      else readLength (first :: tail) 1 (first.toNat - 0xf7) >>=
        takeItem (first :: tail) requireList true (1 + (first.toNat - 0xf7)) := rfl

theorem first_cases (first : UInt8) : first.toNat ≤ 0x7f ∨
    (∃ l, shortBase l ≤ first.toNat ∧ first.toNat ≤ shortBase l + 55) ∨
      ∃ l, longBase l < first.toNat ∧ first.toNat ≤ longBase l + 8 := by
  have hfirst := first.toNat_lt
  simp only [Bool.exists_bool, shortBase, longBase, Bool.false_eq_true, if_false, if_true]
  omega

theorem decodeItem_short {first : UInt8} {l : Bool} (hlow : shortBase l ≤ first.toNat)
    (hhigh : first.toNat ≤ shortBase l + 55) (tail : Bytes) (requireList : Bool) :
    decodeItem (first :: tail) requireList =
      takeItem (first :: tail) requireList l 1 (first.toNat - shortBase l) := by
  cases l with
  | false =>
      simp only [shortBase, Bool.false_eq_true, if_false] at hlow hhigh ⊢
      rw [decodeItem_cons, if_neg (by omega), if_pos (by omega)]
  | true =>
      simp only [shortBase, if_true] at hlow hhigh ⊢
      rw [decodeItem_cons, if_neg (by omega), if_neg (by omega), if_neg (by omega),
        if_pos (by omega)]

theorem decodeItem_long {first : UInt8} {l : Bool} (hlow : longBase l < first.toNat)
    (hhigh : first.toNat ≤ longBase l + 8) (tail : Bytes) (requireList : Bool) :
    decodeItem (first :: tail) requireList =
      readLength (first :: tail) 1 (first.toNat - longBase l) >>=
        takeItem (first :: tail) requireList l (1 + (first.toNat - longBase l)) := by
  cases l with
  | false =>
      simp only [longBase, Bool.false_eq_true, if_false] at hlow hhigh ⊢
      rw [decodeItem_cons, if_neg (by omega), if_neg (by omega), if_pos (by omega)]
  | true =>
      simp only [longBase, if_true] at hlow hhigh ⊢
      rw [decodeItem_cons, if_neg (by omega), if_neg (by omega), if_neg (by omega),
        if_neg (by omega)]

theorem readLength_cons_eq_ok {first : UInt8} {tail : Bytes} {width length : ℕ} :
    readLength (first :: tail) 1 width = .ok length ↔
      0 < width ∧ width ≤ 8 ∧ width ≤ tail.length ∧ beValue (tail.take width) = length := by
  simp only [readLength, bind_eq_ok, exists_const, reject_eq_ok, pure_eq_ok, List.length_cons,
    List.drop_succ_cons, List.drop_zero]
  omega

/-- What is cut out of the input, and what stands before and behind it. -/
theorem take_drop_pieces {start : ℕ} (hstart : start ≤ size) (hsize : size ≤ input.length) :
    input = input.take start ++ (input.take size).drop start ++ input.drop size ∧
      (input.take start).length = start ∧ ((input.take size).drop start).length = size - start := by
  refine ⟨?_, by rw [List.length_take]; omega, by rw [List.length_drop, List.length_take]; omega⟩
  have htake : input.take start = (input.take size).take start := by
    rw [List.take_take, min_eq_left hstart]
  rw [htake, List.take_append_drop, List.take_append_drop]

/-- An item whose header fits its payload. -/
structure ItemAt (isList : Bool) (input value : Bytes) (size : ℕ) (header rest : Bytes) : Prop where
  fits : Header isList header value
  split : input = header ++ value ++ rest
  length : size = header.length + value.length
  word : size ≤ u64Max

/-- What is cut out is an item if what stands before it is a header. -/
theorem itemAt_of_takeItem {l : Bool} {start length : ℕ}
    (h : takeItem input isList l start length = .ok (value, size))
    (hheader : isList = l → value.length = length → (input.take start).length = start →
      Header isList (input.take start) value) :
    ItemAt isList input value size (input.take start) (input.drop size) := by
  obtain ⟨hlist, rfl, hword, hle, rfl⟩ := takeItem_eq_ok.1 h
  obtain ⟨hinput, hbefore, hvalue⟩ := take_drop_pieces (Nat.le_add_right start length) hle
  exact ⟨hheader hlist (by omega) hbefore, hinput, by omega, hword⟩

theorem takeItem_of_itemAt {header rest : Bytes} (h : ItemAt isList input value size header rest) :
    takeItem input isList isList header.length value.length = .ok (value, size) := by
  obtain ⟨-, rfl, rfl, hword⟩ := h
  refine takeItem_eq_ok.2 ⟨rfl, rfl, hword, by simp, ?_⟩
  rw [← List.length_append, List.take_left, List.drop_left]

/-- The item at the front of the input. -/
theorem decodeItem_eq_ok : decodeItem input isList = .ok (value, size) ↔
    ∃ header rest, ItemAt isList input value size header rest := by
  constructor
  · intro h
    cases input with
    | nil => cases h
    | cons first tail =>
        rcases first_cases first with hsingle | ⟨l, hlow, hhigh⟩ | ⟨l, hlow, hhigh⟩
        · rw [decodeItem_cons, if_pos hsingle] at h
          refine ⟨_, _, itemAt_of_takeItem h fun heq _ _ => ?_⟩
          obtain ⟨-, hsize, -, -, hpayload⟩ := takeItem_eq_ok.1 h
          rw [← hsize, List.take_succ_cons, List.take_zero, List.drop_zero] at hpayload
          rw [List.take_zero, ← hpayload]
          exact .single heq hsingle
        · rw [decodeItem_short hlow hhigh] at h
          refine ⟨_, _, itemAt_of_takeItem h fun heq hvalue _ => ?_⟩
          subst heq
          have hheader : Header isList [UInt8.ofNat (shortBase isList + value.length)] value :=
            .short (by omega)
          rwa [← ofNat_of_toNat (by omega : first.toNat = shortBase isList + value.length)]
            at hheader
        · rw [decodeItem_long hlow hhigh] at h
          obtain ⟨length, hread, htake⟩ := bind_eq_ok.1 h
          obtain ⟨hpos, hle, hwidth, hlength⟩ := readLength_cons_eq_ok.1 hread
          refine ⟨_, _, itemAt_of_takeItem htake fun heq hvalue _ => ?_⟩
          subst heq
          have htaken : (tail.take (first.toNat - longBase isList)).length =
              first.toNat - longBase isList := by
            rw [List.length_take]
            omega
          have hheader : Header isList (UInt8.ofNat (longBase isList +
              (tail.take (first.toNat - longBase isList)).length) ::
                tail.take (first.toNat - longBase isList)) value :=
            .long (by omega) (by omega) (hlength.trans hvalue.symm)
          rw [Nat.add_comm, List.take_succ_cons]
          rwa [← ofNat_of_toNat (by omega : first.toNat = longBase isList +
            (tail.take (first.toNat - longBase isList)).length)] at hheader
  · rintro ⟨header, rest, hitem⟩
    have htake := takeItem_of_itemAt hitem
    obtain ⟨hheader, rfl, rfl, hword⟩ := hitem
    have hbase : shortBase isList ≤ 0xc0 ∧ longBase isList ≤ 0xf7 := by
      cases isList <;> simp [shortBase, longBase]
    cases hheader with
    | single hlist hb =>
        subst hlist
        rw [List.nil_append, List.singleton_append, decodeItem_cons, if_pos hb]
        exact htake
    | short hshort =>
        have hnat := toNat_ofNat_lt (by omega : shortBase isList + value.length < 256)
        rw [List.append_assoc, List.singleton_append,
          decodeItem_short (hnat ▸ Nat.le_add_right ..) (by omega), hnat, Nat.add_sub_cancel_left]
        exact htake
    | @long lengthBytes _ hpos hle hvalue =>
        have hnat := toNat_ofNat_lt (by omega : longBase isList + lengthBytes.length < 256)
        rw [List.append_assoc, List.cons_append,
          decodeItem_long (l := isList) (by omega) (by omega), hnat, Nat.add_sub_cancel_left,
          bind_eq_ok]
        refine ⟨value.length, readLength_cons_eq_ok.2 ⟨hpos, hle, by simp, ?_⟩, ?_⟩
        · rw [List.take_left, hvalue]
        · rw [List.length_cons, Nat.add_comm lengthBytes.length] at htake ⊢
          rw [List.append_assoc, List.cons_append] at htake
          exact htake

/-- A payload that is a sequence of items. -/
inductive Items : Bytes → List Bytes → Prop
  | nil : Items [] []
  | cons {header value rest : Bytes} {values : List Bytes} (first : Header false header value)
      (later : Items rest values) : Items (header ++ value ++ rest) (value :: values)

theorem items_nil {values : List Bytes} : Items [] values ↔ values = [] := by
  constructor
  · intro h
    generalize hpayload : ([] : Bytes) = payload at h
    cases h with
    | nil => rfl
    | cons first later =>
        have hpos := first.pos
        have hlength := congrArg List.length hpayload
        simp only [List.length_nil, List.length_append] at hlength
        omega
  · rintro rfl
    exact .nil

/-- Every item takes at least one byte, so there are enough turns for all of them. -/
theorem decodeItems_eq_ok {turns : ℕ} {payload : Bytes} {values : List Bytes}
    (hturns : payload.length ≤ turns) (hword : payload.length ≤ u64Max) :
    decodeItems turns payload = .ok values ↔ Items payload values := by
  induction turns generalizing payload values with
  | zero =>
      obtain rfl : payload = [] := List.length_eq_zero_iff.1 (Nat.le_zero.1 hturns)
      rw [items_nil, decodeItems, Except.ok.injEq, eq_comm]
  | succ turns ih =>
      cases payload with
      | nil => rw [items_nil, decodeItems, Except.ok.injEq, eq_comm]
      | cons b bytes =>
          simp only [decodeItems, bind_eq_ok, Prod.exists, pure_eq_ok, decodeItem_eq_ok]
          constructor
          · rintro ⟨value, size, ⟨header, rest, hitem⟩, values, hrest, rfl⟩
            have hpos := hitem.fits.pos
            have hlength := congrArg List.length hitem.split
            rw [List.length_append, List.length_append] at hlength
            have hdrop : (b :: bytes).drop size = rest := by
              rw [hitem.split, hitem.length, ← List.length_append, List.drop_left]
            rw [hdrop, ih (by omega) (by omega)] at hrest
            rw [hitem.split]
            exact .cons hitem.fits hrest
          · intro h
            generalize hpayload : b :: bytes = payload at h hturns hword
            cases h with
            | nil => cases hpayload
            | @cons header value rest values first later =>
                have hpos := first.pos
                rw [List.length_append, List.length_append] at hturns hword
                refine ⟨value, _, ⟨header, rest, first, rfl, rfl, by omega⟩, values, ?_, rfl⟩
                rw [← List.length_append, List.drop_left, ih (by omega) (by omega)]
                exact later

/-- A list is a header and a sequence of items, and nothing follows it. -/
theorem decodeList_eq_ok {fields : List Bytes} (hword : input.length ≤ u64Max) :
    decodeList input = .ok fields ↔
      ∃ header payload, Header true header payload ∧ input = header ++ payload ∧
        Items payload fields := by
  simp only [decodeList, bind_eq_ok, Prod.exists, decodeItem_eq_ok, exists_const, reject_eq_ok,
    not_not]
  constructor
  · rintro ⟨payload, size, ⟨header, rest, hitem⟩, hconsumed, hitems⟩
    have hlength := congrArg List.length hitem.split
    have hsize := hitem.length
    rw [List.length_append, List.length_append] at hlength
    obtain rfl : rest = [] := List.length_eq_zero_iff.1 (by omega)
    refine ⟨header, payload, hitem.fits, by rw [hitem.split, List.append_nil], ?_⟩
    exact (decodeItems_eq_ok le_rfl (by omega)).1 hitems
  · rintro ⟨header, payload, hheader, rfl, hitems⟩
    rw [List.length_append] at hword
    refine ⟨payload, _, ⟨header, [], hheader, by rw [List.append_nil], rfl, hword⟩,
      by rw [List.length_append], ?_⟩
    exact (decodeItems_eq_ok le_rfl (by omega)).2 hitems

/-! ## The encoder -/

theorem header_encodeLength {l : Bool} {payload : Bytes} (h : payload.length < 2 ^ 64) :
    Header l (encodeLength payload.length (shortBase l) (longBase l)) payload := by
  unfold encodeLength
  split_ifs with hshort
  · exact .short hshort
  · have hvalue : beValue (dropZeros (beBytes 8 payload.length)) = payload.length := by
      rw [beValue_dropZeros, beValue_beBytes (by norm_num; omega)]
    refine .long ?_ ?_ hvalue
    · rw [List.length_pos_iff]
      intro hnil
      rw [hnil] at hvalue
      change 0 = payload.length at hvalue
      omega
    · exact (length_dropZeros_le _).trans (length_beBytes 8 _).le

theorem header_encodeBytes {value : Bytes} (h : value.length < 2 ^ 64) :
    ∃ header, encodeBytes value = header ++ value ∧ Header false header value := by
  have hlong := header_encodeLength (l := false) h
  unfold encodeBytes
  split
  · rename_i b
    split_ifs with hb
    · exact ⟨[], rfl, .single rfl (by omega)⟩
    · exact ⟨_, rfl, hlong⟩
  · exact ⟨_, rfl, hlong⟩

theorem items_encodeBytes {fields : List Bytes} (h : ∀ f ∈ fields, f.length < 2 ^ 64) :
    Items (fields.map encodeBytes).flatten fields := by
  induction fields with
  | nil => exact .nil
  | cons f fields ih =>
      obtain ⟨header, heq, hheader⟩ := header_encodeBytes (h f (List.mem_cons_self ..))
      rw [List.map_cons, List.flatten_cons, heq]
      exact .cons hheader (ih fun f hf => h f (List.mem_cons_of_mem _ hf))

end IeumChain.RawTransaction

import IeumChain.RlpItems

/-!
# Decoding RLP

The decoder gives back what was encoded. On every other input it ends as well: read with
every index, slice and sum of the source checked, it never leaves the input, never leaves
the machine word, and takes no more turns than the input has bytes.
-/
namespace IeumChain.RawTransaction

open ByteCodec Text Outcome MachineWords

/-! ## Round trips -/

theorem length_le_encodeBytes (value : Bytes) : value.length ≤ (encodeBytes value).length := by
  unfold encodeBytes
  split
  · split_ifs
    · exact le_rfl
    · simp
  · simp

theorem length_le_encodeList {fields : List Bytes} {f : Bytes} (h : f ∈ fields) :
    f.length ≤ (encodeList (fields.map encodeBytes)).length := by
  have hmem := List.sublist_flatten_of_mem (List.mem_map_of_mem (f := encodeBytes) h)
  rw [encodeList, List.length_append]
  exact (length_le_encodeBytes f).trans (hmem.length_le.trans (Nat.le_add_left ..))

theorem decodeList_encodeList {fields : List Bytes}
    (h : (encodeList (fields.map encodeBytes)).length < 2 ^ 63) :
    decodeList (encodeList (fields.map encodeBytes)) = .ok fields := by
  have hword : (encodeList (fields.map encodeBytes)).length ≤ u64Max := by
    unfold u64Max
    omega
  have hitems := items_encodeBytes fun f hf =>
    (length_le_encodeList hf).trans_lt (h.trans (by norm_num))
  refine (decodeList_eq_ok hword).2 ⟨_, _, header_encodeLength (l := true) ?_, rfl, hitems⟩
  rw [encodeList, List.length_append] at h
  omega

theorem decodeItem_encodeBytes {value : Bytes} (h : (encodeBytes value).length < 2 ^ 63) :
    decodeItem (encodeBytes value) false = .ok (value, (encodeBytes value).length) := by
  have hlength := length_le_encodeBytes value
  obtain ⟨header, heq, hheader⟩ := @header_encodeBytes value (by omega)
  refine decodeItem_eq_ok.2 ⟨header, [], hheader, by rw [heq, List.append_nil], ?_, ?_⟩
  · rw [heq, List.length_append]
  · unfold u64Max
    omega

theorem length_encodeBytes_le {value : Bytes} (h : value.length ≤ 55) :
    (encodeBytes value).length ≤ value.length + 1 := by
  have hheader : ∀ n ≤ 55, (encodeLength n 0x80 0xb7).length = 1 := fun n hn => by
    rw [encodeLength, if_pos hn, List.length_singleton]
  unfold encodeBytes
  split
  · split_ifs
    · exact Nat.le_succ _
    · rw [List.length_append, hheader 1 (by decide), Nat.add_comm]
  · rw [List.length_append, hheader _ h, Nat.add_comm]

/-- An integer field is read back from its bytes. -/
theorem decodeItem_encodeNat {width n : ℕ} (hwidth : width ≤ 16) (h : n < 256 ^ width)
    (word name : String) : ∃ value,
      decodeItem (encodeNat width n) false = .ok (value, (encodeNat width n).length) ∧
        valueNat width word value name = .ok n := by
  have hlength : (dropZeros (beBytes width n)).length ≤ width :=
    (length_dropZeros_le _).trans (length_beBytes width n).le
  refine ⟨dropZeros (beBytes width n), decodeItem_encodeBytes ?_, ?_⟩
  · have hencoded := @length_encodeBytes_le (dropZeros (beBytes width n)) (by omega)
    omega
  · simp only [valueNat, bind_eq_ok, exists_const, reject_eq_ok, pure_eq_ok]
    exact ⟨not_lt.2 hlength, by rw [beValue_dropZeros, beValue_beBytes h]⟩

/-! ## Every index checked -/

/-- A computation that may panic. -/
abbrev Guarded := ExceptT String Option

section
variable {α β : Type}

/-- An index out of bounds, a sum or difference out of the word, or no turn left. -/
def panicked : Guarded α := ExceptT.mk none

/-- A computation that does not panic. -/
def done (x : Except String α) : Guarded α := ExceptT.mk (some x)

theorem done_bind {x : Except String α} {f : α → Guarded β} {g : α → Except String β}
    (h : ∀ a, x = .ok a → f a = done (g a)) : done x >>= f = done (x >>= g) := by
  cases x with
  | error e => rfl
  | ok a => exact h a rfl

end

def plus (a b : ℕ) : Guarded ℕ := if a + b ≤ u64Max then pure (a + b) else panicked
def minus (a b : ℕ) : Guarded ℕ := if b ≤ a then pure (a - b) else panicked

def slice (input : Bytes) (start stop : ℕ) : Guarded Bytes :=
  if start ≤ stop ∧ stop ≤ input.length then pure ((input.take stop).drop start) else panicked

/-- The bytes shifted into a word. -/
def shifted (bytes : Bytes) : ℕ := bytes.foldl (fun acc b => acc * 256 % 2 ^ 64 + b.toNat) 0

def readLengthGuarded (input : Bytes) (start width : ℕ) : Guarded ℕ := do
  if width = 0 ∨ 8 < width then throw "RLP 길이 필드가 잘못되었습니다."
  let stop ← plus start width
  if input.length < stop then throw "RLP 길이 필드가 잘못되었습니다."
  let bytes ← slice input start stop
  pure (shifted bytes)

def decodeItemGuarded (input : Bytes) (requireList : Bool) : Guarded (Bytes × ℕ) := do
  let first ← done (okOr input.head? "빈 RLP입니다.")
  let tag := first.toNat
  let (isList, start, length) ←
    if tag ≤ 0x7f then pure (false, 0, 1)
    else if tag ≤ 0xb7 then do
      let length ← minus tag 0x80
      pure (false, 1, length)
    else if tag ≤ 0xbf then do
      let width ← minus tag 0xb7
      let length ← readLengthGuarded input 1 width
      let start ← plus 1 width
      pure (false, start, length)
    else if tag ≤ 0xf7 then do
      let length ← minus tag 0xc0
      pure (true, 1, length)
    else do
      let width ← minus tag 0xf7
      let length ← readLengthGuarded input 1 width
      let start ← plus 1 width
      pure (true, start, length)
  done (reject (requireList ≠ isList) "예상한 RLP 항목 종류와 다릅니다.")
  let stop ← done (okOr (checkedAdd u64Max start length) "RLP 길이가 넘쳤습니다.")
  done (reject (input.length < stop) "RLP 길이가 실제 데이터보다 큽니다.")
  let value ← slice input start stop
  pure (value, stop)

/-- Reads items from an offset on, one in a turn. -/
def decodeLoop (payload : Bytes) : ℕ → ℕ → List Bytes → Guarded (List Bytes)
  | 0, offset, fields => if offset < payload.length then panicked else pure fields
  | turns + 1, offset, fields =>
      if offset < payload.length then do
        let rest ← slice payload offset payload.length
        let (value, size) ← decodeItemGuarded rest false
        let offset ← plus offset size
        decodeLoop payload turns offset (fields ++ [value])
      else pure fields

def decodeListGuarded (turns : ℕ) (input : Bytes) : Guarded (List Bytes) := do
  let (payload, consumed) ← decodeItemGuarded input true
  done (reject (consumed ≠ input.length) "RLP 목록 뒤에 불필요한 바이트가 있습니다.")
  decodeLoop payload turns 0 []

/-! ## No check ever fails -/

theorem plus_eq {a b : ℕ} (h : a + b ≤ u64Max) : plus a b = pure (a + b) := if_pos h

theorem minus_eq {a b : ℕ} (h : b ≤ a) : minus a b = pure (a - b) := if_pos h

theorem slice_eq {input : Bytes} {start stop : ℕ} (hstart : start ≤ stop)
    (hstop : stop ≤ input.length) : slice input start stop = pure ((input.take stop).drop start) :=
  if_pos ⟨hstart, hstop⟩

/-- Eight bytes fill the word. -/
theorem shifted_eq {bytes : Bytes} (h : bytes.length ≤ 8) : shifted bytes = beValue bytes := by
  induction bytes using List.reverseRecOn with
  | nil => rfl
  | append_singleton bytes b ih =>
      rw [List.length_append, List.length_singleton] at h
      have hlow : beValue bytes < 256 ^ 7 :=
        (beValue_lt bytes).trans_le (Nat.pow_le_pow_right (by decide) (by omega))
      rw [shifted, List.foldl_append, ← shifted, ih (by omega), beValue_concat, List.foldl_cons,
        List.foldl_nil, Nat.mod_eq_of_lt (by omega)]

theorem readLengthGuarded_eq (input : Bytes) (width : ℕ) :
    readLengthGuarded input 1 width = done (readLength input 1 width) := by
  unfold readLengthGuarded readLength
  by_cases hwidth : width = 0 ∨ 8 < width
  · rw [if_pos hwidth, reject, if_pos (by omega)]
    rfl
  · rw [if_neg hwidth, plus_eq (by unfold u64Max; omega), pure_bind]
    by_cases hshort : input.length < 1 + width
    · rw [if_pos hshort, reject, if_pos (by omega)]
      rfl
    · have hpiece : (input.take (1 + width)).drop 1 = (input.drop 1).take width := by
        rw [List.drop_take, Nat.add_sub_cancel_left]
      have hlength : ((input.drop 1).take width).length ≤ 8 := by
        rw [List.length_take]
        omega
      rw [if_neg hshort, slice_eq (by omega) (by omega), pure_bind, reject, if_neg (by omega),
        hpiece, shifted_eq hlength]
      rfl

/-- The end of the guarded decoder. -/
def takeItemGuarded (input : Bytes) (requireList isList : Bool) (start length : ℕ) :
    Guarded (Bytes × ℕ) := do
  done (reject (requireList ≠ isList) "예상한 RLP 항목 종류와 다릅니다.")
  let stop ← done (okOr (checkedAdd u64Max start length) "RLP 길이가 넘쳤습니다.")
  done (reject (input.length < stop) "RLP 길이가 실제 데이터보다 큽니다.")
  let value ← slice input start stop
  pure (value, stop)

theorem takeItemGuarded_eq (input : Bytes) (requireList isList : Bool) (start length : ℕ) :
    takeItemGuarded input requireList isList start length =
      done (takeItem input requireList isList start length) := by
  refine done_bind fun _ _ => done_bind fun stop hstop => done_bind fun _ hle => ?_
  rw [okOr_eq_ok, checkedAdd_eq_some] at hstop
  rw [reject_eq_ok, not_lt] at hle
  rw [slice_eq (by omega) hle]
  rfl

theorem decodeItemGuarded_cons (first : UInt8) (tail : Bytes) (requireList : Bool) :
    decodeItemGuarded (first :: tail) requireList =
      if first.toNat ≤ 0x7f then takeItemGuarded (first :: tail) requireList false 0 1
      else if first.toNat ≤ 0xb7 then
        minus first.toNat 0x80 >>= takeItemGuarded (first :: tail) requireList false 1
      else if first.toNat ≤ 0xbf then do
        let width ← minus first.toNat 0xb7
        let length ← readLengthGuarded (first :: tail) 1 width
        let start ← plus 1 width
        takeItemGuarded (first :: tail) requireList false start length
      else if first.toNat ≤ 0xf7 then
        minus first.toNat 0xc0 >>= takeItemGuarded (first :: tail) requireList true 1
      else (do
        let width ← minus first.toNat 0xf7
        let length ← readLengthGuarded (first :: tail) 1 width
        let start ← plus 1 width
        takeItemGuarded (first :: tail) requireList true start length) := rfl

theorem decodeItemGuarded_eq (input : Bytes) (requireList : Bool) :
    decodeItemGuarded input requireList = done (decodeItem input requireList) := by
  cases input with
  | nil => rfl
  | cons first tail =>
      have hfirst := first.toNat_lt
      have hlong : ∀ (l : Bool) (base : ℕ), base ≤ first.toNat → (do
          let width ← minus first.toNat base
          let length ← readLengthGuarded (first :: tail) 1 width
          let start ← plus 1 width
          takeItemGuarded (first :: tail) requireList l start length) =
          done (readLength (first :: tail) 1 (first.toNat - base) >>=
            takeItem (first :: tail) requireList l (1 + (first.toNat - base))) := by
        intro l base hbase
        rw [minus_eq hbase, pure_bind, readLengthGuarded_eq]
        refine done_bind fun length _ => ?_
        rw [plus_eq (by unfold u64Max; omega), pure_bind, takeItemGuarded_eq]
      rw [decodeItemGuarded_cons, decodeItem_cons]
      split_ifs with hsingle hshort hwide hlist
      · exact takeItemGuarded_eq ..
      · rw [minus_eq (by omega), pure_bind, takeItemGuarded_eq]
      · exact hlong false _ (by omega)
      · rw [minus_eq (by omega), pure_bind, takeItemGuarded_eq]
      · exact hlong true _ (by omega)

theorem decodeItem_size {input value : Bytes} {isList : Bool} {size : ℕ}
    (h : decodeItem input isList = .ok (value, size)) : 0 < size ∧ size ≤ input.length := by
  obtain ⟨header, rest, hitem⟩ := decodeItem_eq_ok.1 h
  have hpos := hitem.fits.pos
  have hlength := congrArg List.length hitem.split
  have hsize := hitem.length
  rw [List.length_append, List.length_append] at hlength
  omega

/-- More turns than bytes make no difference. -/
theorem decodeItems_turns {turns turns' : ℕ} {payload : Bytes} (h : payload.length ≤ turns)
    (h' : payload.length ≤ turns') : decodeItems turns payload = decodeItems turns' payload := by
  induction turns generalizing turns' payload with
  | zero =>
      obtain rfl : payload = [] := List.length_eq_zero_iff.1 (Nat.le_zero.1 h)
      rw [decodeItems, decodeItems]
  | succ turns ih =>
      cases payload with
      | nil => rw [decodeItems, decodeItems]
      | cons b bytes =>
          cases turns' with
          | zero => cases h'
          | succ turns' =>
              rw [decodeItems, decodeItems]
              cases hitem : decodeItem (b :: bytes) false with
              | error e => rfl
              | ok item =>
                  obtain ⟨value, size⟩ := item
                  obtain ⟨hpos, hle⟩ := decodeItem_size hitem
                  have hrest : decodeItems turns ((b :: bytes).drop size) =
                      decodeItems turns' ((b :: bytes).drop size) :=
                    ih (by rw [List.length_drop]; omega) (by rw [List.length_drop]; omega)
                  change (do
                    let rest ← decodeItems turns ((b :: bytes).drop size)
                    pure (value :: rest)) = _
                  rw [hrest]
                  rfl

/-- From any offset on the guarded loop reads what the decoder reads. -/
theorem decodeLoop_eq {payload : Bytes} {turns offset : ℕ} (fields : List Bytes)
    (hword : payload.length ≤ u64Max) (hoffset : offset ≤ payload.length)
    (hturns : payload.length ≤ turns + offset) :
    decodeLoop payload turns offset fields =
      done ((fields ++ ·) <$> decodeItems turns (payload.drop offset)) := by
  induction turns generalizing offset fields with
  | zero =>
      have hdrop : payload.drop offset = [] := List.drop_eq_nil_of_le (by omega)
      rw [decodeLoop, if_neg (by omega), hdrop, decodeItems]
      change pure fields = done (.ok (fields ++ []))
      rw [List.append_nil]
      rfl
  | succ turns ih =>
      rw [decodeLoop]
      split_ifs with hmore
      · obtain ⟨b, bytes, hrest⟩ : ∃ b bytes, payload.drop offset = b :: bytes :=
          List.exists_cons_of_length_pos (by rw [List.length_drop]; omega)
        rw [slice_eq hoffset le_rfl, pure_bind, List.take_length, hrest, decodeItems,
          decodeItemGuarded_eq, map_bind]
        refine done_bind fun item hitem => ?_
        obtain ⟨value, size⟩ := item
        obtain ⟨hpos, hle⟩ := decodeItem_size hitem
        have hdrop : (b :: bytes).drop size = payload.drop (offset + size) := by
          rw [← hrest, List.drop_drop]
        rw [← hrest, List.length_drop] at hle
        change (plus offset size >>= fun offset => decodeLoop payload turns offset
          (fields ++ [value])) = _
        rw [plus_eq (by omega), pure_bind, ih _ (by omega) (by omega)]
        simp only [hdrop, List.append_assoc, List.singleton_append]
        cases decodeItems turns (payload.drop (offset + size)) with
        | error e => rfl
        | ok rest => rfl
      · have hdrop : payload.drop offset = [] := List.drop_eq_nil_of_le (by omega)
        rw [hdrop, decodeItems]
        change pure fields = done (.ok (fields ++ []))
        rw [List.append_nil]
        rfl

/-- With a turn for every byte the guarded decoder does not panic, and it reads what the
decoder reads. -/
theorem decodeListGuarded_eq {input : Bytes} {turns : ℕ} (hword : input.length ≤ u64Max)
    (hturns : input.length ≤ turns) :
    decodeListGuarded turns input = done (decodeList input) := by
  rw [decodeListGuarded, decodeItemGuarded_eq]
  refine done_bind fun item hitem => done_bind fun _ _ => ?_
  obtain ⟨payload, consumed⟩ := item
  obtain ⟨header, rest, hitem⟩ := decodeItem_eq_ok.1 hitem
  have hlength := congrArg List.length hitem.split
  rw [List.length_append, List.length_append] at hlength
  change decodeLoop payload turns 0 [] = done (decodeItems payload.length payload)
  rw [decodeLoop_eq [] (by omega) (Nat.zero_le _) (by omega), List.drop_zero,
    decodeItems_turns (by omega) le_rfl]
  congr 1
  cases decodeItems payload.length payload with
  | error e => rfl
  | ok fields => rfl

/-- Every field is a piece of the input. -/
theorem infix_of_decodeList {input : Bytes} {fields : List Bytes} (hword : input.length ≤ u64Max)
    (h : decodeList input = .ok fields) : ∀ f ∈ fields, f <:+: input := by
  obtain ⟨header, payload, -, rfl, hitems⟩ := (decodeList_eq_ok hword).1 h
  clear h
  intro f hf
  suffices hpayload : f <:+: payload from hpayload.trans (List.suffix_append ..).isInfix
  clear hword
  induction hitems with
  | nil => cases hf
  | cons first later ih =>
      rcases List.mem_cons.1 hf with rfl | hf
      · exact ⟨_, _, rfl⟩
      · exact (ih hf).trans (List.suffix_append ..).isInfix

/-- What is encoded is decoded again, and the decoder ends on every input without a panic, with
pieces of the input. -/
theorem rlp_round_trip :
    (∀ fields : List Bytes, (encodeList (fields.map encodeBytes)).length < 2 ^ 63 →
      decodeList (encodeList (fields.map encodeBytes)) = .ok fields) ∧
    (∀ n ≤ u64Max, ∀ name, ∃ value,
      decodeItem (encodeU64 n) false = .ok (value, (encodeU64 n).length) ∧
        valueU64 value name = .ok n) ∧
    (∀ n ≤ u128Max, ∀ name, ∃ value,
      decodeItem (encodeU128 n) false = .ok (value, (encodeU128 n).length) ∧
        valueU128 value name = .ok n) ∧
    ∀ input : Bytes, input.length ≤ u64Max →
      (decodeListGuarded input.length input).run = some (decodeList input) ∧
        ∀ fields, decodeList input = .ok fields → ∀ f ∈ fields, f <:+: input := by
  refine ⟨fun fields h => decodeList_encodeList h, fun n hn name => ?_, fun n hn name => ?_,
    fun input hword => ⟨?_, fun fields => infix_of_decodeList hword⟩⟩
  · exact decodeItem_encodeNat (by decide) (by unfold u64Max at hn; omega) "u64" name
  · exact decodeItem_encodeNat (by decide) (by unfold u128Max at hn; omega) "u128" name
  · rw [decodeListGuarded_eq hword le_rfl]
    rfl

/-- Two fields, two numbers, and a list whose item claims nearly the whole word. -/
theorem rlp_round_trip_sample :
    decodeList (encodeList ([[5], [0x80, 1]].map encodeBytes)) = .ok [[5], [0x80, 1]] ∧
      (∃ value, decodeItem (encodeU64 1024) false = .ok (value, (encodeU64 1024).length) ∧
        valueU64 value "nonce" = .ok 1024) ∧
      (∃ value, decodeItem (encodeU128 u128Max) false = .ok (value, (encodeU128 u128Max).length) ∧
        valueU128 value "value" = .ok u128Max) ∧
      (decodeListGuarded 10 (0xc9 :: 0xbf :: List.replicate 8 0xff)).run =
        some (decodeList (0xc9 :: 0xbf :: List.replicate 8 0xff)) := by
  obtain ⟨hlist, hu64, hu128, hguarded⟩ := rlp_round_trip
  exact ⟨hlist _ (by decide), hu64 1024 (by decide) "nonce", hu128 u128Max le_rfl "value",
    (hguarded (0xc9 :: 0xbf :: List.replicate 8 0xff) (by decide)).1⟩

end IeumChain.RawTransaction

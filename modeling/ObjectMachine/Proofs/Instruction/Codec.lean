import Mathlib.Data.List.Basic
import ObjectMachine.Instruction.Basic

/-!
# Instructions and their bytes

Writing instructions and reading them are inverse, for whole programs. The byte of an opcode says how
many operands follow, so no encoding begins another one, and a program has a single reading.

## Main results

* `Opcode.ofByte?_eq_some_iff`: the bytes of opcodes.
* `Instruction.read?_eq_some_iff`: what is read is what was written.
* `Instruction.encodeAll_decodeFrom`: programs are read back from their bytes, and the bytes that were
  read are written again.
-/

namespace ObjectMachine

/-! ## Opcodes -/

namespace Opcode

/-- An opcode with a byte of its own: there are thirty-two special selectors. -/
def IsValid : Opcode → Prop
  | .special index => index < 32
  | _ => True

theorem byte_special_toNat {index : UInt8} (h : index < 160) :
    (Opcode.special index).byte.toNat = 96 + index.toNat := by
  have h : index.toNat < 160 := h
  show (firstSpecial + index).toNat = 96 + index.toNat
  rw [UInt8.toNat_add]
  show (96 + index.toNat) % 256 = 96 + index.toNat
  omega

theorem ofByte?_byte {o : Opcode} (h : o.IsValid) : ofByte? o.byte = some o := by
  cases o with
  | push place => cases place <;> rfl
  | store place => cases place <;> rfl
  | popInto place => cases place <;> rfl
  | constant value => cases value <;> rfl
  | methodReturn answer => cases answer <;> rfl
  | jump branch => cases branch <;> rfl
  | longJump branch => cases branch <;> rfl
  | special index =>
    have hvalid : index < 32 := h
    -- thirty-two bytes, one for each special selector
    have hall : ∀ i : Fin 32, ofByte? (firstSpecial + UInt8.ofNat i) =
        some (.special (UInt8.ofNat i)) := by decide
    have hlt : index.toNat < 32 := hvalid
    simpa [byte] using hall ⟨index.toNat, hlt⟩
  | _ => rfl

/-- A byte that is an opcode is the byte of that opcode only. -/
theorem ofByte?_eq_some_iff {b : UInt8} {o : Opcode} :
    ofByte? b = some o ↔ o.IsValid ∧ o.byte = b := by
  refine ⟨fun h => ?_, fun ⟨hvalid, hbyte⟩ => hbyte ▸ ofByte?_byte hvalid⟩
  unfold ofByte? at h
  split at h
  case h_37 =>
    split at h
    case isTrue hb =>
      obtain rfl : Opcode.special (b - firstSpecial) = o := by simpa using h
      have hlow : 96 ≤ b.toNat := hb.1
      have hhigh : b.toNat < 128 := hb.2
      have hindex : (b - firstSpecial).toNat = b.toNat - 96 := UInt8.toNat_sub_of_le _ _ hb.1
      refine ⟨show (b - firstSpecial).toNat < 32 by omega, UInt8.toNat_inj.mp ?_⟩
      rw [byte_special_toNat (show (b - firstSpecial).toNat < 160 by omega)]
      omega
    case isFalse => simp at h
  all_goals
    obtain rfl := Option.some.inj h
    exact ⟨trivial, rfl⟩

end Opcode

namespace Instruction

/-! ## One instruction -/

/-- An instruction whose opcode has a byte. -/
def IsValid (i : Instruction) : Prop :=
  i.opcode.IsValid

/-- A long offset as an unsigned number. -/
theorem toNat_joined (high low : UInt8) :
    ((high.toUInt16 <<< 8) ||| low.toUInt16).toNat = high.toNat * 256 + low.toNat := by
  have hhigh := high.toNat_lt
  have hlow := low.toNat_lt
  have hshift : (high.toUInt16 <<< 8).toNat = high.toNat <<< 8 := by
    rw [UInt16.toNat_shiftLeft, UInt8.toNat_toUInt16]
    have : high.toNat <<< 8 < 2 ^ 16 := by rw [Nat.shiftLeft_eq]; omega
    exact Nat.mod_eq_of_lt this
  rw [UInt16.toNat_or, hshift, UInt8.toNat_toUInt16, ← Nat.shiftLeft_add_eq_or_of_lt hlow,
    Nat.shiftLeft_eq]

theorem toNat_highByte (w : UInt16) : (w >>> 8).toUInt8.toNat = w.toNat / 256 := by
  have hw := w.toNat_lt
  rw [UInt16.toNat_toUInt8, UInt16.toNat_shiftRight]
  show (w.toNat >>> 8) % 256 = w.toNat / 256
  rw [Nat.shiftRight_eq_div_pow]
  omega

theorem longOffset_longBytes (offset : Int16) :
    longOffset (offset.toUInt16 >>> 8).toUInt8 offset.toUInt16.toUInt8 = offset := by
  have hword : ((offset.toUInt16 >>> 8).toUInt8.toUInt16 <<< 8) |||
      offset.toUInt16.toUInt8.toUInt16 = offset.toUInt16 := by
    apply UInt16.toNat_inj.mp
    rw [toNat_joined, toNat_highByte, UInt16.toNat_toUInt8]
    omega
  rw [longOffset, hword]
  exact Int16.toInt16_toUInt16 offset

theorem longBytes_longOffset (high low : UInt8) : longBytes (longOffset high low) = [high, low] := by
  have hhigh := high.toNat_lt
  have hlow := low.toNat_lt
  have hback (w : UInt16) : w.toInt16.toUInt16 = w := rfl
  have hfirst : (((high.toUInt16 <<< 8) ||| low.toUInt16) >>> 8).toUInt8 = high := by
    apply UInt8.toNat_inj.mp
    rw [toNat_highByte, toNat_joined]
    omega
  have hsecond : ((high.toUInt16 <<< 8) ||| low.toUInt16).toUInt8 = low := by
    apply UInt8.toNat_inj.mp
    rw [UInt16.toNat_toUInt8, toNat_joined]
    omega
  rw [longBytes, longOffset, hback, hfirst, hsecond]

theorem length_operands (i : Instruction) : i.operands.length = i.opcode.operandBytes := by
  cases i <;> rfl

theorem length_encode (i : Instruction) : i.encode.length = i.width := by
  simp [encode, width, Opcode.width, length_operands]

/-- The operands are read back, whatever follows them. -/
theorem ofOperands?_operands_append (i : Instruction) (rest : List UInt8) :
    ofOperands? i.opcode (i.operands ++ rest) = some i := by
  cases i with
  | longJump branch offset => exact congrArg (some ∘ longJump branch) (longOffset_longBytes offset)
  | _ => rfl

/-- Operands that are read are those of the instruction. -/
theorem ofOperands?_eq_some {o : Opcode} {bytes : List UInt8} {i : Instruction}
    (h : ofOperands? o bytes = some i) : i.opcode = o ∧ ∃ rest, bytes = i.operands ++ rest := by
  cases o with
  | longJump branch =>
    match bytes, h with
    | high :: low :: rest, h =>
      cases h
      exact ⟨rfl, rest, congrArg (· ++ rest) (longBytes_longOffset high low).symm⟩
  | send | superSend =>
    match bytes, h with
    | selector :: argCount :: rest, h =>
      cases h
      exact ⟨rfl, rest, rfl⟩
  | push | pushLiteral | store | popInto | jump | createBlock =>
    match bytes, h with
    | operand :: rest, h =>
      cases h
      exact ⟨rfl, rest, rfl⟩
  | _ =>
    cases h
    exact ⟨rfl, bytes, rfl⟩

/-- An instruction is read exactly where its bytes are. -/
theorem read?_eq_some_iff {bytes : List UInt8} {i : Instruction} :
    read? bytes = some i ↔ i.IsValid ∧ ∃ rest, bytes = i.encode ++ rest := by
  constructor
  · intro h
    cases bytes with
    | nil => simp [read?] at h
    | cons b operandBytes =>
      obtain ⟨o, ho, hi⟩ := Option.bind_eq_some_iff.mp h
      obtain ⟨hvalid, rfl⟩ := Opcode.ofByte?_eq_some_iff.mp ho
      obtain ⟨rfl, rest, rfl⟩ := ofOperands?_eq_some hi
      exact ⟨hvalid, rest, rfl⟩
  · rintro ⟨hvalid, rest, rfl⟩
    simp only [encode, List.cons_append, read?, Opcode.ofByte?_byte hvalid, Option.bind_some,
      ofOperands?_operands_append]

/-- The bytes of a program. -/
def bytesOf (code : List Instruction) : List UInt8 :=
  code.flatMap encode

@[simp] theorem bytesOf_nil : bytesOf [] = [] := rfl

@[simp] theorem bytesOf_cons (i : Instruction) (code : List Instruction) :
    bytesOf (i :: code) = i.encode ++ bytesOf code := rfl

@[simp] theorem bytesOf_append (code more : List Instruction) :
    bytesOf (code ++ more) = bytesOf code ++ bytesOf more :=
  List.flatMap_append

/-- The instructions of a program with their positions, the first one at `pc`. -/
def located (pc : Nat) : List Instruction → List (Nat × Instruction)
  | [] => []
  | i :: code => (pc, i) :: located (pc + i.width) code

theorem endOf_cons_cons (p q : Nat × Instruction) (rest : List (Nat × Instruction)) :
    endOf (p :: q :: rest) = endOf (q :: rest) := rfl

/-- A program ends behind its bytes. -/
theorem endOf_located {code : List Instruction} (hne : code ≠ []) (pc : Nat) :
    endOf (located pc code) = pc + (bytesOf code).length := by
  induction code generalizing pc with
  | nil => exact absurd rfl hne
  | cons i rest ih =>
    cases rest with
    | nil => simp [located, endOf, length_encode]
    | cons j rest =>
      have hrest := ih (List.cons_ne_nil j rest) (pc + i.width)
      rw [located, located, endOf_cons_cons, ← located, hrest, bytesOf_cons i, List.length_append,
        length_encode]
      omega

theorem endOf_located_zero (code : List Instruction) :
    endOf (located 0 code) = (bytesOf code).length := by
  cases code with
  | nil => rfl
  | cons i code => rw [endOf_located (List.cons_ne_nil i code), Nat.zero_add]

/-- Reading a program goes from one instruction to the next, up to where there is none. -/
theorem decodeFrom_eq_located {code : List Instruction} (hvalid : ∀ i ∈ code, i.IsValid)
    {bytes rest : List UInt8} {pc : Nat} (hbytes : bytes.drop pc = bytesOf code ++ rest)
    (hrest : read? rest = none) : decodeFrom bytes pc = located pc code := by
  induction code generalizing pc with
  | nil =>
    rw [decodeFrom]
    split
    · rfl
    · next hread =>
      rw [decode?, hbytes, bytesOf_nil, List.nil_append, hrest] at hread
      simp at hread
  | cons i code ih =>
    have hread : decode? bytes pc = some i := by
      rw [decode?, hbytes, bytesOf_cons, List.append_assoc]
      exact read?_eq_some_iff.mpr ⟨hvalid i (by simp), _, rfl⟩
    have hnext : bytes.drop (pc + i.width) = bytesOf code ++ rest := by
      rw [← List.drop_drop, hbytes, bytesOf_cons, List.append_assoc, ← length_encode,
        List.drop_left]
    rw [decodeFrom]
    split
    · next hnone => simp [hread] at hnone
    · next hsome =>
      obtain rfl : i = _ := Option.some.inj (hread.symm.trans hsome)
      rw [located, ih (fun j hj => hvalid j (by simp [hj])) hnext]

/-- What is read of any bytes is a program, and the bytes begin with those of the program. -/
theorem exists_decodeFrom (bytes : List UInt8) (pc : Nat) :
    ∃ code rest, (∀ i ∈ code, i.IsValid) ∧ decodeFrom bytes pc = located pc code ∧
      bytes.drop pc = bytesOf code ++ rest ∧ read? rest = none := by
  induction hleft : bytes.length - pc using Nat.strongRecOn generalizing pc with
  | _ left ih =>
    rw [decodeFrom]
    split
    · next hnone => exact ⟨[], bytes.drop pc, by simp, rfl, rfl, hnone⟩
    · next i hsome =>
      obtain ⟨hvalid, rest, hrest⟩ := read?_eq_some_iff.mp hsome
      have hpc := lt_length_of_decode? hsome
      have hpos := i.width_pos
      obtain ⟨code, rest', hcode, hlocated, hdrop, hend⟩ :=
        ih (bytes.length - (pc + i.width)) (by omega) (pc + i.width) rfl
      rw [← List.drop_drop, hrest, ← length_encode, List.drop_left] at hdrop
      refine ⟨i :: code, rest', ?_, ?_, ?_, hend⟩
      · simpa using ⟨hvalid, hcode⟩
      · rw [located, hlocated]
      · rw [hrest, hdrop, bytesOf_cons, List.append_assoc]

theorem map_snd_located (pc : Nat) (code : List Instruction) :
    (located pc code).map Prod.snd = code := by
  induction code generalizing pc with
  | nil => rfl
  | cons i code ih => rw [located, List.map_cons, ih]

theorem encodeAll_eq_ok_iff {code : List Instruction} {bytes : List UInt8} :
    encodeAll code = .ok bytes ↔ (∀ i ∈ code, i.isEncodable) ∧ bytes = bytesOf code := by
  unfold encodeAll bytesOf
  by_cases h : code.all isEncodable
  · rw [if_pos h, Except.ok.injEq, eq_comm]
    exact ⟨fun hbytes => ⟨List.all_eq_true.mp h, hbytes⟩, And.right⟩
  · rw [if_neg h]
    exact ⟨fun hbytes => by simp at hbytes, fun hbytes => absurd (List.all_eq_true.mpr hbytes.1) h⟩

theorem IsValid.isEncodable {i : Instruction} (h : i.IsValid) : i.isEncodable := by
  cases i with
  | special index =>
    have h : index.toNat < 32 := h
    exact decide_eq_true (show index.toNat < 160 by omega)
  | _ => rfl

/-! ## No two programs have the same bytes -/

/-- A special selector that does not exist has a byte that is no opcode. -/
theorem exists_special_of_not_isValid {i : Instruction} (hi : i.isEncodable) (h : ¬ i.IsValid) :
    ∃ index, i.opcode = .special index ∧ Opcode.ofByte? i.opcode.byte = none := by
  cases i with
  | special index =>
    have hall : ∀ k : Fin 128, Opcode.ofByte? (Opcode.firstSpecial + UInt8.ofNat (k + 32)) = none := by
      decide
    have hlow : ¬ index.toNat < 32 := h
    have hhigh : index.toNat < 160 := of_decide_eq_true hi
    have hindex : UInt8.ofNat (index.toNat - 32 + 32) = index := by
      rw [Nat.sub_add_cancel (by omega)]
      exact UInt8.ofNat_toNat
    refine ⟨index, rfl, show Opcode.ofByte? (Opcode.firstSpecial + index) = none from ?_⟩
    simpa only [hindex] using hall ⟨index.toNat - 32, by omega⟩
  | _ => exact absurd trivial h

theorem opcode_inj {i j : Instruction} (hi : i.isEncodable) (hj : j.isEncodable)
    (h : i.opcode.byte = j.opcode.byte) : i.opcode = j.opcode := by
  by_cases hivalid : i.IsValid <;> by_cases hjvalid : j.IsValid
  · exact Option.some.inj (by
      rw [← Opcode.ofByte?_byte hivalid, ← Opcode.ofByte?_byte hjvalid, h])
  · obtain ⟨index, -, hnone⟩ := exists_special_of_not_isValid hj hjvalid
    rw [← h, Opcode.ofByte?_byte hivalid] at hnone
    simp at hnone
  · obtain ⟨index, -, hnone⟩ := exists_special_of_not_isValid hi hivalid
    rw [h, Opcode.ofByte?_byte hjvalid] at hnone
    simp at hnone
  · obtain ⟨a, ha, -⟩ := exists_special_of_not_isValid hi hivalid
    obtain ⟨b, hb, -⟩ := exists_special_of_not_isValid hj hjvalid
    rw [ha, hb] at h ⊢
    rw [(UInt8.add_right_inj Opcode.firstSpecial).mp h]

/-- An encoding is not the beginning of another one. -/
theorem encode_append_inj {i j : Instruction} (hi : i.isEncodable) (hj : j.isEncodable)
    {rest rest' : List UInt8} (h : i.encode ++ rest = j.encode ++ rest') : i = j ∧ rest = rest' := by
  simp only [encode, List.cons_append, List.cons.injEq] at h
  have hopcode := opcode_inj hi hj h.1
  have hread := ofOperands?_operands_append i rest
  rw [h.2, hopcode, ofOperands?_operands_append] at hread
  obtain rfl := Option.some.inj hread
  exact ⟨rfl, List.append_cancel_left h.2⟩

theorem bytesOf_inj {code code' : List Instruction} (hcode : ∀ i ∈ code, i.isEncodable)
    (hcode' : ∀ i ∈ code', i.isEncodable) (h : bytesOf code = bytesOf code') : code = code' := by
  induction code generalizing code' with
  | nil =>
    cases code' with
    | nil => rfl
    | cons j code' => simp [encode] at h
  | cons i code ih =>
    cases code' with
    | nil => simp [encode] at h
    | cons j code' =>
      obtain ⟨rfl, hrest⟩ := encode_append_inj (hcode i (by simp)) (hcode' j (by simp)) h
      rw [ih (fun k hk => hcode k (by simp [hk])) (fun k hk => hcode' k (by simp [hk])) hrest]

/-- A program is read back from its bytes, up to their end, each instruction as wide as its bytes. The
instructions read of any bytes, up to where there is none, have the bytes read as theirs. No two
programs have the same bytes. -/
theorem encodeAll_decodeFrom :
    (∀ code : List Instruction, (∀ i ∈ code, i.IsValid) → ∃ bytes, encodeAll code = .ok bytes ∧
      decodeFrom bytes 0 = located 0 code ∧ endOf (decodeFrom bytes 0) = bytes.length) ∧
    (∀ i : Instruction, i.encode.length = i.width) ∧
    (∀ bytes : List UInt8, decode? bytes (endOf (decodeFrom bytes 0)) = none ∧
      encodeAll ((decodeFrom bytes 0).map Prod.snd) =
        .ok (bytes.take (endOf (decodeFrom bytes 0)))) ∧
    ∀ (code code' : List Instruction) (bytes : List UInt8), encodeAll code = .ok bytes →
      encodeAll code' = .ok bytes → code = code' := by
  refine ⟨fun code hvalid => ?_, length_encode, fun bytes => ?_, fun code code' bytes h h' => ?_⟩
  · have hbytes : (bytesOf code).drop 0 = bytesOf code ++ [] := by simp
    have hlocated := decodeFrom_eq_located hvalid hbytes rfl
    refine ⟨bytesOf code, encodeAll_eq_ok_iff.mpr ⟨fun i hi => (hvalid i hi).isEncodable, rfl⟩,
      hlocated, ?_⟩
    rw [hlocated, endOf_located_zero]
  · obtain ⟨code, rest, hvalid, hlocated, hbytes, hend⟩ := exists_decodeFrom bytes 0
    rw [List.drop_zero] at hbytes
    rw [hlocated, endOf_located_zero, map_snd_located, hbytes, decode?, List.drop_left,
      List.take_left]
    exact ⟨hend, encodeAll_eq_ok_iff.mpr ⟨fun i hi => (hvalid i hi).isEncodable, rfl⟩⟩
  · obtain ⟨hcode, rfl⟩ := encodeAll_eq_ok_iff.mp h
    obtain ⟨hcode', hbytes⟩ := encodeAll_eq_ok_iff.mp h'
    exact bytesOf_inj hcode hcode' hbytes

/-- A loop that compares a temporary and goes on backwards. -/
def shortLoop : List Instruction :=
  [.push .temporary 0, .constant .two, .special 2, .longJump .ifTrue (-7), .methodReturn .self]

theorem shortLoop_readBack : ∃ bytes, encodeAll shortLoop = .ok bytes ∧
    decodeFrom bytes 0 = located 0 shortLoop ∧ endOf (decodeFrom bytes 0) = bytes.length :=
  encodeAll_decodeFrom.1 shortLoop (by simp [shortLoop, IsValid, Opcode.IsValid, opcode])

end Instruction

end ObjectMachine

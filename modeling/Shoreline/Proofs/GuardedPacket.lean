import Shoreline.Proofs.Guarded

/-!
# Packets read with every access checked

The fields of a header stand at fixed places, and one test of the length comes before all of them.

* `Guarded.header_eq`   headers of Data Packets;
* `Guarded.info_eq`     Info Packets;
* `Guarded.packet_eq`   whole packets.
-/

namespace Shoreline.Guarded

/-! ## Fields -/

def wordAt (i : Nat) (b : Bytes) : Except Stop UInt16 := do
  let lo ← byteAt i b
  let hi ← byteAt (i + 1) b
  .ok (word lo hi)

theorem wordAt_eq {i : Nat} {b : Bytes} (h : i + 1 < b.length) :
    wordAt i b = .ok (Shoreline.wordAt i b) := by
  rw [wordAt, byteAt_eq (Nat.lt_of_succ_lt h), ok_bind, byteAt_eq h, ok_bind]
  rfl

/-- serial, profile and packet number -/
def ids (b : Bytes) : Except Stop (UInt16 × UInt16 × UInt16) := do
  let serial ← wordAt 0 b
  let profile ← wordAt 2 b
  let packet ← wordAt 4 b
  .ok (serial, profile, packet)

theorem ids_eq {b : Bytes} (h : 6 ≤ b.length) :
    ids b = .ok (Shoreline.wordAt 0 b, Shoreline.wordAt 2 b, Shoreline.wordAt 4 b) := by
  rw [ids, wordAt_eq (by omega), ok_bind, wordAt_eq (by omega), ok_bind, wordAt_eq (by omega),
    ok_bind]

def pushDigit (v : Nat) (c : UInt8) : Except Stop Nat := do
  let d ← minus c.toNat 48
  .ok (v * 10 + d)

def number (field : Field) (b : Bytes) : Except Stop Nat :=
  if b ≠ [] ∧ b.all isDigit then b.foldlM pushDigit 0 else .error (.fault (.malformed field))

theorem number_eq (field : Field) (b : Bytes) : number field b = lift (field.number b) := by
  rw [number, Field.number, value?]
  split
  next h =>
    have hdigit : ∀ v, ∀ c ∈ b, True → pushDigit v c = .ok (v * 10 + (c.toNat - 48)) := by
      intro v c hc _
      have hc := (isDigit_iff c).mp (List.all_eq_true.mp h.2 c hc)
      rw [pushDigit, minus_eq hc.1, ok_bind]
    exact (foldlM_ok (fun _ => True) b hdigit (fun _ _ _ => trivial) trivial).1
  · rfl

theorem part_number (field : Field) (i n : Nat) {b : Bytes} (h : i + n ≤ b.length) :
    (part i (i + n) b >>= number field) = lift (field.number (slice i n b)) := by
  rw [part_eq n rfl h, ok_bind, number_eq]

/-- what a reader asks for before it looks at its first bytes -/
theorem length_take_lt_iff (n : Nat) (b : Bytes) : (b.take n).length < n ↔ b.length < n := by
  rw [List.length_take]
  omega

/-! ## Info Packets -/

def parseClass (b : Bytes) (s : Sensor) : Except Stop Nat := do
  let i := InfoPacket.offset s
  let items ← part i (i + 4) b >>= number .classItems
  let packets ← part (i + 4) (i + 8) b >>= number .classPackets
  if s.packetsFor items = packets then .ok items else .error (.fault (.malformed .classPackets))

theorem parseClass_eq {b : Bytes} (h : InfoPacket.size ≤ b.length) (s : Sensor) :
    parseClass b s = lift (InfoPacket.parseClass b s) := by
  have hend := Nat.le_trans (InfoPacket.offset_le s) h
  rw [parseClass, InfoPacket.parseClass, part_number _ _ 4 (by omega),
    part_number _ (InfoPacket.offset s + 4) 4 (by omega)]
  refine bind_lift fun items _ => bind_lift fun packets _ => ?_
  split <;> rfl

def info (b : Bytes) : Except Stop InfoPacket := do
  if b.length < InfoPacket.size then .error (.fault (.truncated InfoPacket.size b.length))
  else
    let (serial, profile, packet) ← ids b
    if packet ≠ 0 then .error (.fault (.malformed .infoPacketNumber))
    else
      let starboard ← parseClass b .starboard
      let port ← parseClass b .port
      let ocr ← parseClass b .ocr
      let mcoms ← parseClass b .mcoms
      .ok ⟨serial, profile, ⟨⟨starboard, port, ocr, mcoms⟩⟩⟩

theorem info_eq (b : Bytes) : info b = lift (InfoPacket.parse b) := by
  rw [info, InfoPacket.parse]
  simp only [length_take_lt_iff]
  by_cases hlen : b.length < InfoPacket.size
  · rw [if_pos hlen, if_pos hlen, lift_error]
  have hle := Nat.le_of_not_lt hlen
  rw [if_neg hlen, if_neg hlen, ids_eq (Nat.le_trans (by decide) hle), ok_bind]
  dsimp only
  split
  · rfl
  · simp only [parseClass_eq hle]
    exact bind_lift fun starboard _ => bind_lift fun port _ => bind_lift fun ocr _ =>
      bind_lift fun mcoms _ => rfl

/-! ## Data Packets -/

/-- the stage that the letter at position `i` names -/
def letter {α : Type} (stage : StageLetter) (ofCode? : UInt8 → Option α) (i : Nat) (b : Bytes) :
    Except Stop α := do
  let c ← byteAt i b
  lift (stageLetter stage ofCode? c)

theorem letter_eq {α : Type} (stage : StageLetter) (ofCode? : UInt8 → Option α) {i : Nat}
    {b : Bytes} (h : i < b.length) :
    letter stage ofCode? i b = lift (stageLetter stage ofCode? (b.getD i 0)) := by
  rw [letter, byteAt_eq h, ok_bind]

def header (b : Bytes) : Except Stop DataHeader := do
  if b.length < DataHeader.size then .error (.fault (.truncated DataHeader.size b.length))
  else
    let (serial, profile, packet) ← ids b
    if packet = 0 then .error (.fault (.malformed .dataPacketNumber))
    else
      let code ← byteAt 6 b
      let sensor ← lift (Sensor.parse code)
      let sensorId ← part 8 18 b
      let items ← part 18 22 b >>= number .itemCount
      let representation ← letter .representation Representation.ofCode? 22 b
      let noise ← letter .noise Noise.ofCode? 23 b
      let compression ← letter .compression Compression.ofCode? 24 b
      let encoding ← letter .encoding Encoding.ofCode? 25 b
      let compressed ← part 26 32 b >>= number .compressedSize
      let encoded ← part 32 38 b >>= number .encodedSize
      .ok {
        serial, profile, packet, sensor
        sensorId := .ofBytes sensorId
        itemCount := UInt16.ofNat items
        stages := ⟨representation, noise, compression, encoding⟩
        compressedSize := UInt32.ofNat compressed
        encodedSize := UInt32.ofNat encoded }

theorem header_eq (b : Bytes) : header b = lift (DataHeader.parse b) := by
  rw [header, DataHeader.parse]
  simp only [length_take_lt_iff]
  by_cases hlen : b.length < DataHeader.size
  · rw [if_pos hlen, if_pos hlen, lift_error]
  have hle : 38 ≤ b.length := Nat.le_of_not_lt hlen
  rw [if_neg hlen, if_neg hlen, ids_eq (Nat.le_trans (by decide) hle), ok_bind]
  dsimp only
  split
  · rfl
  rw [byteAt_eq (by omega), ok_bind, part_eq 10 rfl (by omega), part_number _ 18 4 (by omega),
    letter_eq _ _ (by omega), letter_eq _ _ (by omega), letter_eq _ _ (by omega),
    letter_eq _ _ (by omega), part_number _ 26 6 (by omega), part_number _ 32 6 (by omega)]
  refine bind_lift fun sensor _ => ?_
  rw [ok_bind]
  refine bind_lift fun items _ => ?_
  rw [Stages.parse, bind_assoc]
  refine bind_lift fun representation _ => ?_
  rw [bind_assoc]
  refine bind_lift fun noise _ => ?_
  rw [bind_assoc]
  refine bind_lift fun compression _ => ?_
  rw [bind_assoc]
  exact bind_lift fun encoding _ => bind_lift fun compressed _ => bind_lift fun encoded _ => rfl

def data (b : Bytes) : Except Stop DataPacket := do
  let header ← header b
  let needed := DataHeader.size + header.encodedSize.toNat
  if b.length < needed then .error (.fault (.truncated needed b.length))
  else
    let body ← part DataHeader.size needed b
    let payload ← payload (.ofSensor header.sensor) header.stages header.payloadSize body
    .ok ⟨header, payload⟩

theorem data_eq (b : Bytes) : data b = lift (DataPacket.decode b) := by
  rw [data, DataPacket.decode, header_eq]
  refine bind_lift fun header hheader => ?_
  obtain ⟨-, -, hbits⟩ := DataHeader.of_parse hheader
  obtain ⟨hsize, -⟩ := DataHeader.front_of_parse hheader
  have hbody : (slice DataHeader.size header.encodedSize.toNat b).length <
      header.encodedSize.toNat ↔ b.length < DataHeader.size + header.encodedSize.toNat := by
    rw [slice, List.length_take, List.length_drop]
    omega
  dsimp only
  simp only [hbody]
  by_cases hlen : b.length < DataHeader.size + header.encodedSize.toNat
  · rw [if_pos hlen, if_pos hlen, lift_error]
  rw [if_neg hlen, if_neg hlen, part_eq _ rfl (Nat.le_of_not_lt hlen), ok_bind,
    payload_eq (Layout.itemSize_ofSensor_pos _) hbits]
  exact bind_lift fun payload _ => rfl

def packet (b : Bytes) : Except Stop Packet := do
  if b.length < 6 then .error (.fault (.truncated 6 b.length))
  else
    let (_, _, number) ← ids b
    if number = 0 then (info b).map .info else (data b).map .data

theorem packet_eq (b : Bytes) : packet b = lift (Packet.decode b) := by
  rw [packet, Packet.decode]
  simp only [length_take_lt_iff]
  by_cases hlen : b.length < 6
  · rw [if_pos hlen, if_pos hlen, lift_error]
  rw [if_neg hlen, if_neg hlen, ids_eq (Nat.le_of_not_lt hlen), ok_bind]
  dsimp only
  split
  · rw [info_eq, map_lift]
  · rw [data_eq, map_lift]

end Shoreline.Guarded

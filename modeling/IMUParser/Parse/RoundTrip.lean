import IMUParser.Codec.FakeData
import IMUParser.Parse.FirstHeader

/-!
# From the encoder to the receiver

Four conversions stand between the driver's packet and what a receiver unpacks: `createFakePacket`
writes the words with `htonl`, `parsePacket` reads them with `memcpy` and `ntohl` into a struct with
a signed count, `sendto` sends the image of the struct, and `struct.unpack` reads it in native
order. On a host of either byte order they cancel, whatever bytes follow the frame
(`encode_parse_unpack`).

The buffer's size is cast to `int` first. From `2 ^ 31` bytes on the cast can leave nothing to scan,
and the frame is not found (`not_roundTrips`).

## Main definitions

* `RoundTrips`, `Reencodes`.

## Main results

* `parsePacket_of_isPrefix`, `parsePacket_of_staticCastInt_le`: a buffer that starts with the
  header.
* `encode_parse_unpack`.
-/

namespace IMUParser

open Words

variable {o : ByteOrder} {le : Bool} {buffer : List UInt8} {position : UInt8}

/-! ### Buffers of any size that start with the header -/

/-- A scan of at least one index finds a header that starts the buffer. -/
theorem findHeader_of_isPrefix (hheader : header <+: buffer)
    (hsize : headerSize < staticCastInt buffer.length) :
    findHeader buffer position = .ok (true, 0) := by
  have hlen := hheader.length_le
  have hcast := staticCastInt_lt buffer.length
  rw [findHeader_of_le hlen, subInt_eq (by simp only [headerSize] at hsize ⊢; omega), ok_bind]
  exact findHeaderLoop_of_firstAt (firstAt_zero hheader)
    (by simp only [headerSize] at hsize ⊢; omega)

/-- **A frame at the start of the buffer is parsed**, if the size of the buffer, as an `int`, leaves
an index to scan. -/
theorem parsePacket_of_isPrefix (o : ByteOrder) (le : Bool) (position : UInt8)
    (hheader : header <+: buffer) (hlen : 20 ≤ buffer.length)
    (hsize : headerSize < staticCastInt buffer.length) :
    parsePacket o le buffer position = .ok ⟨readPacket o le buffer 0, true, [], 0⟩ := by
  unfold parsePacket
  rw [findHeader_of_isPrefix hheader hsize]
  simp only [ok_bind, if_true, sizeT_position, UInt8.toNat_zero, Nat.zero_add]
  rw [if_pos hlen, copyFields_eq (by omega)]
  rfl

/-- If the size of the buffer, as an `int`, leaves no index to scan, nothing is found. -/
theorem parsePacket_of_staticCastInt_le (hlen : headerSize ≤ buffer.length)
    (hlow : -2 ^ 31 + 4 ≤ staticCastInt buffer.length) (hsize : staticCastInt buffer.length ≤ 4) :
    parsePacket o le buffer position = .ok ⟨.zero, false, buffer, position⟩ := by
  have hbound : (staticCastInt buffer.length - headerSize).toNat = 0 := by
    simp only [headerSize]
    omega
  have hnone : findHeader buffer position = .ok (false, position) := by
    rw [findHeader_of_le hlen, subInt_eq (by simp only [headerSize]; omega), ok_bind, hbound,
      findHeaderLoop]
  unfold parsePacket
  rw [hnone]
  rfl

/-! ### The round trip -/

/-- The packet comes back from the encoder, the parser, the datagram and the receiver, and it is
what the bytes of the frame say. -/
def RoundTrips (o : ByteOrder) (P : Packet) (trailing : List UInt8) (position : UInt8) : Prop :=
  ∃ r, parsePacket o (littleEndian o) (createFakePacket o P.count P.x P.y P.z ++ trailing)
      position = .ok r ∧ r.found = true ∧ unpackNative o (r.packet.image o) = some P ∧
    packetAt (createFakePacket o P.count P.x P.y P.z) 0 = P

/-- The packet that is parsed from the bytes is encoded as these bytes. -/
def Reencodes (o : ByteOrder) (buffer : List UInt8) (position : UInt8) : Prop :=
  ∃ r, parsePacket o (littleEndian o) buffer position = .ok r ∧ r.found = true ∧
    createFakePacket o r.packet.toPacket.count r.packet.toPacket.x r.packet.toPacket.y
      r.packet.toPacket.z = buffer

theorem roundTrips_of_lt (o : ByteOrder) (P : Packet) (trailing : List UInt8) (position : UInt8)
    (hsize : headerSize < staticCastInt (packetSize + trailing.length)) :
    RoundTrips o P trailing position := by
  have hlen : (P.frame ++ trailing).length = packetSize + trailing.length := by
    simp [packetSize]
  have hlong : 20 ≤ (P.frame ++ trailing).length := hlen ▸ Nat.le_add_right _ _
  have hparse := parsePacket_of_isPrefix o (littleEndian o) position
    (header_prefix_frame P trailing) hlong (hlen ▸ hsize)
  simp only [RoundTrips, createFakePacket_eq_frame]
  refine ⟨_, hparse, rfl, ?_, ?_⟩
  · rw [readPacket_littleEndian (by simp), packetAt_frame, unpackNative_image,
      Packet.toPacket_toParsed]
  · simpa using packetAt_frame (m := []) P

theorem reencodes (o : ByteOrder) (position : UInt8) (hlen : buffer.length = 20)
    (hheader : header <+: buffer) : Reencodes o buffer position := by
  have hsize : headerSize < staticCastInt buffer.length := by rw [hlen]; decide
  refine ⟨_, parsePacket_of_isPrefix o _ position hheader hlen.ge hsize, rfl, ?_⟩
  rw [createFakePacket_eq_frame, readPacket_littleEndian (by omega), Packet.toPacket_toParsed]
  exact frame_packetAt hlen hheader

/-- **The codec.** On a host of either byte order, with its flag, every packet makes the round trip,
whatever follows its frame, as long as the size of the buffer leaves the scan an index as an `int`;
and every frame is the encoding of the packet parsed from it. -/
theorem encode_parse_unpack (o : ByteOrder) (position : UInt8) :
    (∀ P trailing, headerSize < staticCastInt (packetSize + trailing.length) →
      RoundTrips o P trailing position) ∧
    ∀ buffer, buffer.length = 20 → header <+: buffer → Reencodes o buffer position :=
  ⟨fun P trailing hsize => roundTrips_of_lt o P trailing position hsize,
    fun _ hlen hheader => reencodes o position hlen hheader⟩

/-- A count above `2 ^ 31` and a payload with a header in it. -/
theorem encode_parse_unpack_little :
    RoundTrips .little ⟨0x80000001, 0x7FF01CAF, 3, 0xFFC00000⟩ [9, 0x7F] 5 ∧
      Reencodes .little (header ++ List.replicate 16 0xAF) 5 :=
  ⟨(encode_parse_unpack .little 5).1 _ _ (by decide),
    (encode_parse_unpack .little 5).2 _ (by decide) (by decide)⟩

/-- With `2 ^ 31` bytes behind the frame, the size is negative as an `int`. -/
theorem not_roundTrips : ¬ RoundTrips .little ⟨1, 2, 3, 4⟩ (List.replicate (2 ^ 31) 0) 0 := by
  generalize htrailing : List.replicate (2 ^ 31) (0 : UInt8) = trailing
  have hlen : trailing.length = 2 ^ 31 := by rw [← htrailing, List.length_replicate]
  rintro ⟨r, hr, hfound, -⟩
  rw [createFakePacket_eq_frame, parsePacket_of_staticCastInt_le] at hr
  · obtain rfl := Except.ok.inj hr
    exact absurd hfound Bool.false_ne_true
  all_goals rw [List.length_append, Packet.length_frame, hlen]; decide

end IMUParser

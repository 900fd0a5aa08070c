import IMUParser.Library.ByteOrder
import IMUParser.Library.Occurrence

/-!
# Packets, frames and the memory of the host

An IMU packet is a count and three gyro rates. On the serial port it is a *frame* of 20 bytes: the
header `7F F0 1C AF` and the four words in network byte order. In the parser it is a
`ParsedPacket`, with the words in the byte order of the host, whose memory image is what the parser
broadcasts. A `float` is only ever copied, so it is its bit pattern here.

Source: `IMU_Parser/src/parse_functions.h`; `htonl` and `ntohl` of `<arpa/inet.h>`; the format
`'I 3f'` of `IMU_Driver/LoopTester.py` and `IMU_Driver/DummyReceiver.py`.

## Main definitions

* `header`, `Packet`, `Packet.frame`: packets and their frames.
* `ParsedPacket`, `ParsedPacket.image`, `unpackNative`: the packet in the parser, the datagram, and
  the receiver's reading of it.
* `htonl`, `ntohl`, `littleEndian`.

## Main results

* `header_unbordered`: the header cannot overlap with itself.
* `unpackNative_image`: the receiver reads what the parser holds.
-/

namespace IMUParser

/-! ### The header -/

/-- `HEADER1` to `HEADER4`, as the `int` constants that the bytes are compared with. -/
def headerBytes : List ℤ := [0x7F, 0xF0, 0x1C, 0xAF]

/-- `HEADER_SIZE`. -/
def headerSize : ℕ := 4

/-- `PACKET_SIZE`. -/
def packetSize : ℕ := 20

/-- The four bytes that start a frame. -/
def header : List UInt8 := [0x7F, 0xF0, 0x1C, 0xAF]

@[simp] theorem length_header : header.length = 4 := rfl

theorem header_ne_nil : header ≠ [] := by decide

/-- The header cannot overlap with itself. -/
theorem header_unbordered : Words.Unbordered header := by decide

/-! ### Words of the host -/

/-- The bit pattern of a `float`. -/
abbrev FloatBits := UInt32

/-- `htonl` on a host of byte order `o`. -/
def htonl (o : ByteOrder) (v : UInt32) : UInt32 := o.networkWord v

/-- `ntohl` on a host of byte order `o`. -/
def ntohl (o : ByteOrder) (v : UInt32) : UInt32 := o.networkWord v

/-- The probe of `main`: the first byte of the `int` 1 is 1. -/
def littleEndian (o : ByteOrder) : Bool := (o.storeWord 1).head? == some 1

/-- The probe finds the byte order of the host. -/
theorem littleEndian_eq_true_iff (o : ByteOrder) : littleEndian o = true ↔ o = .little := by
  cases o <;> decide

@[simp] theorem littleEndian_little : littleEndian .little = true := by decide

@[simp] theorem littleEndian_big : littleEndian .big = false := by decide

/-! ### Packets and frames -/

/-- A packet: a count and the bit patterns of the gyro rates. -/
structure Packet where
  count : UInt32
  x : FloatBits
  y : FloatBits
  z : FloatBits
  deriving DecidableEq, Repr

namespace Packet

/-- The payload of a frame: the four words in network byte order. -/
def payload (P : Packet) : List UInt8 :=
  ByteOrder.big.storeWord P.count ++ ByteOrder.big.storeWord P.x ++
    ByteOrder.big.storeWord P.y ++ ByteOrder.big.storeWord P.z

/-- The frame of a packet. -/
def frame (P : Packet) : List UInt8 := header ++ P.payload

@[simp] theorem length_payload (P : Packet) : P.payload.length = 16 := by simp [payload]

@[simp] theorem length_frame (P : Packet) : P.frame.length = 20 := by simp [frame]

end Packet

theorem header_prefix_frame (P : Packet) (m : List UInt8) : header <+: P.frame ++ m := by
  rw [Packet.frame, List.append_assoc]
  exact List.prefix_append _ _

/-- The first header behind noise without a header is that of the frame. -/
theorem firstAt_noise {noise : List UInt8} (hnoise : ∀ i, ¬ Words.OccursAt header noise i)
    (P : Packet) (trailing : List UInt8) :
    Words.FirstAt header (noise ++ (P.frame ++ trailing)) noise.length :=
  header_unbordered.firstAt_append (header_prefix_frame P trailing) hnoise

/-- Zero bytes are noise without a header. -/
theorem not_occursAt_header_replicate (n i : ℕ) :
    ¬ Words.OccursAt header (List.replicate n 0) i :=
  Words.not_occursAt_replicate (b := 0x7F) (by decide) (by decide) n i

/-- The word that the four bytes from the index `i` on hold in network byte order. -/
def wordAt (bytes : List UInt8) (i : ℕ) : UInt32 := ByteOrder.big.loadWord ((bytes.drop i).take 4)

/-- The packet of the frame that starts at the index `i`. -/
def packetAt (bytes : List UInt8) (i : ℕ) : Packet where
  count := wordAt bytes (i + 4)
  x := wordAt bytes (i + 8)
  y := wordAt bytes (i + 12)
  z := wordAt bytes (i + 16)

section PacketAt

variable {l m : List UInt8} {i : ℕ}

theorem take_drop_append (h : i + 4 ≤ l.length) :
    ((l ++ m).drop i).take 4 = (l.drop i).take 4 := by
  rw [List.drop_append_of_le_length (by omega), List.take_append_of_le_length (by simp; omega)]

theorem packetAt_append (h : i + 20 ≤ l.length) : packetAt (l ++ m) i = packetAt l i := by
  simp only [packetAt, wordAt, Packet.mk.injEq]
  refine ⟨?_, ?_, ?_, ?_⟩ <;> rw [take_drop_append (by omega)]

@[simp] theorem packetAt_append_length_add : packetAt (l ++ m) (l.length + i) = packetAt m i := by
  simp only [packetAt, wordAt, Nat.add_assoc, List.drop_length_add_append]

theorem packetAt_drop (k : ℕ) : packetAt (l.drop k) i = packetAt l (k + i) := by
  simp only [packetAt, wordAt, List.drop_drop, Nat.add_assoc]

/-- Four words in a row, read one by one. -/
theorem take_drop_words {a b c d : List UInt8} (ha : a.length = 4) (hb : b.length = 4)
    (hc : c.length = 4) (hd : d.length = 4) :
    (a ++ b ++ c ++ d ++ m).take 4 = a ∧ ((a ++ b ++ c ++ d ++ m).drop 4).take 4 = b ∧
      ((a ++ b ++ c ++ d ++ m).drop 8).take 4 = c ∧
      ((a ++ b ++ c ++ d ++ m).drop 12).take 4 = d := by
  have hdrop {w : List UInt8} (hw : w.length = 4) {k : ℕ} (hk : 4 ≤ k) : w.drop k = [] :=
    List.drop_of_length_le (by omega)
  simp [List.drop_append, ha, hb, hc, hd, hdrop]

theorem packetAt_frame (P : Packet) : packetAt (P.frame ++ m) 0 = P := by
  have hdrop (k : ℕ) : (P.frame ++ m).drop (0 + (4 + k)) = (P.payload ++ m).drop k := by
    rw [Packet.frame, List.append_assoc, Nat.zero_add, ← length_header,
      List.drop_length_add_append]
  obtain ⟨hcount, hx, hy, hz⟩ := take_drop_words (m := m) (ByteOrder.big.length_storeWord P.count)
    (ByteOrder.big.length_storeWord P.x) (ByteOrder.big.length_storeWord P.y)
    (ByteOrder.big.length_storeWord P.z)
  simp only [packetAt, wordAt]
  rw [hdrop 0, hdrop 4, hdrop 8, hdrop 12, Packet.payload, List.drop_zero, hcount, hx, hy, hz]
  simp only [ByteOrder.loadWord_storeWord]

/-- A frame behind any bytes carries its packet. -/
theorem packetAt_append_frame (P : Packet) : packetAt (l ++ (P.frame ++ m)) l.length = P := by
  have h := packetAt_append_length_add (l := l) (m := P.frame ++ m) (i := 0)
  rwa [Nat.add_zero, packetAt_frame] at h

theorem storeWord_wordAt (h : i + 4 ≤ l.length) :
    ByteOrder.big.storeWord (wordAt l i) = (l.drop i).take 4 :=
  ByteOrder.big.storeWord_loadWord (by simp; omega)

/-- Encoding the packet of 20 bytes that start with the header gives back the bytes. -/
theorem frame_packetAt (hl : l.length = 20) (hheader : header <+: l) :
    (packetAt l 0).frame = l := by
  have hhead : header = l.take 4 := by simpa using List.prefix_iff_eq_take.mp hheader
  have hcut (k : ℕ) : l.drop k = (l.drop k).take 4 ++ l.drop (k + 4) := by
    rw [← List.drop_drop, List.take_append_drop]
  have hnil : l.drop 20 = [] := List.drop_of_length_le hl.le
  simp only [Packet.frame, Packet.payload, packetAt, Nat.zero_add]
  rw [storeWord_wordAt (by omega), storeWord_wordAt (by omega), storeWord_wordAt (by omega),
    storeWord_wordAt (by omega), hhead]
  conv_rhs => rw [← List.take_append_drop 4 l, hcut 4, hcut 8, hcut 12, hcut 16, hnil]
  simp only [List.append_assoc, List.append_nil]

/-- The payload of the frame at an index, as bytes. -/
theorem payload_packetAt (h : i + 20 ≤ l.length) :
    (packetAt l i).payload = (l.drop (i + 4)).take 16 := by
  have hcut (k n : ℕ) : (l.drop k).take (4 + n) = (l.drop k).take 4 ++ (l.drop (k + 4)).take n := by
    rw [List.take_add, List.drop_drop]
  simp only [Packet.payload, packetAt]
  rw [storeWord_wordAt (by omega), storeWord_wordAt (by omega), storeWord_wordAt (by omega),
    storeWord_wordAt (by omega), hcut (i + 4) 12, hcut (i + 8) 8, hcut (i + 12) 4]
  simp only [List.append_assoc]

theorem Packet.payload_injective : Function.Injective Packet.payload := by
  intro P Q h
  have hframe : P.frame = Q.frame := congrArg (header ++ ·) h
  rw [← packetAt_frame (m := []) P, hframe, packetAt_frame]

/-- Two frames carry the same packet when their payloads agree. -/
theorem packetAt_eq_iff {j : ℕ} (hi : i + 20 ≤ l.length) (hj : j + 20 ≤ l.length) :
    packetAt l i = packetAt l j ↔ (l.drop (i + 4)).take 16 = (l.drop (j + 4)).take 16 := by
  rw [← payload_packetAt hi, ← payload_packetAt hj, Packet.payload_injective.eq_iff]

end PacketAt

/-! ### Parsed packets and datagrams -/

/-- `struct ParsedPacket`. -/
structure ParsedPacket where
  packetCount : Int32
  xGyroRate : FloatBits
  yGyroRate : FloatBits
  zGyroRate : FloatBits
  deriving DecidableEq, Repr

namespace ParsedPacket

/-- The value-initialised `ParsedPacket packet{}`. -/
def zero : ParsedPacket := ⟨0, 0, 0, 0⟩

/-- The 16 bytes of the struct in memory; there is no padding. -/
def image (o : ByteOrder) (p : ParsedPacket) : List UInt8 :=
  o.storeWord p.packetCount.toUInt32 ++ o.storeWord p.xGyroRate ++
    o.storeWord p.yGyroRate ++ o.storeWord p.zGyroRate

@[simp] theorem length_image (o : ByteOrder) (p : ParsedPacket) : (p.image o).length = 16 := by
  simp [image]

/-- The packet, with its count read as the unsigned number of the same bits. -/
def toPacket (p : ParsedPacket) : Packet :=
  ⟨p.packetCount.toUInt32, p.xGyroRate, p.yGyroRate, p.zGyroRate⟩

end ParsedPacket

/-- The packet as the parser holds it, the count in a signed `int`. -/
def Packet.toParsed (P : Packet) : ParsedPacket := ⟨P.count.toInt32, P.x, P.y, P.z⟩

@[simp] theorem Packet.toPacket_toParsed (P : Packet) : P.toParsed.toPacket = P := rfl

theorem Packet.toParsed_injective : Function.Injective Packet.toParsed :=
  Function.LeftInverse.injective Packet.toPacket_toParsed

/-- The datagram that carries a packet. -/
def datagram (o : ByteOrder) (P : Packet) : List UInt8 := P.toParsed.image o

/-- `struct.unpack('I 3f', data)`: the data must be 16 bytes long, and is read in native order;
`none` stands for `struct.error`. The floats are the bit patterns read: a signalling NaN is handed
on unchanged here. -/
def unpackNative (o : ByteOrder) (data : List UInt8) : Option Packet :=
  if data.length = 16 then
    some ⟨o.loadWord (data.take 4), o.loadWord ((data.drop 4).take 4),
      o.loadWord ((data.drop 8).take 4), o.loadWord ((data.drop 12).take 4)⟩
  else none

/-- **The receiver reads what the parser holds.** -/
@[simp] theorem unpackNative_image (o : ByteOrder) (p : ParsedPacket) :
    unpackNative o (p.image o) = some p.toPacket := by
  obtain ⟨hcount, hx, hy, hz⟩ := take_drop_words (m := [])
    (o.length_storeWord p.packetCount.toUInt32) (o.length_storeWord p.xGyroRate)
    (o.length_storeWord p.yGyroRate) (o.length_storeWord p.zGyroRate)
  rw [List.append_nil] at hcount hx hy hz
  rw [unpackNative, if_pos (p.length_image o), ParsedPacket.image, hcount, hx, hy, hz]
  simp only [ByteOrder.loadWord_storeWord, ParsedPacket.toPacket]

end IMUParser

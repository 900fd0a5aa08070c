import IMUParser.Codec.Packet

/-!
# The encoder of the driver

`createFakePacket` of `IMU_Parser/test/fake_data_extern.cpp` pushes the header and then, for the
count and each gyro rate, the four bytes of the word that `htonl` gives. The gyro rates are random
there; here they are arguments. On a host of either byte order the result is the frame of the
packet (`createFakePacket_eq_frame`).
-/

namespace IMUParser

/-- Push the bytes of `htonl(v)` as they stand in memory. -/
def pushNetworkWord (o : ByteOrder) (packet : List UInt8) (v : UInt32) : List UInt8 :=
  packet ++ o.storeWord (htonl o v)

/-- `createFakePacket(count)`, with the gyro rates drawn. -/
def createFakePacket (o : ByteOrder) (count : UInt32) (xGyroRate yGyroRate zGyroRate : FloatBits) :
    List UInt8 :=
  let packet := [0x7F, 0xF0, 0x1C, 0xAF]
  let packet := pushNetworkWord o packet count
  let packet := pushNetworkWord o packet xGyroRate
  let packet := pushNetworkWord o packet yGyroRate
  pushNetworkWord o packet zGyroRate

/-- **The encoder.** Whatever the byte order of the host, the bytes are the frame of the packet. -/
theorem createFakePacket_eq_frame (o : ByteOrder) (count : UInt32) (x y z : FloatBits) :
    createFakePacket o count x y z = (⟨count, x, y, z⟩ : Packet).frame := by
  simp only [createFakePacket, pushNetworkWord, htonl, ByteOrder.storeWord_networkWord,
    Packet.frame, Packet.payload, header, List.append_assoc]

end IMUParser

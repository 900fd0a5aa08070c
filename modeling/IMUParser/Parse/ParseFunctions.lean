import Mathlib.Data.Int.Order.Basic
import IMUParser.Codec.Packet

/-!
# `findHeader` and `parsePacket`

The two functions of `IMU_Parser/src/parse_functions.cpp`, with every access to the buffer checked.
An access outside the buffer and an overflow of `int`, which C++ leaves undefined, are the errors of
`Fault`; that none is reached is a theorem, not part of the model.

The buffer is the `std::vector<uint8_t>` as a list, `position` is the `uint8_t` behind the pointer,
passed in and returned.

## Main definitions

* `Fault`, `byteAt`, `memcpyWord`, `staticCastInt`, `subInt`, `sizeT`: checked accesses and the
  integer conversions of the source.
* `findHeader`, `parsePacket`.
-/

namespace IMUParser

/-! ### Memory accesses and integer conversions -/

/-- Undefined behaviour of the source. -/
inductive Fault
  | outOfRange (index size : ℕ)
  | signedOverflow
  deriving DecidableEq, Repr

@[simp] theorem ok_bind {α β : Type} (a : α) (f : α → Except Fault β) :
    (Except.ok a >>= f) = f a := rfl

theorem bind_eq_ok_iff {α β : Type} {x : Except Fault α} {f : α → Except Fault β} {b : β} :
    (x >>= f) = .ok b ↔ ∃ a, x = .ok a ∧ f a = .ok b := by
  cases x with
  | error => exact ⟨nofun, fun ⟨_, ha, _⟩ => nomatch ha⟩
  | ok a => simp

/-- `buffer[i]`. -/
def byteAt (buffer : List UInt8) (i : ℕ) : Except Fault UInt8 :=
  match buffer[i]? with
  | some b => .ok b
  | none => .error (.outOfRange i buffer.length)

/-- The word that `memcpy(&field, &buffer[i], 4)` leaves in a field. -/
def memcpyWord (o : ByteOrder) (buffer : List UInt8) (i : ℕ) : Except Fault UInt32 :=
  if i + 4 ≤ buffer.length then .ok (o.loadWord ((buffer.drop i).take 4))
  else .error (.outOfRange (i + 3) buffer.length)

/-- `static_cast<int>` of a size, which keeps the low 32 bits. -/
def staticCastInt (n : ℕ) : ℤ := Int.bmod n (2 ^ 32)

/-- The difference of two `int`s. -/
def subInt (a b : ℤ) : Except Fault ℤ :=
  if -2 ^ 31 ≤ a - b ∧ a - b < 2 ^ 31 then .ok (a - b) else .error .signedOverflow

/-- An `int` compared with a `size_t` is converted to it. -/
def sizeT (a : ℤ) : ℕ := (a % 2 ^ 64).toNat

/-! ### `findHeader` -/

/-- The chain `buffer[i] == h₁ && buffer[i + 1] == h₂ && …`, which stops at the first byte that
differs; `promote` is the conversion of an element to `int`. -/
def matchesAt (promote : UInt8 → ℤ) (buffer : List UInt8) : List ℤ → ℕ → Except Fault Bool
  | [], _ => .ok true
  | h :: hs, i => do
    let b ← byteAt buffer i
    if promote b = h then matchesAt promote buffer hs (i + 1) else .ok false

/-- The promotion of a `uint8_t`. -/
def promoteUnsigned (b : UInt8) : ℤ := b.toNat

/-- The `for` loop of `findHeader` with `k` iterations to go, the index being `i`. -/
def findHeaderLoop (promote : UInt8 → ℤ) (dataBuffer : List UInt8) (position : UInt8) :
    ℕ → ℕ → Except Fault (Bool × UInt8)
  | 0, _ => .ok (false, position)
  | k + 1, i => do
    if ← matchesAt promote dataBuffer headerBytes i then
      .ok (true, UInt8.ofNat i)
    else
      findHeaderLoop promote dataBuffer position k (i + 1)

/-- `findHeader(dataBuffer, position)`: whether a header was found, and `*position`. -/
def findHeader (dataBuffer : List UInt8) (position : UInt8) : Except Fault (Bool × UInt8) := do
  if dataBuffer.length < headerSize then
    return (false, position)
  let bound ← subInt (staticCastInt dataBuffer.length) headerSize
  findHeaderLoop promoteUnsigned dataBuffer position bound.toNat 0

/-! ### `parsePacket` -/

/-- What `parsePacket` returns and leaves behind. -/
structure ParseResult where
  packet : ParsedPacket
  found : Bool
  dataBuffer : List UInt8
  position : UInt8
  deriving DecidableEq, Repr

/-- The four `memcpy`s from the fields of the frame at `position`. -/
def copyFields (o : ByteOrder) (dataBuffer : List UInt8) (position : ℕ) :
    Except Fault ParsedPacket := do
  let packetCount ← memcpyWord o dataBuffer (position + 4)
  let xGyroRate ← memcpyWord o dataBuffer (position + 8)
  let yGyroRate ← memcpyWord o dataBuffer (position + 12)
  let zGyroRate ← memcpyWord o dataBuffer (position + 16)
  return ⟨packetCount.toInt32, xGyroRate, yGyroRate, zGyroRate⟩

/-- The conversion of every field with `ntohl`. -/
def ParsedPacket.ntohl (o : ByteOrder) (packet : ParsedPacket) : ParsedPacket where
  packetCount := (IMUParser.ntohl o packet.packetCount.toUInt32).toInt32
  xGyroRate := IMUParser.ntohl o packet.xGyroRate
  yGyroRate := IMUParser.ntohl o packet.yGyroRate
  zGyroRate := IMUParser.ntohl o packet.zGyroRate

/-- `parsePacket(dataBuffer, position, little_endian)` on a host of byte order `o`. -/
def parsePacket (o : ByteOrder) (littleEndian : Bool) (dataBuffer : List UInt8)
    (position : UInt8) : Except Fault ParseResult := do
  let (headerFound, position) ← findHeader dataBuffer position
  if headerFound then
    if sizeT (position.toNat + packetSize) ≤ dataBuffer.length then
      let packet ← copyFields o dataBuffer position.toNat
      let packet := if littleEndian then packet.ntohl o else packet
      return ⟨packet, true, [], 0⟩
  return ⟨.zero, false, dataBuffer, position⟩

end IMUParser

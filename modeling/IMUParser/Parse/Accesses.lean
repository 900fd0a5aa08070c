import IMUParser.Parse.FirstHeader

/-!
# The accesses of `findHeader` and `parsePacket`

For a buffer shorter than `2 ^ 31` no access of `findHeader` and `parsePacket` lies outside the
buffer, whatever the position on entry:

* the loop of `findHeader` stops four indices before the end of the buffer, and its bound, the
  difference of a converted size and `HEADER_SIZE`, is computed without overflow;
* `parsePacket` compares the size with the stored position and not with the index at which the
  header was found, so the copies are in range also where the two differ.

## Main definitions

* `AccessesInRange`.

## Main results

* `accessesInRange`.
-/

namespace IMUParser

variable {o : ByteOrder} {buffer : List UInt8} {stored : UInt8} {i k : ℕ}

/-- The offsets of the fields that `parsePacket` copies. -/
def fieldOffsets : List ℕ := [4, 8, 12, 16]

/-- The indices that `findHeader` and `parsePacket` use are computed without overflow and
wrap-around, and every access lies inside the buffer. -/
structure AccessesInRange (o : ByteOrder) (le : Bool) (buffer : List UInt8)
    (position : UInt8) : Prop where
  /-- The bound of the loop, in `int`, is the exact difference. -/
  bound_eq : headerSize ≤ buffer.length →
    subInt (staticCastInt buffer.length) headerSize = .ok ((buffer.length - headerSize : ℕ) : ℤ)
  /-- An iteration at `i` may compare the four bytes from `i` on. -/
  scan : ∀ bound, headerSize ≤ buffer.length →
    subInt (staticCastInt buffer.length) headerSize = .ok bound →
      ∀ i : ℕ, (i : ℤ) < bound → ∀ k < headerSize,
        i + k < buffer.length ∧ ∃ b, byteAt buffer (i + k) = .ok b
  findHeader_ok : ∃ r, findHeader buffer position = .ok r
  /-- The sum compared with the size, for any stored position. -/
  sum_eq : ∀ stored : UInt8, stored.toNat + packetSize < 2 ^ 31 ∧
    sizeT (stored.toNat + packetSize) = stored.toNat + packetSize
  /-- The copies behind the comparison, at the position that `findHeader` stored. -/
  fields : ∀ stored, findHeader buffer position = .ok (true, stored) →
    sizeT (stored.toNat + packetSize) ≤ buffer.length → ∀ offset ∈ fieldOffsets,
      stored.toNat + offset + 4 ≤ buffer.length ∧
        ∃ w, memcpyWord o buffer (stored.toNat + offset) = .ok w
  parsePacket_ok : ∃ r, parsePacket o le buffer position = .ok r

/-- An iteration below the bound has four bytes to compare. -/
theorem exists_byteAt_of_lt (hi : i < buffer.length - headerSize) (hk : k < headerSize) :
    i + k < buffer.length ∧ ∃ b, byteAt buffer (i + k) = .ok b := by
  have hlt : i + k < buffer.length := by omega
  exact ⟨hlt, _, byteAt_of_lt hlt⟩

/-- Every field of a frame lies inside it. -/
theorem add_four_le_packetSize {offset : ℕ} (h : offset ∈ fieldOffsets) :
    offset + 4 ≤ packetSize := by
  revert offset
  decide

theorem exists_memcpyWord_of_le {offset : ℕ} (hlen : stored.toNat + packetSize ≤ buffer.length)
    (hoffset : offset ∈ fieldOffsets) :
    stored.toNat + offset + 4 ≤ buffer.length ∧
      ∃ w, memcpyWord o buffer (stored.toNat + offset) = .ok w := by
  have hfit := add_four_le_packetSize hoffset
  have hle : stored.toNat + offset + 4 ≤ buffer.length := by omega
  exact ⟨hle, _, memcpyWord_of_le hle⟩

/-- **Every access is in range.** For every buffer shorter than `2 ^ 31`, every position on entry,
either flag and either byte order. -/
theorem accessesInRange (o : ByteOrder) (le : Bool) (position : UInt8)
    (hn : buffer.length < 2 ^ 31) : AccessesInRange o le buffer position where
  bound_eq h := subInt_headerSize hn h
  scan bound h hbound i hi k hk := by
    obtain rfl := Except.ok.inj ((subInt_headerSize hn h).symm.trans hbound)
    exact exists_byteAt_of_lt (Int.ofNat_lt.mp hi) hk
  findHeader_ok := ⟨_, findHeader_eq hn⟩
  sum_eq stored := by
    have hstored := stored.toNat_lt
    refine ⟨?_, sizeT_position stored⟩
    simp only [packetSize]
    omega
  fields stored _ hlen offset hoffset := by
    rw [sizeT_position] at hlen
    exact exists_memcpyWord_of_le hlen hoffset
  parsePacket_ok := ⟨_, parsePacket_eq hn⟩

/-- The header of the frame is found at 256 and its index stored as 0. -/
theorem accessesInRange_frame :
    AccessesInRange .little true (List.replicate 256 0 ++ (⟨1, 2, 3, 4⟩ : Packet).frame) 9 :=
  accessesInRange .little true 9 (by decide +kernel)

end IMUParser

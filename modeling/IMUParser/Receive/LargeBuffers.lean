import IMUParser.Receive.Composition

/-!
# Buffers that outgrow an `int`

`findHeader` converts the size of the buffer to `int`, and nothing bounds `inputBuffer` while no
packet is found. This file says what happens at every size. The size is reduced modulo
`2 ^ 32`; at four residues the bound of the loop overflows, from `2 ^ 31 + 4` on it is negative, and
beyond `2 ^ 32` the scan covers the front of the buffer only.

So a parser that has read more than `2 ^ 31 + 3` bytes without finding a packet is deaf: it keeps
whatever it reads, complete frames included, for the next `2 ^ 31` bytes (`whileLoop_deaf`).

## Main definitions

* `scannedHeader?`: the first header, where the scan covers it.

## Main results

* `findHeader_of_length`, `parsePacket_of_length`.
* `whileLoop_deaf`.
-/

namespace IMUParser

open Words

variable {o : ByteOrder} {le : Bool} {buffer : List UInt8} {p : ℕ}

/-! ### The conversion of the size -/

/-- The size as an `int`, by its residue. -/
theorem staticCastInt_cases (n : ℕ) :
    (n % 2 ^ 32 < 2 ^ 31 ∧ staticCastInt n = (n % 2 ^ 32 : ℕ)) ∨
      (2 ^ 31 ≤ n % 2 ^ 32 ∧ staticCastInt n = (n % 2 ^ 32 : ℕ) - (2 ^ 32 : ℤ)) := by
  have h : staticCastInt n = Int.bmod n (2 ^ 32) := rfl
  rw [Int.bmod_def] at h
  split_ifs at h <;> omega

theorem staticCastInt_le (n : ℕ) : staticCastInt n ≤ n := by
  have hmod := Nat.mod_le n (2 ^ 32)
  rcases staticCastInt_cases n with ⟨-, h⟩ | ⟨-, h⟩ <;> omega

/-- The bound of the loop overflows at four residues of the size. -/
theorem subInt_overflow_iff (n : ℕ) :
    ¬ (-2 ^ 31 ≤ staticCastInt n - headerSize ∧ staticCastInt n - headerSize < 2 ^ 31) ↔
      2 ^ 31 ≤ n % 2 ^ 32 ∧ n % 2 ^ 32 < 2 ^ 31 + 4 := by
  simp only [headerSize]
  rcases staticCastInt_cases n with ⟨hmod, h⟩ | ⟨hmod, h⟩ <;> omega

/-! ### `findHeader` -/

/-- The first header, if the scan of `findHeader` covers it. -/
def scannedHeader? (buffer : List UInt8) : Option ℕ :=
  (firstIndex? header buffer).filter fun p =>
    decide (((p + headerSize : ℕ) : ℤ) < staticCastInt buffer.length)

theorem scannedHeader?_eq_some_iff : scannedHeader? buffer = some p ↔
    FirstAt header buffer p ∧ ((p + 4 : ℕ) : ℤ) < staticCastInt buffer.length := by
  rw [scannedHeader?, Option.filter_eq_some_iff, firstIndex?_eq_some_iff header_ne_nil,
    decide_eq_true_iff, headerSize]

theorem not_occursAt_of_scannedHeader?_eq_none {i : ℕ} (h : scannedHeader? buffer = none)
    (hi : ((i + 4 : ℕ) : ℤ) < staticCastInt buffer.length) : ¬ OccursAt header buffer i := by
  intro hocc
  obtain ⟨p, hpi, hp⟩ := hocc.exists_firstAt
  rw [scannedHeader?_eq_some_iff.mpr ⟨hp, by omega⟩] at h
  exact absurd h (by simp)

/-- A size of at most four, as an `int`, leaves nothing to scan. -/
theorem scannedHeader?_eq_none (h : staticCastInt buffer.length ≤ 4) :
    scannedHeader? buffer = none := by
  refine Option.eq_none_iff_forall_ne_some.mpr fun p hp => ?_
  have hlt := (scannedHeader?_eq_some_iff.mp hp).2
  omega

/-- **`findHeader` at every size.** For all buffers, of whatever size: the bound of the loop
overflows at four residues of the size modulo `2 ^ 32`; otherwise the header found is the first one,
if it lies in the part of the buffer that the size as an `int` covers and does not end it. -/
theorem findHeader_of_length (buffer : List UInt8) (position : UInt8) :
    findHeader buffer position =
      if 2 ^ 31 ≤ buffer.length % 2 ^ 32 ∧ buffer.length % 2 ^ 32 < 2 ^ 31 + 4 then
        .error .signedOverflow
      else .ok (match scannedHeader? buffer with
        | some p => (true, UInt8.ofNat p)
        | none => (false, position)) := by
  rcases lt_or_ge buffer.length headerSize with hshort | hlen
  · have hle := staticCastInt_le buffer.length
    simp only [headerSize] at hshort
    rw [if_neg (by omega), scannedHeader?_eq_none (by omega)]
    unfold findHeader
    exact if_pos hshort
  · have hle := staticCastInt_le buffer.length
    rw [findHeader_of_le hlen]
    split_ifs with hoverflow
    · rw [subInt, if_neg ((subInt_overflow_iff _).mpr hoverflow)]
      rfl
    · rw [subInt, if_pos (not_not.mp (mt (subInt_overflow_iff _).mp hoverflow)), ok_bind,
        headerSize]
      cases hscan : scannedHeader? buffer with
      | some p =>
        obtain ⟨hfirst, hp⟩ := scannedHeader?_eq_some_iff.mp hscan
        exact findHeaderLoop_of_firstAt hfirst (by omega)
      | none =>
        refine findHeaderLoop_of_forall fun j _ hj => ?_
        rw [matchesAt_header (by omega),
          decide_eq_false (not_occursAt_of_scannedHeader?_eq_none hscan (by omega))]

/-- **`parsePacket` at every size.** For all buffers, of whatever size: unless the bound of the loop
overflows, the frame at the index modulo 256 of the first header that the scan covers is read if it
is complete, and the buffer is kept otherwise. -/
theorem parsePacket_of_length (o : ByteOrder) (le : Bool) (buffer : List UInt8)
    (position : UInt8) :
    parsePacket o le buffer position =
      if 2 ^ 31 ≤ buffer.length % 2 ^ 32 ∧ buffer.length % 2 ^ 32 < 2 ^ 31 + 4 then
        .error .signedOverflow
      else .ok (match scannedHeader? buffer with
        | some p =>
          if p % 256 + 20 ≤ buffer.length then ⟨readPacket o le buffer (p % 256), true, [], 0⟩
          else ⟨.zero, false, buffer, UInt8.ofNat p⟩
        | none => ⟨.zero, false, buffer, position⟩) := by
  rw [parsePacket_eq_map, findHeader_of_length]
  by_cases hoverflow : 2 ^ 31 ≤ buffer.length % 2 ^ 32 ∧ buffer.length % 2 ^ 32 < 2 ^ 31 + 4
  · rw [if_pos hoverflow, if_pos hoverflow]
    rfl
  · rw [if_neg hoverflow, if_neg hoverflow, Except.map]
    cases scannedHeader? buffer with
    | none => rfl
    | some p => simp only [parsedFrom, true_and, toNat_ofNat_mod]

/-! ### The parser process -/

/-- A buffer of such a size is kept with what is appended to it. -/
theorem loopBody_deaf (o : ByteOrder) (le : Bool) (index : UInt8) {bytes : List UInt8}
    (pos : 0 < bytes.length) (h128 : bytes.length ≤ 128)
    (hge : 2 ^ 31 + 4 ≤ (buffer ++ bytes).length) (hle : (buffer ++ bytes).length ≤ 2 ^ 32 + 4) :
    loopBody o le buffer index (.data bytes pos h128) = .ok (.next (buffer ++ bytes) index) := by
  have hnone : scannedHeader? (buffer ++ bytes) = none := by
    refine scannedHeader?_eq_none ?_
    rcases staticCastInt_cases (buffer ++ bytes).length with ⟨hmod, h⟩ | ⟨hmod, h⟩ <;> omega
  have hfind : findHeader (buffer ++ bytes) index = .ok (false, index) := by
    rw [findHeader_of_length, if_neg (by omega), hnone]
  rw [loopBody, parsePacket_eq_map, hfind]
  rfl

/-- **Deafness.** A call that starts with a buffer of `2 ^ 31 + 4` bytes or more keeps all that it
reads, whatever it is, up to a size of `2 ^ 32 + 4`, and broadcasts nothing. -/
theorem whileLoop_deaf (o : ByteOrder) (le : Bool) (buffer : List UInt8) (index : UInt8)
    (reads : List ReadResult) (hge : 2 ^ 31 + 4 ≤ buffer.length)
    (hle : (buffer ++ delivered reads).length ≤ 2 ^ 32 + 4) :
    whileLoop o le buffer index reads = .ok (.waiting (buffer ++ delivered reads) index) := by
  induction reads generalizing buffer with
  | nil => rw [whileLoop, delivered, payloads, List.flatten_nil, List.append_nil]
  | cons r reads ih =>
    cases r with
    | empty => exact ih buffer hge hle
    | fail => exact ih buffer hge hle
    | data bytes pos h128 =>
      rw [delivered_data_cons, ← List.append_assoc] at hle ⊢
      have hge' : 2 ^ 31 + 4 ≤ (buffer ++ bytes).length :=
        hge.trans (List.length_append ▸ Nat.le_add_right _ _)
      have hle' : (buffer ++ bytes).length ≤ 2 ^ 32 + 4 := by
        rw [List.length_append] at hle
        omega
      rw [whileLoop, loopBody_deaf o le index pos h128 hge' hle']
      exact ih (buffer ++ bytes) hge' hle

/-- A complete frame behind `2 ^ 31 + 4` zero bytes is not found. -/
theorem whileLoop_deaf_frame :
    whileLoop .little true (List.replicate (2 ^ 31 + 4) 0) 0
        [.data (⟨1, 2, 3, 4⟩ : Packet).frame (by decide) (by decide)] =
      .ok (.waiting (List.replicate (2 ^ 31 + 4) 0 ++
        delivered [.data (⟨1, 2, 3, 4⟩ : Packet).frame (by decide) (by decide)]) 0) := by
  refine whileLoop_deaf .little true _ 0 _ ?_ ?_
  · rw [List.length_replicate]
  · rw [List.length_append, List.length_replicate]
    decide

end IMUParser

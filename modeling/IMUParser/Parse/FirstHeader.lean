import IMUParser.Parse.ParseFunctions

/-!
# What `findHeader` and `parsePacket` compute

For a buffer shorter than `2 ^ 31` no access of `findHeader` and `parsePacket` is undefined, and
both are determined by the first header of the buffer.

* `findHeader` reports the first header unless it ends the buffer: the loop stops one index short.
  It stores the index modulo 256 (`findHeader_eq`).
* `parsePacket` therefore accepts a first header at `p < 256` once the whole frame is there, and one
  at `p ≥ 256` as soon as one byte follows it; in both cases it reads the frame at `p % 256`
  (`parsePacket_eq`).

## Main definitions

* `visibleHeader?`, `acceptedAt?`: the first header, where `findHeader` and `parsePacket` see it.
* `neededLength`, `readPacket`.

## Main results

* `findHeader_eq`, `parsePacket_eq`.
* `readPacket_littleEndian`: with the flag of the host the packet read is the one of the frame.
-/

namespace IMUParser

open Words

variable {o : ByteOrder} {le : Bool} {buffer : List UInt8} {position : UInt8} {i k p : ℕ}

/-! ### The comparison with the header -/

theorem byteAt_of_lt (h : i < buffer.length) : byteAt buffer i = .ok buffer[i] := by
  rw [byteAt, List.getElem?_eq_getElem h]

/-- A chain of comparisons that fits into the buffer tests for an occurrence. -/
theorem matchesAt_map {promote : UInt8 → ℤ} (hinj : Function.Injective promote) :
    (w : List UInt8) → (i : ℕ) → i + w.length ≤ buffer.length →
      matchesAt promote buffer (w.map promote) i = .ok (decide (OccursAt w buffer i))
  | [], i, _ => by simp [matchesAt, OccursAt]
  | b :: w, i, h => by
      have hi : i < buffer.length := by rw [List.length_cons] at h; omega
      have ih := matchesAt_map hinj w (i + 1) (by rw [List.length_cons] at h; omega)
      simp only [List.map_cons, matchesAt, byteAt_of_lt hi, ih, occursAt_cons_iff hi, ok_bind,
        hinj.eq_iff, eq_comm (a := b)]
      by_cases hb : buffer[i] = b <;> simp [hb]

theorem promoteUnsigned_injective : Function.Injective promoteUnsigned :=
  fun _ _ h => UInt8.toNat_inj.mp (Int.ofNat_inj.mp h)

theorem matchesAt_header (h : i + 4 ≤ buffer.length) :
    matchesAt promoteUnsigned buffer headerBytes i = .ok (decide (OccursAt header buffer i)) :=
  matchesAt_map promoteUnsigned_injective header i h

/-! ### The scan -/

section Scan

variable {promote : UInt8 → ℤ}

/-- The loop stops at the first index that matches. -/
theorem findHeaderLoop_of_match (hip : i ≤ p) (hpk : p < i + k)
    (hmiss : ∀ j, i ≤ j → j < p → matchesAt promote buffer headerBytes j = .ok false)
    (hhit : matchesAt promote buffer headerBytes p = .ok true) :
    findHeaderLoop promote buffer position k i = .ok (true, UInt8.ofNat p) := by
  induction k generalizing i with
  | zero => omega
  | succ k ih =>
    rw [findHeaderLoop]
    rcases hip.eq_or_lt with rfl | hlt
    · rw [hhit]; rfl
    · rw [hmiss i le_rfl hlt]
      exact ih (by omega) (by omega) fun j hij => hmiss j (by omega)

/-- The loop runs to its end when no index matches. -/
theorem findHeaderLoop_of_forall
    (hmiss : ∀ j, i ≤ j → j < i + k → matchesAt promote buffer headerBytes j = .ok false) :
    findHeaderLoop promote buffer position k i = .ok (false, position) := by
  induction k generalizing i with
  | zero => rfl
  | succ k ih =>
    rw [findHeaderLoop, hmiss i le_rfl (by omega)]
    exact ih fun j hij hjk => hmiss j (by omega) (by omega)

end Scan

/-- A scan of enough indices stops at the first header. -/
theorem findHeaderLoop_of_firstAt (h : FirstAt header buffer p) (hp : p < k) :
    findHeaderLoop promoteUnsigned buffer position k 0 = .ok (true, UInt8.ofNat p) := by
  have hfit := h.occursAt.add_length_le header_ne_nil
  rw [length_header] at hfit
  refine findHeaderLoop_of_match (Nat.zero_le p) (by omega) (fun j _ hj => ?_) ?_
  · rw [matchesAt_header (by omega), decide_eq_false (h.not_occursAt j hj)]
  · rw [matchesAt_header hfit, decide_eq_true h.occursAt]

/-- The first header, where the scan of `findHeader` can see it: a byte must follow it. -/
def visibleHeader? (buffer : List UInt8) : Option ℕ :=
  (firstIndex? header buffer).filter fun p => decide (p + headerSize < buffer.length)

theorem visibleHeader?_eq_some_iff :
    visibleHeader? buffer = some p ↔ FirstAt header buffer p ∧ p + 4 < buffer.length := by
  rw [visibleHeader?, Option.filter_eq_some_iff, firstIndex?_eq_some_iff header_ne_nil,
    decide_eq_true_iff, headerSize]

theorem not_occursAt_of_visibleHeader?_eq_none (h : visibleHeader? buffer = none)
    (hi : i + 4 < buffer.length) : ¬ OccursAt header buffer i := by
  intro hocc
  obtain ⟨p, hpi, hp⟩ := hocc.exists_firstAt
  rw [visibleHeader?_eq_some_iff.mpr ⟨hp, by omega⟩] at h
  exact absurd h (by simp)

theorem staticCastInt_of_lt {n : ℕ} (hn : n < 2 ^ 31) : staticCastInt n = n := by
  refine Int.bmod_eq_of_le ?_ ?_ <;> omega

theorem staticCastInt_lt (n : ℕ) : staticCastInt n < 2 ^ 31 :=
  Int.bmod_lt (x := n) (m := 2 ^ 32) (by decide)

theorem subInt_eq {a b : ℤ} (h : -2 ^ 31 ≤ a - b ∧ a - b < 2 ^ 31) : subInt a b = .ok (a - b) :=
  if_pos h

/-- The bound of the loop does not overflow. -/
theorem subInt_headerSize (hn : buffer.length < 2 ^ 31) (h : headerSize ≤ buffer.length) :
    subInt (staticCastInt buffer.length) headerSize =
      .ok ((buffer.length - headerSize : ℕ) : ℤ) := by
  have hsub : ((buffer.length - headerSize : ℕ) : ℤ) = buffer.length - headerSize := Nat.cast_sub h
  rw [staticCastInt_of_lt hn, hsub]
  refine subInt_eq ?_
  omega

/-- A buffer with room for a header is scanned up to the bound computed from its size. -/
theorem findHeader_of_le (h : headerSize ≤ buffer.length) :
    findHeader buffer position = subInt (staticCastInt buffer.length) headerSize >>= fun bound =>
      findHeaderLoop promoteUnsigned buffer position bound.toNat 0 := by
  unfold findHeader
  exact if_neg (not_lt.mpr h)

/-- **`findHeader`.** It finds the first header, unless the header ends the buffer, and stores its
index in eight bits. -/
theorem findHeader_eq (hn : buffer.length < 2 ^ 31) :
    findHeader buffer position =
      .ok (match visibleHeader? buffer with
        | some p => (true, UInt8.ofNat p)
        | none => (false, position)) := by
  rcases lt_or_ge buffer.length headerSize with hshort | hlen
  · have hnone : visibleHeader? buffer = none := by
      refine Option.eq_none_iff_forall_ne_some.mpr fun p hp => ?_
      have hlt := (visibleHeader?_eq_some_iff.mp hp).2
      simp only [headerSize] at hshort
      omega
    unfold findHeader
    rw [if_pos hshort, hnone]
    rfl
  · rw [findHeader_of_le hlen, subInt_headerSize hn hlen, ok_bind, Int.toNat_natCast, headerSize]
    cases hvis : visibleHeader? buffer with
    | some p =>
      obtain ⟨hfirst, hp⟩ := visibleHeader?_eq_some_iff.mp hvis
      exact findHeaderLoop_of_firstAt hfirst (by omega)
    | none =>
      refine findHeaderLoop_of_forall fun j _ hj => ?_
      rw [matchesAt_header (by omega),
        decide_eq_false (not_occursAt_of_visibleHeader?_eq_none hvis (by omega))]

/-! ### The packet -/

/-- The fields as `memcpy` leaves them, in the byte order of the host. -/
def rawPacket (o : ByteOrder) (buffer : List UInt8) (i : ℕ) : ParsedPacket where
  packetCount := (o.loadWord ((buffer.drop (i + 4)).take 4)).toInt32
  xGyroRate := o.loadWord ((buffer.drop (i + 8)).take 4)
  yGyroRate := o.loadWord ((buffer.drop (i + 12)).take 4)
  zGyroRate := o.loadWord ((buffer.drop (i + 16)).take 4)

/-- The packet that `parsePacket` reads from the frame at the index `i`. -/
def readPacket (o : ByteOrder) (le : Bool) (buffer : List UInt8) (i : ℕ) : ParsedPacket :=
  if le then (rawPacket o buffer i).ntohl o else rawPacket o buffer i

theorem memcpyWord_of_le (h : i + 4 ≤ buffer.length) :
    memcpyWord o buffer i = .ok (o.loadWord ((buffer.drop i).take 4)) :=
  if_pos h

theorem copyFields_eq (h : i + 20 ≤ buffer.length) :
    copyFields o buffer i = .ok (rawPacket o buffer i) := by
  rw [copyFields, memcpyWord_of_le (by omega), memcpyWord_of_le (by omega),
    memcpyWord_of_le (by omega), memcpyWord_of_le (by omega)]
  rfl

theorem readPacket_append {m : List UInt8} (h : i + 20 ≤ buffer.length) :
    readPacket o le (buffer ++ m) i = readPacket o le buffer i := by
  have hraw : rawPacket o (buffer ++ m) i = rawPacket o buffer i := by
    simp only [rawPacket, ParsedPacket.mk.injEq]
    refine ⟨?_, ?_, ?_, ?_⟩ <;> rw [take_drop_append (by omega)]
  simp only [readPacket, hraw]

/-- **The byte order.** With the flag of the host, the packet is the one of the frame. -/
theorem readPacket_littleEndian (h : i + 20 ≤ buffer.length) :
    readPacket o (littleEndian o) buffer i = (packetAt buffer i).toParsed := by
  have hlen {j : ℕ} (hj : j + 4 ≤ buffer.length) : ((buffer.drop j).take 4).length = 4 := by
    simp; omega
  cases o with
  | little =>
    simp only [readPacket, littleEndian_little, if_true, rawPacket, ParsedPacket.ntohl, ntohl,
      UInt32.toUInt32_toInt32, Packet.toParsed, packetAt, wordAt]
    rw [ByteOrder.networkWord_loadWord _ (hlen (by omega)),
      ByteOrder.networkWord_loadWord _ (hlen (by omega)),
      ByteOrder.networkWord_loadWord _ (hlen (by omega)),
      ByteOrder.networkWord_loadWord _ (hlen (by omega))]
  | big => rfl

/-- The length at which `parsePacket` accepts a buffer whose first header is at `p`. -/
def neededLength (p : ℕ) : ℕ := if p < 256 then p + packetSize else p + headerSize + 1

theorem neededLength_of_lt (h : p < 256) : neededLength p = p + 20 := if_pos h

theorem neededLength_of_le (h : 256 ≤ p) : neededLength p = p + 5 := if_neg (by omega)

theorem neededLength_le (p : ℕ) : neededLength p ≤ p + 20 := by
  simp only [neededLength, packetSize, headerSize]
  split_ifs <;> omega

/-- The frame that is read lies inside the accepted buffer. -/
theorem mod_add_le_neededLength (p : ℕ) : p % 256 + 20 ≤ neededLength p := by
  simp only [neededLength, packetSize, headerSize]
  split_ifs <;> omega

/-- The first header, where `parsePacket` accepts it. -/
def acceptedAt? (buffer : List UInt8) : Option ℕ :=
  (firstIndex? header buffer).filter fun p => decide (neededLength p ≤ buffer.length)

theorem acceptedAt?_eq_some_iff :
    acceptedAt? buffer = some p ↔ FirstAt header buffer p ∧ neededLength p ≤ buffer.length := by
  rw [acceptedAt?, Option.filter_eq_some_iff, firstIndex?_eq_some_iff header_ne_nil,
    decide_eq_true_iff]

theorem acceptedAt?_eq_none_iff :
    acceptedAt? buffer = none ↔ ∀ p, FirstAt header buffer p → buffer.length < neededLength p := by
  rw [Option.eq_none_iff_forall_ne_some]
  simp only [ne_eq, acceptedAt?_eq_some_iff, not_and, not_le]

theorem toNat_ofNat_mod (p : ℕ) : (UInt8.ofNat p).toNat = p % 256 := UInt8.toNat_ofNat'

theorem sizeT_position (b : UInt8) : sizeT (b.toNat + packetSize) = b.toNat + 20 := by
  have hb := b.toNat_lt
  simp only [sizeT, packetSize]
  omega

/-- The test of the length on the stored index accepts as `neededLength` says. -/
theorem mod_add_le_iff (hp : p + 4 < buffer.length) :
    p % 256 + 20 ≤ buffer.length ↔ neededLength p ≤ buffer.length := by
  simp only [neededLength, packetSize, headerSize]
  split_ifs <;> omega

/-- **`parsePacket`.** It accepts the first header once the buffer has the length that the index
needs, reads the frame at the index modulo 256 and clears the buffer; otherwise it changes at most
the position. -/
theorem parsePacket_eq (hn : buffer.length < 2 ^ 31) :
    parsePacket o le buffer position =
      .ok (match acceptedAt? buffer with
        | some p => ⟨readPacket o le buffer (p % 256), true, [], 0⟩
        | none => ⟨.zero, false, buffer, (visibleHeader? buffer).elim position UInt8.ofNat⟩) := by
  unfold parsePacket
  rw [findHeader_eq hn]
  cases hvis : visibleHeader? buffer with
  | none =>
    have hnone : acceptedAt? buffer = none := by
      refine acceptedAt?_eq_none_iff.mpr fun p hp => ?_
      have hneeded := mod_add_le_neededLength p
      by_contra hlt
      refine not_occursAt_of_visibleHeader?_eq_none hvis ?_ hp.occursAt
      simp only [neededLength, packetSize, headerSize] at hlt
      split_ifs at hlt <;> omega
    rw [hnone]
    rfl
  | some p =>
    obtain ⟨hfirst, hp⟩ := visibleHeader?_eq_some_iff.mp hvis
    simp only [ok_bind, if_true, sizeT_position]
    rw [toNat_ofNat_mod]
    by_cases hlen : p % 256 + 20 ≤ buffer.length
    · rw [if_pos hlen, copyFields_eq hlen,
        acceptedAt?_eq_some_iff.mpr ⟨hfirst, (mod_add_le_iff hp).mp hlen⟩]
      rfl
    · have hnone : acceptedAt? buffer = none := by
        refine acceptedAt?_eq_none_iff.mpr fun q hq => ?_
        rw [hq.eq hfirst, ← not_le]
        exact mt (mod_add_le_iff hp).mpr hlen
      rw [if_neg hlen, hnone]
      rfl

end IMUParser

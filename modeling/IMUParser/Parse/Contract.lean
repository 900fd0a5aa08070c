import IMUParser.Parse.FirstHeader

/-!
# The specifications of `findHeader` and `parsePacket`

By the README, `findHeader` "will find the first occurrence of the start header" and "sets the
position at the start of the packet", and `parsePacket` copies the fields from there. So
`findHeader` should report whether the buffer contains a header and store the index of the first
one. And `parsePacket` should accept a buffer exactly when its first header starts a complete frame,
and then give the packet of that frame; otherwise it should leave the buffer as it is and give the
zero packet.

The scan stops one index short, so `findHeader` misses a header that ends the buffer; no frame is
complete there, and `parsePacket` does not suffer. The position is stored in eight bits, so both
fail for a first header at the index 256 or later. `findsFirstHeader_iff` and
`parsesAsSpecified_iff` say for which buffers they do what they should.

## Main definitions

* `FindSpec`, `FindsFirstHeader`.
* `HeaderInScan`: the buffers whose first header lies where the scan and the position reach it.
* `CompleteAt`, `ParseSpec`, `ParsesAsSpecified`.
* `PositionSuffices`: the buffers on which eight bits of position do no harm.

## Main results

* `findsFirstHeader_iff`, `not_findsFirstHeader`.
* `parsesAsSpecified_iff`, `not_parsesAsSpecified`.
-/

namespace IMUParser

open Words

variable {o : ByteOrder} {buffer : List UInt8} {position : UInt8} {p : ℕ}

/-! ### `findHeader` -/

/-- What `findHeader` should return and leave in `*position`, which is `position` on entry. -/
structure FindSpec (buffer : List UInt8) (position : UInt8) (r : Bool × UInt8) : Prop where
  found_iff : r.1 = true ↔ ∃ i, OccursAt header buffer i
  firstAt_of_found : r.1 = true → FirstAt header buffer r.2.toNat
  position_of_not_found : r.1 = false → r.2 = position

/-- `findHeader` does what it should. -/
def FindsFirstHeader (buffer : List UInt8) (position : UInt8) : Prop :=
  ∃ r, findHeader buffer position = .ok r ∧ FindSpec buffer position r

/-- The first header, if there is one, is at an index below 256 and does not end the buffer. -/
def HeaderInScan (buffer : List UInt8) : Prop :=
  ∀ p, FirstAt header buffer p → p < 256 ∧ p + headerSize < buffer.length

/-- A header that the scan sees is reported as specified when its index fits into eight bits. -/
theorem findSpec_found_iff (h : visibleHeader? buffer = some p) :
    FindSpec buffer position (true, UInt8.ofNat p) ↔ p < 256 := by
  obtain ⟨hfirst, -⟩ := visibleHeader?_eq_some_iff.mp h
  constructor
  · intro hspec
    have hstored : FirstAt header buffer (p % 256) := by
      simpa only [toNat_ofNat_mod] using hspec.firstAt_of_found rfl
    have hmod : p % 256 = p := hstored.eq hfirst
    omega
  · intro hp
    refine ⟨iff_of_true rfl ⟨p, hfirst.occursAt⟩, fun _ => ?_, nofun⟩
    rwa [toNat_ofNat_mod, Nat.mod_eq_of_lt hp]

/-- A scan that sees no header is right when there is none. -/
theorem findSpec_not_found_iff :
    FindSpec buffer position (false, position) ↔ ∀ i, ¬ OccursAt header buffer i := by
  constructor
  · intro hspec i hi
    exact absurd (hspec.found_iff.mpr ⟨i, hi⟩) (by simp)
  · intro hnot
    exact ⟨iff_of_false (by simp) fun ⟨i, hi⟩ => hnot i hi, nofun, fun _ => rfl⟩

/-- **When `findHeader` does what it should.** For every buffer shorter than `2 ^ 31` and every
position on entry. -/
theorem findsFirstHeader_iff (hn : buffer.length < 2 ^ 31) :
    FindsFirstHeader buffer position ↔ HeaderInScan buffer := by
  rw [FindsFirstHeader, findHeader_eq hn]
  simp only [Except.ok.injEq, exists_eq_left']
  cases h : visibleHeader? buffer with
  | some p =>
    obtain ⟨hfirst, hbyte⟩ := visibleHeader?_eq_some_iff.mp h
    rw [findSpec_found_iff h]
    refine ⟨fun hp q hq => ?_, fun hscan => (hscan p hfirst).1⟩
    rw [hq.eq hfirst]
    exact ⟨hp, hbyte⟩
  | none =>
    rw [findSpec_not_found_iff]
    refine ⟨fun hnot p hp => absurd hp.occursAt (hnot p), fun hscan i hi => ?_⟩
    -- the first header would be seen by the scan
    obtain ⟨p, -, hp⟩ := hi.exists_firstAt
    exact not_occursAt_of_visibleHeader?_eq_none h (hscan p hp).2 hp.occursAt

/-- A header behind two other bytes, with one byte behind it. -/
theorem findsFirstHeader_two : FindsFirstHeader ([0, 0] ++ header ++ [0]) 7 := by
  refine (findsFirstHeader_iff (by decide)).mpr fun p hp => ?_
  have htwo : p ≤ 2 := hp.le_of_occursAt (by decide)
  have hlen : ([0, 0] ++ header ++ [0]).length = 7 := rfl
  rw [hlen, headerSize]
  omega

/-- A header that ends the buffer is not found, and of one behind 256 other bytes the index is
lost. -/
theorem not_findsFirstHeader :
    ¬ FindsFirstHeader header 7 ∧
      ¬ FindsFirstHeader (List.replicate 256 0 ++ header ++ [0]) 7 := by
  constructor
  · rintro ⟨r, hr, hspec⟩
    have hmissed : findHeader header 7 = .ok (false, 7) := by decide
    obtain rfl := Except.ok.inj (hmissed.symm.trans hr)
    exact findSpec_not_found_iff.mp hspec 0 List.prefix_rfl
  · rintro ⟨r, hr, hspec⟩
    have hlen : (List.replicate 256 0 ++ header ++ [0]).length = 261 := by
      rw [List.append_assoc, List.length_append, List.length_replicate]
      rfl
    have hfirst : FirstAt header (List.replicate 256 0 ++ header ++ [0]) 256 := by
      have h := header_unbordered.firstAt_append (List.prefix_append header [0])
        (not_occursAt_header_replicate 256)
      rwa [← List.append_assoc, List.length_replicate] at h
    have hvis : visibleHeader? (List.replicate 256 0 ++ header ++ [0]) = some 256 :=
      visibleHeader?_eq_some_iff.mpr ⟨hfirst, by omega⟩
    have hwrapped : findHeader (List.replicate 256 0 ++ header ++ [0]) 7 =
        .ok (true, UInt8.ofNat 256) := by
      rw [findHeader_eq (by omega), hvis]
    obtain rfl := Except.ok.inj (hwrapped.symm.trans hr)
    exact absurd ((findSpec_found_iff hvis).mp hspec) (lt_irrefl 256)

/-! ### `parsePacket` -/

/-- The first header of the buffer is at `p` and starts a complete frame. -/
def CompleteAt (buffer : List UInt8) (p : ℕ) : Prop :=
  FirstAt header buffer p ∧ p + packetSize ≤ buffer.length

/-- What `parsePacket` should return and leave behind. -/
structure ParseSpec (buffer : List UInt8) (r : ParseResult) : Prop where
  found_iff : r.found = true ↔ ∃ p, CompleteAt buffer p
  of_completeAt : ∀ p, CompleteAt buffer p →
    r.packet = (packetAt buffer p).toParsed ∧ r.dataBuffer = [] ∧ r.position = 0
  of_forall_not : (∀ p, ¬ CompleteAt buffer p) → r.packet = .zero ∧ r.dataBuffer = buffer

/-- `parsePacket`, with the flag of the host, does what it should. -/
def ParsesAsSpecified (o : ByteOrder) (buffer : List UInt8) (position : UInt8) : Prop :=
  ∃ r, parsePacket o (littleEndian o) buffer position = .ok r ∧ ParseSpec buffer r

/-- The first header, if there is one, is at an index below 256; or it ends the buffer; or its frame
is complete and has the payload that stands at the index modulo 256. -/
def PositionSuffices (buffer : List UInt8) : Prop :=
  ∀ p, FirstAt header buffer p → p < 256 ∨ p + headerSize = buffer.length ∨
    (p + packetSize ≤ buffer.length ∧
      (buffer.drop (p % 256 + 4)).take 16 = (buffer.drop (p + 4)).take 16)

theorem CompleteAt.eq {q : ℕ} (hp : CompleteAt buffer p) (hq : CompleteAt buffer q) : p = q :=
  hp.1.eq hq.1

/-- A complete first frame is always accepted. -/
theorem CompleteAt.acceptedAt? (h : CompleteAt buffer p) : acceptedAt? buffer = some p :=
  acceptedAt?_eq_some_iff.mpr ⟨h.1, (neededLength_le p).trans h.2⟩

/-- A buffer that `parsePacket` refuses is handled as specified. -/
theorem parseSpec_of_acceptedAt?_eq_none (h : acceptedAt? buffer = none) (position' : UInt8) :
    ParseSpec buffer ⟨.zero, false, buffer, position'⟩ := by
  have hnot : ∀ p, ¬ CompleteAt buffer p := fun p hp => by
    rw [hp.acceptedAt?] at h
    exact absurd h (by simp)
  exact ⟨by simp [hnot], fun p hp => absurd hp (hnot p), fun _ => ⟨rfl, rfl⟩⟩

/-- A buffer that `parsePacket` accepts is handled as specified when its first frame is complete
and the frame that is read carries the same packet. -/
theorem parseSpec_iff_of_acceptedAt? (h : acceptedAt? buffer = some p) :
    ParseSpec buffer ⟨(packetAt buffer (p % 256)).toParsed, true, [], 0⟩ ↔
      p + 20 ≤ buffer.length ∧ packetAt buffer (p % 256) = packetAt buffer p := by
  obtain ⟨hfirst, -⟩ := acceptedAt?_eq_some_iff.mp h
  constructor
  · intro hspec
    obtain ⟨q, hq⟩ := hspec.found_iff.mp rfl
    obtain rfl := hq.1.eq hfirst
    exact ⟨hq.2, Packet.toParsed_injective (hspec.of_completeAt q hq).1⟩
  · rintro ⟨hlen, hpacket⟩
    have hp : CompleteAt buffer p := ⟨hfirst, hlen⟩
    refine ⟨by simpa using ⟨p, hp⟩, fun q hq => ?_, fun hnot => absurd hp (hnot p)⟩
    rw [hq.eq hp, hpacket]
    exact ⟨rfl, rfl, rfl⟩

/-- **When `parsePacket` does what it should.** For every buffer shorter than `2 ^ 31`, every
position on entry and either byte order, with the flag of the host. -/
theorem parsesAsSpecified_iff (hn : buffer.length < 2 ^ 31) :
    ParsesAsSpecified o buffer position ↔ PositionSuffices buffer := by
  rw [ParsesAsSpecified, parsePacket_eq hn]
  simp only [Except.ok.injEq, exists_eq_left']
  cases h : acceptedAt? buffer with
  | none =>
    refine iff_of_true (parseSpec_of_acceptedAt?_eq_none h _) fun p hp => ?_
    -- an unaccepted first header at 256 or later has no byte behind it
    have hlt := acceptedAt?_eq_none_iff.mp h p hp
    have hfit := hp.occursAt.add_length_le header_ne_nil
    simp only [length_header, headerSize] at hfit ⊢
    rcases lt_or_ge p 256 with hp' | hp'
    · exact Or.inl hp'
    · rw [neededLength_of_le hp'] at hlt
      exact Or.inr (Or.inl (by omega))
  | some p =>
    obtain ⟨hfirst, hneeded⟩ := acceptedAt?_eq_some_iff.mp h
    have hread := (mod_add_le_neededLength p).trans hneeded
    simp only [readPacket_littleEndian hread]
    rw [parseSpec_iff_of_acceptedAt? h]
    constructor
    · rintro ⟨hlen, hpacket⟩ q hq
      rw [hq.eq hfirst]
      exact Or.inr (Or.inr ⟨hlen, (packetAt_eq_iff hread hlen).mp hpacket⟩)
    · intro hsuffices
      rcases hsuffices p hfirst with hp | hend | ⟨hlen, hpayload⟩
      · rw [neededLength_of_lt hp] at hneeded
        exact ⟨hneeded, by rw [Nat.mod_eq_of_lt hp]⟩
      · simp only [headerSize] at hend
        simp only [neededLength, packetSize, headerSize] at hneeded
        split_ifs at hneeded <;> omega
      · exact ⟨hlen, (packetAt_eq_iff hread hlen).mpr hpayload⟩

/-- A buffer of one frame, on a little-endian host. -/
theorem parsesAsSpecified_frame :
    ParsesAsSpecified .little (⟨0x80000001, 2, 3, 4⟩ : Packet).frame 7 := by
  refine (parsesAsSpecified_iff (by decide)).mpr fun p hp => Or.inl ?_
  have hzero : p ≤ 0 := hp.le_of_occursAt (by decide)
  omega

/-- Behind 256 other bytes a frame is not found: the packet is read from those bytes. -/
theorem not_parsesAsSpecified :
    ¬ ParsesAsSpecified .little (List.replicate 256 0 ++ (⟨1, 2, 3, 4⟩ : Packet).frame) 0 := by
  rintro ⟨r, hr, hspec⟩
  have hfirst : FirstAt header (List.replicate 256 0 ++ (⟨1, 2, 3, 4⟩ : Packet).frame) 256 := by
    have h := firstAt_noise (not_occursAt_header_replicate 256) ⟨1, 2, 3, 4⟩ []
    rwa [List.append_nil, List.length_replicate] at h
  have hlen : (List.replicate 256 0 ++ (⟨1, 2, 3, 4⟩ : Packet).frame).length = 276 := by
    rw [List.length_append, List.length_replicate]
    rfl
  have haccepted := acceptedAt?_eq_some_iff.mpr
    ⟨hfirst, (neededLength_le 256).trans (by rw [hlen])⟩
  have hwrapped : parsePacket .little (littleEndian .little)
      (List.replicate 256 0 ++ (⟨1, 2, 3, 4⟩ : Packet).frame) 0 =
        .ok ⟨(packetAt (List.replicate 256 0 ++ (⟨1, 2, 3, 4⟩ : Packet).frame)
          (256 % 256)).toParsed, true, [], 0⟩ := by
    rw [parsePacket_eq (by omega), haccepted, ← readPacket_littleEndian (by omega)]
  obtain rfl := Except.ok.inj (hwrapped.symm.trans hr)
  -- the packet is the one read from the zero bytes
  obtain ⟨-, hpacket⟩ := (parseSpec_iff_of_acceptedAt? haccepted).mp hspec
  have hframe := packetAt_append_frame (l := List.replicate 256 0) (m := []) ⟨1, 2, 3, 4⟩
  rw [List.append_nil, List.length_replicate] at hframe
  rw [hframe, packetAt_append (by rw [List.length_replicate]; decide)] at hpacket
  revert hpacket
  decide

end IMUParser

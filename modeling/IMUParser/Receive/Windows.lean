import IMUParser.Library.Draining
import IMUParser.Receive.Alignment

/-!
# What becomes of the bytes

Each call of `processIMU_Frames` reads a window of the stream, broadcasts a packet that is read
inside it and drops the rest of it. So, whatever the stream contains and wherever the position wraps
around, each broadcast has 20 bytes of the stream to itself, and they are neither in the buffer nor
unread (`mainLoop_ownBytes`): no byte is broadcast twice, and there are at most as many broadcasts
as there are frames' lengths in the stream.

On a stream in which a header is never far away a window is short: less than 39 bytes before the
last read, and at most 128 bytes in it. So a broadcast is made at least every 166 bytes
(`mainLoop_throughput`), for frames in a row also when their payloads contain headers.

## Main results

* `mainLoop_ownBytes`, `mainLoop_throughput`.
-/

namespace IMUParser

open Words

variable {o : ByteOrder} {d w m : List UInt8} {packet : ParsedPacket}

/-- The packet of an accepted window is read from 20 bytes of the window. -/
theorem exists_packetAt_of_accept
    (h : (frameRecogniser o (littleEndian o)).accept w = some packet) (d m : List UInt8) :
    ∃ i, i + 20 ≤ w.length ∧ packet = (packetAt (d ++ (w ++ m)) (d.length + i)).toParsed := by
  obtain ⟨p, hp, rfl⟩ := frameRecogniser_accept_eq_some_iff.mp h
  have hread := (mod_add_le_neededLength p).trans (acceptedAt?_eq_some_iff.mp hp).2
  refine ⟨p % 256, hread, ?_⟩
  rw [readPacket_littleEndian hread, packetAt_append_length_add, packetAt_append hread]

/-! ### Twenty bytes for each broadcast -/

/-- The values that successive calls give on the stream `s`, behind its first bytes `d`, are those
at the given offsets: 20 bytes for each, in what has been read since and is not in the buffer. -/
structure OwnBytes (s d : List UInt8) (r : Recogniser.Drained UInt8 ParsedPacket)
    (offsets : List ℕ) : Prop where
  emitted : r.emitted = offsets.map fun i => (packetAt s i).toParsed
  spaced : offsets.Pairwise fun i j => i + 20 ≤ j
  le : ∀ i ∈ offsets, d.length ≤ i
  add_le : ∀ i ∈ offsets, i + 20 + r.buffer.length + r.unread.flatten.length ≤ s.length
  left_le : d.length + r.buffer.length + r.unread.flatten.length ≤ s.length

variable {s : List UInt8} {r : Recogniser.Drained UInt8 ParsedPacket} {offsets : List ℕ}

/-- A call in front of others reads from its own window. -/
theorem OwnBytes.cons (haccept : (frameRecogniser o (littleEndian o)).accept w = some packet)
    (hs : s = d ++ (w ++ m)) (h : OwnBytes s (d ++ w) r offsets) :
    ∃ i, OwnBytes s d ⟨r.buffer, r.unread, packet :: r.emitted⟩ (i :: offsets) := by
  obtain ⟨i, hi, hpacket⟩ := exists_packetAt_of_accept haccept d m
  have hbehind : ∀ j ∈ offsets, d.length + w.length ≤ j := fun j hj => by
    simpa only [List.length_append] using h.le j hj
  have hleft := h.left_le
  rw [List.length_append] at hleft
  refine ⟨d.length + i, ?_, List.pairwise_cons.mpr ⟨fun j hj => ?_, h.spaced⟩,
    List.forall_mem_cons.mpr ⟨Nat.le_add_right _ _, fun j hj => ?_⟩,
    List.forall_mem_cons.mpr ⟨?_, h.add_le⟩, ?_⟩
  · rw [h.emitted, List.map_cons, hpacket, hs]
  · have := hbehind j hj
    omega
  · have := hbehind j hj
    omega
  · change d.length + i + 20 + r.buffer.length + r.unread.flatten.length ≤ s.length
    omega
  · change d.length + r.buffer.length + r.unread.flatten.length ≤ s.length
    omega

theorem drain_ownBytes (o : ByteOrder) (n : ℕ) (d : List UInt8) (cs : List (List UInt8)) :
    ∃ offsets, OwnBytes (d ++ cs.flatten) d
      ((frameRecogniser o (littleEndian o)).drain n cs) offsets := by
  refine (frameRecogniser o (littleEndian o)).drain_rule
    (Q := fun d cs r => ∃ offsets, OwnBytes (d ++ cs.flatten) d r offsets) ?_ ?_ ?_ n d cs
  · exact fun d cs => ⟨[], rfl, .nil, nofun, nofun, by simp⟩
  · exact fun d cs _ => ⟨[], rfl, .nil, nofun, nofun, by simp⟩
  · rintro d pre c rest b r - hsome ⟨offsets, h⟩
    have hstream : d ++ (pre ++ c :: rest).flatten =
        d ++ ((pre.flatten ++ c) ++ rest.flatten) := by simp
    rw [List.append_assoc, ← hstream] at h
    obtain ⟨i, hi⟩ := h.cons hsome hstream
    exact ⟨i :: offsets, hi⟩

/-- The offsets of the broadcasts of `main`'s loop. -/
theorem exists_ownBytes (o : ByteOrder) (n : ℕ) {reads : List ReadResult}
    (hfit : ScansFit (delivered reads)) :
    ∃ m offsets, mainLoop o n [] reads = .ok m ∧
      OwnBytes (delivered reads) [] m.toDrained offsets := by
  obtain ⟨m, hm, hdrain⟩ := mainLoop_refines (o := o) n reads hfit
  obtain ⟨offsets, h⟩ := drain_ownBytes o n [] (payloads reads)
  exact ⟨m, offsets, hm, hdrain ▸ h⟩

/-- **Every broadcast has bytes of its own.** For every stream, all reads and every number of
calls: each broadcast carries the packet of 20 bytes of the stream, no two of them share a byte, and
none of these bytes is still in the buffer or unread. -/
theorem mainLoop_ownBytes (o : ByteOrder) (n : ℕ) (reads : List ReadResult)
    (hlen : (delivered reads).length < 2 ^ 31) :
    ∃ m, mainLoop o n [] reads = .ok m ∧ ∃ offsets : List ℕ,
      m.broadcasts = offsets.map (fun i => (packetAt (delivered reads) i).toParsed) ∧
      (offsets.Pairwise fun i j => i + 20 ≤ j) ∧
      ∀ i ∈ offsets, i + 20 + m.inputBuffer.length + (delivered m.unread).length ≤
        (delivered reads).length := by
  obtain ⟨m, offsets, hm, h⟩ := exists_ownBytes o n (scansFit_of_length_lt hlen)
  exact ⟨m, hm, offsets, h.emitted, h.spaced, h.add_le⟩

/-- Three frames in two reads, the first of which ends behind the header of the second frame. -/
theorem mainLoop_ownBytes_inTwoReads :
    ∃ m, mainLoop .little 2 [] (inTwoReads headerAsCount 24 rfl (by decide) (by decide)) = .ok m ∧
      ∃ offsets : List ℕ,
        m.broadcasts = offsets.map (fun i => (packetAt (delivered
          (inTwoReads headerAsCount 24 rfl (by decide) (by decide))) i).toParsed) ∧
        (offsets.Pairwise fun i j => i + 20 ≤ j) ∧
        ∀ i ∈ offsets, i + 20 + m.inputBuffer.length + (delivered m.unread).length ≤
          (delivered (inTwoReads headerAsCount 24 rfl (by decide) (by decide))).length :=
  mainLoop_ownBytes .little 2 _ (by decide)

/-! ### The rate of the broadcasts -/

/-- Offsets 20 apart between two bounds are not too many. -/
theorem add_length_le {a b : ℕ} (hab : a ≤ b) (hspaced : offsets.Pairwise fun i j => i + 20 ≤ j)
    (hle : ∀ i ∈ offsets, a ≤ i) (hadd : ∀ i ∈ offsets, i + 20 ≤ b) :
    a + 20 * offsets.length ≤ b := by
  induction offsets generalizing a with
  | nil => exact hab
  | cons i offsets ih =>
    obtain ⟨hhead, htail⟩ := List.pairwise_cons.mp hspaced
    obtain ⟨hi, -⟩ := List.forall_mem_cons.mp hle
    obtain ⟨hib, haddtail⟩ := List.forall_mem_cons.mp hadd
    have hrest := ih hib htail hhead haddtail
    rw [List.length_cons]
    omega

/-- On a dense stream a broadcast comes at least every 166 bytes. -/
theorem Dense.drain_length_le (hs : Dense s) (o : ByteOrder) (n : ℕ) (d : List UInt8)
    (cs : List (List UInt8)) (hcs : s = d ++ cs.flatten) (hle : ∀ c ∈ cs, c.length ≤ 128) :
    let r := (frameRecogniser o (littleEndian o)).drain n cs
    cs.flatten.length ≤ 166 * r.emitted.length + r.buffer.length + r.unread.flatten.length := by
  refine (frameRecogniser o (littleEndian o)).drain_rule
    (Q := fun d cs r => s = d ++ cs.flatten → (∀ c ∈ cs, c.length ≤ 128) →
      cs.flatten.length ≤ 166 * r.emitted.length + r.buffer.length + r.unread.flatten.length)
    ?_ ?_ ?_ n d cs hcs hle
  · intro d cs _ _
    simp
  · intro d cs _ _ _
    simp
  · intro d pre c rest b r hnone _ ih hcs hle
    have hwindow := Dense.length_lt (d := d) (w := pre.flatten) (m := c ++ rest.flatten)
      (by simpa [hcs] using hs) (frameRecogniser_accept_eq_none_iff.mp hnone)
    have hc := hle c (by simp)
    have hrest := ih (by simp [hcs]) fun c' hc' => hle c' (by simp [hc'])
    simp only [List.flatten_append, List.flatten_cons, List.length_append, List.length_cons]
    omega

/-- While calls are left to make, the bytes of a dense stream are those of the broadcasts, at most
166 for each, and less than 39 more. -/
theorem Dense.length_delivered_le {n : ℕ} {reads : List ReadResult} {state : MainState}
    (hs : Dense (delivered reads)) (h : mainLoop o n [] reads = .ok state)
    (hlt : state.broadcasts.length < n) :
    (delivered reads).length ≤ 166 * state.broadcasts.length + 38 := by
  obtain ⟨state', hstate', hdrain⟩ := mainLoop_refines (o := o) n reads (scansFit_of_dense hs)
  obtain rfl := Except.ok.inj (hstate'.symm.trans h)
  have hbuffer := length_inputBuffer_lt hs h
  have hrate := hs.drain_length_le o n [] (payloads reads) rfl
    fun c hc => (length_le_of_mem_payloads hc).2
  have hunread : payloads state'.unread = [] := by
    rw [show payloads state'.unread = _ from congrArg Recogniser.Drained.unread hdrain]
    refine Recogniser.unread_eq_nil_of_length_lt ?_
    rwa [← hdrain]
  rw [← hdrain] at hrate
  change (delivered reads).length ≤ 166 * state'.broadcasts.length + state'.inputBuffer.length +
    (payloads state'.unread).flatten.length at hrate
  rw [hunread, List.flatten_nil, List.length_nil] at hrate
  omega

/-- **The rate of the broadcasts.** For frames in a row with any payloads, read from any offset, all
reads and every number of calls: there is at most one broadcast for each 20 bytes, and, while calls
are left to make, at least one for each 166 bytes. -/
theorem mainLoop_throughput (o : ByteOrder) (n : ℕ) (packets : List Packet) (start : ℕ)
    (reads : List ReadResult) (hreads : delivered reads <+: (frameBytes packets).drop start) :
    ∃ m, mainLoop o n [] reads = .ok m ∧
      20 * m.broadcasts.length ≤ (delivered reads).length ∧
      (m.broadcasts.length < n →
        (delivered reads).length ≤ 166 * m.broadcasts.length + 38) := by
  have hdense := dense_of_prefix_drop hreads
  obtain ⟨m, offsets, hm, h⟩ := exists_ownBytes o n (scansFit_of_dense hdense)
  have hcount : m.broadcasts.length = offsets.length := by
    rw [show m.broadcasts = _ from h.emitted, List.length_map]
  refine ⟨m, hm, ?_, hdense.length_delivered_le hm⟩
  rw [hcount, ← Nat.zero_add (20 * _)]
  exact add_length_le (Nat.zero_le _) h.spaced (fun i _ => Nat.zero_le i)
    fun i hi => by have := h.add_le i hi; omega

/-- The same reads, and more calls than packets. -/
theorem mainLoop_throughput_inTwoReads :
    ∃ m, mainLoop .little 9 [] (inTwoReads headerAsCount 24 rfl (by decide) (by decide)) = .ok m ∧
      20 * m.broadcasts.length ≤
        (delivered (inTwoReads headerAsCount 24 rfl (by decide) (by decide))).length ∧
      (m.broadcasts.length < 9 →
        (delivered (inTwoReads headerAsCount 24 rfl (by decide) (by decide))).length ≤
          166 * m.broadcasts.length + 38) :=
  mainLoop_throughput .little 9 headerAsCount 0 _ (by decide)

end IMUParser

import Mathlib.Data.List.Forall2
import IMUParser.Codec.Frames
import IMUParser.Receive.Restarts

/-!
# Frames that are written in part

`writeIMU_frame` of `mock_imu.cpp` writes a frame to the port without waiting and does not look at
how much of it has been accepted. Behind a short write the stream goes on with the next frame, so
the parser takes the start of that frame for the rest of the one before.

The damage is contained. When no payload contains the header, the header occurs where a write starts
that has brought it along, and nowhere else. Each call reads at one of these, or, if the index has
wrapped around, behind writes that were too short for a header. So each broadcast can be charged to
a write of its own, and it carries the packet of that write if the write was whole
(`mainLoop_shortWrites`): there are at most as many wrong broadcasts as short writes.

## Main definitions

* `Write`, `writtenBytes`, `startOf`.

## Main results

* `exists_startOf_of_occursAt`: where the header occurs.
* `mainLoop_shortWrites`.
-/

namespace IMUParser

open Words
open scoped List

/-! ### The bytes of writes -/

/-- A write of a frame, of which the port accepts the first bytes. -/
structure Write where
  packet : Packet
  /-- The number of bytes accepted. -/
  accepted : ℕ
  le : accepted ≤ packetSize

namespace Write

/-- The bytes accepted. -/
def bytes (v : Write) : List UInt8 := v.packet.frame.take v.accepted

/-- The whole frame was accepted. -/
def Whole (v : Write) : Prop := v.accepted = packetSize

instance (v : Write) : Decidable v.Whole := inferInstanceAs (Decidable (v.accepted = packetSize))

@[simp] theorem length_bytes (v : Write) : v.bytes.length = v.accepted := by
  have hle := v.le
  simp only [packetSize] at hle
  simp [bytes, hle]

theorem bytes_of_whole {v : Write} (h : v.Whole) : v.bytes = v.packet.frame := by
  rw [bytes, h]
  exact List.take_of_length_le (by simp [packetSize])

end Write

/-- The bytes that the port has accepted from writes in a row. -/
def writtenBytes (writes : List Write) : List UInt8 := writes.flatMap Write.bytes

/-- Whole writes are frames in a row. -/
theorem writtenBytes_of_whole {writes : List Write} (h : ∀ v ∈ writes, v.Whole) :
    writtenBytes writes = frameBytes (writes.map Write.packet) := by
  rw [writtenBytes, frameBytes, List.flatMap_map]
  exact List.flatMap_congr fun v hv => Write.bytes_of_whole (h v hv)

/-- The offset at which the write with the index `j` starts. -/
def startOf (writes : List Write) (j : ℕ) : ℕ := (writtenBytes (writes.take j)).length

variable {writes : List Write} {v : Write} {j k q : ℕ}

theorem writtenBytes_cons (v : Write) (writes : List Write) :
    writtenBytes (v :: writes) = v.bytes ++ writtenBytes writes := rfl

theorem startOf_succ (hj : j < writes.length) :
    startOf writes (j + 1) = startOf writes j + writes[j].accepted := by
  rw [startOf, List.take_succ_eq_append_getElem hj, writtenBytes, List.flatMap_append,
    List.length_append, List.flatMap_singleton, Write.length_bytes]
  rfl

theorem startOf_cons_succ (v : Write) (writes : List Write) (j : ℕ) :
    startOf (v :: writes) (j + 1) = v.accepted + startOf writes j := by
  rw [startOf, List.take_succ_cons, writtenBytes_cons, List.length_append, Write.length_bytes]
  rfl

theorem startOf_mono (hjk : j ≤ k) : startOf writes j ≤ startOf writes k := by
  obtain ⟨l, hl⟩ := List.take_prefix_take_left hjk (l := writes)
  rw [startOf, startOf, ← hl, writtenBytes, writtenBytes, List.flatMap_append, List.length_append]
  omega

/-- Writes that start behind each other have been made one after the other. -/
theorem lt_of_startOf_lt (h : startOf writes j < startOf writes k) : j < k :=
  not_le.mp fun hkj => absurd (startOf_mono hkj) (not_le.mpr h)

/-- The stream, split at the write with the index `j`. -/
theorem writtenBytes_split (hj : j < writes.length) :
    ∃ l m, writtenBytes writes = l ++ (writes[j].bytes ++ m) ∧ l.length = startOf writes j := by
  refine ⟨writtenBytes (writes.take j), writtenBytes (writes.drop (j + 1)), ?_, rfl⟩
  conv_lhs => rw [← List.take_append_drop j writes, List.drop_eq_getElem_cons hj]
  simp only [writtenBytes, List.flatMap_append, List.flatMap_cons]

/-- A whole write brings its header along, and its packet. -/
theorem occursAt_startOf (hj : j < writes.length) (h : writes[j].Whole) :
    OccursAt header (writtenBytes writes) (startOf writes j) ∧
      packetAt (writtenBytes writes) (startOf writes j) = writes[j].packet := by
  obtain ⟨l, m, hsplit, hlen⟩ := writtenBytes_split hj
  rw [hsplit, ← hlen, Write.bytes_of_whole h, occursAt_append_length, packetAt_append_frame]
  exact ⟨header_prefix_frame _ m, rfl⟩

/-! ### Where the header occurs -/

/-- What has been written is nothing or starts with the first byte of a header. -/
theorem writtenBytes_head? (writes : List Write) :
    (writtenBytes writes).head? = none ∨ (writtenBytes writes).head? = some 0x7F := by
  induction writes with
  | nil => exact Or.inl rfl
  | cons v writes ih =>
    rw [writtenBytes_cons]
    cases hv : v.accepted with
    | zero => simpa [Write.bytes, hv] using ih
    | succ k =>
      right
      rw [Write.bytes, hv, Packet.frame, header]
      rfl

/-- A header that starts in a write starts with it and does not reach beyond it. -/
theorem eq_zero_of_occursAt_bytes {m : List UInt8}
    (hm : m.head? = none ∨ m.head? = some 0x7F)
    (hpayload : ∀ i, ¬ OccursAt header v.packet.payload i)
    (h : OccursAt header (v.bytes ++ m) q) (hq : q < v.accepted) : q = 0 ∧ 4 ≤ v.accepted := by
  have hin : q + header.length ≤ v.bytes.length := by
    -- the first byte behind the write would be the second one of a header, or a later one
    by_contra hlt
    rw [length_header, Write.length_bytes] at hlt
    have hbyte := occursAt_iff_getElem?.mp h (v.accepted - q) (by rw [length_header]; omega)
    rw [Nat.add_sub_cancel' hq.le, List.getElem?_append_right (by rw [Write.length_bytes]),
      Write.length_bytes, Nat.sub_self, ← List.head?_eq_getElem?] at hbyte
    have hk : v.accepted - q = 1 ∨ v.accepted - q = 2 ∨ v.accepted - q = 3 := by omega
    rcases hm with hm | hm <;> rcases hk with hk | hk | hk <;> rw [hm, hk] at hbyte <;>
      exact absurd hbyte (by decide)
  have hframe : OccursAt header v.packet.frame q := by
    rw [← List.take_append_drop v.accepted v.packet.frame]
    exact (h.of_append hin).append _
  rw [length_header, Write.length_bytes] at hin
  rcases Nat.eq_zero_or_pos q with rfl | hpos
  · exact ⟨rfl, by omega⟩
  · obtain ⟨i, -, hocc⟩ := exists_occursAt_payload hframe hpos
    exact absurd hocc (hpayload i)

/-- **Where the header occurs.** Without headers in the payloads, it occurs where a write starts
that has brought along its header, and nowhere else. -/
theorem exists_startOf_of_occursAt
    (hpayload : ∀ v ∈ writes, ∀ i, ¬ OccursAt header v.packet.payload i)
    (h : OccursAt header (writtenBytes writes) q) :
    ∃ (j : ℕ) (hj : j < writes.length), q = startOf writes j ∧ 4 ≤ writes[j].accepted := by
  induction writes generalizing q with
  | nil =>
    have hfit := h.add_length_le header_ne_nil
    simp [writtenBytes] at hfit
  | cons v writes ih =>
    rw [writtenBytes_cons] at h
    rcases lt_or_ge q v.accepted with hlt | hge
    · obtain ⟨rfl, h4⟩ := eq_zero_of_occursAt_bytes (writtenBytes_head? writes)
        (hpayload v List.mem_cons_self) h hlt
      exact ⟨0, by simp, rfl, h4⟩
    · obtain ⟨i, rfl⟩ := Nat.exists_eq_add_of_le hge
      rw [← v.length_bytes, occursAt_append_length_add] at h
      obtain ⟨j, hj, rfl, h4⟩ := ih (fun w hw => hpayload w (List.mem_cons_of_mem _ hw)) h
      exact ⟨j + 1, by simpa using hj, (startOf_cons_succ v writes j).symm, h4⟩

/-! ### What the calls broadcast -/

variable {o : ByteOrder} {d w m : List UInt8} {packet : ParsedPacket}

/-- An accepted window can be charged to a write that starts in it. The packet is that of the write
if the write was whole. -/
theorem exists_startOf_of_accept
    (hpayload : ∀ v ∈ writes, ∀ i, ¬ OccursAt header v.packet.payload i)
    (hs : d ++ (w ++ m) <+: writtenBytes writes)
    (h : (frameRecogniser o (littleEndian o)).accept w = some packet) :
    ∃ (j : ℕ) (hj : j < writes.length), d.length ≤ startOf writes j ∧
      startOf writes j < d.length + w.length ∧
      (writes[j].Whole → packet = writes[j].packet.toParsed) := by
  obtain ⟨p, hp, rfl⟩ := frameRecogniser_accept_eq_some_iff.mp h
  obtain ⟨hfirst, hlen⟩ := acceptedAt?_eq_some_iff.mp hp
  obtain ⟨rest, hrest⟩ := hs
  have hstream : writtenBytes writes = d ++ (w ++ (m ++ rest)) := by simp [← hrest]
  have hfit := hfirst.occursAt.add_length_le header_ne_nil
  rw [length_header] at hfit
  have hocc : OccursAt header (writtenBytes writes) (d.length + p) := by
    rw [hstream, occursAt_append_length_add]
    exact hfirst.occursAt.append _
  obtain ⟨j, hj, hstart, -⟩ := exists_startOf_of_occursAt hpayload hocc
  rcases lt_or_ge p 256 with hlt | hge
  · -- the frame at the header is read
    rw [neededLength_of_lt hlt] at hlen
    refine ⟨j, hj, by omega, by omega, fun hwhole => ?_⟩
    rw [Nat.mod_eq_of_lt hlt, readPacket_littleEndian hlen, ← (occursAt_startOf hj hwhole).2,
      ← hstart, hstream, packetAt_append_length_add, packetAt_append hlen]
  · -- the index has wrapped around; the write before the header was not whole
    obtain ⟨i, rfl⟩ : ∃ i, j = i + 1 := by
      refine Nat.exists_eq_succ_of_ne_zero fun hzero => ?_
      rw [hzero, startOf, List.take_zero, writtenBytes, List.flatMap_nil, List.length_nil] at hstart
      omega
    have hi : i < writes.length := by omega
    have hle := writes[i].le
    rw [startOf_succ hi] at hstart
    simp only [packetSize] at hle
    refine ⟨i, hi, by omega, by omega, fun hwhole => ?_⟩
    obtain ⟨k, rfl⟩ := Nat.exists_eq_add_of_le' (show 20 ≤ p by omega)
    have hbefore : startOf writes i = d.length + k := by
      rw [hwhole, packetSize] at hstart
      omega
    have hocc' := (occursAt_startOf hi hwhole).1
    rw [hbefore, hstream, occursAt_append_length_add] at hocc'
    exact absurd (hocc'.of_append (by rw [length_header]; omega))
      (hfirst.not_occursAt k (by omega))

/-- The packet of a write, if the write was whole. -/
def Carries (packet : ParsedPacket) (v : Write) : Prop := v.Whole → packet = v.packet.toParsed

/-- Draining what has been written: the values are charged to writes that start where the first
call does or later, in order. -/
theorem drain_carries (hpayload : ∀ v ∈ writes, ∀ i, ¬ OccursAt header v.packet.payload i)
    (n : ℕ) (d : List UInt8) (cs : List (List UInt8)) :
    d ++ cs.flatten <+: writtenBytes writes →
      ∀ k, (∀ j < writes.length, d.length ≤ startOf writes j → k ≤ j) →
        ∃ vs, vs <+ writes.drop k ∧ List.Forall₂ Carries
          ((frameRecogniser o (littleEndian o)).drain n cs).emitted vs := by
  refine (frameRecogniser o (littleEndian o)).drain_induction
    (Q := fun d cs em => d ++ cs.flatten <+: writtenBytes writes →
      ∀ k, (∀ j < writes.length, d.length ≤ startOf writes j → k ≤ j) →
        ∃ vs, vs <+ writes.drop k ∧ List.Forall₂ Carries em vs) ?_ ?_ n d cs
  · exact fun d cs _ k _ => ⟨[], List.nil_sublist _, .nil⟩
  · intro d pre c rest packet em _ hsome ih hs k hk
    have hwindow : d ++ (pre ++ c :: rest).flatten = d ++ ((pre.flatten ++ c) ++ rest.flatten) := by
      simp
    rw [hwindow] at hs
    obtain ⟨j, hj, hlow, hhigh, hcarries⟩ := exists_startOf_of_accept hpayload hs hsome
    -- the writes that start behind the window come after this one
    obtain ⟨vs, hvs, hforall⟩ := ih (by rwa [List.append_assoc]) (j + 1) fun j' _ hj' =>
      lt_of_startOf_lt (hhigh.trans_le (by rwa [List.length_append] at hj'))
    refine ⟨writes[j] :: vs, ?_, .cons hcarries hforall⟩
    calc writes[j] :: vs <+ writes[j] :: writes.drop (j + 1) := hvs.cons_cons _
      _ = writes.drop j := (List.drop_eq_getElem_cons hj).symm
      _ <+ writes.drop k := List.drop_sublist_drop_left _ (hk j hj hlow)

/-- If all writes are of one packet, other packets are charged to short writes. -/
theorem countP_le_of_carries {P : Packet} {packets : List ParsedPacket} {vs : List Write}
    (h : List.Forall₂ Carries packets vs) (hP : ∀ v ∈ vs, v.packet = P) :
    packets.countP (fun packet => packet.toPacket ≠ P) ≤ vs.countP fun v => ¬ v.Whole := by
  induction h with
  | nil => exact le_rfl
  | @cons packet v packets vs hcarries _ ih =>
    obtain ⟨rfl, hP⟩ := List.forall_mem_cons.mp hP
    have hrest := ih hP
    by_cases hwhole : v.Whole
    · have hright : packet.toPacket = v.packet := by rw [hcarries hwhole, Packet.toPacket_toParsed]
      simpa [List.countP_cons, hwhole, hright] using hrest
    · simp only [List.countP_cons, hwhole, not_false_eq_true, decide_true, if_true]
      split_ifs <;> omega

theorem mainLoop_carries (o : ByteOrder) (n : ℕ) {reads : List ReadResult}
    (hpayload : ∀ v ∈ writes, ∀ i, ¬ OccursAt header v.packet.payload i)
    (hreads : delivered reads <+: writtenBytes writes) (hfit : ScansFit (delivered reads)) :
    ∃ m vs, mainLoop o n [] reads = .ok m ∧ vs <+ writes ∧
      List.Forall₂ Carries m.broadcasts vs := by
  obtain ⟨m, hm, hdrain⟩ := mainLoop_refines (o := o) n reads hfit
  obtain ⟨vs, hvs, hforall⟩ := drain_carries (o := o) hpayload n [] (payloads reads) hreads 0
    fun _ _ _ => Nat.zero_le _
  rw [← hdrain] at hforall
  exact ⟨m, vs, hm, hvs, hforall⟩

/-- **Short writes.** Of frames whose payloads contain no header, any number of bytes each are
written; for all reads of what is there, of less than `2 ^ 31` bytes in all, and every number of
calls, the broadcasts can be charged to distinct writes, in order, such that each whole write that
is charged carries the packet of its broadcast. -/
theorem mainLoop_shortWrites (o : ByteOrder) (n : ℕ) (writes : List Write)
    (reads : List ReadResult)
    (hpayload : ∀ v ∈ writes, ∀ i, ¬ OccursAt header v.packet.payload i)
    (hreads : delivered reads <+: writtenBytes writes) (hlen : (delivered reads).length < 2 ^ 31) :
    ∃ m vs, mainLoop o n [] reads = .ok m ∧ vs <+ writes ∧
      List.Forall₂ (fun packet v => v.Whole → packet = v.packet.toParsed) m.broadcasts vs :=
  mainLoop_carries o n hpayload hreads (scansFit_of_length_lt hlen)

/-- A write of which 12 bytes are accepted, and two whole ones. -/
def threeWrites : List Write :=
  [⟨⟨1, 2, 3, 4⟩, 12, by decide⟩, ⟨⟨2, 6, 7, 8⟩, 20, by decide⟩, ⟨⟨3, 10, 11, 12⟩, 20, by decide⟩]

/-- The first packet broadcast is made up of the first write and the start of the second one. -/
theorem mainLoop_shortWrites_threeWrites :
    ∃ m vs, mainLoop .little 3 [] [.data ((writtenBytes threeWrites).take 24) (by decide)
        (by decide), .data ((writtenBytes threeWrites).drop 24) (by decide) (by decide)] = .ok m ∧
      vs <+ threeWrites ∧
      List.Forall₂ (fun packet v => v.Whole → packet = v.packet.toParsed) m.broadcasts vs := by
  refine mainLoop_shortWrites .little 3 threeWrites _ ?_ (by decide) (by decide)
  have hnone : ∀ v ∈ threeWrites, firstIndex? header v.packet.payload = none := by decide
  exact fun v hv => (firstIndex?_eq_none_iff header_ne_nil).mp (hnone v hv)

end IMUParser

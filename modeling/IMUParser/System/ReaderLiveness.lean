import Mathlib.Data.Fin.VecNotation
import Mathlib.Data.Fintype.EquivFin
import IMUParser.Library.Liveness
import IMUParser.System.ReaderRuns

/-!
# The reader never stops repeating itself

`reader_repeats` says what the two-thread reader sends where `char` is unsigned. This file says that
it does send it: when the first header of the stream begins a complete frame, and the threads do not
put off for ever to append bytes that are there, to parse and to send, the same 16 bytes are sent
again and again, without end (`reader_keepsRepeating`). So no later frame ever gets its turn,
although all of them are received.

## Main definitions

* `repeatedDatagram`, `ReaderState.rank`, `ReaderState.helpful`.

## Main results

* `ReaderRun.exists_parse`, `ReaderRun.rank_step`, `reader_progress`.
* `reader_keepsRepeating`.
-/

namespace IMUParser

open Words Transition

instance : Nonempty ReaderLabel := ⟨.append⟩

instance : Finite ReaderLabel :=
  .of_surjective (![.append, .parse, .send] : Fin 3 → ReaderLabel) fun
    | .append => ⟨0, rfl⟩
    | .parse => ⟨1, rfl⟩
    | .send => ⟨2, rfl⟩

/-- The datagram that the reader repeats on a stream with its first header at `p`. -/
def repeatedDatagram (bytes : List UInt8) (p : ℕ) : Option (List UInt8) :=
  some ((bytes.drop (p % 256 + 4)).take 16)

namespace BroadcastPhase

/-- How many steps of the thread `broadcast` are missing until it sends a frame that has been
received; after a failed parse it first sends what that has left it. -/
def rank : BroadcastPhase → ℕ
  | .parsed none _ => 2
  | .looping => 1
  | .parsed (some _) _ => 0
  | .faulted _ => 0

/-- The next step of the thread. -/
def next : BroadcastPhase → ReaderLabel
  | .looping => .parse
  | .parsed _ _ => .send
  | .faulted _ => .send

theorem rank_le_two (phase : BroadcastPhase) : phase.rank ≤ 2 := by
  rcases phase with _ | (_ | _) | _ <;> simp [rank]

theorem next_ne_append (phase : BroadcastPhase) : phase.next ≠ .append := by
  cases phase <;> nofun

end BroadcastPhase

namespace ReaderState

/-- How far the reader is from sending the frame at `p`, which first has to be received. -/
def rank (p : ℕ) (s : ReaderState) : ℕ :=
  if s.received.length < p + 20 then s.unread.length + 3 else s.broadcast.rank

/-- The step that brings it closer. -/
def helpful (p : ℕ) (s : ReaderState) : ReaderLabel :=
  if s.received.length < p + 20 then .append else s.broadcast.next

variable {s : ReaderState} {p : ℕ}

theorem rank_of_short (h : s.received.length < p + 20) :
    s.rank p = s.unread.length + 3 ∧ s.helpful p = .append :=
  ⟨if_pos h, if_pos h⟩

theorem rank_of_complete (h : p + 20 ≤ s.received.length) :
    s.rank p = s.broadcast.rank ∧ s.helpful p = s.broadcast.next :=
  ⟨if_neg (not_lt.mpr h), if_neg (not_lt.mpr h)⟩

end ReaderState

variable {o : ByteOrder} {s s' : ReaderState} {l : ReaderLabel} {bytes : List UInt8} {p : ℕ}

/-- The first header of the stream is that of what has been received, once it has been. -/
theorem ReaderRun.firstAt_received (h : ReaderRun o bytes s) (hfirst : FirstAt header bytes p)
    (hcomplete : p + 20 ≤ s.received.length) : FirstAt header s.received p := by
  rw [h.stream] at hfirst
  exact hfirst.of_append (by rw [length_header]; omega)

/-- When the frame has been received, every parse returns a packet. -/
theorem ReaderRun.exists_parse (h : ReaderRun o bytes s) (hlen : bytes.length < 2 ^ 31)
    (hfirst : FirstAt header bytes p) (hcomplete : p + 20 ≤ s.received.length) :
    ∃ packet buffer, ImuReader.parse o false s.dataBuffer = .ok (some packet, buffer) := by
  have hreceived := congrArg List.length h.stream
  rw [List.length_append] at hreceived
  have hp := h.firstAt_received hfirst hcomplete
  cases h.progress with
  | searching hsearching =>
    rw [hsearching.dataBuffer, ImuReader.parse_eq (by omega),
      visibleHeader?_eq_some_iff.mpr ⟨hp, by omega⟩]
    simp only [if_pos (show p % 256 + 20 ≤ s.received.length by omega)]
    exact ⟨_, _, rfl⟩
  | found q hq hvisible hbuffer =>
    obtain rfl := hp.eq hq
    have hfits : (p - p % 256) % 256 + 20 ≤ (s.received.drop (p % 256)).length := by
      rw [List.length_drop]
      omega
    rw [hbuffer, ImuReader.parse_eq (by rw [List.length_drop]; omega),
      visibleHeader?_drop hp hvisible]
    simp only [if_pos hfits]
    exact ⟨_, _, rfl⟩

/-- A packet that has been parsed is what the reader repeats. -/
theorem ReaderRun.parsed_eq (h : ReaderRun o bytes s) (hfirst : FirstAt header bytes p)
    {packet : ParsedPacket} {origin : ℕ} (hparsed : s.broadcast = .parsed (some packet) origin) :
    some (packet.image o) = repeatedDatagram bytes p := by
  cases h.progress with
  | searching hsearching => exact absurd (hsearching.parsed _ _ hparsed) nofun
  | found q hq _ _ _ hrepeats =>
    obtain rfl : q = p := FirstAt.eq (h.stream ▸ hq.append header_ne_nil s.unread) hfirst
    exact (hrepeats _ _ hparsed).resolve_left nofun

/-- An append brings the reader closer as long as bytes of the frame are missing, and leaves the
rank as it is when none are. -/
theorem ReaderState.rank_append {chunk rest : List UInt8} (pos : 0 < chunk.length)
    (next : s.unread = chunk ++ rest)
    (hs' : s' = { s with unread := rest, received := s.received ++ chunk,
                         dataBuffer := s.dataBuffer ++ chunk }) :
    s'.rank p < s.rank p ∨
      s'.rank p = s.rank p ∧ s'.helpful p = s.helpful p ∧ .append ≠ s.helpful p := by
  have hreceived : s'.received.length = s.received.length + chunk.length := by
    rw [hs', List.length_append]
  have hunread : s.unread.length = chunk.length + s'.unread.length := by
    rw [hs', next, List.length_append]
  have hphase : s'.broadcast = s.broadcast := by rw [hs']
  rcases lt_or_ge s.received.length (p + 20) with hshort | hcomplete
  · left
    rw [(ReaderState.rank_of_short hshort).1]
    rcases lt_or_ge s'.received.length (p + 20) with hshort' | hcomplete'
    · rw [(ReaderState.rank_of_short hshort').1]
      omega
    · rw [(ReaderState.rank_of_complete hcomplete').1]
      exact s'.broadcast.rank_le_two.trans_lt (by omega)
  · right
    obtain ⟨hrank, hhelpful⟩ := ReaderState.rank_of_complete hcomplete
    obtain ⟨hrank', hhelpful'⟩ :=
      ReaderState.rank_of_complete (s := s') (p := p) (by omega)
    rw [hrank, hrank', hhelpful, hhelpful', hphase]
    exact ⟨rfl, rfl, s.broadcast.next_ne_append.symm⟩

/-- A step of the thread `broadcast` that leads to a phase closer to sending the frame, if this has
been received. -/
theorem ReaderState.rank_broadcast (hreceived : s'.received = s.received)
    (hunread : s'.unread = s.unread) (hl : l ≠ .append)
    (hphase : p + 20 ≤ s.received.length → s'.broadcast.rank < s.broadcast.rank) :
    s'.rank p < s.rank p ∨
      s'.rank p = s.rank p ∧ s'.helpful p = s.helpful p ∧ l ≠ s.helpful p := by
  rcases lt_or_ge s.received.length (p + 20) with hshort | hcomplete
  · right
    obtain ⟨hrank, hhelpful⟩ := ReaderState.rank_of_short hshort
    obtain ⟨hrank', hhelpful'⟩ := ReaderState.rank_of_short (hreceived ▸ hshort)
    rw [hrank, hrank', hhelpful, hhelpful', hunread]
    exact ⟨rfl, rfl, hl⟩
  · left
    rw [(ReaderState.rank_of_complete hcomplete).1,
      (ReaderState.rank_of_complete (hreceived ▸ hcomplete)).1]
    exact hphase hcomplete

/-- **The step lemma.** A step sends the datagram, or brings the reader closer to it, or is not the
step that would. -/
theorem ReaderRun.rank_step (h : ReaderRun o bytes s) (hlen : bytes.length < 2 ^ 31)
    (hfirst : FirstAt header bytes p) (hstep : ReaderStep o false s l s') :
    s'.sent.count (repeatedDatagram bytes p) = s.sent.count (repeatedDatagram bytes p) + 1 ∨
      s'.sent.count (repeatedDatagram bytes p) = s.sent.count (repeatedDatagram bytes p) ∧
        (s'.rank p < s.rank p ∨
          s'.rank p = s.rank p ∧ s'.helpful p = s.helpful p ∧ l ≠ s.helpful p) := by
  cases hstep with
  | append pos _ next => exact Or.inr ⟨rfl, ReaderState.rank_append pos next rfl⟩
  | parse looping =>
    refine Or.inr ⟨?_, ?_⟩
    · cases ImuReader.parse o false s.dataBuffer <;> rfl
    · refine ReaderState.rank_broadcast ?_ ?_ nofun fun hcomplete => ?_
      · cases ImuReader.parse o false s.dataBuffer <;> rfl
      · cases ImuReader.parse o false s.dataBuffer <;> rfl
      · obtain ⟨packet, buffer, hparse⟩ := h.exists_parse hlen hfirst hcomplete
        rw [hparse, looping]
        exact Nat.one_pos
  | @send packet _ parsed =>
    rw [List.count_append]
    cases packet with
    | some packet =>
      left
      rw [Option.map_some, h.parsed_eq hfirst parsed, List.count_singleton_self]
    | none =>
      refine Or.inr ⟨rfl, ReaderState.rank_broadcast rfl rfl nofun fun _ => ?_⟩
      rw [parsed]
      exact Nat.one_lt_two

/-- A step that brings the reader closer to sending the frame can be made. -/
theorem ReaderRun.enabled (h : ReaderRun o bytes s) (hcomplete : p + 20 ≤ bytes.length) :
    Enabled (ReaderStep o false) {s.helpful p} s := by
  rcases lt_or_ge s.received.length (p + 20) with hshort | hreceived
  · rw [(ReaderState.rank_of_short hshort).2]
    have hlen := congrArg List.length h.stream
    rw [List.length_append] at hlen
    obtain ⟨b, rest, hunread⟩ := List.exists_cons_of_length_pos (show 0 < s.unread.length by omega)
    exact ⟨.append, rfl, _, .append (show 0 < [b].length from Nat.one_pos) Nat.one_le_ofNat hunread⟩
  · rw [(ReaderState.rank_of_complete hreceived).2]
    cases hphase : s.broadcast with
    | looping => exact ⟨.parse, rfl, _, .parse hphase⟩
    | parsed packet origin => exact ⟨.send, rfl, _, .send hphase⟩
    | faulted fault => exact absurd hphase (h.not_faulted fault)

/-! ### Progress -/

/-- The datagram is sent once more. -/
theorem reader_progress (hlen : bytes.length < 2 ^ 31) (hfirst : FirstAt header bytes p)
    (hcomplete : p + 20 ≤ bytes.length) (n : ℕ) :
    Progress (ReaderStep o false)
      (fun s => ReaderRun o bytes s ∧ s.sent.count (repeatedDatagram bytes p) = n)
      (fun s => s.sent.count (repeatedDatagram bytes p) = n + 1)
      (ReaderState.rank p) (ReaderState.helpful p) (fun l => {l}) where
  enabled _ hs := hs.1.enabled hcomplete
  next s l s' hs hstep := by
    obtain ⟨hrun, rfl⟩ := hs
    exact (hrun.rank_step hlen hfirst hstep).imp_right fun ⟨hcount, hrank⟩ =>
      ⟨⟨hrun.step hlen hstep, hcount⟩, hrank⟩

/-- **The reader never stops repeating itself.** Where `char` is unsigned, for every stream of less
than `2 ^ 31` bytes whose first header, at `p`, has 16 bytes behind it, in every execution that does
not put off for ever to append bytes that are there, to parse and to send: the same datagram is sent
any number of times. -/
theorem reader_keepsRepeating (o : ByteOrder) (bytes : List UInt8) (p n : ℕ)
    (hlen : bytes.length < 2 ^ 31) (hfirst : FirstAt header bytes p)
    (hcomplete : p + 20 ≤ bytes.length) (E : Execution (ReaderStep o false) (.initial bytes))
    (hfair : ∀ l : ReaderLabel, E.WeaklyFair {l}) :
    ∃ t, (E.state t).sent.count (some ((bytes.drop (p % 256 + 4)).take 16)) = n := by
  induction n with
  | zero => exact ⟨0, by rw [E.start]; rfl⟩
  | succ n ih =>
    obtain ⟨t, ht⟩ := ih
    have hrun := E.invariant readerRun_initial (fun _ _ _ hs hstep => hs.step hlen hstep) t
    obtain ⟨t', -, ht'⟩ := (reader_progress hlen hfirst hcomplete n).leadsTo E hfair t ⟨hrun, ht⟩
    exact ⟨t', ht'⟩

/-- The first of two frames is sent a thousand times, in an execution in which the steps take
turns. -/
theorem reader_keepsRepeating_twoFrames :
    ∃ E : Execution (ReaderStep .little false) (.initial twoFrames.bytes),
      (∀ l : ReaderLabel, E.WeaklyFair {l}) ∧
      ∃ t, (E.state t).sent.count (some (⟨1, 2, 3, 4⟩ : Packet).payload) = 1000 := by
  obtain ⟨E, hfair⟩ := exists_weaklyFair (ReaderStep .little false) (.initial twoFrames.bytes)
    fun l : ReaderLabel => {l}
  exact ⟨E, hfair, reader_keepsRepeating .little twoFrames.bytes 2 1000 (by decide)
    ⟨by decide, by decide⟩ (by decide) E hfair⟩

end IMUParser

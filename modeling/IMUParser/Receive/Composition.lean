import IMUParser.Receive.ProcessFrames

/-!
# How runs of the parser process compose

Facts about `processIMU_Frames` and the loop of `main` for all buffers, of whatever size.

The index that `processIMU_Frames` keeps from one iteration to the next is overwritten by
`findHeader` or not looked at, so a call does the same from whatever index (`whileLoop_cases`).
Hence a run can be cut at any read and resumed from the buffer alone, with the calls that are left
(`mainLoop_append`). Reads that bring nothing or fail leave no trace (`mainLoop_filter_isData`). And
the broadcasts do not depend on the byte order of the host (`mainLoop_host`): the flag that `main`
sets makes up for it.

## Main definitions

* `parsedFrom`: what `parsePacket` makes of the result of `findHeader`.
* `ReadResult.isData`.

## Main results

* `mainLoop_append`, `mainLoop_filter_isData`, `mainLoop_host`.
-/

namespace IMUParser

variable {o : ByteOrder} {le : Bool} {buffer : List UInt8} {reads : List ReadResult}

/-! ### The position and the index on entry -/

/-- The scan reports a fault or a header, from whatever position, or it leaves the position. -/
theorem findHeaderLoop_cases (promote : UInt8 → ℤ) (buffer : List UInt8) (k i : ℕ) :
    (∃ fault, ∀ position, findHeaderLoop promote buffer position k i = .error fault) ∨
      (∃ found, ∀ position, findHeaderLoop promote buffer position k i = .ok (true, found)) ∨
      ∀ position, findHeaderLoop promote buffer position k i = .ok (false, position) := by
  induction k generalizing i with
  | zero => exact Or.inr (Or.inr fun _ => rfl)
  | succ k ih =>
    cases h : matchesAt promote buffer headerBytes i with
    | error fault => exact Or.inl ⟨fault, fun _ => by rw [findHeaderLoop, h]; rfl⟩
    | ok matched =>
      cases matched with
      | true => exact Or.inr (Or.inl ⟨UInt8.ofNat i, fun _ => by rw [findHeaderLoop, h]; rfl⟩)
      | false =>
        have hnext : ∀ position, findHeaderLoop promote buffer position (k + 1) i =
            findHeaderLoop promote buffer position k (i + 1) := fun _ => by
          rw [findHeaderLoop, h]
          rfl
        simpa only [hnext] using ih (i + 1)

theorem findHeader_cases (buffer : List UInt8) :
    (∃ fault, ∀ position, findHeader buffer position = .error fault) ∨
      (∃ found, ∀ position, findHeader buffer position = .ok (true, found)) ∨
      ∀ position, findHeader buffer position = .ok (false, position) := by
  unfold findHeader
  by_cases hshort : buffer.length < headerSize
  · simp only [if_pos hshort]
    exact Or.inr (Or.inr fun _ => rfl)
  · simp only [if_neg hshort]
    cases subInt (staticCastInt buffer.length) headerSize with
    | error fault => exact Or.inl ⟨fault, fun _ => rfl⟩
    | ok bound => exact findHeaderLoop_cases promoteUnsigned buffer bound.toNat 0

/-- What `parsePacket` makes of the result of `findHeader`. -/
def parsedFrom (o : ByteOrder) (le : Bool) (buffer : List UInt8) (r : Bool × UInt8) : ParseResult :=
  if r.1 = true ∧ r.2.toNat + 20 ≤ buffer.length then
    ⟨readPacket o le buffer r.2.toNat, true, [], 0⟩
  else ⟨.zero, false, buffer, r.2⟩

theorem parsePacket_eq_map (o : ByteOrder) (le : Bool) (buffer : List UInt8) (position : UInt8) :
    parsePacket o le buffer position =
      (findHeader buffer position).map (parsedFrom o le buffer) := by
  unfold parsePacket
  cases findHeader buffer position with
  | error fault => rfl
  | ok r =>
    obtain ⟨found, stored⟩ := r
    cases found with
    | false => rfl
    | true =>
      simp only [ok_bind, if_true, sizeT_position, Except.map, parsedFrom, true_and]
      by_cases hlen : stored.toNat + 20 ≤ buffer.length
      · rw [if_pos hlen, if_pos hlen, copyFields_eq hlen]
        rfl
      · rw [if_neg hlen, if_neg hlen]
        rfl

/-- An iteration ends in the same way from whatever index. -/
theorem loopBody_cases (o : ByteOrder) (le : Bool) (buffer : List UInt8) (r : ReadResult) :
    (∃ fault, ∀ index, loopBody o le buffer index r = .error fault) ∨
      (∃ packet l, ∀ index, loopBody o le buffer index r = .ok (.sent packet l)) ∨
      ∃ l, ∀ index, ∃ index', loopBody o le buffer index r = .ok (.next l index') := by
  cases r with
  | empty => exact Or.inr (Or.inr ⟨buffer, fun index => ⟨index, rfl⟩⟩)
  | fail => exact Or.inr (Or.inr ⟨buffer, fun index => ⟨index, rfl⟩⟩)
  | data bytes pos h128 =>
    simp only [loopBody, parsePacket_eq_map]
    rcases findHeader_cases (buffer ++ bytes) with ⟨fault, h⟩ | ⟨found, h⟩ | h
    · exact Or.inl ⟨fault, fun index => by rw [h]; rfl⟩
    · simp only [h, Except.map, ok_bind, parsedFrom, true_and]
      by_cases hlen : found.toNat + 20 ≤ (buffer ++ bytes).length
      · simp only [if_pos hlen]
        exact Or.inr (Or.inl ⟨_, _, fun _ => rfl⟩)
      · simp only [if_neg hlen]
        exact Or.inr (Or.inr ⟨_, fun _ => ⟨_, rfl⟩⟩)
    · exact Or.inr (Or.inr ⟨buffer ++ bytes, fun index => ⟨index, by rw [h]; rfl⟩⟩)

/-- A call ends in the same way from whatever index. -/
theorem whileLoop_cases (o : ByteOrder) (le : Bool) (buffer : List UInt8)
    (reads : List ReadResult) :
    (∃ fault, ∀ index, whileLoop o le buffer index reads = .error fault) ∨
      (∃ packet l unread, ∀ index,
        whileLoop o le buffer index reads = .ok (.broadcast packet l unread)) ∨
      ∃ l, ∀ index, ∃ index', whileLoop o le buffer index reads = .ok (.waiting l index') := by
  induction reads generalizing buffer with
  | nil => exact Or.inr (Or.inr ⟨buffer, fun index => ⟨index, rfl⟩⟩)
  | cons r reads ih =>
    rcases loopBody_cases o le buffer r with ⟨fault, h⟩ | ⟨packet, l, h⟩ | ⟨l, h⟩
    · exact Or.inl ⟨fault, fun index => by rw [whileLoop, h]; rfl⟩
    · exact Or.inr (Or.inl ⟨packet, l, reads, fun index => by rw [whileLoop, h]; rfl⟩)
    · -- the rest of the loop is entered with the buffer `l`, from some index
      choose next hnext using h
      have hloop : ∀ index, whileLoop o le buffer index (r :: reads) =
          whileLoop o le l (next index) reads := fun index => by
        rw [whileLoop, hnext]
        rfl
      simp only [hloop]
      rcases ih l with ⟨fault, h⟩ | ⟨packet, l', unread, h⟩ | ⟨l', h⟩
      · exact Or.inl ⟨fault, fun index => h _⟩
      · exact Or.inr (Or.inl ⟨packet, l', unread, fun index => h _⟩)
      · exact Or.inr (Or.inr ⟨l', fun index => h _⟩)

/-! ### Cutting a run -/

/-- A call on further reads: it has returned, or it goes on from where it waits. -/
theorem whileLoop_append (o : ByteOrder) (le : Bool) (buffer : List UInt8) (index : UInt8)
    (reads reads' : List ReadResult) :
    whileLoop o le buffer index (reads ++ reads') =
      whileLoop o le buffer index reads >>= fun
        | .waiting l index' => whileLoop o le l index' reads'
        | .broadcast packet l unread => .ok (.broadcast packet l (unread ++ reads')) := by
  induction reads generalizing buffer index with
  | nil => rfl
  | cons r reads ih =>
    rw [List.cons_append, whileLoop, whileLoop]
    cases loopBody o le buffer index r with
    | error fault => rfl
    | ok iteration =>
      cases iteration with
      | next l index' => exact ih l index'
      | sent packet l => rfl

/-- The broadcasts of the first part of a run, in front of those of the rest. -/
def MainState.behind (packets : List ParsedPacket) (m : MainState) : MainState :=
  { m with broadcasts := packets ++ m.broadcasts }

/-- What `main`'s loop does behind a call, with `n` calls left. -/
def afterCall (o : ByteOrder) (n : ℕ) : CallOutcome → Except Fault MainState
  | .waiting l _ => .ok ⟨l, [], []⟩
  | .broadcast packet l unread => (mainLoop o n l unread).map (MainState.behind [packet])

/-- A call of `main`'s loop may be entered with any index. -/
theorem mainLoop_succ (o : ByteOrder) (n : ℕ) (buffer : List UInt8) (index : UInt8)
    (reads : List ReadResult) :
    mainLoop o (n + 1) buffer reads =
      whileLoop o (littleEndian o) buffer index reads >>= afterCall o n := by
  rw [mainLoop, processIMUFrames]
  rcases whileLoop_cases o (littleEndian o) buffer reads with
    ⟨fault, h⟩ | ⟨packet, l, unread, h⟩ | ⟨l, h⟩
  · rw [h, h]
    rfl
  · rw [h, h]
    simp only [ok_bind, afterCall]
    cases mainLoop o n l unread <;> rfl
  · obtain ⟨_, hzero⟩ := h 0
    obtain ⟨_, hindex⟩ := h index
    rw [hzero, hindex]
    rfl

theorem map_behind_map_behind (x : Except Fault MainState) (packets packets' : List ParsedPacket) :
    (x.map (MainState.behind packets)).map (MainState.behind packets') =
      x.map (MainState.behind (packets' ++ packets)) := by
  cases x with
  | error => rfl
  | ok m => simp only [Except.map, MainState.behind, List.append_assoc]

/-- **A run can be cut at any read.** It is resumed from the buffer, with the reads that the first
part has left and the calls that have not returned; the index of a call under way is of no
account. -/
theorem mainLoop_append (o : ByteOrder) (n n' : ℕ) (buffer : List UInt8)
    (reads reads' : List ReadResult) :
    mainLoop o (n + n') buffer (reads ++ reads') = mainLoop o n buffer reads >>= fun m =>
      (mainLoop o (n + n' - m.broadcasts.length) m.inputBuffer (m.unread ++ reads')).map
        (MainState.behind m.broadcasts) := by
  induction n generalizing buffer reads with
  | zero =>
    change mainLoop o (0 + n') buffer (reads ++ reads') =
      (mainLoop o (0 + n') buffer (reads ++ reads')).map (MainState.behind [])
    cases mainLoop o (0 + n') buffer (reads ++ reads') <;> rfl
  | succ n ih =>
    rw [Nat.add_right_comm, mainLoop_succ o (n + n') buffer 0, mainLoop_succ o n buffer 0,
      whileLoop_append]
    cases whileLoop o (littleEndian o) buffer 0 reads with
    | error fault => rfl
    | ok outcome =>
      simp only [ok_bind]
      cases outcome with
      | waiting l index =>
        -- the call under way is entered again from the index 0
        change _ = (mainLoop o (n + n' + 1) l ([] ++ reads')).map (MainState.behind [])
        rw [List.nil_append, mainLoop_succ o (n + n') l index]
        cases whileLoop o (littleEndian o) l index reads' >>= afterCall o (n + n') <;> rfl
      | broadcast packet l unread =>
        change (mainLoop o (n + n') l (unread ++ reads')).map (MainState.behind [packet]) = _
        rw [ih, afterCall]
        cases mainLoop o n l unread with
        | error fault => rfl
        | ok m =>
          change ((mainLoop o (n + n' - m.broadcasts.length) m.inputBuffer
            (m.unread ++ reads')).map _).map _ = (mainLoop o (n + n' + 1 -
              (m.broadcasts.length + 1)) m.inputBuffer (m.unread ++ reads')).map _
          rw [map_behind_map_behind, Nat.add_sub_add_right]
          rfl

/-! ### Reads that bring nothing -/

/-- The read brings bytes. -/
def ReadResult.isData : ReadResult → Bool
  | .data _ _ _ => true
  | .empty => false
  | .fail _ => false

/-- The reads left that bring bytes. -/
def CallOutcome.dataLeft : CallOutcome → CallOutcome
  | .waiting l index => .waiting l index
  | .broadcast packet l unread => .broadcast packet l (unread.filter ReadResult.isData)

theorem whileLoop_filter_isData (o : ByteOrder) (le : Bool) (buffer : List UInt8) (index : UInt8)
    (reads : List ReadResult) :
    whileLoop o le buffer index (reads.filter ReadResult.isData) =
      (whileLoop o le buffer index reads).map CallOutcome.dataLeft := by
  induction reads generalizing buffer index with
  | nil => rfl
  | cons r reads ih =>
    cases r with
    | empty => exact ih buffer index
    | fail => exact ih buffer index
    | data bytes pos h128 =>
      rw [List.filter_cons_of_pos rfl, whileLoop, whileLoop]
      cases loopBody o le buffer index (.data bytes pos h128) with
      | error fault => rfl
      | ok iteration =>
        cases iteration with
        | next l index' => exact ih l index'
        | sent packet l => rfl

/-- **Empty and failing reads leave no trace**, in however many calls and in whatever buffer. -/
theorem mainLoop_filter_isData (o : ByteOrder) (n : ℕ) (buffer : List UInt8)
    (reads : List ReadResult) :
    mainLoop o n buffer (reads.filter ReadResult.isData) =
      (mainLoop o n buffer reads).map fun m =>
        { m with unread := m.unread.filter ReadResult.isData } := by
  induction n generalizing buffer reads with
  | zero => rfl
  | succ n ih =>
    rw [mainLoop_succ o n buffer 0, mainLoop_succ o n buffer 0, whileLoop_filter_isData]
    cases whileLoop o (littleEndian o) buffer 0 reads with
    | error fault => rfl
    | ok outcome =>
      cases outcome with
      | waiting l index => rfl
      | broadcast packet l unread =>
        change (mainLoop o n l (unread.filter ReadResult.isData)).map _ =
          ((mainLoop o n l unread).map _).map _
        rw [ih]
        cases mainLoop o n l unread <;> rfl

/-! ### The byte order of the host -/

/-- With the flag of the host, `parsePacket` gives the same packet on all hosts. -/
theorem parsePacket_host (o o' : ByteOrder) (buffer : List UInt8) (position : UInt8) :
    parsePacket o (littleEndian o) buffer position =
      parsePacket o' (littleEndian o') buffer position := by
  have hparsed : parsedFrom o (littleEndian o) buffer = parsedFrom o' (littleEndian o') buffer := by
    funext r
    simp only [parsedFrom]
    split_ifs with hlen
    · rw [readPacket_littleEndian hlen.2, readPacket_littleEndian hlen.2]
    · rfl
  rw [parsePacket_eq_map, parsePacket_eq_map, hparsed]

theorem whileLoop_host (o o' : ByteOrder) (buffer : List UInt8) (index : UInt8)
    (reads : List ReadResult) :
    whileLoop o (littleEndian o) buffer index reads =
      whileLoop o' (littleEndian o') buffer index reads := by
  induction reads generalizing buffer index with
  | nil => rfl
  | cons r reads ih =>
    have hbody : loopBody o (littleEndian o) buffer index r =
        loopBody o' (littleEndian o') buffer index r := by
      cases r with
      | data bytes => rw [loopBody, loopBody, parsePacket_host o o']
      | empty => rfl
      | fail => rfl
    rw [whileLoop, whileLoop, hbody]
    cases loopBody o' (littleEndian o') buffer index r with
    | error fault => rfl
    | ok iteration =>
      cases iteration with
      | next l index' => exact ih l index'
      | sent packet l => rfl

/-- **The broadcasts do not depend on the host.** On hosts of either byte order the loop of `main`
broadcasts the same packets and is left in the same state, from every buffer and for all reads. -/
theorem mainLoop_host (o o' : ByteOrder) (n : ℕ) (buffer : List UInt8)
    (reads : List ReadResult) :
    mainLoop o n buffer reads = mainLoop o' n buffer reads := by
  induction n generalizing buffer reads with
  | zero => rfl
  | succ n ih =>
    have hafter : afterCall o n = afterCall o' n := by
      funext outcome
      cases outcome with
      | waiting l index => rfl
      | broadcast packet l unread => rw [afterCall, afterCall, ih]
    rw [mainLoop_succ o n buffer 0, mainLoop_succ o' n buffer 0, whileLoop_host o o', hafter]

end IMUParser
